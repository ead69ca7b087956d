import UnixProgramming.Dbg.Nesting

/-!
# Long jumps

The jump entries of a thread against its frames, and where `dlongjmp` lands.

* `step_lands`: which calls keep the entries on the stack and land right;
* `jumps`: so the runs that do;
* `offFrame_breaks`, `stale_breaks`: a jump over a frame that is off, and one
  over a frame with an entry.
-/

namespace UnixProgramming.Dbg

open Runs
open Ssl (Byte)

/-! ## The frames that were current -/

/-- With the frame that was current at the last `dsetjmp` of each environment. -/
structure Marked where
  s : State
  marks : Nat → Option Nat

def Marked.mark (m : Marked) : Act → Nat → Option Nat
  | .dsetjmp jb => fun e => if e = jb then m.s.thrd.stack.head?.map DBG.addr else m.marks e
  | _ => m.marks

def markedStep (env : Env) (m : Marked) (a : Act) : Option Marked :=
  (step env m.s a).map fun s => ⟨s, m.mark a⟩

def DBG.isOn (dbg : DBG) : Bool := dbg.status = .on

def State.onFrames (s : State) : Nat := s.thrd.stack.countP DBG.isOn

/-- Every entry refers to a frame that is on the stack. -/
def OnStack (s : State) : Prop := ∀ jb ∈ s.thrd.jmps, ∃ dbg ∈ s.thrd.stack, jb.dbg = some dbg.addr

instance (s : State) : Decidable (OnStack s) :=
  inferInstanceAs (Decidable (∀ jb ∈ s.thrd.jmps, ∃ dbg ∈ s.thrd.stack, jb.dbg = some dbg.addr))

/-- A jump leaves the frames up to the one that was current at the last
`dsetjmp`, and the level that these frames have. -/
def Lands (m : Marked) (a : Act) (m' : Marked) : Prop :=
  match a with
  | .dlongjmp jb _ => m.s.thrd.stack ≠ [] →
    ∃ dbg below, m'.s.thrd.stack = dbg :: below ∧ dbg :: below <:+ m.s.thrd.stack ∧
      m.marks jb = some dbg.addr ∧ m'.s.thrd.dbglvl = m'.s.onFrames
  | _ => True

/-- `dsetjmp` is called within a function; a jump pops only frames that are on
and that no entry refers to, and no frame that is on has already returned. -/
def Clean (m : Marked) : Act → Prop
  | .dsetjmp _ => m.s.thrd.stack ≠ []
  | .dlongjmp jb _ =>
    (∀ dbg ∈ popped (m.marks jb) m.s.thrd.stack,
      dbg.isOn ∧ ∀ entry ∈ m.s.thrd.jmps, entry.dbg ≠ some dbg.addr) ∧
    ∀ dbg ∈ m.s.thrd.stack, dbg.isOn → ¬ left m.s.g.log dbg.addr
  | _ => True

def Act.jumps : Act → Prop
  | .edbg _ => True
  | .rdbg _ => True
  | .dsetjmp _ => True
  | .dlongjmp _ _ => True
  | _ => False

/-! ## Entries in the order of their frames -/

def Ordered (jmps : List DBGJMPBUF) : Prop :=
  jmps.Pairwise fun jb jb' => ∀ a ∈ jb.dbg, ∀ a' ∈ jb'.dbg, a ≤ a'

/-- The entries that `rdbg` pops are all those of the frame that returns. -/
theorem popJmps_ne {jmps : List DBGJMPBUF} {addr : Nat} (ordered : Ordered jmps)
    (known : ∀ jb ∈ jmps, ∃ a, jb.dbg = some a ∧ a ≤ addr) :
    ∀ jb ∈ popJmps addr jmps, jb.dbg ≠ some addr := by
  induction jmps using List.reverseRecOn with
  | nil => simp [popJmps]
  | append_singleton jmps last ih =>
    unfold Ordered at ordered
    rw [List.pairwise_append] at ordered
    obtain ⟨earlier, -, before⟩ := ordered
    by_cases refers : last.dbg = some addr
    · rw [popJmps, List.rdropWhile_concat_pos _ _ _ (by simpa using refers)]
      exact ih earlier fun jb hj => known jb (by simp [hj])
    · rw [popJmps, List.rdropWhile_concat_neg _ _ _ (by simpa using refers)]
      intro jb hj same
      rcases List.mem_append.1 hj with hj | hj
      · obtain ⟨a, ha, le⟩ := known last (by simp)
        have := before jb hj last (by simp) addr same a ha
        exact refers (by rw [ha]; congr 1; omega)
      · rw [List.mem_singleton.1 hj] at same
        exact refers same

theorem popJmps_sublist (addr : Nat) (jmps : List DBGJMPBUF) :
    (popJmps addr jmps).Sublist jmps := (List.rdropWhile_prefix _ _).sublist

/-! ## Invariant -/

/-- On, and not returned. -/
def DBG.isLive (log : List Out) (dbg : DBG) : Bool := dbg.isOn && !left log dbg.addr

structure Kept (marks : Nat → Option Nat) (s : State) : Prop where
  apart : Apart s
  order : (s.thrd.stack.map DBG.addr).Pairwise (· > ·)
  dbglvl : s.thrd.dbglvl = s.thrd.stack.countP (·.isLive s.g.log)
  active : ∀ dbg ∈ s.thrd.stack.dropLast, left s.g.log dbg.addr = false
  dbgswbuf : ∀ dbg ∈ s.thrd.stack, dbg.dbgswbuf.isSome ↔ dbg.status = .on ∨ dbg.status = .ondis
  onStack : OnStack s
  ordered : Ordered s.thrd.jmps
  envs : (s.thrd.jmps.map DBGJMPBUF.env).Nodup
  marks : ∀ jb ∈ s.thrd.jmps, marks jb.env = jb.dbg

/-- A frame that has its entry line returns with a line exactly if it is on. -/
theorem returns_iff {dbg : DBG}
    (h : dbg.dbgswbuf.isSome ↔ dbg.status = .on ∨ dbg.status = .ondis) :
    dbg.returns = dbg.isOn := by
  rw [DBG.returns, DBG.isOn]
  cases status : dbg.status <;> simp_all

/-- Frames for which no return line is printed. -/
theorem Prints.not_left {lines : List Line} {log log' : List Out} {addr : Nat}
    (h : Prints lines log log') (apart : .leave addr ∉ lines) :
    Dbg.left log' addr = Dbg.left log addr := by
  have silent : lines.any (· = .leave addr) = false := by
    rw [List.any_eq_false]
    rintro line hl same
    exact apart (of_decide_eq_true same ▸ hl)
  rw [h.left, silent, Bool.or_false]

theorem Prints.countP_live {lines : List Line} {log log' : List Out} {stack : List DBG}
    (h : Prints lines log log') (apart : ∀ dbg ∈ stack, .leave dbg.addr ∉ lines) :
    stack.countP (·.isLive log') = stack.countP (·.isLive log) := by
  refine List.countP_congr fun dbg hd => ?_
  rw [DBG.isLive, DBG.isLive, h.not_left (apart dbg hd)]

section
variable {env : Env} {marks : Nat → Option Nat} {s s' : State} {dbgtl : DBG} {below : List DBG}

theorem Enters.kept {funcname : List Byte} {top : DBG} (h : Enters env funcname top s s')
    (kept : Kept marks s) : Kept marks s' := by
  have others (addr : Nat) :
      Line.leave addr ∉ if top.status = .on then [Line.entry top.addr] else [] := by
    split <;> simp
  have fresh : left s'.g.log top.addr = false := by
    rw [h.prints.not_left (others _), h.addr, Bool.eq_false_iff]
    exact fun printed => Nat.lt_irrefl _ (kept.apart.log _ (.inr printed))
  refine ⟨h.apart kept.apart, ?_, ?_, ?_, ?_, ?_, ?_, ?_, ?_⟩
  · rw [h.stack, List.map_cons, List.pairwise_cons, h.addr]
    exact ⟨kept.apart.stack, kept.order⟩
  · rw [h.stack, h.dbglvl, kept.dbglvl, List.countP_cons, DBG.isLive, fresh,
      h.prints.countP_live fun dbg _ => others dbg.addr, DBG.isOn]
    split <;> simp_all
  · rw [h.stack]
    intro dbg hd
    cases stack : s.thrd.stack with
    | nil => simp [stack] at hd
    | cons prv below =>
      rw [stack, List.dropLast_cons_of_ne_nil (by simp), ← stack] at hd
      rcases List.mem_cons.1 hd with rfl | hd
      · exact fresh
      · rw [h.prints.not_left (others _)]
        exact kept.active dbg hd
  · rw [h.stack]
    intro dbg hd
    rcases List.mem_cons.1 hd with rfl | hd
    · exact h.dbgswbuf
    · exact kept.dbgswbuf dbg hd
  · intro jb hj
    rw [h.jmps] at hj
    obtain ⟨dbg, hd, same⟩ := kept.onStack jb hj
    exact ⟨dbg, by rw [h.stack]; exact List.mem_cons_of_mem _ hd, same⟩
  · rw [h.jmps]
    exact kept.ordered
  · rw [h.jmps]
    exact kept.envs
  · rw [h.jmps]
    exact kept.marks

/-- The entries refer to frames at or below the top one. -/
theorem Kept.known (h : Kept marks s) (stack : s.thrd.stack = dbgtl :: below) :
    ∀ jb ∈ s.thrd.jmps, ∃ a, jb.dbg = some a ∧ a ≤ dbgtl.addr := by
  intro jb hj
  obtain ⟨dbg, hd, same⟩ := h.onStack jb hj
  refine ⟨dbg.addr, same, ?_⟩
  have order := h.order
  rw [stack, List.map_cons, List.pairwise_cons] at order
  rw [stack] at hd
  rcases List.mem_cons.1 hd with rfl | hd
  · exact Nat.le_refl _
  · exact Nat.le_of_lt (order.1 _ (List.mem_map_of_mem hd))

/-- With fewer frames and entries, and a level that fits. -/
theorem Kept.fewer (kept : Kept marks s) (apart : Apart s') {lines : List Line}
    (prints : Prints lines s.g.log s'.g.log) (stack : s'.thrd.stack <:+ s.thrd.stack)
    (lines' : ∀ dbg ∈ s'.thrd.stack.dropLast, .leave dbg.addr ∉ lines)
    (dbglvl : s'.thrd.dbglvl = s'.thrd.stack.countP (·.isLive s'.g.log))
    (jmps : s'.thrd.jmps.Sublist s.thrd.jmps) (onStack : OnStack s') : Kept marks s' where
  apart := apart
  order := kept.order.sublist (stack.sublist.map _)
  dbglvl := dbglvl
  active dbg hd := by
    rw [prints.not_left (lines' dbg hd)]
    obtain ⟨front, same⟩ := stack
    have inside : dbg ∈ s.thrd.stack.dropLast := by
      rw [← same, List.dropLast_append_of_ne_nil]
      · exact List.mem_append_right _ hd
      · rintro none'
        rw [none'] at hd
        cases hd
    exact kept.active dbg inside
  dbgswbuf dbg hd := kept.dbgswbuf dbg (stack.subset hd)
  onStack := onStack
  ordered := kept.ordered.sublist jmps
  envs := kept.envs.sublist (jmps.map _)
  marks jb hj := kept.marks jb (jmps.subset hj)

theorem Leaves.kept (h : Leaves dbgtl below s s') (kept : Kept marks s) : Kept marks s' := by
  have returns := returns_iff (kept.dbgswbuf dbgtl (by simp [h.stack]))
  have order := kept.order
  rw [h.stack, List.map_cons, List.pairwise_cons] at order
  have others : ∀ dbg ∈ below, .leave dbg.addr ∉
      (if dbgtl.returns then [Line.leave dbgtl.addr] else []) := by
    intro dbg hd
    have := order.1 _ (List.mem_map_of_mem hd)
    split
    · simp only [List.mem_singleton, Line.leave.injEq]
      omega
    · simp
  have dead : dbgtl.isLive s'.g.log = false := by
    rw [DBG.isLive, h.prints.left, ← returns]
    cases dbgtl.returns <;> simp
  have jmps : s'.thrd.jmps.Sublist s.thrd.jmps := by
    rw [h.jmps]
    split
    · exact List.Sublist.refl _
    · exact popJmps_sublist _ _
  have level := kept.dbglvl
  cases below with
  | nil =>
    have stack' : s'.thrd.stack = [dbgtl] := by rw [h.stack', if_pos rfl]
    refine kept.fewer (h.apart kept.apart) h.prints ?_ ?_ ?_ jmps ?_
    · exact (stack'.trans h.stack.symm) ▸ List.suffix_refl _
    · simp [stack']
    · rw [stack', List.countP_singleton, dead, h.dbglvl, level, h.stack, List.countP_singleton,
        DBG.isLive, ← returns]
      cases dbgtl.returns <;> cases left s.g.log dbgtl.addr <;> simp
    · intro jb hj
      rw [h.jmps, if_pos rfl] at hj
      rw [stack', ← h.stack]
      exact kept.onStack jb hj
  | cons prv below =>
    have inner : prv :: below ≠ [] := by simp
    have stack' : s'.thrd.stack = prv :: below := by rw [h.stack', if_neg inner]
    have active : left s.g.log dbgtl.addr = false :=
      kept.active dbgtl (by simp [h.stack, List.dropLast_cons_of_ne_nil])
    refine kept.fewer (h.apart kept.apart) h.prints ?_ ?_ ?_ jmps ?_
    · rw [stack', h.stack]
      exact List.suffix_cons _ _
    · rw [stack']
      exact fun dbg hd => others dbg (List.dropLast_subset _ hd)
    · rw [stack', h.prints.countP_live others, h.dbglvl, level, h.stack,
        List.countP_cons (a := dbgtl),
        DBG.isLive, ← returns, active]
      cases dbgtl.returns <;> simp
    · intro jb hj
      rw [h.jmps, if_neg inner] at hj
      obtain ⟨dbg, hd, same⟩ := kept.onStack jb ((popJmps_sublist _ _).subset hj)
      rw [stack']
      rw [h.stack] at hd
      rcases List.mem_cons.1 hd with rfl | hd
      · exact absurd same (popJmps_ne kept.ordered (kept.known h.stack) jb hj)
      · exact ⟨dbg, hd, same⟩

/-- The entry that `dsetjmp` replaces is the only one of its environment. -/
theorem erased_env {jmps : List DBGJMPBUF} {env : Nat} (envs : (jmps.map DBGJMPBUF.env).Nodup) :
    ∀ jb ∈ jmps.eraseP (fun jb => jb.env == env), jb.env ≠ env := by
  induction jmps with
  | nil => simp
  | cons jb jmps ih =>
    rw [List.map_cons, List.nodup_cons] at envs
    by_cases found : jb.env = env
    · rw [List.eraseP_cons_of_pos (by simpa using found)]
      intro jb' hj same
      exact envs.1 (List.mem_map.2 ⟨jb', hj, same.trans found.symm⟩)
    · rw [List.eraseP_cons_of_neg (by simpa using found)]
      intro jb' hj
      rcases List.mem_cons.1 hj with rfl | hj
      · exact found
      · exact ih envs.2 jb' hj

/-- `dsetjmp` within a function. -/
theorem dsetjmp_kept (jb : Nat) (kept : Kept marks s) (stack : s.thrd.stack = dbgtl :: below) :
    Kept (fun e => if e = jb then s.thrd.stack.head?.map DBG.addr else marks e) (dsetjmp jb s) := by
  have set : dsetjmp jb s = { s with thrd := { s.thrd with
      jmps := s.thrd.jmps.eraseP (fun e => e.env == jb) ++ [⟨jb, some dbgtl.addr⟩] } } := by
    simp [dsetjmp, stack]
  have sub : (s.thrd.jmps.eraseP fun e => e.env == jb).Sublist s.thrd.jmps := List.eraseP_sublist
  have others : ∀ e ∈ s.thrd.jmps.eraseP (fun e => e.env == jb), e.env ≠ jb :=
    erased_env kept.envs
  rw [set]
  refine ⟨⟨kept.apart.nodup, kept.apart.stack, kept.apart.log⟩, kept.order, kept.dbglvl,
    kept.active, kept.dbgswbuf, ?_, ?_, ?_, ?_⟩
  · intro e he
    rcases List.mem_append.1 he with he | he
    · exact kept.onStack e (sub.subset he)
    · rw [List.mem_singleton.1 he]
      exact ⟨dbgtl, by simp [stack], rfl⟩
  · refine List.pairwise_append.2 ⟨kept.ordered.sublist sub, by simp, ?_⟩
    intro e he e' he' a ha a' ha'
    rw [List.mem_singleton.1 he'] at ha'
    cases ha'
    obtain ⟨b, hb, le⟩ := kept.known stack e (sub.subset he)
    rw [hb] at ha
    cases ha
    exact le
  · rw [List.map_append, List.nodup_append]
    refine ⟨kept.envs.sublist (sub.map _), by simp, ?_⟩
    rintro a ha b hb rfl
    obtain ⟨e, he, rfl⟩ := List.mem_map.1 ha
    exact others e he (by simpa using hb)
  · intro e he
    rcases List.mem_append.1 he with he | he
    · rw [if_neg (others e he)]
      exact kept.marks e (sub.subset he)
    · rw [List.mem_singleton.1 he, if_pos rfl, stack]
      rfl

end

/-! ## Jumps -/

section
variable {marks : Nat → Option Nat} {s s' : State}

theorem popped_append_kept (target : Option Nat) (stack : List DBG) :
    popped target stack ++ kept target stack = stack := List.takeWhile_append_dropWhile

/-- The target is the top frame that a jump leaves. -/
theorem kept_head {target : Nat} {stack : List DBG} (there : ∃ dbg ∈ stack, dbg.addr = target) :
    ∃ dbg below, kept (some target) stack = dbg :: below ∧ dbg.addr = target := by
  induction stack with
  | nil => obtain ⟨dbg, hd, -⟩ := there; cases hd
  | cons dbg stack ih =>
    by_cases here : dbg.addr = target
    · exact ⟨dbg, stack, by simp [kept, here], here⟩
    · obtain ⟨dbg', hd, same⟩ := there
      rcases List.mem_cons.1 hd with rfl | hd
      · exact absurd same here
      · obtain ⟨top, below, rest, same'⟩ := ih ⟨dbg', hd, same⟩
        refine ⟨top, below, ?_, same'⟩
        rw [kept, List.dropWhile_cons_of_pos (by simpa using fun same => here same.symm)]
        exact rest

theorem countP_on (log : List Out) (stack : List DBG) : stack.countP DBG.isOn =
    stack.countP (·.isLive log) + stack.countP fun dbg => dbg.isOn && left log dbg.addr := by
  induction stack with
  | nil => rfl
  | cons dbg stack ih =>
    rw [List.countP_cons, List.countP_cons, List.countP_cons, ih, DBG.isLive]
    cases dbg.isOn <;> cases left log dbg.addr <;> simp <;> omega

/-- The level that a jump leaves against the frames that it leaves. -/
theorem Unwinds.level_iff {target : Option Nat} (h : Unwinds target s.thrd.stack s s')
    (keeps : Kept marks s) : s'.thrd.dbglvl = s'.onFrames ↔
      (∀ dbg ∈ popped target s.thrd.stack, dbg.isOn) ∧
        ∀ dbg ∈ s.thrd.stack, dbg.isOn → left s.g.log dbg.addr = false := by
  obtain ⟨front, back, parts, front', back'⟩ : ∃ front back, s.thrd.stack = front ++ back ∧
      popped target s.thrd.stack = front ∧ Dbg.kept target s.thrd.stack = back :=
    ⟨_, _, (popped_append_kept target _).symm, rfl, rfl⟩
  have all : front.countP (·.isLive s.g.log) = front.length ↔
      ∀ dbg ∈ front, dbg.isLive s.g.log := List.countP_eq_length
  have none' : (back.countP fun dbg => dbg.isOn && left s.g.log dbg.addr) = 0 ↔
      ∀ dbg ∈ back, ¬ (dbg.isOn && left s.g.log dbg.addr) := List.countP_eq_zero
  have most : front.countP (·.isLive s.g.log) ≤ front.length := List.countP_le_length
  have on := countP_on s.g.log back
  have level : s'.thrd.dbglvl = s'.onFrames ↔
      (∀ dbg ∈ front, dbg.isLive s.g.log) ∧
        ∀ dbg ∈ back, ¬ (dbg.isOn && left s.g.log dbg.addr) := by
    rw [← all, ← none', h.dbglvl, keeps.dbglvl, State.onFrames, h.stack', front', back', parts,
      List.countP_append]
    omega
  rw [level, front', parts]
  simp only [DBG.isLive, Bool.and_eq_true, Bool.not_eq_true', List.mem_append, not_and,
    Bool.not_eq_true]
  constructor
  · rintro ⟨live, returned⟩
    refine ⟨fun dbg hd => (live dbg hd).1, ?_⟩
    rintro dbg (hd | hd) isOn
    · exact (live dbg hd).2
    · exact returned dbg hd isOn
  · rintro ⟨isOn, active⟩
    exact ⟨fun dbg hd => ⟨isOn dbg hd, active dbg (.inl hd) (isOn dbg hd)⟩,
      fun dbg hd => active dbg (.inr hd)⟩

/-- The entries after a jump against the frames that it pops. -/
theorem Unwinds.onStack_iff {target : Option Nat} (h : Unwinds target s.thrd.stack s s')
    (keeps : Kept marks s) : OnStack s' ↔
      ∀ dbg ∈ popped target s.thrd.stack, ∀ entry ∈ s.thrd.jmps, entry.dbg ≠ some dbg.addr := by
  have parts := popped_append_kept target s.thrd.stack
  have nodup := keeps.apart.nodup
  rw [← parts, List.map_append, List.nodup_append] at nodup
  unfold OnStack
  rw [h.jmps, h.stack']
  constructor
  · intro onStack dbg hd entry he same
    obtain ⟨dbg', hd', same'⟩ := onStack entry he
    rw [same] at same'
    exact nodup.2.2 dbg.addr (List.mem_map_of_mem hd) dbg'.addr (List.mem_map_of_mem hd')
      (Option.some.inj same')
  · intro apart entry he
    obtain ⟨dbg, hd, same⟩ := keeps.onStack entry he
    rw [← parts] at hd
    rcases List.mem_append.1 hd with hd | hd
    · exact absurd same (apart dbg hd entry he)
    · exact ⟨dbg, hd, same⟩

theorem Unwinds.kept {target : Option Nat} (h : Unwinds target s.thrd.stack s s')
    (keeps : Kept marks s) (onStack : OnStack s') (level : s'.thrd.dbglvl = s'.onFrames) :
    Kept marks s' := by
  have parts := popped_append_kept target s.thrd.stack
  have suffix : s'.thrd.stack <:+ s.thrd.stack := by
    rw [h.stack']
    exact List.dropWhile_suffix _
  have nodup := keeps.apart.nodup
  rw [← parts, List.map_append, List.nodup_append] at nodup
  obtain ⟨lines, prints, about⟩ := h.prints
  have others : ∀ dbg ∈ s'.thrd.stack, .leave dbg.addr ∉ lines := by
    intro dbg hd hl
    obtain ⟨dbg', hd', same⟩ := about _ hl
    rw [h.stack'] at hd
    exact nodup.2.2 dbg'.addr (List.mem_map_of_mem hd') dbg.addr (List.mem_map_of_mem hd)
      (Line.leave.inj same).symm
  have apart : Apart s' := by
    refine keeps.apart.next (suffix.sublist.map _) h.mallocs prints ?_
    rintro addr (hl | hl) <;> obtain ⟨dbg, hd, same⟩ := about _ hl
    · cases same
    · cases same
      refine keeps.apart.stack _ (List.mem_map_of_mem ?_)
      rw [← parts]
      exact List.mem_append_left _ hd
  refine keeps.fewer apart prints suffix (fun dbg hd => others dbg (List.dropLast_subset _ hd)) ?_
    (by rw [h.jmps]) onStack
  have active := ((h.level_iff keeps).1 level).2
  have returned : (s'.thrd.stack.countP fun dbg => dbg.isOn && left s.g.log dbg.addr) = 0 := by
    refine List.countP_eq_zero.2 fun dbg hd => ?_
    have := active dbg (suffix.subset hd)
    cases isOn : dbg.isOn <;> simp_all
  rw [prints.countP_live others, level, State.onFrames, countP_on s.g.log, returned, Nat.add_zero]

end

/-! ## Runs -/

/-- **Step.** The entries stay on the stack, and a jump lands right, exactly if
the call is clean. -/
theorem step_lands {env : Env} {m m' : Marked} {a : Act} (jumps : a.jumps)
    (keeps : Kept m.marks m.s) (h : markedStep env m a = some m') :
    (OnStack m'.s ∧ Lands m a m' ↔ Clean m a) ∧
      (OnStack m'.s ∧ Lands m a m' → Kept m'.marks m'.s) := by
  obtain ⟨s', hs, rfl⟩ := Option.map_eq_some_iff.1 h
  have ok := toOption_some hs
  cases a with
  | edbg c =>
    obtain ⟨funcname, top, -, enters⟩ := edbg_enters ok
    have kept := enters.kept keeps
    exact ⟨iff_of_true ⟨kept.onStack, trivial⟩ trivial, fun _ => kept⟩
  | rdbg c =>
    obtain ⟨dbgtl, below, -, leaves⟩ := rdbg_leaves ok
    have kept := leaves.kept keeps
    exact ⟨iff_of_true ⟨kept.onStack, trivial⟩ trivial, fun _ => kept⟩
  | dprintf detail c => exact jumps.elim
  | dbgswitch on => exact jumps.elim
  | initdbg3 u buf => exact jumps.elim
  | dsetjmp jb =>
    cases ok
    cases stack : m.s.thrd.stack with
    | nil =>
      have dangling : ¬ OnStack (dsetjmp jb m.s) := by
        intro onStack
        obtain ⟨dbg, hd, -⟩ := onStack ⟨jb, none⟩ (by simp [dsetjmp, stack, State.warn])
        simp [dsetjmp, stack, State.warn] at hd
      exact ⟨iff_of_false (fun right => dangling right.1) (by simp [Clean, stack]),
        fun right => absurd right.1 dangling⟩
    | cons dbgtl below =>
      have kept := dsetjmp_kept jb keeps stack
      exact ⟨iff_of_true ⟨kept.onStack, trivial⟩ (by simp [Clean, stack]), fun _ => kept⟩
  | dlongjmp jb c =>
    by_cases empty : m.s.thrd.stack = []
    · -- a warning is all that comes of it
      obtain ⟨adjusts, empty'⟩ := dlongjmp_adjusts ok empty
      have kept : Kept m.marks s' := by
        refine keeps.fewer (adjusts.apart keeps.apart) adjusts.prints ?_ (by simp) ?_ ?_ ?_
        · exact (empty'.trans empty.symm) ▸ List.suffix_refl _
        · rw [adjusts.dbglvl, keeps.dbglvl, empty, empty']
          rfl
        · rw [adjusts.jmps]
        · intro jb hj
          rw [adjusts.jmps] at hj
          rw [empty', ← empty]
          exact keeps.onStack jb hj
      exact ⟨iff_of_true ⟨kept.onStack, fun inside => absurd empty inside⟩
        (by simp [Clean, popped, empty]), fun _ => kept⟩
    obtain ⟨entry, found, unwinds⟩ := dlongjmp_unwinds ok empty
    have mem := List.mem_of_find?_eq_some found
    have env' : entry.env = jb := by simpa using List.find?_some found
    have mark : m.marks jb = entry.dbg := env' ▸ keeps.marks entry mem
    obtain ⟨dbg, hd, target⟩ := keeps.onStack entry mem
    obtain ⟨top, below, rest, addr⟩ := kept_head ⟨dbg, hd, rfl⟩
    have lands : Lands m (.dlongjmp jb c) ⟨s', m.mark (.dlongjmp jb c)⟩ ↔
        s'.thrd.dbglvl = s'.onFrames := by
      refine ⟨fun right => (right empty).choose_spec.choose_spec.2.2.2, fun level _ => ?_⟩
      refine ⟨top, below, ?_, ?_, ?_, level⟩
      · rw [unwinds.stack', target, rest]
      · rw [← rest]
        exact List.dropWhile_suffix _
      · rw [mark, target, addr]
    have onStack := unwinds.onStack_iff keeps
    have level := unwinds.level_iff keeps
    refine ⟨?_, fun right => unwinds.kept keeps right.1 (lands.1 right.2)⟩
    rw [lands, onStack, level]
    simp only [Clean, mark, Bool.not_eq_true]
    constructor
    · rintro ⟨free, isOn, active⟩
      exact ⟨fun dbg hd => ⟨isOn dbg hd, free dbg hd⟩, active⟩
    · rintro ⟨clean, active⟩
      exact ⟨fun dbg hd => (clean dbg hd).2, fun dbg hd => (clean dbg hd).1, active⟩

theorem Fresh.kept {s : State} (h : Fresh s) (marks : Nat → Option Nat) : Kept marks s where
  apart := h.apart
  order := by simp [h.stack]
  dbglvl := by simp [h.stack, h.dbglvl]
  active := by simp [h.stack]
  dbgswbuf := by simp [h.stack]
  onStack := by simp [OnStack, h.jmps]
  ordered := by simp [Ordered, h.jmps]
  envs := by simp [h.jmps]
  marks := by simp [h.jmps]

/-- **Jumps.** In the runs of clean calls, and only in these, every entry refers
in every state to a frame on the stack, and every jump leaves the stack up to the
frame that was current at the last `dsetjmp`, at the level of its frames. -/
theorem jumps {env : Env} {s : State} {acts : List Act} (fresh : Fresh s)
    (calls : ∀ a ∈ acts, a.jumps) :
    Throughout (markedStep env) (fun m a m' => OnStack m'.s ∧ Lands m a m')
        ⟨s, fun _ => none⟩ acts ↔
      Along (markedStep env) Clean ⟨s, fun _ => none⟩ acts :=
  throughout_iff (I := fun m => Kept m.marks m.s)
    (fun _ _ _ ha hm h => (step_lands ha hm h).1)
    (fun _ _ _ ha hm h right => (step_lands ha hm h).2 right) calls (fresh.kept _)

/-- A jump out of a function that is on. -/
theorem jumps_main : ∃ s,
    run (step .zero) (.initial .stdout) [.initdbg3 .zero (text "on f")] = some s ∧
    Throughout (markedStep .zero) (fun m a m' => OnStack m'.s ∧ Lands m a m') ⟨s, fun _ => none⟩
      [.edbg (.of "main()"), .dsetjmp 1, .edbg (.of "f(x)"), .dlongjmp 1 (.of "f")] := by
  refine ⟨_, rfl, (jumps ⟨rfl, rfl, rfl, rfl⟩ (by simp [Act.jumps])).2 fun w h => ⟨trivial, ?_⟩⟩
  cases h
  refine fun w h => ⟨List.cons_ne_nil _ _, ?_⟩
  cases h
  refine fun w h => ⟨trivial, ?_⟩
  cases h
  exact fun w h => ⟨⟨by decide, by decide⟩, trivial⟩

/-- `dlongjmp` pops a frame and leaves its entry. -/
theorem stale_breaks : ∃ m,
    run (markedStep .zero) ⟨.initial .stdout, fun _ => none⟩
      [.edbg (.of "main()"), .dsetjmp 1, .edbg (.of "f(x)"), .dsetjmp 2, .dlongjmp 1 (.of "f")] =
        some m ∧ ¬ OnStack m.s :=
  ⟨_, rfl, by decide⟩

/-- `dlongjmp` lowers the level for a frame that is off, too. -/
theorem offFrame_breaks : ∃ s m m',
    run (step .zero) (.initial .stdout) [.initdbg3 .zero (text "on main"),
      .initdbg3 .zero (text "off f")] = some s ∧ Fresh s ∧
    run (markedStep .zero) ⟨s, fun _ => none⟩
      [.edbg (.of "main()"), .dsetjmp 1, .edbg (.of "f(x)")] = some m ∧
    markedStep .zero m (.dlongjmp 1 (.of "f")) = some m' ∧
    m'.s.onFrames = 1 ∧ m'.s.thrd.dbglvl = 0 ∧ ¬ Lands m (.dlongjmp 1 (.of "f")) m' := by
  refine ⟨_, _, _, rfl, ⟨rfl, rfl, rfl, rfl⟩, rfl, rfl, rfl, rfl, fun lands => ?_⟩
  obtain ⟨dbg, below, -, -, -, level⟩ := lands (by decide)
  exact absurd level (by decide)

end UnixProgramming.Dbg
