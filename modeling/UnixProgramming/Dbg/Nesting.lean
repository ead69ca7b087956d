import UnixProgramming.Dbg.Effects

/-!
# The nesting level

`dbglvl` against the frames on the stack whose entry line has been printed and
whose return line has not.

* `step_level`: which calls keep the two equal;
* `nesting`: so the runs that do, and what an inner call leaves behind;
* `again_breaks`: a function that is switched off and on again.
-/

namespace UnixProgramming.Dbg

open Runs
open Ssl (Byte)

/-! ## Open frames -/

def entered (log : List Out) (dbg : Nat) : Bool := log.any (·.line = .entry dbg)
def left (log : List Out) (dbg : Nat) : Bool := log.any (·.line = .leave dbg)

/-- The entry line has been printed, and the return line has not. -/
def DBG.isOpen (log : List Out) (dbg : DBG) : Bool := entered log dbg.addr && !left log dbg.addr

def State.openFrames (s : State) : Nat := s.thrd.stack.countP (·.isOpen s.g.log)

def LevelRight (s : State) : Prop := s.thrd.dbglvl = s.openFrames

instance (s : State) : Decidable (LevelRight s) := inferInstanceAs (Decidable (_ = _))

theorem Prints.any_line {lines : List Line} {log log' : List Out} (h : Prints lines log log')
    {line : Line} (some' : line ≠ .other) :
    log'.any (·.line = line) = (log.any (·.line = line) || lines.any (· = line)) := by
  obtain ⟨outs, rfl, rfl⟩ := h
  rw [List.any_append, List.any_filter, List.any_map]
  congr 1
  refine List.any_congr rfl fun out => ?_
  by_cases same : out.line = line
  · simp [same, some']
  · simp [same]

theorem Prints.entered {lines : List Line} {log log' : List Out} (h : Prints lines log log')
    (dbg : Nat) : entered log' dbg = (entered log dbg || lines.any (· = .entry dbg)) :=
  h.any_line (by simp)

theorem Prints.left {lines : List Line} {log log' : List Out} (h : Prints lines log log')
    (dbg : Nat) : left log' dbg = (left log dbg || lines.any (· = .leave dbg)) :=
  h.any_line (by simp)

/-- Frames without a line among those printed are open as before. -/
theorem Prints.isOpen {lines : List Line} {log log' : List Out} (h : Prints lines log log')
    {dbg : DBG} (apart : ∀ line ∈ lines, line ≠ .entry dbg.addr ∧ line ≠ .leave dbg.addr) :
    dbg.isOpen log' = dbg.isOpen log := by
  have noEntry : lines.any (· = .entry dbg.addr) = false := by
    simpa using fun line hl => (apart line hl).1
  have noLeave : lines.any (· = .leave dbg.addr) = false := by
    simpa using fun line hl => (apart line hl).2
  rw [DBG.isOpen, DBG.isOpen, h.entered, h.left, noEntry, noLeave, Bool.or_false, Bool.or_false]

/-- Frames are told apart by their addresses, and none has an address that is
still to be allocated. -/
structure Apart (s : State) : Prop where
  nodup : (s.thrd.stack.map DBG.addr).Nodup
  stack : ∀ addr ∈ s.thrd.stack.map DBG.addr, addr < s.thrd.mallocs
  log : ∀ dbg, entered s.g.log dbg ∨ left s.g.log dbg → dbg < s.thrd.mallocs

/-- The lines that are printed are about the top frame. -/
theorem Prints.countP {line : Line} {printed : Bool} {log log' : List Out} {dbgtl : DBG}
    {below : List DBG} (h : Prints (if printed then [line] else []) log log')
    (about : line = .entry dbgtl.addr ∨ line = .leave dbgtl.addr)
    (nodup : ((dbgtl :: below).map DBG.addr).Nodup) :
    below.countP (·.isOpen log') = below.countP (·.isOpen log) := by
  refine List.countP_congr fun dbg hb => ?_
  have ne : dbg.addr ≠ dbgtl.addr := by
    intro same
    rw [List.map_cons, List.nodup_cons] at nodup
    exact nodup.1 (same ▸ List.mem_map_of_mem hb)
  rw [h.isOpen]
  intro line' hl
  have : line' = line := by
    cases printed with
    | false => cases hl
    | true => simpa using hl
  rcases about with rfl | rfl <;> simp [this, ne.symm]

/-! ## Steps -/

theorem Adjusts.openFrames {s s' : State} (h : Adjusts s s') : s'.openFrames = s.openFrames := by
  have flag (s : State) : s.openFrames =
      (s.thrd.stack.map DBG.addr).countP fun a => entered s.g.log a && !left s.g.log a := by
    rw [State.openFrames, List.countP_map]
    rfl
  rw [flag, flag, h.stack]
  refine List.countP_congr fun a _ => ?_
  rw [h.prints.entered, h.prints.left]
  simp

theorem Enters.openFrames {env : Env} {funcname : List Byte} {top : DBG} {s s' : State}
    (h : Enters env funcname top s s') (apart : Apart s) :
    s'.openFrames = s.openFrames + if top.status = .on then 1 else 0 := by
  have fresh : ¬ (entered s.g.log top.addr ∨ left s.g.log top.addr) := by
    rw [h.addr]
    exact fun printed => Nat.lt_irrefl _ (apart.log _ printed)
  have nodup : ((top :: s.thrd.stack).map DBG.addr).Nodup := by
    rw [List.map_cons, List.nodup_cons, h.addr]
    exact ⟨fun there => Nat.lt_irrefl _ (apart.stack _ there), apart.nodup⟩
  have prints : Prints (if decide (top.status = .on) then [.entry top.addr] else [])
      s.g.log s'.g.log := by simpa using h.prints
  rw [State.openFrames, h.stack, List.countP_cons, prints.countP (.inl rfl) nodup, State.openFrames]
  congr 1
  rw [not_or, Bool.not_eq_true, Bool.not_eq_true] at fresh
  rw [DBG.isOpen, h.prints.entered, h.prints.left, fresh.1, fresh.2]
  by_cases on : top.status = .on <;> simp [on]

theorem Leaves.openFrames {dbgtl : DBG} {below : List DBG} {s s' : State}
    (h : Leaves dbgtl below s s') (apart : Apart s) (inner : below ≠ []) :
    s.openFrames = s'.openFrames + if dbgtl.isOpen s.g.log then 1 else 0 := by
  have nodup := apart.nodup
  rw [h.stack] at nodup
  rw [State.openFrames, State.openFrames, h.stack, h.stack', if_neg inner, List.countP_cons,
    h.prints.countP (.inr rfl) nodup]

/-- The outermost frame stays, and is not open any more if it has returned. -/
theorem Leaves.openFrames_last {dbgtl : DBG} {s s' : State} (h : Leaves dbgtl [] s s') :
    s.openFrames = (if dbgtl.isOpen s.g.log then 1 else 0) ∧
      s'.openFrames = if dbgtl.isOpen s.g.log ∧ ¬ dbgtl.returns then 1 else 0 := by
  rw [State.openFrames, State.openFrames, h.stack, h.stack', if_pos rfl, List.countP_singleton,
    List.countP_singleton]
  refine ⟨rfl, ?_⟩
  rw [DBG.isOpen, DBG.isOpen, h.prints.entered, h.prints.left]
  cases dbgtl.returns <;> simp

theorem Turns.openFrames {on : Int} {dbgtl : DBG} {below : List DBG} {s s' : State}
    (h : Turns on dbgtl below s s') (apart : Apart s) : s'.openFrames = s.openFrames +
      if dbgtl.switchesOn on ∧ ¬ entered s.g.log dbgtl.addr ∧ ¬ left s.g.log dbgtl.addr then 1
      else 0 := by
  have nodup := apart.nodup
  rw [h.stack] at nodup
  obtain ⟨top, stack', addr, -⟩ := h.stack'
  rw [State.openFrames, State.openFrames, h.stack, stack', List.countP_cons, List.countP_cons,
    h.prints.countP (.inl rfl) nodup, Nat.add_assoc]
  congr 1
  rw [DBG.isOpen, DBG.isOpen, addr, h.prints.entered, h.prints.left]
  cases dbgtl.switchesOn on <;> cases entered s.g.log dbgtl.addr <;>
    cases left s.g.log dbgtl.addr <;> simp

/-- A call that leaves the stack to `edbg` and `rdbg`: no jump, and no mark for one. -/
def Act.nests : Act → Prop
  | .dsetjmp _ => False
  | .dlongjmp _ _ => False
  | _ => True

/-- An entry line that was kept is printed only for a function that has printed
neither of its lines, and a function that has been called by another prints a
return line, which lowers the level, exactly if it is open. -/
def Prompt (s : State) : Act → Prop
  | .rdbg _ =>
    match s.thrd.stack with
    | dbgtl :: _ :: _ => dbgtl.isOpen s.g.log ↔ dbgtl.returns ∧ 0 < s.thrd.dbglvl
    | _ => True
  | .dbgswitch on =>
    ∀ dbgtl ∈ s.thrd.stack.head?, dbgtl.switchesOn on →
      ¬ entered s.g.log dbgtl.addr ∧ ¬ left s.g.log dbgtl.addr
  | _ => True

/-- A level of `n` open frames is lowered to `m`. -/
theorem lowered_iff {n m : Nat} {isOpen returns : Bool} (h : n = m + if isOpen then 1 else 0) :
    (if returns ∧ (n : Int) > 0 then (n : Int) - 1 else n) = m ↔
      (isOpen ↔ returns ∧ 0 < (n : Int)) := by
  cases isOpen <;> cases returns <;> simp at h ⊢ <;> omega

/-- A level of `n` open frames is raised, and a frame opens or does not. -/
theorem raised_iff {n : Nat} {p q : Prop} [Decidable p] [Decidable q] :
    (n : Int) + (if p then 1 else 0) = ((n + if p ∧ q then 1 else 0 : Nat) : Int) ↔ (p → q) := by
  by_cases hp : p
  · by_cases hq : q
    · simp [hp, hq]
    · rw [if_pos hp, if_neg fun both => hq both.2]
      exact iff_of_false (by omega) fun h => hq (h hp)
  · simp [hp]

/-- **Step.** The level stays right exactly if the call is prompt. -/
theorem step_level {env : Env} {s s' : State} {a : Act} (nests : a.nests) (apart : Apart s)
    (level : LevelRight s) (h : step env s a = some s') : LevelRight s' ↔ Prompt s a := by
  have adjusts (h : Adjusts s s') : LevelRight s' := by
    rw [LevelRight, h.dbglvl, h.openFrames]
    exact level
  have ok := toOption_some h
  unfold LevelRight at level ⊢
  cases a with
  | edbg c =>
    obtain ⟨funcname, top, -, enters⟩ := edbg_enters ok
    rw [enters.dbglvl, enters.openFrames apart, level]
    simp only [Prompt, iff_true]
    split <;> simp
  | rdbg c =>
    obtain ⟨dbgtl, below, -, leaves⟩ := rdbg_leaves ok
    cases below with
    | nil =>
      obtain ⟨before, after⟩ := leaves.openFrames_last
      rw [leaves.dbglvl, after, level, before]
      simp only [Prompt, leaves.stack, iff_true]
      cases dbgtl.isOpen s.g.log <;> cases dbgtl.returns <;> simp
    | cons dbgprv below =>
      have split' := leaves.openFrames apart (by simp)
      rw [leaves.dbglvl, level, lowered_iff split']
      simp only [Prompt, leaves.stack, level]
  | dprintf detail c =>
    obtain ⟨r, hr, rfl⟩ := map_ok ok
    exact iff_of_true (adjusts (dprintf_adjusts hr).1) trivial
  | dbgswitch on =>
    obtain ⟨r, hr, rfl⟩ := map_ok ok
    obtain ⟨dbgtl, below, turns⟩ := dbgswitch_turns hr
    rw [turns.dbglvl, turns.openFrames apart, level]
    simp only [Prompt, turns.stack, List.head?_cons, Option.mem_some_iff, forall_eq']
    exact raised_iff
  | initdbg3 u buf => exact iff_of_true (adjusts (initdbg3_adjusts ok)) trivial
  | dsetjmp jb => exact nests.elim
  | dlongjmp jb c => exact nests.elim

/-! ## Runs -/

theorem Apart.next {s s' : State} {lines : List Line} (h : Apart s)
    (stack : (s'.thrd.stack.map DBG.addr).Sublist (s.thrd.stack.map DBG.addr))
    (mallocs : s'.thrd.mallocs = s.thrd.mallocs) (prints : Prints lines s.g.log s'.g.log)
    (about : ∀ dbg, .entry dbg ∈ lines ∨ .leave dbg ∈ lines → dbg < s.thrd.mallocs) :
    Apart s' where
  nodup := h.nodup.sublist stack
  stack addr there := mallocs ▸ h.stack addr (stack.subset there)
  log dbg printed := by
    rw [prints.entered, prints.left, mallocs] at *
    simp only [Bool.or_eq_true, List.any_eq_true, decide_eq_true_eq, exists_eq_right] at printed
    rcases printed with (old | new) | (old | new)
    · exact h.log dbg (.inl old)
    · exact about dbg (.inl new)
    · exact h.log dbg (.inr old)
    · exact about dbg (.inr new)

theorem Enters.apart {env : Env} {funcname : List Byte} {top : DBG} {s s' : State}
    (h : Enters env funcname top s s') (apart : Apart s) : Apart s' where
  nodup := by
    rw [h.stack, List.map_cons, List.nodup_cons, h.addr]
    exact ⟨fun there => Nat.lt_irrefl _ (apart.stack _ there), apart.nodup⟩
  stack addr there := by
    rw [h.stack, List.map_cons, List.mem_cons, h.addr] at there
    rw [h.mallocs]
    rcases there with rfl | there
    · exact Nat.lt_succ_self _
    · exact Nat.lt_succ_of_lt (apart.stack addr there)
  log dbg printed := by
    rw [h.prints.entered, h.prints.left, h.addr] at printed
    rw [h.mallocs]
    by_cases old : entered s.g.log dbg ∨ left s.g.log dbg
    · exact Nat.lt_succ_of_lt (apart.log dbg old)
    · rw [not_or, Bool.not_eq_true, Bool.not_eq_true] at old
      rw [old.1, old.2] at printed
      by_cases on : top.status = .on
      · have : s.thrd.mallocs = dbg := by simpa [on] using printed
        omega
      · simp [on] at printed

theorem Leaves.apart {dbgtl : DBG} {below : List DBG} {s s' : State}
    (h : Leaves dbgtl below s s') (apart : Apart s) : Apart s' := by
  refine apart.next ?_ h.mallocs h.prints ?_
  · rw [h.stack, h.stack']
    split
    · rename_i last
      rw [last]
    · exact (List.sublist_cons_self _ _).map _
  · intro dbg printed
    have : dbg = dbgtl.addr := by cases returns : dbgtl.returns <;> simp_all
    exact apart.stack dbg (by simp [h.stack, this])

theorem Adjusts.apart {s s' : State} (h : Adjusts s s') (apart : Apart s) : Apart s' :=
  apart.next (by rw [h.stack]) h.mallocs h.prints (by simp)

theorem Turns.apart {on : Int} {dbgtl : DBG} {below : List DBG} {s s' : State}
    (h : Turns on dbgtl below s s') (apart : Apart s) : Apart s' := by
  obtain ⟨top, stack', addr, -⟩ := h.stack'
  refine apart.next ?_ h.mallocs h.prints ?_
  · rw [h.stack, stack', List.map_cons, List.map_cons, addr]
  · intro dbg printed
    have : dbg = dbgtl.addr := by cases turned : dbgtl.switchesOn on <;> simp_all
    exact apart.stack dbg (by simp [h.stack, this])

theorem step_apart {env : Env} {s s' : State} {a : Act} (nests : a.nests) (apart : Apart s)
    (h : step env s a = some s') : Apart s' := by
  have ok := toOption_some h
  cases a with
  | edbg c =>
    obtain ⟨funcname, top, -, enters⟩ := edbg_enters ok
    exact enters.apart apart
  | rdbg c =>
    obtain ⟨dbgtl, below, -, leaves⟩ := rdbg_leaves ok
    exact leaves.apart apart
  | dprintf detail c =>
    obtain ⟨r, hr, rfl⟩ := map_ok ok
    exact (dprintf_adjusts hr).1.apart apart
  | dbgswitch on =>
    obtain ⟨r, hr, rfl⟩ := map_ok ok
    obtain ⟨dbgtl, below, turns⟩ := dbgswitch_turns hr
    exact turns.apart apart
  | initdbg3 u buf => exact (initdbg3_adjusts ok).apart apart
  | dsetjmp jb => exact nests.elim
  | dlongjmp jb c => exact nests.elim

/-- A thread that has not used the debugger yet. -/
structure Fresh (s : State) : Prop where
  stack : s.thrd.stack = []
  dbglvl : s.thrd.dbglvl = 0
  jmps : s.thrd.jmps = []
  log : s.g.log = []

theorem Fresh.apart {s : State} (h : Fresh s) : Apart s where
  nodup := by simp [h.stack]
  stack := by simp [h.stack]
  log := by simp [h.log, entered, left]

theorem Fresh.level {s : State} (h : Fresh s) : LevelRight s := by
  simp [LevelRight, State.openFrames, h.stack, h.dbglvl]

theorem always_level {env : Env} {s : State} {acts : List Act} (fresh : Fresh s)
    (nests : ∀ a ∈ acts, a.nests) :
    Always (step env) LevelRight s acts ↔ Along (step env) Prompt s acts := by
  have steps : Throughout (step env) (fun _ _ s' => LevelRight s') s acts ↔
      Along (step env) Prompt s acts :=
    throughout_iff (I := fun s => Apart s ∧ LevelRight s)
      (fun s a s' ha hs h => step_level ha hs.1 hs.2 h)
      (fun s a s' ha hs h right => ⟨step_apart ha hs.1 h, right⟩) nests ⟨fresh.apart, fresh.level⟩
  exact ⟨fun h => steps.1 h.2, fun h => ⟨fresh.level, steps.2 h⟩⟩

/-! ## Inner calls -/

def Act.enters : Act → Bool
  | .edbg _ => true
  | _ => false

def Act.leaves : Act → Bool
  | .rdbg _ => true
  | _ => false

/-- So many frames above these, which are open as they were. -/
structure Above (base : List DBG) (log : List Out) (n : Nat) (s : State) : Prop where
  apart : Apart s
  stack : ∃ fs : List DBG, fs.length = n ∧ s.thrd.stack = fs ++ base
  same : ∀ dbg ∈ base, dbg.isOpen s.g.log = dbg.isOpen log

section
variable {base : List DBG} {log : List Out} {n : Nat} {s s' : State}

/-- The frames below are not the one that a line is about. -/
theorem Above.ne (h : Above base log n s) {fs : List DBG} {top : DBG}
    (stack : s.thrd.stack = top :: fs ++ base) : ∀ dbg ∈ base, dbg.addr ≠ top.addr := by
  intro dbg hb same
  have nodup := h.apart.nodup
  rw [stack, List.cons_append, List.map_cons, List.nodup_cons] at nodup
  exact nodup.1 (same ▸ List.mem_map_of_mem (List.mem_append_right fs hb))

theorem Above.enters {env : Env} {funcname : List Byte} {top : DBG} (h : Above base log n s)
    (enters : Enters env funcname top s s') : Above base log (n + 1) s' := by
  obtain ⟨fs, length, stack⟩ := h.stack
  refine ⟨enters.apart h.apart, ⟨top :: fs, by simp [length], by simp [enters.stack, stack]⟩, ?_⟩
  intro dbg hb
  have ne : dbg.addr ≠ top.addr := by
    have := h.apart.stack dbg.addr (by simp only [stack]; exact List.mem_map_of_mem (by simp [hb]))
    rw [enters.addr]
    omega
  rw [← h.same dbg hb, enters.prints.isOpen]
  intro line hl
  have : line = .entry top.addr := by
    by_cases on : top.status = .on <;> simp_all
  simp [this, ne.symm]

theorem Above.leaves {dbgtl : DBG} {below : List DBG} (h : Above base log (n + 1) s)
    (inner : base ≠ []) (leaves : Leaves dbgtl below s s') : Above base log n s' := by
  obtain ⟨fs, length, stack⟩ := h.stack
  cases fs with
  | nil => cases length
  | cons top fs =>
    have parts : dbgtl = top ∧ below = fs ++ base := by
      have := leaves.stack.symm.trans stack
      simpa using this
    obtain ⟨rfl, rfl⟩ := parts
    refine ⟨leaves.apart h.apart, ⟨fs, by simpa using length, ?_⟩, ?_⟩
    · rw [leaves.stack', if_neg (by simp [inner])]
    · intro dbg hb
      have ne := h.ne stack dbg hb
      rw [← h.same dbg hb, leaves.prints.isOpen]
      intro line hl
      have : line = .leave dbgtl.addr := by cases returns : dbgtl.returns <;> simp_all
      simp [this, ne.symm]

theorem Above.adjusts (h : Above base log (n + 1) s) (adjusts : Adjusts s s') :
    Above base log (n + 1) s' := by
  obtain ⟨fs, length, stack⟩ := h.stack
  cases fs with
  | nil => cases length
  | cons top fs =>
    refine ⟨adjusts.apart h.apart, ?_, ?_⟩
    · have addrs := adjusts.stack
      have below := adjusts.below
      cases stack' : s'.thrd.stack with
      | nil => simp [stack', stack] at addrs
      | cons top' rest =>
        simp only [stack', stack, List.cons_append, List.tail_cons] at below
        exact ⟨top' :: fs, by simpa using length, by simp [below]⟩
    · intro dbg hb
      rw [← h.same dbg hb, adjusts.prints.isOpen (by simp)]

theorem Above.turns {on : Int} {dbgtl : DBG} {below : List DBG} (h : Above base log (n + 1) s)
    (turns : Turns on dbgtl below s s') : Above base log (n + 1) s' := by
  obtain ⟨fs, length, stack⟩ := h.stack
  obtain ⟨top', stack', -, -⟩ := turns.stack'
  cases fs with
  | nil => cases length
  | cons top fs =>
    have parts : dbgtl = top ∧ below = fs ++ base := by
      have := turns.stack.symm.trans stack
      simpa using this
    obtain ⟨rfl, rfl⟩ := parts
    refine ⟨turns.apart h.apart, ⟨top' :: fs, by simpa using length, stack'⟩, ?_⟩
    intro dbg hb
    have ne := h.ne stack dbg hb
    rw [← h.same dbg hb, turns.prints.isOpen]
    intro line hl
    have : line = .entry dbgtl.addr := by cases turned : dbgtl.switchesOn on <;> simp_all
    simp [this, ne.symm]

end

/-- Balanced calls within a function leave the frames below it as they are. -/
theorem inside_above {env : Env} {base : List DBG} {log : List Out} {s s' : State}
    {inside : List Act} (inner : base ≠ []) (nests : ∀ a ∈ inside, a.nests)
    (balanced : Balanced Act.enters Act.leaves inside) (hr : run (step env) s inside = some s')
    (h : Above base log 1 s) : Above base log 1 s' := by
  refine run_depth (A := Act.nests) (L := fun n => Above base log (n + 1)) ?_ ?_ ?_ nests balanced
    hr h
  · intro n s a s' _ enters h hs
    have ok := toOption_some hs
    cases a with
    | edbg c =>
      obtain ⟨funcname, top, -, effect⟩ := edbg_enters ok
      exact h.enters effect
    | _ => cases enters
  · intro n s a s' _ leaves h hs
    have ok := toOption_some hs
    cases a with
    | rdbg c =>
      obtain ⟨dbgtl, below, -, effect⟩ := rdbg_leaves ok
      exact h.leaves inner effect
    | _ => cases leaves
  · intro n s a s' nests enters leaves h hs
    have ok := toOption_some hs
    cases a with
    | edbg c => exact absurd rfl enters
    | rdbg c => exact absurd rfl leaves
    | dprintf detail c =>
      obtain ⟨r, hr, rfl⟩ := map_ok ok
      exact h.adjusts (dprintf_adjusts hr).1
    | dbgswitch on =>
      obtain ⟨r, hr, rfl⟩ := map_ok ok
      obtain ⟨dbgtl, below, turns⟩ := dbgswitch_turns hr
      exact h.turns turns
    | initdbg3 u buf => exact h.adjusts (initdbg3_adjusts ok)
    | dsetjmp jb => exact nests.elim
    | dlongjmp jb c => exact nests.elim

/-- A call from within a function: at its end the stack is as before. -/
theorem call_above {env : Env} {s s' : State} {c c' : Call} {inside : List Act}
    (apart : Apart s) (inner : s.thrd.stack ≠ []) (nests : ∀ a ∈ inside, a.nests)
    (balanced : Balanced Act.enters Act.leaves inside)
    (hr : run (step env) s (.edbg c :: inside ++ [.rdbg c']) = some s') :
    s'.thrd.stack = s.thrd.stack ∧ s'.openFrames = s.openFrames := by
  obtain ⟨t, ht, hr⟩ := run_cons_some hr
  obtain ⟨u, hu, hr⟩ := run_append_some hr
  obtain ⟨s'', hs, hr⟩ := run_cons_some hr
  obtain rfl : s'' = s' := Option.some.inj hr
  have start : Above s.thrd.stack s.g.log 0 s := ⟨apart, ⟨[], rfl, rfl⟩, fun _ _ => rfl⟩
  obtain ⟨funcname, top, -, enters⟩ := edbg_enters (toOption_some ht)
  obtain ⟨dbgtl, below, -, leaves⟩ := rdbg_leaves (toOption_some hs)
  have ends := (inside_above inner nests balanced hu (start.enters enters)).leaves inner leaves
  obtain ⟨fs, length, stack⟩ := ends.stack
  rw [List.length_eq_zero_iff.1 length, List.nil_append] at stack
  refine ⟨stack, ?_⟩
  rw [State.openFrames, stack, State.openFrames]
  exact List.countP_congr fun dbg hb => by rw [ends.same dbg hb]

/-- **Nesting.** In the runs of calls that are all prompt, and only in these, the
level is in every state the number of open frames. In such runs, what a function
calls leaves its stack and its level as they were. -/
theorem nesting {env : Env} {s : State} {acts : List Act} (fresh : Fresh s)
    (nests : ∀ a ∈ acts, a.nests) :
    (Always (step env) LevelRight s acts ↔ Along (step env) Prompt s acts) ∧
      ∀ before c inside c' s₁ s₂, acts = before ++ (.edbg c :: inside ++ [.rdbg c']) →
        Balanced Act.enters Act.leaves inside → run (step env) s before = some s₁ →
        run (step env) s₁ (.edbg c :: inside ++ [.rdbg c']) = some s₂ → s₁.thrd.stack ≠ [] →
        Along (step env) Prompt s acts →
        s₂.thrd.stack = s₁.thrd.stack ∧ s₂.thrd.dbglvl = s₁.thrd.dbglvl := by
  refine ⟨always_level fresh nests, ?_⟩
  rintro before c inside c' s₁ s₂ rfl balanced h₁ h₂ inner prompt
  have nests' : ∀ a ∈ before, a.nests := fun a ha => nests a (List.mem_append_left _ ha)
  have apart : Apart s₁ := run_induction (fun _ _ _ ha hs h => step_apart ha hs h) nests' h₁
    fresh.apart
  obtain ⟨stack, open'⟩ := call_above apart inner (fun a ha => nests a (by simp [ha])) balanced h₂
  refine ⟨stack, ?_⟩
  have always := (always_level fresh nests).2 prompt
  have level₁ : LevelRight s₁ := always.left.last h₁
  have level₂ : LevelRight s₂ := always.last (by rw [run_append, h₁]; exact h₂)
  rw [level₁, level₂, open']

theorem nesting_main : Always (step .zero) LevelRight (.initial .stdout)
      [.initdbg3 .zero (text "on main"), .edbg (.of "main()"), .edbg (.of "f(x)"),
        .dprintf 1 (.of "x=1"), .rdbg (.of "f")] ↔
    Along (step .zero) Prompt (.initial .stdout)
      [.initdbg3 .zero (text "on main"), .edbg (.of "main()"), .edbg (.of "f(x)"),
        .dprintf 1 (.of "x=1"), .rdbg (.of "f")] :=
  (nesting ⟨rfl, rfl, rfl, rfl⟩ (by simp [Act.nests])).1

/-- A function that is switched off after its entry line has been printed keeps
the line for `dbgswitch`, so that `rdbg` takes it for one not yet printed. -/
theorem again_breaks : ∃ s₁ s₂,
    run (step .zero) (.initial .stdout) [.initdbg3 .zero (text "on main"), .edbg (.of "main()")] =
      some s₁ ∧
    run (step .zero) s₁ (.edbg (.of "f(x)") :: [.dbgswitch 0] ++ [.rdbg (.of "f")]) = some s₂ ∧
    s₁.thrd.stack ≠ [] ∧ s₁.thrd.dbglvl = 1 ∧ s₂.thrd.dbglvl = 2 ∧ ¬ LevelRight s₂ := by
  exact ⟨_, _, rfl, rfl, by decide, rfl, rfl, by decide⟩

end UnixProgramming.Dbg
