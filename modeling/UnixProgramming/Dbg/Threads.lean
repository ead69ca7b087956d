import Mathlib.Logic.Function.Basic
import UnixProgramming.Dbg.Alike
import UnixProgramming.Dbg.Nesting

/-!
# Threads

Any number of threads that call the debugger in any order, each call as a whole:
the contexts that `dcontext` finds for them, and the database that they share.

* `context_dcontext`, `context_store`: a thread finds no other thread's context;
* `step_touches`: what a call does to what all threads share;
* `call_matched`, `others_matched`: a thread against the same thread alone;
* `isolation`: the runs in which every thread is as if it were alone;
* `outermost_breaks`: a return that takes the commands from another thread.
-/

namespace UnixProgramming.Dbg

open Runs
open Ssl (Byte)
open Heap (DList)

/-! ## Contexts -/

def DBGTHREADHASH : Nat := 100

/-- The hash of a `pthread_t`, of which `memcpy` takes the lower half. -/
def hash (self : Nat) : Nat :=
  let uself := self % 2 ^ 32
  (uself ^^^ (uself >>> 4 ^^^ uself >>> 24)) % DBGTHREADHASH

/-- `id` is the number of contexts so far. -/
structure Process where
  g : Globals
  id : Nat
  hashhd : Nat → List DBGTHREAD

def newThread (self id : Nat) : DBGTHREAD := ⟨self, id, false, 0, [], [], .stderr, 0⟩

namespace Process

def context (p : Process) (self : Nat) : Option DBGTHREAD :=
  (p.hashhd (hash self)).find? fun thrd => thrd.self == self

/-- The context of the calling thread; a new one stays in the table. -/
def dcontext (p : Process) (self : Nat) : DBGTHREAD × Process :=
  match p.context self with
  | some thrd => (thrd, p)
  | none =>
    let thrd := newThread self (p.id + 1)
    let threads := p.hashhd (hash self) ++ [thrd]
    (thrd, { p with id := p.id + 1, hashhd := Function.update p.hashhd (hash self) threads })

/-- A context has been written to. -/
def store (p : Process) (thrd : DBGTHREAD) : Process :=
  let threads := (p.hashhd (hash thrd.self)).map fun old =>
    if old.self = thrd.self then thrd else old
  { p with hashhd := Function.update p.hashhd (hash thrd.self) threads }

/-- What the call of a thread works on. The log is that of this thread. -/
def seen (p : Process) (self : Nat) (log : List Out) : State :=
  ⟨{ p.g with log := log }, (p.dcontext self).1⟩

def call (env : Env) (p : Process) (self : Nat) (log : List Out) (a : Act) :
    Option (Process × List Out) :=
  (step env (p.seen self log) a).map fun s =>
    (({ (p.dcontext self).2 with g := { s.g with log := [] } }).store s.thrd, s.g.log)

/-- The thread as the only one, with the number that it has. -/
def alone (p : Process) (self id : Nat) : State :=
  ⟨{ p.g with log := [] }, (p.context self).getD (newThread self id)⟩

end Process

/-! ## Runs of many threads -/

/-- A thread that has not ended: its calls so far, what it has printed, how many
functions it is inside, and whether it has returned from the outermost one. -/
structure Thread where
  calls : List Act
  out : List Out
  depth : Nat
  returned : Bool

/-- The threads by their `pthread_t`, and whether one of them has ever returned
from its outermost function. -/
structure World where
  p : Process
  threads : Nat → Option Thread
  cleaned : Bool

inductive Event where
  | start (self : Nat)
  | finish (self : Nat)
  | call (self : Nat) (a : Act)

def Thread.new : Thread := ⟨[], [], 0, false⟩

/-- Calls of `edbg`, `dprintf` and `rdbg`, well nested. -/
def Thread.may (th : Thread) : Act → Bool
  | .edbg _ => true
  | .dprintf _ _ => true
  | .rdbg _ => 0 < th.depth
  | _ => false

/-- Whether this call is the return from the outermost function. -/
def Thread.last (th : Thread) (a : Act) : Bool := a.leaves && th.depth == 1 && !th.returned

def Thread.next (th : Thread) (a : Act) (out : List Out) : Thread where
  calls := th.calls ++ [a]
  out := out
  depth := if a.enters then th.depth + 1 else if a.leaves then th.depth - 1 else th.depth
  returned := th.returned || th.last a

/-- A `pthread_t` is given to one thread at a time. A thread ends outside all
functions. -/
def worldStep (env : Env) (w : World) : Event → Option World
  | .start self =>
    if (w.threads self).isSome then none
    else some { w with threads := Function.update w.threads self (some .new) }
  | .finish self => (w.threads self).bind fun th =>
    if th.depth = 0 then some { w with threads := Function.update w.threads self none } else none
  | .call self a => (w.threads self).bind fun th =>
    if th.may a then (w.p.call env self th.out a).map fun r =>
      { p := r.1
        threads := Function.update w.threads self (some (th.next a r.2))
        cleaned := w.cleaned || th.last a }
    else none

/-- For each thread that has made calls, the state that these calls lead to from an
empty stack where no other thread makes any: the same context, the same output
and, inside a function, the same commands and files. -/
def Isolated (env : Env) (p₀ : Process) (w : World) : Prop :=
  ∀ self th, w.threads self = some th → th.calls ≠ [] →
    ∃ id st, (p₀.alone self id).thrd.stack = [] ∧
      run (step env) (p₀.alone self id) th.calls = some st ∧
      w.p.context self = some st.thrd ∧ debugOutput th.out = debugOutput st.g.log ∧
      (0 < th.depth →
        (∀ funcname, findCmd w.p.g.cmds funcname = findCmd st.g.cmds funcname) ∧
        ∀ dbg ∈ st.thrd.stack, ∀ a ∈ dbg.dbgout, fileOf w.p.g.outs a = fileOf st.g.outs a)

/-- Where a thread's first call finds no frames, a function is entered while the
commands are those of the start, an output that is open is the one that the
thread would open, and nobody else is inside a function when the outermost one
returns. -/
def Careful (env : Env) (p₀ : Process) (w : World) : Event → Prop
  | .start _ => True
  | .finish _ => True
  | .call self a => ∀ th ∈ w.threads self,
    (th.calls = [] → (w.p.dcontext self).1.stack = []) ∧
    match a with
    | .edbg c =>
      (w.cleaned → th.returned ∨ p₀.g.cmds.hd = none) ∧
      ∀ a ∈ (w.p.seen self th.out).ownOut c,
        OwnFile env p₀.g.outs w.p.g.outs (w.p.dcontext self).1.id a
    | .rdbg _ => th.depth = 1 → th.returned = false →
      p₀.g.cmds.hd = none ∨ ∀ other ≠ self, ∀ th' ∈ w.threads other, th'.depth = 0
    | _ => True

/-! ## Finding contexts -/

section
variable (p : Process)

theorem dcontext_fst (self : Nat) :
    (p.dcontext self).1 = (p.context self).getD (newThread self (p.id + 1)) := by
  unfold Process.dcontext
  cases p.context self <;> rfl

theorem context_self {self : Nat} {thrd : DBGTHREAD} (h : p.context self = some thrd) :
    thrd.self = self := by
  simpa using List.find?_some h

theorem dcontext_self (self : Nat) : (p.dcontext self).1.self = self := by
  rw [dcontext_fst]
  cases found : p.context self with
  | none => rfl
  | some thrd => exact context_self p found

theorem context_dcontext (self u : Nat) : (p.dcontext self).2.context u =
    if u = self then some (p.dcontext self).1 else p.context u := by
  unfold Process.dcontext
  cases found : p.context self with
  | some thrd =>
    dsimp only
    split
    · rename_i same
      rw [same, found]
    · rfl
  | none =>
    rw [Process.context] at found
    simp only [Process.context]
    by_cases bucket : hash u = hash self
    · rw [bucket, Function.update_self, List.find?_append]
      split
      · rename_i same
        rw [same, found]
        simp [newThread]
      · rename_i other
        simp [newThread, Ne.symm other]
    · rw [Function.update_of_ne bucket, if_neg fun same => bucket (congrArg hash same)]

theorem find?_replaced (threads : List DBGTHREAD) (thrd : DBGTHREAD) (u : Nat) :
    (threads.map fun old => if old.self = thrd.self then thrd else old).find? (·.self == u) =
      if u = thrd.self then (threads.find? (·.self == u)).map fun _ => thrd
      else threads.find? (·.self == u) := by
  induction threads with
  | nil => split <;> rfl
  | cons old threads ih =>
    rw [List.map_cons, List.find?_cons, ih, List.find?_cons]
    by_cases replaced : old.self = thrd.self
    · by_cases same : u = thrd.self
      · simp [replaced, same]
      · have other : (thrd.self == u) = false := by simpa using Ne.symm same
        simp [replaced, same, other]
    · by_cases same : u = thrd.self
      · have other : (old.self == thrd.self) = false := by simpa using replaced
        simp [replaced, same, other]
      · simp only [if_neg replaced, if_neg same]

theorem context_store (thrd : DBGTHREAD) (u : Nat) : (p.store thrd).context u =
    if u = thrd.self then (p.context u).map fun _ => thrd else p.context u := by
  simp only [Process.context, Process.store]
  by_cases bucket : hash u = hash thrd.self
  · rw [bucket, Function.update_self, find?_replaced]
  · rw [Function.update_of_ne bucket, if_neg fun same => bucket (congrArg hash same)]

end

/-! ## What a call does to the others -/

/-- What a call does to the commands and the files: a function that is entered
may open one, and the return that leaves no frame below removes them all. -/
structure Touches (last : Bool) (s s' : State) : Prop where
  marks : s'.marks = s.marks
  cmds : last = false → s'.g.cmds = s.g.cmds
  outs : last = false → Within s.g.outs s'.g.outs
  emptied : last = true → s'.g.cmds.hd = none
  closed : last = true → ∀ a, s'.g.outs.val? a = none
  idle : s'.thrd.stack = [] → s'.thrd = s.thrd

theorem Enters.touches {env : Env} {funcname : List Byte} {top : DBG} {s s' : State}
    (h : Enters env funcname top s s') : Touches false s s' where
  marks := h.marks
  cmds _ := h.cmds
  outs _ := by
    obtain ⟨t, redirected, -, outs⟩ := h.redirects
    have grows := redirectFiring_grows redirected
    rwa [outs]
  emptied := nofun
  closed := nofun
  idle empty := by
    rw [h.stack] at empty
    cases empty

theorem Leaves.touches {dbgtl : DBG} {below : List DBG} {s s' : State}
    (h : Leaves dbgtl below s s') : Touches below.isEmpty s s' where
  marks := h.marks
  cmds inner := h.cmds (by simpa using inner)
  outs inner := by
    rw [h.outs (by simpa using inner)]
    exact .refl _
  emptied last := h.emptied (by simpa using last)
  closed last := h.closed (by simpa using last)
  idle empty := by
    rw [h.stack'] at empty
    split at empty
    · cases empty
    · rename_i inner
      exact absurd empty inner

/-! ## A thread against the same thread alone -/

/-- What all threads share: the database of the start with more files open, or
none once a thread has returned. -/
structure Shared (p₀ : Process) (cmds : DList DBGCMD) (outs : DList DBGOUT) (cleaned : Bool) :
    Prop where
  same : cleaned = false → cmds = p₀.g.cmds
  within : cleaned = false → Within p₀.g.outs outs
  emptied : cleaned = true → cmds.hd = none
  closed : cleaned = true → ∀ a, outs.val? a = none

/-- The state `st` of a thread alone before it returns from its outermost
function: the frames' files are open, also among others. -/
structure Before (p₀ : Process) (outs : DList DBGOUT) (cleaned : Bool) (depth : Nat)
    (st : State) : Prop where
  length : st.thrd.stack.length = depth
  cmds : st.g.cmds = p₀.g.cmds
  start : Within p₀.g.outs st.g.outs
  opened : ∀ dbg ∈ st.thrd.stack, ∀ a ∈ dbg.dbgout, ∃ fp, fileOf st.g.outs a = some fp
  undirected : p₀.g.cmds.hd = none → ∀ dbg ∈ st.thrd.stack, dbg.dbgout = none
  within : cleaned = false → Within st.g.outs outs
  none' : cleaned = true → 0 < depth → p₀.g.cmds.hd = none

/-- And from then on, when the outermost frame stays. -/
structure After (cleaned : Bool) (depth : Nat) (st : State) : Prop where
  length : st.thrd.stack.length = depth + 1
  cleaned : cleaned = true
  cmds : st.g.cmds.hd = none
  outs : ∀ a, st.g.outs.val? a = none
  same : ∃ own, ∀ dbg ∈ st.thrd.stack, dbg.dbgout = own

def Matched (p₀ : Process) (outs : DList DBGOUT) (cleaned : Bool) (th : Thread) (st : State) :
    Prop :=
  if th.returned then After cleaned th.depth st else Before p₀ outs cleaned th.depth st

section
variable {env : Env} {p₀ : Process} {g : Globals} {cleaned : Bool} {th : Thread} {m st m' : State}

/-- Both find the same commands. -/
theorem Matched.findCmd (h : Matched p₀ g.outs cleaned th st)
    (shared : Shared p₀ g.cmds g.outs cleaned)
    (there : cleaned → th.returned ∨ p₀.g.cmds.hd = none) (funcname : List Byte) :
    findCmd st.g.cmds funcname = findCmd g.cmds funcname := by
  unfold Matched at h
  split at h
  · rw [findCmd_empty h.cmds, findCmd_empty (shared.emptied h.cleaned)]
  · rename_i inside
    rw [h.cmds]
    cases cl : cleaned with
    | false => rw [shared.same cl]
    | true => rw [findCmd_empty ((there cl).resolve_left inside), findCmd_empty (shared.emptied cl)]

theorem ownOut_none {s : State} (empty : s.g.cmds.hd = none) (c : Call) : s.ownOut c = none := by
  unfold State.ownOut
  split
  · rw [findCmd_empty empty]
    rfl
  · rfl

theorem Before.edbg {funcname : List Byte} {top : DBG} {st' : State} {outs outs' : DList DBGOUT}
    {depth : Nat} (h : Before p₀ outs cleaned depth st)
    (there : cleaned = true → p₀.g.cmds.hd = none)
    (enters : Enters env funcname top st st')
    (within : Within st.g.outs outs → Within st'.g.outs outs') :
    Before p₀ outs' cleaned (depth + 1) st' := by
  obtain ⟨t, redirected, -, opened⟩ := enters.redirects
  have opens := (redirectFiring_opens redirected).1
  have grows := redirectFiring_grows redirected
  change Within st.g.outs t.g.outs at grows
  rw [← opened] at opens grows
  have dbgout : top.dbgout = ((firing (Dbg.findCmd st.g.cmds funcname)
      (funcname :: st.chain)).bind DBGCMD.dbgout).or (st.thrd.stack.head?.bind DBG.dbgout) :=
    (congrArg DBG.dbgout enters.settings).trans (processed_dbgout ..)
  have stays {a : Nat} : (∃ fp, fileOf st.g.outs a = some fp) →
      ∃ fp, fileOf st'.g.outs a = some fp := fun ⟨fp, o⟩ => ⟨fp, grows.opened a fp o⟩
  exact
    { length := by rw [enters.stack, List.length_cons, h.length]
      cmds := enters.cmds.trans h.cmds
      start := h.start.trans grows
      opened := by
        rw [enters.stack]
        intro dbg mem a own
        rcases List.mem_cons.1 mem with rfl | mem
        · rw [dbgout, Option.mem_def, Option.or_eq_some_iff] at own
          rcases own with fires | ⟨-, inherits⟩
          · exact ⟨_, opens a fires⟩
          · obtain ⟨prv, head, own⟩ := Option.bind_eq_some_iff.1 inherits
            exact stays (h.opened prv (List.mem_of_mem_head? head) a own)
        · exact stays (h.opened dbg mem a own)
      undirected := by
        intro empty
        rw [enters.stack]
        intro dbg mem
        rcases List.mem_cons.1 mem with rfl | mem
        · rw [dbgout, h.cmds, findCmd_empty empty]
          cases head : st.thrd.stack.head? with
          | none => rfl
          | some prv => exact h.undirected empty prv (List.mem_of_mem_head? head)
        · exact h.undirected empty dbg mem
      within := fun cl => within (h.within cl)
      none' := fun cl _ => there cl }

theorem After.edbg {funcname : List Byte} {top : DBG} {st' : State} {depth : Nat}
    (h : After cleaned depth st) (enters : Enters env funcname top st st') :
    After cleaned (depth + 1) st' := by
  obtain ⟨t, redirected, -, outs⟩ := enters.redirects
  obtain ⟨own, same⟩ := h.same
  have settings := enters.settings
  rw [findCmd_empty h.cmds] at redirected settings
  cases redirected
  have dbgout : top.dbgout = st.thrd.stack.head?.bind DBG.dbgout :=
    (congrArg DBG.dbgout settings).trans (processed_dbgout ..)
  refine ⟨?_, h.cleaned, enters.cmds ▸ h.cmds, fun a => outs ▸ h.outs a, own, ?_⟩
  · rw [enters.stack, List.length_cons, h.length]
  · rw [enters.stack]
    intro dbg mem
    rcases List.mem_cons.1 mem with rfl | mem
    · obtain ⟨prv, below, stack⟩ := List.exists_cons_of_length_eq_add_one h.length
      rw [dbgout, stack]
      exact same prv (by rw [stack]; exact List.mem_cons_self)
    · exact same dbg mem

theorem Before.rdbg {dbgtl : DBG} {below : List DBG} {st' : State} {outs : DList DBGOUT}
    {depth : Nat} (h : Before p₀ outs cleaned depth st) (leaves : Leaves dbgtl below st st')
    (inner : below ≠ []) : Before p₀ outs cleaned (depth - 1) st' := by
  have stack' : st'.thrd.stack = below := by rw [leaves.stack', if_neg inner]
  have sub : ∀ dbg ∈ st'.thrd.stack, dbg ∈ st.thrd.stack := by
    rw [stack', leaves.stack]
    exact fun dbg mem => List.mem_cons_of_mem _ mem
  have length := h.length
  rw [leaves.stack, List.length_cons] at length
  exact
    { length := by rw [stack', ← length, Nat.add_sub_cancel]
      cmds := (leaves.cmds inner).trans h.cmds
      start := leaves.outs inner ▸ h.start
      opened := fun dbg mem => leaves.outs inner ▸ h.opened dbg (sub dbg mem)
      undirected := fun empty dbg mem => h.undirected empty dbg (sub dbg mem)
      within := fun cl => leaves.outs inner ▸ h.within cl
      none' := fun cl deep => h.none' cl (by omega) }

theorem After.rdbg {dbgtl : DBG} {below : List DBG} {st' : State} {depth : Nat}
    (h : After cleaned depth st) (leaves : Leaves dbgtl below st st') (inner : below ≠ []) :
    After cleaned (depth - 1) st' := by
  obtain ⟨own, same⟩ := h.same
  have stack' : st'.thrd.stack = below := by rw [leaves.stack', if_neg inner]
  have length := h.length
  rw [leaves.stack, List.length_cons] at length
  have nonempty := List.length_pos_iff.2 inner
  refine ⟨by rw [stack']; omega, h.cleaned, leaves.cmds inner ▸ h.cmds,
    fun a => leaves.outs inner ▸ h.outs a, own, ?_⟩
  rw [stack']
  exact fun dbg mem => same dbg (by rw [leaves.stack]; exact List.mem_cons_of_mem _ mem)

/-- The return from the outermost function. -/
theorem Leaves.after {dbgtl : DBG} {st' : State} (leaves : Leaves dbgtl [] st st') :
    After true 0 st' where
  length := by rw [leaves.stack', if_pos rfl]; rfl
  cleaned := rfl
  cmds := leaves.emptied rfl
  outs := leaves.closed rfl
  same := ⟨dbgtl.dbgout, by rw [leaves.stack', if_pos rfl]; simp⟩

/-- A function returns to one whose file is open in both. -/
theorem Matched.sameFiles (h : Matched p₀ m.g.outs cleaned th st) (thrd : st.thrd = m.thrd)
    (inside : 0 < th.depth) : SameFiles m st := by
  intro dbgtl prv below stack differ a own
  have mem : dbgtl ∈ st.thrd.stack ∧ prv ∈ st.thrd.stack := by simp [thrd, stack]
  unfold Matched at h
  split at h
  · obtain ⟨own', same⟩ := h.same
    exact absurd ((same dbgtl mem.1).trans (same prv mem.2).symm) differ
  · obtain ⟨fp, opened⟩ := h.opened prv mem.2 a own
    cases cl : cleaned with
    | false => exact ⟨fp, (h.within cl).opened a fp opened, opened⟩
    | true =>
      rw [h.undirected (h.none' cl inside) prv mem.2] at own
      cases own

/-- Which return leaves no frame below. -/
theorem Matched.last_iff {outs : DList DBGOUT} {dbgtl : DBG} {below : List DBG}
    (h : Matched p₀ outs cleaned th st) (stack : st.thrd.stack = dbgtl :: below)
    (inside : 0 < th.depth) (c : Call) : th.last (.rdbg c) = below.isEmpty := by
  unfold Matched at h
  split at h
  · rename_i returned
    have length := h.length
    rw [stack, List.length_cons] at length
    rw [Thread.last, returned, Bool.not_true, Bool.and_false, eq_comm, List.isEmpty_eq_false_iff,
      ← List.length_pos_iff]
    omega
  · rename_i returned
    have length := h.length
    rw [stack, List.length_cons] at length
    rw [Thread.last, Bool.not_eq_true] at *
    rw [returned, ← length]
    cases below <;> rfl

/-- **Own calls.** A call that goes on among other threads goes on alone, with
the same output. -/
theorem call_matched {a : Act} (may : th.may a) (alike : Alike m st)
    (shared : Shared p₀ m.g.cmds m.g.outs cleaned) (matched : Matched p₀ m.g.outs cleaned th st)
    (careful : ∀ c, a = .edbg c → (cleaned → th.returned ∨ p₀.g.cmds.hd = none) ∧
      ∀ a ∈ m.ownOut c, OwnFile env p₀.g.outs m.g.outs m.thrd.id a)
    (h : step env m a = some m') : ∃ st', step env st a = some st' ∧ Alike m' st' ∧
      Matched p₀ m'.g.outs (cleaned || th.last a) (th.next a m'.g.log) st' ∧
      Touches (th.last a) m m' := by
  have ok := toOption_some h
  cases a with
  | edbg c =>
    obtain ⟨there, own⟩ := careful c rfl
    have files : ∀ a ∈ m.ownOut c, OwnFile env p₀.g.outs m.g.outs m.thrd.id a ∧
        Within p₀.g.outs st.g.outs ∧ Within st.g.outs m.g.outs := by
      intro a fires
      -- a command fires, so that no thread has returned yet
      have cl : cleaned = false := by
        by_contra cl
        rw [ownOut_none (shared.emptied (by simpa using cl))] at fires
        cases fires
      unfold Matched at matched
      split at matched
      · rw [matched.cleaned] at cl
        cases cl
      · exact ⟨own a fires, matched.start, matched.within cl⟩
    obtain ⟨st', ok', alike', within⟩ := edbg_alike alike (matched.findCmd shared there) files ok
    obtain ⟨_, _, -, enters⟩ := edbg_enters ok
    obtain ⟨_, _, -, enters'⟩ := edbg_enters ok'
    have last : th.last (.edbg c) = false := rfl
    refine ⟨st', by rw [step, call, ok']; rfl, alike', ?_, enters.touches⟩
    unfold Matched at matched ⊢
    rw [Thread.next, last, Bool.or_false, Bool.or_false]
    split at matched
    · rename_i returned
      exact if_pos returned ▸ matched.edbg enters'
    · rename_i returned
      exact if_neg returned ▸
          matched.edbg (fun cl => (there cl).resolve_left returned) enters' within
  | rdbg c =>
    have inside : 0 < th.depth := by simpa [Thread.may] using may
    obtain ⟨st', ok', alike'⟩ := rdbg_alike alike (matched.sameFiles alike.thrd inside) m' ok
    obtain ⟨dbgtl, below, -, leaves⟩ := rdbg_leaves ok
    obtain ⟨dbgtl', below', -, leaves'⟩ := rdbg_leaves ok'
    have same : below' = below := by
      have := leaves'.stack.symm.trans ((congrArg DBGTHREAD.stack alike.thrd).trans leaves.stack)
      exact (List.cons.inj this).2
    rw [same] at leaves'
    have last := matched.last_iff leaves'.stack inside c
    refine ⟨st', by rw [step, call, ok']; rfl, alike', ?_, last ▸ leaves.touches⟩
    rw [Matched, Thread.next, last]
    cases below with
    | nil =>
      have depth : th.depth = 1 := by
        simp only [Thread.last, List.isEmpty_nil, Bool.and_eq_true, beq_iff_eq] at last
        exact last.1.2
      simp only [List.isEmpty_nil, Bool.or_true, if_true, depth]
      exact leaves'.after
    | cons prv below =>
      simp only [List.isEmpty_cons, Bool.or_false]
      unfold Matched at matched
      split at matched
      · rename_i returned
        rw [if_pos returned]
        exact matched.rdbg leaves' (by simp)
      · rename_i returned
        rw [if_neg returned, leaves.outs (by simp)]
        exact matched.rdbg leaves' (by simp)
  | dprintf detail c =>
    obtain ⟨st', ok', alike'⟩ := dprintf_alike alike m' ok
    obtain ⟨r, hr, rfl⟩ := map_ok ok
    obtain ⟨r', hr', rfl⟩ := map_ok ok'
    obtain ⟨marks, cmds, outs, idle⟩ := dprintf_ok hr
    obtain ⟨marks', cmds', outs', idle'⟩ := dprintf_ok hr'
    have stack' := (dprintf_adjusts hr').2
    have last : th.last (.dprintf detail c) = false := rfl
    refine ⟨r'.2, by rw [step, call, ok']; rfl, alike', ?_, ?_⟩
    · unfold Matched at matched ⊢
      rw [Thread.next, last, Bool.or_false, Bool.or_false, outs]
      split at matched
      · rename_i returned
        rw [if_pos returned]
        exact ⟨stack' ▸ matched.length, matched.cleaned, cmds' ▸ matched.cmds,
          outs' ▸ matched.outs, stack' ▸ matched.same⟩
      · rename_i returned
        rw [if_neg returned]
        exact ⟨stack' ▸ matched.length, cmds'.trans matched.cmds, outs' ▸ matched.start,
          stack' ▸ outs' ▸ matched.opened, stack' ▸ matched.undirected, outs' ▸ matched.within,
          matched.none'⟩
    · rw [last]
      exact ⟨marks, fun _ => cmds, fun _ => outs ▸ .refl _, nofun, nofun, fun empty =>
        idle ((dprintf_adjusts hr).2 ▸ empty)⟩
  | dbgswitch on => cases may
  | initdbg3 u buf => cases may
  | dsetjmp jb => cases may
  | dlongjmp jb c => cases may

theorem Shared.next {last : Bool} (h : Shared p₀ m.g.cmds m.g.outs cleaned)
    (touches : Touches last m m') :
    Shared p₀ m'.g.cmds m'.g.outs (cleaned || last) where
  same cl := by
    obtain ⟨cl, inner⟩ := Bool.or_eq_false_iff.1 cl
    rw [touches.cmds inner, h.same cl]
  within cl := by
    obtain ⟨cl, inner⟩ := Bool.or_eq_false_iff.1 cl
    exact (h.within cl).trans (touches.outs inner)
  emptied cl := by
    cases last with
    | true => exact touches.emptied rfl
    | false => exact touches.cmds rfl ▸ h.emptied (by simpa using cl)
  closed cl a := by
    cases last with
    | true => exact touches.closed rfl a
    | false =>
      have names := (touches.outs rfl).names a
      rw [h.closed (by simpa using cl) a] at names
      exact Option.map_eq_none_iff.1 names.symm

/-- **Calls of others.** They leave a thread as it is alone, unless it is inside
a function when one of them returns from its outermost. -/
theorem others_matched {last : Bool} (h : Matched p₀ m.g.outs cleaned th st)
    (touches : Touches last m m')
    (outside : last = true → p₀.g.cmds.hd = none ∨ th.depth = 0) :
    Matched p₀ m'.g.outs (cleaned || last) th st := by
  unfold Matched at h ⊢
  split at h
  · rename_i returned
    rw [if_pos returned]
    exact ⟨h.length, by rw [h.cleaned, Bool.true_or], h.cmds, h.outs, h.same⟩
  · rename_i returned
    rw [if_neg returned]
    refine ⟨h.length, h.cmds, h.start, h.opened, h.undirected, fun cl => ?_, fun cl deep => ?_⟩
    · obtain ⟨cl, inner⟩ := Bool.or_eq_false_iff.1 cl
      exact (h.within cl).trans (touches.outs inner)
    · rcases Bool.or_eq_true_iff.1 cl with cl | last
      · exact h.none' cl deep
      · exact (outside last).resolve_right (by omega)

end

/-! ## Runs -/

/-- A thread that has made calls, and its state alone. -/
structure Alone (env : Env) (p₀ p : Process) (cleaned : Bool) (u : Nat) (th : Thread) (id : Nat)
    (st : State) : Prop where
  start : (p₀.alone u id).thrd.stack = []
  run : run (step env) (p₀.alone u id) th.calls = some st
  context : p.context u = some st.thrd
  flags : st.g.flags = p₀.g.flags
  output : debugOutput th.out = debugOutput st.g.log
  matched : Matched p₀ p.g.outs cleaned th st

/-- What holds between calls. A context without frames is as `dcontext` makes it
or as it was at the start. -/
structure Inv (env : Env) (p₀ : Process) (w : World) : Prop where
  shared : Shared p₀ w.p.g.cmds w.p.g.outs w.cleaned
  flags : w.p.g.flags = p₀.g.flags
  idle : ∀ self thrd, w.p.context self = some thrd → thrd.stack = [] →
    ∃ id, thrd = (p₀.alone self id).thrd
  stays : ∀ self, w.p.context self = none → p₀.context self = none
  threads : ∀ self th, w.threads self = some th →
    if th.calls = [] then th = .new else ∃ id st, Alone env p₀ w.p w.cleaned self th id st

section
variable {env : Env} {p₀ : Process} {w w' : World}

theorem seen_marks (p : Process) (self : Nat) (log : List Out) : (p.seen self log).marks =
    (((p.dcontext self).1.self, (p.dcontext self).1.id), p.g.flags) := rfl

theorem Inv.start {self : Nat} (inv : Inv env p₀ w)
    (empty : (w.p.dcontext self).1.stack = []) :
    ∃ id, (w.p.dcontext self).1 = (p₀.alone self id).thrd := by
  rw [dcontext_fst] at empty ⊢
  cases found : w.p.context self with
  | none =>
    refine ⟨w.p.id + 1, ?_⟩
    rw [Process.alone, inv.stays self found]
  | some thrd => exact inv.idle self thrd found (by rwa [found] at empty)

/-- A thread's state alone when it makes a call, which may be the first one. -/
theorem Inv.ready {self : Nat} {th : Thread} (inv : Inv env p₀ w)
    (there : w.threads self = some th)
    (first : th.calls = [] → (w.p.dcontext self).1.stack = []) :
    ∃ id st, (p₀.alone self id).thrd.stack = [] ∧
      run (step env) (p₀.alone self id) th.calls = some st ∧
      Alike (w.p.seen self th.out) st ∧ Matched p₀ w.p.g.outs w.cleaned th st := by
  have threads := inv.threads self th there
  split at threads
  · rename_i none'
    obtain ⟨id, context⟩ := inv.start (first none')
    have empty : (p₀.alone self id).thrd.stack = [] := context ▸ first none'
    refine ⟨id, p₀.alone self id, empty, by rw [none']; rfl, ⟨context.symm, ?_, ?_⟩, ?_⟩
    · rw [seen_marks, context, inv.flags]
      rfl
    · rw [threads]
      rfl
    · rw [threads]
      refine ⟨by rw [empty]; rfl, rfl, .refl _, ?_, ?_, inv.shared.within, fun _ deep => ?_⟩
      · simp [empty]
      · simp [empty]
      · cases deep
  · obtain ⟨id, st, alone⟩ := threads
    have context : (w.p.dcontext self).1 = st.thrd := by
      rw [dcontext_fst, alone.context]
      rfl
    refine ⟨id, st, alone.start, alone.run, ⟨context.symm, ?_, alone.output.symm⟩, alone.matched⟩
    rw [seen_marks, context, inv.flags, ← alone.flags]
    rfl

/-- The contexts behind a call. -/
theorem call_some {p p' : Process} {self : Nat} {log log' : List Out} {a : Act} {m' : State}
    (marks : m'.marks = (p.seen self log).marks) (h : step env (p.seen self log) a = some m')
    (called : p.call env self log a = some (p', log')) :
    p'.g = { m'.g with log := [] } ∧ log' = m'.g.log ∧
      ∀ u, p'.context u = if u = self then some m'.thrd else p.context u := by
  rw [Process.call, h] at called
  cases called
  have own : m'.thrd.self = self :=
    (congrArg (·.1.1) marks).trans (dcontext_self p self)
  refine ⟨rfl, rfl, fun u => ?_⟩
  rw [context_store, own]
  change (if u = self then ((p.dcontext self).2.context u).map fun _ => m'.thrd
    else (p.dcontext self).2.context u) = _
  rw [context_dcontext]
  split
  · rfl
  · rfl

theorem call_inv {self : Nat} {a : Act} (inv : Inv env p₀ w)
    (careful : Careful env p₀ w (.call self a)) (h : worldStep env w (.call self a) = some w') :
    Inv env p₀ w' := by
  obtain ⟨th, there, h⟩ := Option.bind_eq_some_iff.1 h
  split at h
  swap
  · cases h
  rename_i may
  obtain ⟨first, careful⟩ := careful th there
  obtain ⟨⟨p', log'⟩, called, rfl⟩ := Option.map_eq_some_iff.1 h
  obtain ⟨m', hm, -⟩ := Option.map_eq_some_iff.1 called
  obtain ⟨id, st, start, alone, alike, matched⟩ := inv.ready there first
  obtain ⟨st', hst, alike', matched', touches⟩ := call_matched may alike inv.shared matched
    (by rintro c rfl; exact careful) hm
  obtain ⟨g', rfl, contexts⟩ := call_some touches.marks hm called
  have flags : m'.g.flags = w.p.g.flags := congrArg Prod.snd touches.marks
  have flags' : p'.g.flags = p₀.g.flags := by
    rw [g', ← inv.flags, ← flags]
    rfl
  refine ⟨?_, flags', ?_, ?_, ?_⟩
  · rw [g']
    exact inv.shared.next touches
  · intro u thrd found empty
    rw [contexts] at found
    split at found
    · rename_i same
      cases found
      have unchanged := touches.idle empty
      rw [unchanged] at empty ⊢
      rw [same]
      exact inv.start empty
    · exact inv.idle u thrd found empty
  · intro u found
    rw [contexts] at found
    split at found
    · cases found
    · exact inv.stays u found
  · intro u th' there'
    dsimp only at there' ⊢
    by_cases same : u = self
    · subst same
      rw [Function.update_self] at there'
      cases there'
      rw [if_neg (by simp [Thread.next])]
      refine ⟨id, st', start, ?_, ?_, ?_, ?_, ?_⟩
      · rw [Thread.next, run_append, alone]
        change (step env st a).bind _ = _
        rw [hst]
        rfl
      · rw [contexts, if_pos rfl, alike'.thrd]
      · have := congrArg Prod.snd alike'.marks
        change st'.g.flags = m'.g.flags at this
        rw [this, flags, inv.flags]
      · exact alike'.output.symm
      · rw [g']
        exact matched'
    · rw [Function.update_of_ne same] at there'
      have old := inv.threads u th' there'
      split at old
      · rename_i none'
        rw [if_pos none']
        exact old
      · rename_i some'
        obtain ⟨id', st₂, alone₂⟩ := old
        rw [if_neg some']
        refine ⟨id', st₂, alone₂.start, alone₂.run, ?_, alone₂.flags, alone₂.output, ?_⟩
        · rw [contexts, if_neg same]
          exact alone₂.context
        · rw [g']
          refine others_matched alone₂.matched touches fun last => ?_
          simp only [Thread.last, Bool.and_eq_true, beq_iff_eq, Bool.not_eq_true'] at last
          cases a with
          | rdbg c => exact (careful last.1.2 last.2).imp_right fun alone => alone u same th' there'
          | _ => cases last.1.1

theorem step_inv {e : Event} (inv : Inv env p₀ w) (careful : Careful env p₀ w e)
    (h : worldStep env w e = some w') : Inv env p₀ w' := by
  cases e with
  | call self a => exact call_inv inv careful h
  | start self =>
    rw [worldStep] at h
    split at h
    · cases h
    cases h
    refine ⟨inv.shared, inv.flags, inv.idle, inv.stays, fun u th there => ?_⟩
    dsimp only at there
    by_cases same : u = self
    · rw [same, Function.update_self] at there
      cases there
      rfl
    · rw [Function.update_of_ne same] at there
      exact inv.threads u th there
  | finish self =>
    obtain ⟨th, there, h⟩ := Option.bind_eq_some_iff.1 h
    split at h
    · cases h
      refine ⟨inv.shared, inv.flags, inv.idle, inv.stays, fun u th there => ?_⟩
      dsimp only at there
      by_cases same : u = self
      · rw [same, Function.update_self] at there
        cases there
      · rw [Function.update_of_ne same] at there
        exact inv.threads u th there
    · cases h

theorem Inv.isolated (inv : Inv env p₀ w) : Isolated env p₀ w := by
  intro u th there called
  have threads := inv.threads u th there
  rw [if_neg called] at threads
  obtain ⟨id, st, alone⟩ := threads
  refine ⟨id, st, alone.start, alone.run, alone.context, alone.output, fun inside => ?_⟩
  have matched := alone.matched
  unfold Matched at matched
  split at matched
  · rename_i returned
    refine ⟨fun funcname => (alone.matched.findCmd inv.shared (fun _ => .inl returned) _).symm, ?_⟩
    intro dbg _ a _
    rw [fileOf, fileOf, matched.outs, inv.shared.closed matched.cleaned]
  · refine ⟨fun funcname => (alone.matched.findCmd inv.shared
      (fun cl => .inr (matched.none' cl inside)) _).symm, ?_⟩
    intro dbg mem a own
    cases cl : w.cleaned with
    | false =>
      obtain ⟨fp, opened⟩ := matched.opened dbg mem a own
      rw [opened, (matched.within cl).opened a fp opened]
    | true =>
      rw [matched.undirected (matched.none' cl inside) dbg mem] at own
      cases own

end

/-- A process in which no thread runs yet. -/
def World.initial (p : Process) : World := ⟨p, fun _ => none, false⟩

theorem initial_inv (env : Env) (p₀ : Process) : Inv env p₀ (.initial p₀) where
  shared := ⟨fun _ => rfl, fun _ => .refl _, nofun, nofun⟩
  flags := rfl
  idle self thrd found _ :=
    ⟨0, by rw [Process.alone]; exact (congrArg (Option.getD · _) found).symm⟩
  stays _ := id
  threads := nofun

/-- **Isolation.** In the runs in which all calls are careful, every thread is in
every state as if it ran alone. -/
theorem isolation {env : Env} {p₀ : Process} {events : List Event}
    (careful : Along (worldStep env) (Careful env p₀) (.initial p₀) events) :
    Always (worldStep env) (Isolated env p₀) (.initial p₀) events :=
  Along.always (fun _ _ _ inv careful h => step_inv inv careful h) (fun _ inv => inv.isolated)
    (initial_inv env p₀) careful

/-- A process whose threads have not used the debugger, with these commands. -/
def Process.initial (g : Globals) : Process := ⟨g, 0, fun _ => []⟩

/-- Two threads that call `f` at one time, with a command for it. -/
theorem isolation_two : ∃ s,
    run (step .zero) (.initial .stdout) [.initdbg3 .zero (text "on f")] = some s ∧
    Always (worldStep .zero) (Isolated .zero (.initial s.g)) (.initial (.initial s.g))
      [.start 1, .start 2, .call 1 (.edbg (.of "g()")), .call 2 (.edbg (.of "main()")),
        .call 2 (.edbg (.of "f(x)")), .call 1 (.edbg (.of "f(y)")), .call 2 (.rdbg (.of "f")),
        .call 1 (.rdbg (.of "f"))] := by
  refine ⟨_, rfl, isolation fun w h => ⟨trivial, ?_⟩⟩
  cases h
  refine fun w h => ⟨trivial, ?_⟩
  cases h
  refine fun w h => ⟨?_, ?_⟩
  · rintro th ⟨⟩
    exact ⟨fun _ => rfl, nofun, nofun⟩
  cases h
  refine fun w h => ⟨?_, ?_⟩
  · rintro th ⟨⟩
    exact ⟨fun _ => rfl, nofun, nofun⟩
  cases h
  refine fun w h => ⟨?_, ?_⟩
  · rintro th ⟨⟩
    exact ⟨nofun, nofun, nofun⟩
  cases h
  refine fun w h => ⟨?_, ?_⟩
  · rintro th ⟨⟩
    exact ⟨nofun, nofun, nofun⟩
  cases h
  refine fun w h => ⟨?_, ?_⟩
  · rintro th ⟨⟩
    exact ⟨nofun, nofun⟩
  cases h
  refine fun w h => ⟨?_, trivial⟩
  rintro th ⟨⟩
  exact ⟨nofun, nofun⟩

/-- A thread that returns from its outermost function takes the commands from one
that is still inside its own. -/
theorem outermost_breaks : ∃ s w,
    run (step .zero) (.initial .stdout) [.initdbg3 .zero (text "on f")] = some s ∧
    run (worldStep .zero) (.initial (.initial s.g))
      [.start 1, .start 2, .call 1 (.edbg (.of "g()")), .call 2 (.edbg (.of "main()")),
        .call 1 (.rdbg (.of "g")), .call 2 (.edbg (.of "f(x)"))] = some w ∧
    ¬ Isolated .zero (.initial s.g) w := by
  refine ⟨_, _, rfl, rfl, fun isolated => ?_⟩
  obtain ⟨id, st, -, alone, -, output, -⟩ := isolated 2 _ rfl (List.cons_ne_nil _ _)
  cases alone
  -- alone `f` has an entry line, here the command for it is gone
  have printed : 0 = 1 := congrArg List.length output
  cases printed

end UnixProgramming.Dbg
