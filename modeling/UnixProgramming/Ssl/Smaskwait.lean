import Mathlib.Data.Finset.Erase
import Mathlib.Data.Finset.Insert
import Mathlib.Data.Finset.Filter
import UnixProgramming.Heap.DList
import UnixProgramming.Runs.Basic

/-!
# Masks of descriptors to wait for

The static data of `Smaskwait.c` and the eight functions that change it.

* `step_sound`: every mask stays below the bound that is kept with it;
* `mask_machine`: what `Smaskwait` looks at, and that `Smaskpop` undoes
  `Smaskpush` whatever balanced calls lie between them.
-/

namespace UnixProgramming.Ssl

open Heap Runs

/-! ## The functions -/

def fdSetsize : Nat := 1024

abbrev FdSet := Finset Nat

structure Smask where
  mask : FdSet
  waitall : Nat
  deriving DecidableEq

/-- The static data of `Smaskwait.c`; `stack` is the list from `mshd` to `mstl`. -/
structure Masks where
  waitall : Nat
  mask : FdSet
  first : Bool
  stack : DList Smask

namespace Masks

def start : Masks := ⟨0, ∅, true, .empty⟩

/-- `if(first) { FD_ZERO(&mask); first= 0; }` -/
def zeroFirst (st : Masks) : Masks :=
  if st.first then { st with mask := ∅, first := false } else st

/-- `Smaskset`, with a Socket's descriptor or a null Socket. -/
def smaskset (skt : Option Nat) (st : Masks) : Masks :=
  match skt with
  | some fd =>
    { st.zeroFirst with
      mask := insert fd st.zeroFirst.mask
      waitall := if fd ≥ st.zeroFirst.waitall then fd + 1 else st.zeroFirst.waitall }
  | none => { st.zeroFirst with waitall := 0, mask := ∅ }

def smaskfdset (fd : Int) (st : Masks) : Masks :=
  if 0 ≤ fd ∧ fd < fdSetsize then
    { st.zeroFirst with
      mask := insert fd.toNat st.zeroFirst.mask
      waitall := if fd ≥ st.zeroFirst.waitall then fd.toNat + 1 else st.zeroFirst.waitall }
  else st.zeroFirst

def smaskunset (skt : Option Nat) (st : Masks) : Masks :=
  match skt with
  | some fd => { st with mask := st.mask.erase fd }
  | none => { st with waitall := 0, mask := ∅ }

/-- The descriptor 0 clears the mask as a null Socket does. -/
def smaskunfdset (fd : Nat) (st : Masks) : Masks :=
  if fd ≠ 0 then { st with mask := st.mask.erase fd } else { st with waitall := 0, mask := ∅ }

def smaskget (st : Masks) : Smask := ⟨st.mask, st.waitall⟩

def smaskuse (usermask : Smask) (st : Masks) : Masks :=
  { st with mask := usermask.mask, waitall := usermask.waitall }

def smaskpush (st : Masks) : Masks :=
  smaskset none { st with stack := st.stack.append st.smaskget }

def smaskpop (st : Masks) : Masks :=
  match st.stack.tl.bind fun old => (st.stack.cells old).map fun c => (old, c.val) with
  | some (old, saved) => { st.smaskuse saved with stack := (st.stack.unlink old).free old }
  | none => st.smaskset none

end Masks

/-- The descriptors that `select(waitall,&rmask,..)` looks at. -/
def Smask.watched (m : Smask) : FdSet := m.mask.filter (· < m.waitall)

/-! ## Calls -/

inductive MaskCall where
  | set (skt : Option Nat)
  | fdset (fd : Int)
  | unset (skt : Option Nat)
  | unfdset (fd : Nat)
  | get
  | use (usermask : Smask)
  | push
  | pop
  deriving DecidableEq

/-- The static data and the Smasks that `Smaskget` has handed out. -/
structure MaskState where
  masks : Masks
  handed : List Smask

def MaskState.start : MaskState := ⟨.start, []⟩

/-- A call with a descriptor below `FD_SETSIZE`, and of `Smaskuse` with an
Smask that `Smaskget` has handed out. -/
def MaskCall.Legal (handed : List Smask) : MaskCall → Prop
  | .set (some fd) | .unset (some fd) | .unfdset fd => fd < fdSetsize
  | .use usermask => usermask ∈ handed
  | _ => True

instance (handed : List Smask) : DecidablePred (MaskCall.Legal handed) := fun call => by
  unfold MaskCall.Legal
  split <;> infer_instance

def MaskCall.apply (st : Masks) : MaskCall → Masks
  | .set skt => st.smaskset skt
  | .fdset fd => st.smaskfdset fd
  | .unset skt => st.smaskunset skt
  | .unfdset fd => st.smaskunfdset fd
  | .get => st
  | .use usermask => st.smaskuse usermask
  | .push => st.smaskpush
  | .pop => st.smaskpop

def maskStep (s : MaskState) (call : MaskCall) : Option MaskState :=
  if call.Legal s.handed then
    some ⟨call.apply s.masks, if call = .get then s.masks.smaskget :: s.handed else s.handed⟩
  else none

def MaskCall.isPush (call : MaskCall) : Bool := call = .push
def MaskCall.isPop (call : MaskCall) : Bool := call = .pop

/-! ## What the calls keep -/

/-- Every descriptor in the mask is below the bound. -/
def Smask.Bounded (m : Smask) : Prop := ∀ fd ∈ m.mask, fd < m.waitall

theorem Smask.Bounded.watched {m : Smask} (h : m.Bounded) : m.watched = m.mask :=
  Finset.filter_true_of_mem h

section
variable {st : Masks}

theorem bounded_empty (waitall : Nat) : Smask.Bounded ⟨∅, waitall⟩ := by
  intro fd h
  simp at h

theorem Smask.Bounded.insert {m : Smask} (h : m.Bounded) (fd : Nat) :
    Smask.Bounded ⟨insert fd m.mask, if fd ≥ m.waitall then fd + 1 else m.waitall⟩ := by
  intro x hx
  rcases Finset.mem_insert.1 hx with rfl | old
  · dsimp only
    split <;> omega
  · have := h x old
    dsimp only
    split <;> omega

theorem Smask.Bounded.erase {m : Smask} (h : m.Bounded) (fd : Nat) :
    Smask.Bounded ⟨m.mask.erase fd, m.waitall⟩ :=
  fun x hx => h x (Finset.mem_of_mem_erase hx)

@[simp] theorem zeroFirst_stack (st : Masks) : st.zeroFirst.stack = st.stack := by
  unfold Masks.zeroFirst
  split <;> rfl

theorem zeroFirst_bounded (h : st.smaskget.Bounded) : st.zeroFirst.smaskget.Bounded := by
  unfold Masks.zeroFirst
  split
  · exact bounded_empty _
  · exact h

theorem smaskset_bounded (h : st.smaskget.Bounded) (skt : Option Nat) :
    (st.smaskset skt).smaskget.Bounded := by
  cases skt with
  | none => exact bounded_empty _
  | some fd => exact (zeroFirst_bounded h).insert fd

/-- A legal descriptor is treated as a Socket's. -/
theorem smaskfdset_legal {fd : Nat} (legal : fd < fdSetsize) :
    st.smaskfdset fd = st.smaskset (some fd) := by
  rw [Masks.smaskfdset, if_pos ⟨Int.natCast_nonneg fd, Int.ofNat_lt.2 legal⟩]
  simp only [ge_iff_le, Int.ofNat_le, Int.toNat_natCast]
  rfl

theorem smaskfdset_bounded (h : st.smaskget.Bounded) (fd : Int) :
    (st.smaskfdset fd).smaskget.Bounded := by
  by_cases inside : 0 ≤ fd ∧ fd < fdSetsize
  · obtain ⟨fd, rfl⟩ := Int.eq_ofNat_of_zero_le inside.1
    rw [smaskfdset_legal (Int.ofNat_lt.1 inside.2)]
    exact smaskset_bounded h _
  · rw [Masks.smaskfdset, if_neg inside]
    exact zeroFirst_bounded h

theorem smaskunset_bounded (h : st.smaskget.Bounded) (skt : Option Nat) :
    (st.smaskunset skt).smaskget.Bounded := by
  cases skt with
  | none => exact bounded_empty _
  | some fd => exact h.erase fd

theorem smaskunfdset_bounded (h : st.smaskget.Bounded) (fd : Nat) :
    (st.smaskunfdset fd).smaskget.Bounded := by
  unfold Masks.smaskunfdset
  split
  · exact h.erase fd
  · exact bounded_empty _

/-- All calls but two leave the stack alone. -/
theorem apply_stack {call : MaskCall} (push : call.isPush = false) (pop : call.isPop = false) :
    (call.apply st).stack = st.stack := by
  cases call with
  | set skt => cases skt <;> exact zeroFirst_stack st
  | fdset fd =>
    change (st.smaskfdset fd).stack = st.stack
    unfold Masks.smaskfdset
    split <;> exact zeroFirst_stack st
  | unset skt => cases skt <;> rfl
  | unfdset fd =>
    change (st.smaskunfdset fd).stack = st.stack
    unfold Masks.smaskunfdset
    split <;> rfl
  | get => rfl
  | use usermask => rfl
  | push => cases push
  | pop => cases pop

/-- `Smaskpush` puts the mask in use on the stack. -/
theorem smaskpush_is {cells : List (Nat × Smask)} (h : st.stack.Is cells) :
    st.smaskpush.stack.Is (cells ++ [(st.stack.brk, st.smaskget)]) := by
  rw [Masks.smaskpush, Masks.smaskset, zeroFirst_stack]
  exact DList.append_is h _

/-- `Smaskpop` takes the last mask off the stack and into use. -/
theorem smaskpop_is {cells : List (Nat × Smask)} {p : Nat × Smask}
    (h : st.stack.Is (cells ++ [p])) :
    st.smaskpop.smaskget = p.2 ∧ st.smaskpop.stack.Is cells := by
  have last : st.stack.tl = some p.1 := by rw [h.tl]; simp
  have cell := h.links cells p [] rfl
  have off : st.stack.tl.bind (fun old => (st.stack.cells old).map fun c => (old, c.val)) =
      some p := by
    rw [last, Option.bind_some, cell]
    rfl
  rw [Masks.smaskpop, off]
  refine ⟨rfl, DList.free_is ?_ h.apart.1⟩
  simpa using DList.unlink_is h

theorem smaskpop_empty (h : st.stack.Is []) : st.smaskpop = st.smaskset none := by
  have none' : st.stack.tl = none := h.tl
  rw [Masks.smaskpop, none', Option.bind_none]

end

/-- The mask in use, those on the stack and those handed out are below their
bounds, and the stack is a well-formed list. -/
structure MaskState.Sound (s : MaskState) : Prop where
  current : s.masks.smaskget.Bounded
  stack : ∃ cells, s.masks.stack.Is cells ∧ ∀ c ∈ cells, c.2.Bounded
  handed : ∀ m ∈ s.handed, m.Bounded

theorem start_sound : MaskState.start.Sound :=
  ⟨bounded_empty _, ⟨[], DList.empty_is, by simp⟩, by simp [MaskState.start]⟩

theorem maskStep_some {s s' : MaskState} {call : MaskCall} (h : maskStep s call = some s') :
    call.Legal s.handed ∧ s'.masks = call.apply s.masks ∧
      (s'.handed = s.handed ∨ s'.handed = s.masks.smaskget :: s.handed) := by
  unfold maskStep at h
  split at h
  · rename_i legal
    cases h
    refine ⟨legal, rfl, ?_⟩
    by_cases get : call = .get
    · exact .inr (if_pos get)
    · exact .inl (if_neg get)
  · cases h

theorem apply_sound {s : MaskState} (h : s.Sound) {call : MaskCall} (legal : call.Legal s.handed) :
    (call.apply s.masks).smaskget.Bounded ∧
      ∃ cells, (call.apply s.masks).stack.Is cells ∧ ∀ c ∈ cells, c.2.Bounded := by
  have same (push : call.isPush = false) (pop : call.isPop = false)
      (current : (call.apply s.masks).smaskget.Bounded) :
      (call.apply s.masks).smaskget.Bounded ∧
        ∃ cells, (call.apply s.masks).stack.Is cells ∧ ∀ c ∈ cells, c.2.Bounded := by
    refine ⟨current, ?_⟩
    rw [apply_stack push pop]
    exact h.stack
  obtain ⟨cells, is, bounded⟩ := h.stack
  cases call with
  | set skt => exact same rfl rfl (smaskset_bounded h.current skt)
  | fdset fd => exact same rfl rfl (smaskfdset_bounded h.current fd)
  | unset skt => exact same rfl rfl (smaskunset_bounded h.current skt)
  | unfdset fd => exact same rfl rfl (smaskunfdset_bounded h.current fd)
  | get => exact same rfl rfl h.current
  | use usermask => exact same rfl rfl (h.handed usermask legal)
  | push =>
    refine ⟨bounded_empty _, _, smaskpush_is is, ?_⟩
    intro c hc
    rcases List.mem_append.1 hc with old | new
    · exact bounded c old
    · rw [List.mem_singleton.1 new]
      exact h.current
  | pop =>
    rcases List.eq_nil_or_concat cells with rfl | ⟨cells, p, rfl⟩
    · change s.masks.smaskpop.smaskget.Bounded ∧ ∃ cells, s.masks.smaskpop.stack.Is cells ∧ _
      rw [smaskpop_empty is]
      refine ⟨bounded_empty _, [], ?_, by simp⟩
      rw [Masks.smaskset, zeroFirst_stack]
      exact is
    · rw [List.concat_eq_append] at is bounded
      obtain ⟨use, rest⟩ := smaskpop_is is
      refine ⟨?_, cells, rest, fun c hc => bounded c (by simp [hc])⟩
      change s.masks.smaskpop.smaskget.Bounded
      rw [use]
      exact bounded p (by simp)

theorem step_sound {s s' : MaskState} {call : MaskCall} (h : s.Sound)
    (step : maskStep s call = some s') : s'.Sound := by
  obtain ⟨legal, masks, handed⟩ := maskStep_some step
  obtain ⟨current, stack⟩ := apply_sound h legal
  rw [← masks] at current stack
  refine ⟨current, stack, ?_⟩
  rcases handed with same | more
  · rw [same]
    exact h.handed
  · rw [more]
    intro m hm
    rcases List.mem_cons.1 hm with rfl | old
    · exact h.current
    · exact h.handed m old

/-! ## Runs -/

/-- Behind these cells, the stack holds what the open pushes have put there. -/
def StackedOn (cells : List (Nat × Smask)) (n : Nat) (s : MaskState) : Prop :=
  ∃ more, more.length = n ∧ s.masks.stack.Is (cells ++ more)

/-- **Nested calls leave the stack below them alone.** -/
theorem balanced_stack {cells : List (Nat × Smask)} {s s' : MaskState} {calls : List MaskCall}
    (is : s.masks.stack.Is cells) (balanced : Balanced MaskCall.isPush MaskCall.isPop calls)
    (h : run maskStep s calls = some s') : s'.masks.stack.Is cells := by
  have level : StackedOn cells 0 s' := by
    refine run_depth (A := fun _ => True) ?_ ?_ ?_ (fun _ _ => trivial) balanced h
      ⟨[], rfl, by simpa using is⟩
    · rintro n s call s' - push ⟨more, len, is⟩ step
      obtain rfl : call = .push := by simpa [MaskCall.isPush] using push
      obtain ⟨-, masks, -⟩ := maskStep_some step
      refine ⟨more ++ [(s.masks.stack.brk, s.masks.smaskget)], by simp [len], ?_⟩
      rw [masks, ← List.append_assoc]
      exact smaskpush_is is
    · rintro n s call s' - pop ⟨more, len, is⟩ step
      obtain rfl : call = .pop := by simpa [MaskCall.isPop] using pop
      obtain ⟨-, masks, -⟩ := maskStep_some step
      rcases List.eq_nil_or_concat more with rfl | ⟨more, p, rfl⟩
      · cases len
      · rw [List.concat_eq_append, ← List.append_assoc] at is
        refine ⟨more, by simpa using len, ?_⟩
        rw [masks]
        exact (smaskpop_is is).2
    · rintro n s call s' - push pop ⟨more, len, is⟩ step
      obtain ⟨-, masks, -⟩ := maskStep_some step
      refine ⟨more, len, ?_⟩
      rw [masks, apply_stack (by simpa using push) (by simpa using pop)]
      exact is
  obtain ⟨more, len, is'⟩ := level
  obtain rfl := List.length_eq_zero_iff.1 len
  simpa using is'

/-- **The masks.** After any calls, every mask (in use, stacked or handed out)
is watched whole, and from there `Smaskpush` and `Smaskpop` around balanced
calls put back the mask, its bound and the cells of the stack. -/
theorem mask_machine (calls : List MaskCall) (s : MaskState)
    (h : run maskStep .start calls = some s) :
    (∀ m, m = s.masks.smaskget ∨ m ∈ s.masks.stack.vals ∨ m ∈ s.handed → m.watched = m.mask) ∧
    ∀ w s', Balanced MaskCall.isPush MaskCall.isPop w →
      run maskStep s (.push :: w ++ [.pop]) = some s' →
        s'.masks.smaskget = s.masks.smaskget ∧
          ∃ cells, s.masks.stack.Is cells ∧ s'.masks.stack.Is cells := by
  have sound : s.Sound := run_induction (A := fun _ => True) (fun _ _ _ _ => step_sound)
    (fun _ _ => trivial) h start_sound
  obtain ⟨cells, is, bounded⟩ := sound.stack
  constructor
  · rintro m (rfl | stacked | handed)
    · exact sound.current.watched
    · rw [DList.vals_eq is] at stacked
      obtain ⟨c, hc, rfl⟩ := List.mem_map.1 stacked
      exact (bounded c hc).watched
    · exact (sound.handed m handed).watched
  · intro w s' balanced h'
    obtain ⟨t, pushed, h'⟩ := run_cons_some h'
    obtain ⟨u, nested, h'⟩ := run_append_some h'
    obtain ⟨v, popped, h'⟩ := run_cons_some h'
    cases h'
    obtain ⟨-, masks, -⟩ := maskStep_some pushed
    have onTop : t.masks.stack.Is (cells ++ [(s.masks.stack.brk, s.masks.smaskget)]) := by
      rw [masks]
      exact smaskpush_is is
    obtain ⟨-, masks', -⟩ := maskStep_some popped
    obtain ⟨use, rest⟩ := smaskpop_is (balanced_stack onTop balanced nested)
    rw [masks']
    exact ⟨use, cells, is, rest⟩

def fewCalls : List MaskCall := [.set (some 3), .get, .push, .fdset 5]

theorem mask_machine_fewCalls : ∃ s s', run maskStep .start fewCalls = some s ∧
    run maskStep s (.push :: [.use ⟨{3}, 4⟩, .unset none] ++ [.pop]) = some s' ∧
    s.masks.smaskget.watched = s.masks.smaskget.mask ∧ s'.masks.smaskget = s.masks.smaskget := by
  refine ⟨_, _, rfl, rfl, (mask_machine fewCalls _ rfl).1 _ (.inl rfl), ?_⟩
  exact ((mask_machine fewCalls _ rfl).2 [.use ⟨{3}, 4⟩, .unset none] _ (by decide) rfl).1

end UnixProgramming.Ssl
