import Mathlib.Data.Finset.Basic
import UnixProgramming.Ssl.Smaskwait

/-!
# Descriptors that are added and removed

`Smaskfdset` and `Smaskunfdset` against the set of the descriptors that have
been added and not removed since.

* `removes_iff`: when `Smaskunfdset` removes its descriptor and no other;
* `unfdset_removes`: the same, and every sequence of the two calls.
-/

namespace UnixProgramming.Ssl

open Heap Runs

/-- `Smaskunfdset` leaves the other descriptors in the mask and watched. -/
structure Masks.Removes (st : Masks) (fd : Nat) : Prop where
  mask : (st.smaskunfdset fd).mask = st.mask.erase fd
  below : ∀ d ∈ st.mask.erase fd, d < (st.smaskunfdset fd).waitall

/-- One of the two calls, the removal with a descriptor below `FD_SETSIZE`. -/
def MaskCall.OnFd : MaskCall → Prop
  | .fdset _ => True
  | .unfdset fd => fd < fdSetsize
  | _ => False

/-- The set with the descriptor added or removed; an illegal one is not added. -/
def MaskCall.asked (mask : FdSet) : MaskCall → FdSet
  | .fdset fd => if 0 ≤ fd ∧ fd < fdSetsize then insert fd.toNat mask else mask
  | .unfdset fd => mask.erase fd
  | _ => mask

/-! ## One call -/

theorem erase_zero_eq_empty {mask : FdSet} : mask.erase 0 = ∅ ↔ mask ⊆ {0} := by
  rw [← Finset.subset_empty, ← Finset.subset_insert_iff, insert_empty_eq]

/-- **Only 0 is not removed alone**, and only from a mask with others in it. -/
theorem removes_iff {st : Masks} (h : st.smaskget.Bounded) (fd : Nat) :
    st.Removes fd ↔ (fd = 0 → st.mask ⊆ {0}) := by
  by_cases zero : fd = 0
  · subst zero
    have cleared : (st.smaskunfdset 0).mask = ∅ := rfl
    refine ⟨fun removes _ => ?_, fun only => ⟨?_, ?_⟩⟩
    · rw [← erase_zero_eq_empty, ← removes.mask, cleared]
    · rw [cleared, erase_zero_eq_empty.2 (only rfl)]
    · rw [erase_zero_eq_empty.2 (only rfl)]
      simp
  · have erased : st.smaskunfdset fd = { st with mask := st.mask.erase fd } := if_pos zero
    refine iff_of_true ⟨?_, ?_⟩ fun zero' => absurd zero' zero
    · rw [erased]
    · rw [erased]
      exact h.erase fd

/-- Before the first `Smaskset` the mask is empty. -/
def Masks.Unused (st : Masks) : Prop := st.first → st.mask = ∅

theorem zeroFirst_mask {st : Masks} (h : st.Unused) : st.zeroFirst.mask = st.mask := by
  unfold Masks.zeroFirst
  split
  · rename_i first
    exact (h first).symm
  · rfl

theorem zeroFirst_first (st : Masks) : st.zeroFirst.first = false := by
  unfold Masks.zeroFirst
  split
  · rfl
  · rename_i first
    exact Bool.not_eq_true _ ▸ first

section
variable {st : Masks} {call : MaskCall} (h : st.Unused) (onFd : call.OnFd)
include h onFd

theorem apply_unused : (call.apply st).Unused := by
  cases call with
  | fdset fd =>
    intro first
    change (st.smaskfdset fd).first = true at first
    unfold Masks.smaskfdset at first
    split at first <;> simp [zeroFirst_first] at first
  | unfdset fd =>
    intro first
    change (st.smaskunfdset fd).mask = ∅
    unfold Masks.smaskunfdset
    split
    · rename_i some'
      have first' : st.first = true := by
        simpa [MaskCall.apply, Masks.smaskunfdset, some'] using first
      simp [h first']
    · rfl
  | _ => cases onFd

/-- A call does what is asked, unless it clears a mask with others in it. -/
theorem apply_asked (only : call = .unfdset 0 → st.mask ⊆ {0}) :
    (call.apply st).mask = call.asked st.mask := by
  cases call with
  | fdset fd =>
    change (st.smaskfdset fd).mask = _
    rw [← zeroFirst_mask h]
    unfold Masks.smaskfdset
    split
    · rename_i inside
      exact (if_pos inside).symm
    · rename_i outside
      exact (if_neg outside).symm
  | unfdset fd =>
    change (st.smaskunfdset fd).mask = st.mask.erase fd
    unfold Masks.smaskunfdset
    split
    · rfl
    · rename_i zero
      obtain rfl : fd = 0 := not_not.1 zero
      exact (erase_zero_eq_empty.2 (only rfl)).symm
  | _ => cases onFd

end

/-! ## Sequences of calls -/

/-- **The sequences that leave what was added and not removed**: all those in
which 0 is not removed while another descriptor is in. -/
theorem foldl_asked {st : Masks} (h : st.Unused) {calls : List MaskCall}
    (onFd : ∀ c ∈ calls, c.OnFd) :
    (∀ p, p <+: calls → (p.foldl MaskCall.apply st).mask = p.foldl MaskCall.asked st.mask) ↔
      ∀ p, p ++ [.unfdset 0] <+: calls → p.foldl MaskCall.asked st.mask ⊆ {0} := by
  constructor
  · intro right p clears
    have before := right p ((List.prefix_append ..).trans clears)
    have after := right _ clears
    rw [List.foldl_append, List.foldl_append, ← before] at after
    rw [← before, ← erase_zero_eq_empty]
    exact after.symm
  · intro only p hp
    suffices both : (p.foldl MaskCall.apply st).Unused ∧
        (p.foldl MaskCall.apply st).mask = p.foldl MaskCall.asked st.mask from both.2
    induction p using List.reverseRecOn with
    | nil => exact ⟨h, rfl⟩
    | append_singleton p call ih =>
      obtain ⟨unused, mask⟩ := ih ((List.prefix_append ..).trans hp)
      have legal : call.OnFd := onFd call (hp.subset (by simp))
      rw [List.foldl_append, List.foldl_append]
      refine ⟨apply_unused unused legal, ?_⟩
      change (call.apply _).mask = call.asked _
      rw [← mask]
      refine apply_asked unused legal fun zero => ?_
      rw [mask]
      exact only p (zero ▸ hp)

/-! ## All masks that there can be -/

/-- Before the first `Smaskset` there has been no other mask than the empty one. -/
structure MaskState.Blank (s : MaskState) : Prop where
  mask : s.masks.mask = ∅
  stack : s.masks.stack.tl = none
  handed : ∀ m ∈ s.handed, m.mask = ∅

theorem step_blank {s s' : MaskState} {call : MaskCall} (h : s.masks.first → s.Blank)
    (step : maskStep s call = some s') : s'.masks.first → s'.Blank := by
  obtain ⟨legal, masks, handed⟩ := maskStep_some step
  rw [masks]
  intro first
  -- only these calls leave `first` as it is
  have kept (first' : s.masks.first = true) (mask : (call.apply s.masks).mask = ∅)
      (stack : (call.apply s.masks).stack = s.masks.stack) : s'.Blank := by
    obtain ⟨empty, tl, all⟩ := h first'
    refine ⟨masks ▸ mask, by rw [masks, stack, tl], ?_⟩
    obtain same | more := handed
    · exact same ▸ all
    · rw [more]
      rintro m (_ | ⟨_, old⟩)
      · exact empty
      · exact all m old
  cases call with
  | set skt => cases skt <;> simp [MaskCall.apply, Masks.smaskset, zeroFirst_first] at first
  | fdset fd =>
    change (s.masks.smaskfdset fd).first = true at first
    unfold Masks.smaskfdset at first
    split at first <;> simp [zeroFirst_first] at first
  | unset skt =>
    cases skt with
    | none => exact kept first rfl rfl
    | some fd =>
      refine kept first ?_ rfl
      change s.masks.mask.erase fd = ∅
      simp [(h first).mask]
  | unfdset fd =>
    change (s.masks.smaskunfdset fd).first = true at first
    unfold Masks.smaskunfdset at first
    split at first
    · rename_i some'
      have erased : (MaskCall.unfdset fd).apply s.masks =
          { s.masks with mask := s.masks.mask.erase fd } := if_pos some'
      exact kept first (by simp [erased, (h first).mask]) (by rw [erased])
    · rename_i zero
      have cleared : (MaskCall.unfdset fd).apply s.masks =
          { s.masks with waitall := 0, mask := ∅ } := if_neg zero
      exact kept first (by rw [cleared]) (by rw [cleared])
  | get => exact kept first (h first).mask rfl
  | use usermask => exact kept first ((h first).handed _ legal) rfl
  | push => simp [MaskCall.apply, Masks.smaskpush, Masks.smaskset, zeroFirst_first] at first
  | pop =>
    change s.masks.smaskpop.first = true at first
    unfold Masks.smaskpop at first
    split at first
    · rename_i popped
      -- there is something on the stack only behind a `Smaskpush`
      have first' : s.masks.first = true := first
      rw [(h first').stack] at popped
      cases popped
    · simp [Masks.smaskset, zeroFirst_first] at first

theorem run_unused {calls : List MaskCall} {s : MaskState} (h : run maskStep .start calls = some s) :
    s.masks.Unused := by
  have blank : s.masks.first → s.Blank :=
    run_induction (A := fun _ => True) (I := fun s => s.masks.first → s.Blank)
      (fun _ _ _ _ => step_blank) (fun _ _ => trivial) h
      fun _ => ⟨rfl, rfl, by simp [MaskState.start]⟩
  exact fun first => (blank first).mask

/-- **Removing a descriptor.** Behind any calls, `Smaskunfdset` removes its
descriptor and no other exactly if it is not 0 or there is no other, and the
mask is what was added and not removed since, throughout a sequence of the two
calls, exactly if 0 is not removed in it while another descriptor is in. -/
theorem unfdset_removes {calls : List MaskCall} {s : MaskState}
    (h : run maskStep .start calls = some s) :
    (∀ fd < fdSetsize, s.masks.Removes fd ↔ (fd = 0 → s.masks.mask ⊆ {0})) ∧
    ∀ more : List MaskCall, (∀ c ∈ more, c.OnFd) →
      ((∀ p, p <+: more →
          (p.foldl MaskCall.apply s.masks).mask = p.foldl MaskCall.asked s.masks.mask) ↔
        ∀ p, p ++ [.unfdset 0] <+: more → p.foldl MaskCall.asked s.masks.mask ⊆ {0}) := by
  have sound : s.Sound := run_induction (A := fun _ => True) (fun _ _ _ _ => step_sound)
    (fun _ _ => trivial) h start_sound
  exact ⟨fun fd _ => removes_iff sound.current fd,
    fun more onFd => foldl_asked (run_unused h) onFd⟩

theorem unfdset_removes_few : (Masks.smaskfdset 0 .start).Removes 0 ∧
    ([.fdset 3, .unfdset 3].foldl MaskCall.apply (Masks.smaskfdset 0 .start)).mask = {0} := by
  obtain ⟨one, many⟩ := @unfdset_removes [.fdset 0] _ rfl
  refine ⟨(one 0 (by decide)).2 fun _ => by decide, ?_⟩
  have asked := (many [.fdset 3, .unfdset 3] (by simp [MaskCall.OnFd, fdSetsize])).2 fun p hp =>
    absurd (hp.subset (by simp)) (by decide : MaskCall.unfdset 0 ∉ [.fdset 3, .unfdset 3])
  exact asked _ List.prefix_rfl

/-- `Smaskfdset(0)`, `Smaskfdset(5)`, `Smaskunfdset(0)`: 5 is gone too. -/
theorem unfdset_clears :
    ([.fdset 0, .fdset 5, .unfdset 0].foldl MaskCall.apply .start).mask = ∅ ∧
      [.fdset 0, .fdset 5, .unfdset 0].foldl MaskCall.asked ∅ = {5} ∧
      ¬ (Masks.smaskfdset 5 (Masks.smaskfdset 0 .start)).Removes 0 := by
  refine ⟨by decide, by decide, fun removes => ?_⟩
  exact absurd removes.mask (by decide)

end UnixProgramming.Ssl
