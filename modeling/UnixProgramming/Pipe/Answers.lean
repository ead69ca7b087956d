import UnixProgramming.Pipe.Proc

/-!
# Programs and what they are answered

A run of a program seen from the program: the bytes that its calls hand over and
which of its waits find the connection ready. What the peer does is left open.

* `Proc.answered`: what a program returns on a list of answers;
* `answered_bind`: the answers to one program after another.
-/

namespace UnixProgramming.Pipe

/-- What one call of a program hands over. -/
inductive Response (β : Type) where
  | recv (u : Option (List β))
  | peek (u : Option (List β))
  | ready (is : Bool)
  deriving DecidableEq, Repr

/-- A wait in vain: nothing has come, or only the end of the stream. -/
def Response.vain {β : Type} : Response β → Bool
  | .recv _ => false
  | .peek u => (u.getD []).isEmpty
  | .ready is => !is

section
variable {ρ υ α : Type} {answers : List ρ} {c : υ → ρ} {P : υ → List ρ → α → Prop}
  {R : α → List ρ → Prop}

/-- One answer and then those to two programs: it belongs to the first of them. -/
theorem cons_cut_if {Q : υ → Prop} :
    (∃ u behind, answers = c u :: behind ∧ Q u ∧
      ∃ first rest a, behind = first ++ rest ∧ P u first a ∧ R a rest) ↔
    ∃ first rest a, answers = first ++ rest ∧
      (∃ u behind, first = c u :: behind ∧ Q u ∧ P u behind a) ∧ R a rest := by
  constructor
  · rintro ⟨u, -, rfl, is, first, rest, a, rfl, h, h'⟩
    exact ⟨c u :: first, rest, a, rfl, ⟨u, first, rfl, is, h⟩, h'⟩
  · rintro ⟨-, rest, a, rfl, ⟨u, first, rfl, is, h⟩, h'⟩
    exact ⟨u, first ++ rest, rfl, is, first, rest, a, rfl, h, h'⟩

theorem cons_cut :
    (∃ u behind, answers = c u :: behind ∧
      ∃ first rest a, behind = first ++ rest ∧ P u first a ∧ R a rest) ↔
    ∃ first rest a, answers = first ++ rest ∧
      (∃ u behind, first = c u :: behind ∧ P u behind a) ∧ R a rest := by
  have cut := @cons_cut_if ρ υ α answers c P R fun _ => True
  simpa only [true_and] using cut

end

namespace Proc

variable {β ν α γ : Type}

/-- What the program returns on just these answers. -/
def answered : Proc β ν α → List (Response β) → Option α
  | ret a, [] => some a
  | send _ k, answers => k.answered answers
  | recv len k, .recv u :: answers =>
    if (u.getD []).length ≤ len then (k u).answered answers else none
  | peek len k, .peek u :: answers =>
    if (u.getD []).length ≤ len then (k u).answered answers else none
  | await _ k, .ready is :: answers => (k is).answered answers
  | note _ k, answers => k.answered answers
  | _, _ => none

variable {answers : List (Response β)}

@[simp] theorem answered_ret {r : α} : (ret a : Proc β ν α).answered answers = some r ↔
    answers = [] ∧ a = r := by
  cases answers <;> simp [answered]

@[simp] theorem answered_send {r : α} (bs : List β) (k : Proc β ν α) :
    (send bs k).answered answers = some r ↔ k.answered answers = some r := by
  simp [answered]

@[simp] theorem answered_note {r : α} (n : ν) (k : Proc β ν α) :
    (note n k).answered answers = some r ↔ k.answered answers = some r := by
  simp [answered]

theorem answered_recv {r : α} (len : Nat) (k : Option (List β) → Proc β ν α) :
    (recv len k).answered answers = some r ↔ ∃ u rest, answers = .recv u :: rest ∧
      (u.getD []).length ≤ len ∧ (k u).answered rest = some r := by
  cases answers with
  | nil => simp [answered]
  | cons answer answers => cases answer <;> simp [answered]

theorem answered_peek {r : α} (len : Nat) (k : Option (List β) → Proc β ν α) :
    (peek len k).answered answers = some r ↔ ∃ u rest, answers = .peek u :: rest ∧
      (u.getD []).length ≤ len ∧ (k u).answered rest = some r := by
  cases answers with
  | nil => simp [answered]
  | cons answer answers => cases answer <;> simp [answered]

theorem answered_await {r : α} (timed : Bool) (k : Bool → Proc β ν α) :
    (await timed k).answered answers = some r ↔ ∃ is rest, answers = .ready is :: rest ∧
      (k is).answered rest = some r := by
  cases answers with
  | nil => simp [answered]
  | cons answer answers => cases answer <;> simp [answered]

theorem answered_spin : (spin : Proc β ν α).answered answers = none := by
  cases answers <;> rfl

/-- The answers to two programs in turn are those to the first and then those to
the second. -/
theorem answered_bind {p : Proc β ν α} {f : α → Proc β ν γ} {r : γ} :
    (p >>= f).answered answers = some r ↔ ∃ first rest a, answers = first ++ rest ∧
      p.answered first = some a ∧ (f a).answered rest = some r := by
  induction p generalizing answers with
  | ret a =>
    constructor
    · intro h
      exact ⟨[], answers, a, rfl, rfl, h⟩
    · rintro ⟨first, rest, a', rfl, h, h'⟩
      obtain ⟨rfl, rfl⟩ := answered_ret.1 h
      exact h'
  | send bs k ih =>
    simp only [send_bind, answered_send, ih]
  | note n k ih =>
    simp only [note_bind, answered_note, ih]
  | recv len k ih =>
    simp only [recv_bind, answered_recv, ih]
    exact cons_cut_if
  | peek len k ih =>
    simp only [peek_bind, answered_peek, ih]
    exact cons_cut_if
  | await timed k ih =>
    simp only [await_bind, answered_await, ih]
    exact cons_cut
  | spin =>
    rw [spin_bind]
    simp [answered_spin]

end Proc

end UnixProgramming.Pipe
