import Mathlib.Data.List.Basic

/-!
# Runs of a step function

A system whose next step is chosen from outside: an action that is impossible
in a state has no next state.

* `run_induction`: what every step keeps holds at the end of every run;
* `Along.always`: what the steps that are allowed keep holds throughout;
* `throughout_iff`: a property of all steps of a run, against a condition on
  the states they start from;
* `run_depth`: what holds at each depth of a nested run.
-/

namespace UnixProgramming.Runs

variable {σ α : Type} (step : σ → α → Option σ)

/-- The state after these actions, if all of them are possible. -/
def run : σ → List α → Option σ
  | s, [] => some s
  | s, a :: as => (step s a).bind fun s' => run s' as

/-- Every step of the run is one that `R` relates. -/
def Throughout (R : σ → α → σ → Prop) : σ → List α → Prop
  | _, [] => True
  | s, a :: as => ∀ s', step s a = some s' → R s a s' ∧ Throughout R s' as

/-- Every action that the run comes to is allowed by `P` there, also one that is
impossible. -/
def Tried (P : σ → α → Prop) : σ → List α → Prop
  | _, [] => True
  | s, a :: as => P s a ∧ ∀ s', step s a = some s' → Tried P s' as

/-- Every step of the run starts where `P` allows it. -/
abbrev Along (P : σ → α → Prop) : σ → List α → Prop := Throughout step fun s a _ => P s a

/-- Every state of the run satisfies `Q`. -/
def Always (Q : σ → Prop) (s : σ) (as : List α) : Prop :=
  Q s ∧ Throughout step (fun _ _ s' => Q s') s as

section
variable {step} {s s' : σ} {as bs : List α}

@[simp] theorem run_nil : run step s [] = some s := rfl

theorem run_cons_some {a : α} (h : run step s (a :: as) = some s') :
    ∃ t, step s a = some t ∧ run step t as = some s' :=
  Option.bind_eq_some_iff.1 h

theorem run_append : run step s (as ++ bs) = (run step s as).bind fun t => run step t bs := by
  induction as generalizing s with
  | nil => rfl
  | cons a as ih =>
    simp only [List.cons_append, run]
    cases step s a with
    | none => rfl
    | some t => exact ih

theorem run_append_some (h : run step s (as ++ bs) = some s') :
    ∃ t, run step s as = some t ∧ run step t bs = some s' := by
  rw [run_append] at h
  exact Option.bind_eq_some_iff.1 h

theorem run_induction {A : α → Prop} {I : σ → Prop}
    (keeps : ∀ s a s', A a → I s → step s a = some s' → I s') (acts : ∀ a ∈ as, A a)
    (h : run step s as = some s') (hs : I s) : I s' := by
  induction as generalizing s with
  | nil => cases h; exact hs
  | cons a as ih =>
    obtain ⟨t, ht, h⟩ := run_cons_some h
    obtain ⟨ha, acts⟩ := List.forall_mem_cons.1 acts
    exact ih acts h (keeps s a t ha hs ht)

/-- A condition that can be decided for each step can be decided for a run. -/
instance decidableAlong {P : σ → α → Prop} [∀ s a, Decidable (P s a)] :
    (s : σ) → (as : List α) → Decidable (Along step P s as)
  | _, [] => isTrue trivial
  | s, a :: as =>
    match h : step s a with
    | none => isTrue fun t ht => by rw [h] at ht; cases ht
    | some t =>
      have : Decidable (Along step P t as) := decidableAlong t as
      decidable_of_iff (P s a ∧ Along step P t as)
        ⟨fun both t' ht => by rw [h] at ht; cases ht; exact both, fun along => along t h⟩

theorem Throughout.mono {R R' : σ → α → σ → Prop} (sub : ∀ s a s', R s a s' → R' s a s')
    (h : Throughout step R s as) : Throughout step R' s as := by
  induction as generalizing s with
  | nil => trivial
  | cons a as ih => exact fun t ht => ⟨sub s a t (h t ht).1, ih (h t ht).2⟩

theorem Throughout.append (h : Throughout step R s (as ++ bs)) {t : σ}
    (run' : run step s as = some t) : Throughout step R t bs := by
  induction as generalizing s with
  | nil => cases run'; exact h
  | cons a as ih =>
    obtain ⟨u, hu, run'⟩ := run_cons_some run'
    exact ih (h u hu).2 run'

theorem Throughout.left (h : Throughout step R s (as ++ bs)) : Throughout step R s as := by
  induction as generalizing s with
  | nil => trivial
  | cons a as ih => exact fun t ht => ⟨(h t ht).1, ih (h t ht).2⟩

theorem Always.last {Q : σ → Prop} (h : Always step Q s as) (hr : run step s as = some s') :
    Q s' := by
  induction as generalizing s with
  | nil => cases hr; exact h.1
  | cons a as ih =>
    obtain ⟨t, ht, hr⟩ := run_cons_some hr
    exact ih ⟨(h.2 t ht).1, (h.2 t ht).2⟩ hr

theorem Always.left {Q : σ → Prop} (h : Always step Q s (as ++ bs)) : Always step Q s as :=
  ⟨h.1, h.2.left⟩

/-- What the steps that the condition allows keep holds in every state. -/
theorem Along.always {I Q : σ → Prop} {P : σ → α → Prop}
    (keeps : ∀ s a s', I s → P s a → step s a = some s' → I s') (right : ∀ s, I s → Q s)
    (hs : I s) (h : Along step P s as) : Always step Q s as := by
  induction as generalizing s with
  | nil => exact ⟨right s hs, trivial⟩
  | cons a as ih =>
    refine ⟨right s hs, fun t ht => ?_⟩
    have always := ih (keeps s a t hs (h t ht).1 ht) (h t ht).2
    exact always

/-- **Steps against conditions.** Where each step with one of these actions does
right exactly if it starts where the condition allows it, so do all steps of a run. -/
theorem throughout_iff {A : α → Prop} {I : σ → Prop} {R : σ → α → σ → Prop} {P : σ → α → Prop}
    (exact' : ∀ s a s', A a → I s → step s a = some s' → (R s a s' ↔ P s a))
    (keeps : ∀ s a s', A a → I s → step s a = some s' → R s a s' → I s')
    (acts : ∀ a ∈ as, A a) (hs : I s) : Throughout step R s as ↔ Along step P s as := by
  induction as generalizing s with
  | nil => exact Iff.rfl
  | cons a as ih =>
    obtain ⟨ha, acts⟩ := List.forall_mem_cons.1 acts
    constructor
    · intro h t ht
      have right := (h t ht).1
      exact ⟨(exact' s a t ha hs ht).1 right, (ih acts (keeps s a t ha hs ht right)).1 (h t ht).2⟩
    · intro h t ht
      have right := (exact' s a t ha hs ht).2 (h t ht).1
      exact ⟨right, (ih acts (keeps s a t ha hs ht right)).2 (h t ht).2⟩

end

/-! ## Nested runs -/

section
variable (opens closes : α → Bool)

/-- How deep the nesting is behind these actions, if none of them closes what
was open before. -/
def depth : Nat → List α → Option Nat
  | n, [] => some n
  | n, a :: as =>
    if opens a then depth (n + 1) as
    else if closes a then
      match n with
      | 0 => none
      | n + 1 => depth n as
    else depth n as

/-- As many closings as openings, and never more of them up to some point. -/
def Balanced (as : List α) : Prop := depth opens closes 0 as = some 0

instance : DecidablePred (Balanced opens closes) := fun _ => inferInstanceAs (Decidable (_ = _))

variable {step} {opens closes} {s s' : σ} {as : List α}

/-- **Nested runs.** With actions of which openings raise by one level, closings
lower by one and the others leave at its level, what holds at the level of the
start holds at the end at the level of the end. -/
theorem run_depth {A : α → Prop} {L : Nat → σ → Prop}
    (open' : ∀ n s a s', A a → opens a → L n s → step s a = some s' → L (n + 1) s')
    (close' : ∀ n s a s', A a → closes a → L (n + 1) s → step s a = some s' → L n s')
    (other' : ∀ n s a s', A a → ¬ opens a → ¬ closes a → L n s → step s a = some s' → L n s')
    {n m : Nat} (acts : ∀ a ∈ as, A a) (nested : depth opens closes n as = some m)
    (h : run step s as = some s') (hs : L n s) : L m s' := by
  induction as generalizing s n with
  | nil => cases nested; cases h; exact hs
  | cons a as ih =>
    obtain ⟨t, ht, h⟩ := run_cons_some h
    obtain ⟨ha, acts⟩ := List.forall_mem_cons.1 acts
    rw [depth.eq_def] at nested
    dsimp only at nested
    by_cases o : opens a
    · rw [if_pos o] at nested
      exact ih acts nested h (open' n s a t ha o hs ht)
    rw [if_neg o] at nested
    by_cases c : closes a
    · rw [if_pos c] at nested
      cases n with
      | zero => cases nested
      | succ n => exact ih acts nested h (close' n s a t ha c hs ht)
    · rw [if_neg c] at nested
      exact ih acts nested h (other' n s a t ha o c hs ht)

end

end UnixProgramming.Runs
