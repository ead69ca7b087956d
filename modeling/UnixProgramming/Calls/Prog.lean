import Mathlib.Logic.Function.Basic

/-!
# Programs that make calls

A `Prog R` is a sequential program over calls, each of which hands over a value
of its own type. What the calls do is left to the reader of the program.

* `Prog.exec`, `Prog.steps`: a run with a function that answers the calls, and
  the first calls of one;
* `Prog.via`: a program whose calls are carried out by other programs.
-/

namespace UnixProgramming.Calls

/-- A program that makes calls. The call `c` hands over an `R c`. -/
inductive Prog {C : Type} (R : C → Type) (α : Type) : Type where
  | ret (a : α)
  | call (c : C) (k : R c → Prog R α)

namespace Prog

variable {C D σ τ α β γ : Type} {R : C → Type} {S : D → Type}

def bind : Prog R α → (α → Prog R β) → Prog R β
  | ret a, f => f a
  | call c k, f => call c fun r => (k r).bind f

instance : Monad (Prog R) where
  pure := ret
  bind := bind

/-- One call. -/
def ask (c : C) : Prog R (R c) := call c ret

@[simp] theorem pure_eq (a : α) : (pure a : Prog R α) = ret a := rfl
@[simp] theorem ret_bind (a : α) (f : α → Prog R β) : ret a >>= f = f a := rfl
@[simp] theorem call_bind (c : C) (k : R c → Prog R α) (f : α → Prog R β) :
    call c k >>= f = call c fun r => k r >>= f := rfl
@[simp] theorem ask_bind (c : C) (f : R c → Prog R β) : ask c >>= f = call c f := rfl

theorem id_map' (p : Prog R α) : id <$> p = p := by
  induction p with
  | ret a => rfl
  | call c k ih => exact congrArg (call c) (funext ih)

theorem bind_assoc' (p : Prog R α) (f : α → Prog R β) (g : β → Prog R γ) :
    p >>= f >>= g = p >>= fun a => f a >>= g := by
  induction p with
  | ret a => rfl
  | call c k ih => exact congrArg (call c) (funext ih)

instance : LawfulMonad (Prog R) := .mk' _ id_map' (fun _ _ => rfl) bind_assoc'

/-! ## A run -/

/-- A run with a function that answers the calls. When there is no answer, the
program stays where it is. -/
def exec (answer : (c : C) → σ → Option (R c × σ)) : Prog R α → σ → Option α × σ
  | ret a, s => (some a, s)
  | call c k, s =>
    match answer c s with
    | none => (none, s)
    | some (r, s') => (k r).exec answer s'

variable {answer : (c : C) → σ → Option (R c × σ)}

@[simp] theorem exec_ret (a : α) (s : σ) : (ret a : Prog R α).exec answer s = (some a, s) := rfl

theorem exec_call {c : C} {s s' : σ} {r : R c} (h : answer c s = some (r, s'))
    (k : R c → Prog R α) : (call c k).exec answer s = (k r).exec answer s' := by
  rw [exec, h]

theorem exec_stuck {c : C} {s : σ} (h : answer c s = none) (k : R c → Prog R α) :
    (call c k).exec answer s = (none, s) := by
  rw [exec, h]

/-- One program after another. -/
theorem exec_bind {p : Prog R α} {s s' : σ} {a : α} (h : p.exec answer s = (some a, s'))
    (f : α → Prog R β) : (p >>= f).exec answer s = (f a).exec answer s' := by
  induction p generalizing s with
  | ret b => cases h; rfl
  | call c k ih =>
    cases does : answer c s with
    | none =>
      rw [exec_stuck does] at h
      cases h
    | some x =>
      rw [exec_call does] at h
      rw [call_bind, exec_call does]
      exact ih _ h

theorem exec_bind_stuck {p : Prog R α} {s s' : σ} (h : p.exec answer s = (none, s'))
    (f : α → Prog R β) : (p >>= f).exec answer s = (none, s') := by
  induction p generalizing s with
  | ret b => cases h
  | call c k ih =>
    cases does : answer c s with
    | none =>
      rw [exec_stuck does] at h
      cases h
      rw [call_bind, exec_stuck does]
    | some x =>
      rw [exec_call does] at h
      rw [call_bind, exec_call does]
      exact ih _ h

/-- What is left of a program behind `n` calls. -/
def steps (answer : (c : C) → σ → Option (R c × σ)) : Nat → Prog R α → σ → Option (Prog R α × σ)
  | 0, p, s => some (p, s)
  | _ + 1, ret _, _ => none
  | n + 1, call c k, s => (answer c s).bind fun x => (k x.1).steps answer n x.2

theorem exists_steps {p : Prog R α} {s : σ} {a : α} (h : (p.exec answer s).1 = some a) :
    ∃ n, p.steps answer n s = some (ret a, (p.exec answer s).2) := by
  induction p generalizing s with
  | ret b =>
    cases h
    exact ⟨0, rfl⟩
  | call c k ih =>
    cases does : answer c s with
    | none =>
      rw [exec_stuck does] at h
      cases h
    | some x =>
      rw [exec_call does] at h ⊢
      obtain ⟨n, run⟩ := ih x.1 h
      exact ⟨n + 1, by rw [steps, does, Option.bind_some, run]⟩

/-- What a program has come to: its end, or a call. -/
def next : Prog R α → α ⊕ C
  | ret a => .inl a
  | call c _ => .inr c

/-! ## Calls that are programs -/

/-- The program with its calls carried out by other programs, which hand on a
value of their own from one call to the next. -/
def via (body : (c : C) → τ → Prog S (R c × τ)) : Prog R α → τ → Prog S α
  | ret a, _ => ret a
  | call c k, t => body c t >>= fun x => (k x.1).via body x.2

end Prog

end UnixProgramming.Calls
