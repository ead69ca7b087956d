import UnixProgramming.Calls.Pool

/-!
# Locks taken in order

Programs some of whose calls take a lock or give one back. When each of them
takes its locks in the order of their ranks, whatever its calls hand over, and
ends without one, they do not all wait for one another.

* `Order.keeps`: a program that takes its locks in order; all rules are equivalences;
* `Order.step`: what one step leaves each program with;
* `Order.not_stuck`: one of the programs can go on.
-/

namespace UnixProgramming.Calls

variable {C L ι σ α β δ : Type} {R : C → Type}

/-- Which calls there may be, the locks they take and give back, and the ranks of these. -/
structure Order (C L : Type) where
  may : C → Prop
  takes : C → Option L
  gives : C → Option L
  rank : L → Nat

namespace Order

variable [DecidableEq L] {O : Order C L} {held : List L} {c : C}

/-- The locks of a program after a call. -/
def after (O : Order C L) (c : C) (held : List L) : List L :=
  (O.takes c).toList ++ (O.gives c).elim held held.erase

/-- `p` takes a lock only when all it has are of lower rank. -/
def keeps (O : Order C L) : Prog R α → (α → List L → Prop) → List L → Prop
  | .ret a, Q, held => Q a held
  | .call c k, Q, held => O.may c ∧ (∀ l ∈ O.takes c, ∀ l' ∈ held, O.rank l' < O.rank l) ∧
      ∀ r, O.keeps (k r) Q (O.after c held)

theorem keeps.mono {p : Prog R α} {Q Q' : α → List L → Prop} (h : O.keeps p Q held)
    (imp : ∀ a held, Q a held → Q' a held) : O.keeps p Q' held := by
  induction p generalizing held with
  | ret a => exact imp a held h
  | call c k ih => exact ⟨h.1, h.2.1, fun r => ih r (h.2.2 r)⟩

theorem keeps_bind {p : Prog R α} {f : α → Prog R β} {Q : β → List L → Prop} :
    O.keeps (p >>= f) Q held ↔ O.keeps p (fun a held => O.keeps (f a) Q held) held := by
  induction p generalizing held with
  | ret a => exact Iff.rfl
  | call c k ih => simp only [Prog.call_bind, keeps, ih]

/-- `keeps` of a program that keeps a `δ` to itself. -/
def does (O : Order C L) (m : StateT δ (Prog R) α) (Q : α → δ → List L → Prop) (d : δ)
    (held : List L) : Prop :=
  O.keeps (m.run d) (fun x held => Q x.1 x.2 held) held

section
variable {m : StateT δ (Prog R) α} {f : α → StateT δ (Prog R) β} {Q Q' : α → δ → List L → Prop}
  {Q₂ : β → δ → List L → Prop} {d : δ}

theorem does.mono (h : O.does m Q d held) (imp : ∀ a d held, Q a d held → Q' a d held) :
    O.does m Q' d held :=
  keeps.mono h fun x => imp x.1 x.2

theorem does_bind : O.does (m >>= f) Q₂ d held ↔
    O.does m (fun a d held => O.does (f a) Q₂ d held) d held :=
  keeps_bind

end

/-! ## Side by side -/

variable {sem : Sem ι σ R} {Q : β → List L → Prop} {P P' : Pool R ι σ β} {i : ι}
  {helds : ι → List L}

/-- What a step leaves each program with. -/
theorem step [DecidableEq ι] {k : R c → Prog R β} {r : R c}
    (all : ∀ j, O.keeps (P.prog j) Q (helds j)) (next : P.prog i = .call c k) (j : ι) :
    O.keeps (Function.update P.prog i (k r) j) Q
      (Function.update helds i (O.after c (helds i)) j) := by
  rcases eq_or_ne j i with rfl | other
  · have mine := all j
    rw [next] at mine
    simpa only [Function.update_self] using mine.2.2 r
  · simpa only [Function.update_of_ne other] using all j

/-- **Not all wait.** A program that cannot make its call waits for a lock of
the same rank as the one it wants, and who has that one wants one of higher rank.
Whoever has a lock is alive. -/
theorem not_stuck {most : Nat} {live : ι → Prop} (bounded : ∀ l, O.rank l ≤ most)
    (all : ∀ j, O.keeps (P.prog j) (fun _ held => held = []) (helds j))
    (waits : ∀ i c k, live i → P.prog i = .call c k → (∃ r s, sem i c P.state r s) ∨
      ∃ l ∈ O.takes c, ∃ j, ∃ l' ∈ helds j, O.rank l' = O.rank l)
    (lives : ∀ j, ∀ l ∈ helds j, live j) (alive : live i) (more : ∀ b, P.prog i ≠ .ret b) :
    ∃ j c k r s, P.prog j = .call c k ∧ sem j c P.state r s := by
  by_contra stuck
  push Not at stuck
  have wait {j : ι} {c : C} {k : R c → Prog R β} (alive : live j) (next : P.prog j = .call c k) :
      ∃ l ∈ O.takes c, ∃ j', ∃ l' ∈ helds j', O.rank l' = O.rank l := by
    refine (waits j c k alive next).resolve_left ?_
    rintro ⟨r, s, does⟩
    exact stuck j c k r s next does
  have higher (n : Nat) : ∃ j c, ∃ k : R c → Prog R β, live j ∧ P.prog j = .call c k ∧
      ∃ l ∈ O.takes c, n ≤ O.rank l := by
    induction n with
    | zero =>
      cases prog : P.prog i with
      | ret b => exact absurd prog (more b)
      | call c k =>
        obtain ⟨l, takes, -⟩ := wait alive prog
        exact ⟨i, c, k, alive, prog, l, takes, Nat.zero_le _⟩
    | succ n ih =>
      obtain ⟨j, c, k, alive', next, l, takes, le⟩ := ih
      obtain ⟨l₁, takes₁, j', l', has, same⟩ := wait alive' next
      obtain rfl := Option.mem_unique takes takes₁
      have theirs := all j'
      cases prog : P.prog j' with
      | ret b =>
        rw [prog, keeps] at theirs
        rw [theirs] at has
        cases has
      | call c' k' =>
        rw [prog] at theirs
        obtain ⟨l'', takes', -⟩ := wait (lives j' l' has) prog
        have := theirs.2.1 l'' takes' l' has
        exact ⟨j', c', k', lives j' l' has, prog, l'', takes', by omega⟩
  obtain ⟨-, -, -, -, -, l, -, le⟩ := higher (most + 1)
  exact absurd (bounded l) (by omega)

end Order

end UnixProgramming.Calls
