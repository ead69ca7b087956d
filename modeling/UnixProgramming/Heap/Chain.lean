import Mathlib.Logic.Function.Basic
import Mathlib.Data.List.Basic

/-!
# Chains of links

A chain goes from link to link until a link is null. A link is where it is
kept, and the first one is kept outside of the chain.

* `Chain.unique`: a link starts one chain;
* `Chain.at_last`, `chain_append`: a chain that is cut in two;
* `Chain.push`, `Chain.skip`: what remains a chain when links change.
-/

namespace UnixProgramming.Heap

variable {ρ : Type} {null : ρ} {next next' : ρ → ρ} {c x : ρ} {xs ys as bs : List ρ}

/-- The links from `c` on lead through `xs` and end. -/
def Chain (null : ρ) (next : ρ → ρ) : ρ → List ρ → Prop
  | c, [] => next c = null
  | c, x :: xs => next c = x ∧ x ≠ null ∧ Chain null next x xs

namespace Chain

theorem congr (h : Chain null next c xs) (same : ∀ y ∈ c :: xs, next' y = next y) :
    Chain null next' c xs := by
  induction xs generalizing c with
  | nil => exact (same c (by simp)).trans h
  | cons x xs ih =>
    obtain ⟨link, some', rest⟩ := h
    exact ⟨(same c (by simp)).trans link, some', ih rest fun y hy => same y (by simp [hy])⟩

theorem unique (h : Chain null next c xs) (h' : Chain null next c ys) : xs = ys := by
  induction xs generalizing c ys with
  | nil =>
    cases ys with
    | nil => rfl
    | cons y ys => exact absurd (h'.1.symm.trans h) h'.2.1
  | cons x xs ih =>
    cases ys with
    | nil => exact absurd (h.1.symm.trans h') h.2.1
    | cons y ys =>
      obtain rfl := h.1.symm.trans h'.1
      rw [ih h.2.2 h'.2.2]

theorem head (h : Chain null next c xs) : next c = xs.headD null := by
  cases xs with
  | nil => exact h
  | cons x xs => exact h.1

end Chain

/-- The links before `x` lead to it, and its own leads on. -/
theorem chain_append : Chain null next c (as ++ x :: bs) ↔
    (∀ y ∈ as, y ≠ null) ∧ (c :: as).IsChain (fun y z => next y = z) ∧
      next (as.getLastD c) = x ∧ x ≠ null ∧ Chain null next x bs := by
  induction as generalizing c with
  | nil => simp [Chain]
  | cons a as ih =>
    simp only [List.cons_append, Chain, ih, List.forall_mem_cons, List.isChain_cons_cons,
      List.getLastD_cons]
    tauto

namespace Chain

theorem at_last (h : Chain null next c (as ++ x :: bs)) :
    next (as.getLastD c) = x ∧ Chain null next x bs :=
  ⟨(chain_append.1 h).2.2.1, (chain_append.1 h).2.2.2.2⟩

/-- A new first element. -/
theorem push (h : Chain null next c xs) (some' : x ≠ null) (first : next' c = x)
    (link : next' x = next c) (same : ∀ y ∈ xs, next' y = next y) :
    Chain null next' c (x :: xs) := by
  refine ⟨first, some', ?_⟩
  cases xs with
  | nil => exact link.trans h
  | cons y ys =>
    obtain ⟨old, some'', rest⟩ := h
    exact ⟨link.trans old, some'', rest.congr same⟩

/-- An element that is passed over: only the link to it matters, its own may be anything. -/
theorem skip (h : Chain null next c (as ++ x :: bs)) (distinct : (c :: (as ++ x :: bs)).Nodup)
    (last : next' (as.getLastD c) = next x)
    (same : ∀ y ∈ c :: (as ++ bs), y ≠ as.getLastD c → next' y = next y) :
    Chain null next' c (as ++ bs) := by
  induction as generalizing c with
  | nil =>
    obtain ⟨-, -, rest⟩ := h
    simp only [List.nil_append, List.nodup_cons, List.mem_cons, not_or] at distinct
    simp only [List.getLastD_nil, List.nil_append, List.forall_mem_cons] at last same
    obtain ⟨⟨-, fresh⟩, -⟩ := distinct
    have same' : ∀ y ∈ bs, next' y = next y := fun y hy =>
      same.2 y hy fun e => fresh (e ▸ hy)
    cases bs with
    | nil => exact last.trans rest
    | cons b bs => exact ⟨last.trans rest.1, rest.2.1, rest.2.2.congr same'⟩
  | cons a as ih =>
    obtain ⟨link, some', rest⟩ := h
    rw [List.cons_append, List.nodup_cons] at distinct
    simp only [List.getLastD_cons] at last
    have other : c ≠ as.getLastD a := by
      intro e
      apply distinct.1
      rw [e, ← List.cons_append]
      exact List.mem_append_left _ (List.getLastD_mem_cons ..)
    simp only [List.getLastD_cons, List.cons_append] at same
    refine ⟨(same c (by simp) other).trans link, some', ih rest distinct.2 last ?_⟩
    exact fun y hy => same y (List.mem_cons_of_mem _ hy)

end Chain

end UnixProgramming.Heap
