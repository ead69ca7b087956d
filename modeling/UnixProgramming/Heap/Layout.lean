import UnixProgramming.Heap.File

/-!
# Things laid out in a file

Things of different sizes, one behind the other, each of which is found at the
offset where it begins.

* `find_eq_some`: what there is at an offset;
* `find_put`, `find_put_other`, `find_snoc`: a thing that is replaced, and a new one;
* `pread_find`, `pwrite_put`: reading and writing them in the file;
* `pairwise`: all things in order.
-/

namespace UnixProgramming.Heap.Layout

variable {α β : Type} (enc : α → List β)

/-- The file of the things. -/
def flat (xs : List α) : List β := xs.flatMap enc

/-- The thing that begins at this offset. -/
def find : List α → Nat → Option α
  | [], _ => none
  | x :: xs, o =>
    if o = 0 then some x
    else if (enc x).length ≤ o then find xs (o - (enc x).length)
    else none

/-- Another thing in its place. -/
def put : List α → Nat → α → List α
  | [], _, _ => []
  | x :: xs, o, y =>
    if o = 0 then y :: xs
    else if (enc x).length ≤ o then x :: put xs (o - (enc x).length) y
    else x :: xs

section
variable {enc} {xs l r : List α} {x y z : α} {o o' k n : Nat} {zero : β} {bs : List β}

theorem flat_cons : flat enc (x :: xs) = enc x ++ flat enc xs := List.flatMap_cons ..
theorem flat_append : flat enc (l ++ r) = flat enc l ++ flat enc r := List.flatMap_append ..
theorem flat_snoc : flat enc (xs ++ [x]) = flat enc xs ++ enc x := by simp [flat]

/-- A thing that is found is in the list, behind others that fill the file up to it. -/
theorem find_split (h : find enc xs o = some x) :
    ∃ l r, xs = l ++ x :: r ∧ (flat enc l).length = o := by
  induction xs generalizing o with
  | nil => cases h
  | cons y ys ih =>
    rw [find] at h
    split at h
    · cases h
      exact ⟨[], ys, rfl, by simp_all [flat]⟩
    · split at h
      · obtain ⟨l, r, rfl, long⟩ := ih h
        exact ⟨y :: l, r, rfl, by rw [flat_cons, List.length_append]; omega⟩
      · cases h

theorem find_mem (h : find enc xs o = some x) : x ∈ xs := by
  obtain ⟨l, r, rfl, -⟩ := find_split h
  simp

/-- A thing that is found is inside the file. -/
theorem find_inside (h : find enc xs o = some x) :
    o + (enc x).length ≤ (flat enc xs).length := by
  obtain ⟨l, r, rfl, long⟩ := find_split h
  rw [flat_append, flat_cons, List.length_append, List.length_append]
  omega

variable (some' : ∀ x, enc x ≠ [])
include some'

theorem find_append : find enc (l ++ r) o =
    if o < (flat enc l).length then find enc l o else find enc r (o - (flat enc l).length) := by
  induction l generalizing o with
  | nil => simp [flat]
  | cons y ys ih =>
    have long := List.length_pos_of_ne_nil (some' y)
    simp only [List.cons_append, find, flat_cons, List.length_append, ih]
    by_cases zero' : o = 0
    · rw [if_pos zero', if_pos zero', if_pos (by omega)]
    · simp only [if_neg zero', Nat.sub_sub]
      by_cases behind : (enc y).length ≤ o
      · simp only [if_pos behind]
        refine if_congr ?_ rfl rfl
        omega
      · rw [if_neg behind, if_neg behind, if_pos (by omega)]

/-- What there is at an offset. -/
theorem find_eq_some :
    find enc xs o = some x ↔ ∃ l r, xs = l ++ x :: r ∧ (flat enc l).length = o := by
  constructor
  · exact find_split
  · rintro ⟨l, r, rfl, rfl⟩
    rw [find_append some', if_neg (by omega), Nat.sub_self]
    rfl

theorem find_here : find enc (l ++ x :: r) (flat enc l).length = some x :=
  (find_eq_some some').2 ⟨l, r, rfl, rfl⟩

omit some' in
theorem put_here (some' : ∀ x ∈ l, enc x ≠ []) :
    put enc (l ++ x :: r) (flat enc l).length y = l ++ y :: r := by
  induction l with
  | nil => rfl
  | cons z zs ih =>
    obtain ⟨first, some'⟩ := List.forall_mem_cons.1 some'
    have long := List.length_pos_of_ne_nil first
    rw [List.cons_append, put, flat_cons, List.length_append, if_neg (by omega),
      if_pos (by omega), Nat.add_sub_cancel_left, ih some']
    rfl

theorem find_put (h : find enc xs o = some x) : find enc (put enc xs o y) o = some y := by
  obtain ⟨l, r, rfl, rfl⟩ := find_split h
  rw [put_here fun x _ => some' x, find_here some']

theorem find_put_other (h : find enc xs o = some x) (same : (enc y).length = (enc x).length)
    (other : o' ≠ o) : find enc (put enc xs o y) o' = find enc xs o' := by
  obtain ⟨l, r, rfl, rfl⟩ := find_split h
  rw [put_here fun x _ => some' x, find_append some', find_append some']
  split
  · rfl
  · rename_i behind
    have later : o' - (flat enc l).length ≠ 0 := by omega
    rw [find, find, if_neg later, if_neg later, same]

theorem flat_put_length (h : find enc xs o = some x) (same : (enc y).length = (enc x).length) :
    (flat enc (put enc xs o y)).length = (flat enc xs).length := by
  obtain ⟨l, r, rfl, rfl⟩ := find_split h
  rw [put_here fun x _ => some' x]
  simp only [flat_append, flat_cons, List.length_append, same]

/-- A new thing at the end. -/
theorem find_snoc : find enc (xs ++ [y]) o =
    if o = (flat enc xs).length then some y else find enc xs o := by
  rw [find_append some']
  have long := List.length_pos_of_ne_nil (some' y)
  split
  · rw [if_neg (by omega)]
  · rename_i behind
    by_cases last : o = (flat enc xs).length
    · rw [if_pos last, last, Nat.sub_self]
      rfl
    · have none' : find enc xs o = none := by
        by_contra there
        obtain ⟨x, there⟩ := Option.ne_none_iff_exists'.1 there
        have := find_inside there
        omega
      rw [if_neg last, none', find, if_neg (by omega)]
      split <;> rfl

theorem mem_put (h : find enc xs o = some x) (there : z ∈ put enc xs o y) : z = y ∨ z ∈ xs := by
  obtain ⟨l, r, rfl, rfl⟩ := find_split h
  rw [put_here fun x _ => some' x] at there
  simp only [List.mem_append, List.mem_cons] at there ⊢
  tauto

theorem length_le_flat : xs.length ≤ (flat enc xs).length := by
  induction xs with
  | nil => exact Nat.zero_le _
  | cons x xs ih =>
    have long := List.length_pos_of_ne_nil (some' x)
    rw [flat_cons, List.length_append, List.length_cons]
    omega

/-- What holds of things at different offsets holds of all things in order. -/
theorem pairwise {R : α → α → Prop} (h : ∀ o o' x y, o ≠ o' → find enc xs o = some x →
    find enc xs o' = some y → R x y) : xs.Pairwise R := by
  suffices ∀ l r, xs = l ++ r → r.Pairwise R from this [] xs rfl
  intro l r
  induction r generalizing l with
  | nil => exact fun _ => .nil
  | cons x r ih =>
    rintro rfl
    refine .cons (fun y mem => ?_) (ih (l ++ [x]) (by simp))
    obtain ⟨r₁, r₂, rfl⟩ := List.append_of_mem mem
    refine h (flat enc l).length (flat enc (l ++ x :: r₁)).length x y ?_ (find_here some') ?_
    · have long := List.length_pos_of_ne_nil (some' x)
      rw [flat_append, flat_cons, List.length_append, List.length_append]
      omega
    · exact (find_eq_some some').2 ⟨l ++ x :: r₁, r₂, by simp, rfl⟩

omit some' in
/-- Reading inside a thing. -/
theorem pread_find (h : find enc xs o = some x) (inside : k + n ≤ (enc x).length) :
    pread (flat enc xs) (o + k) n = pread (enc x) k n := by
  obtain ⟨l, r, rfl, rfl⟩ := find_split h
  rw [flat_append, flat_cons, pread, ← List.drop_drop, List.drop_left' rfl, ← pread,
    pread_append inside]

/-- Writing what a thing begins with makes it another one of the same size. -/
theorem pwrite_put {rest : List β} (h : find enc xs o = some x)
    (old : ∃ bs', enc x = bs' ++ rest ∧ bs'.length = bs.length) (new : enc y = bs ++ rest) :
    pwrite zero (flat enc xs) o bs = flat enc (put enc xs o y) := by
  obtain ⟨l, r, rfl, rfl⟩ := find_split h
  obtain ⟨bs', old, long⟩ := old
  rw [put_here fun x _ => some' x, flat_append, flat_append, flat_cons, flat_cons, old, new,
    List.append_assoc, List.append_assoc, pwrite_mid rfl long.symm]

end

end UnixProgramming.Heap.Layout
