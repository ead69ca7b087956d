import UnixProgramming.Heap.DList

/-!
# Lists with a key

A doubly linked list whose values have distinct keys, as a map from keys to
values.

* `Keyed.find`: walking the list looks a key up;
* `Keyed.append`, `Keyed.modify`, `Keyed.delete`: what the map is then.
-/

namespace UnixProgramming.Heap

variable {α κ : Type} [BEq κ]

/-- The value with this key among the cells. -/
def lookup (key : α → κ) (cells : List (Nat × α)) (k : κ) : Option α :=
  (cells.find? fun cell => key cell.2 == k).map Prod.snd

/-- The list holds these cells, and their keys are distinct. -/
structure Keyed (key : α → κ) (d : DList α) (cells : List (Nat × α)) : Prop where
  linked : d.Is cells
  distinct : (cells.map fun cell => key cell.2).Nodup

section
variable {key : α → κ} {cells l r : List (Nat × α)} {k : κ} {p : Nat} {x old : α}

theorem lookup_cons : lookup key ((p, x) :: cells) k =
    if key x == k then some x else lookup key cells k := by
  rw [lookup, List.find?_cons]
  cases key x == k <;> rfl

theorem lookup_append : lookup key (l ++ r) k = (lookup key l k).or (lookup key r k) := by
  rw [lookup, List.find?_append, Option.map_or]
  rfl

theorem lookup_eq_none [LawfulBEq κ] :
    lookup key cells k = none ↔ ∀ cell ∈ cells, key cell.2 ≠ k := by
  simp [lookup]

end

namespace Keyed

variable {key : α → κ} {d : DList α} {cells l r : List (Nat × α)} {p : Nat} {x old : α}

theorem find (h : Keyed key d cells) (k : κ) :
    (d.find fun a => key a == k).map Prod.snd = lookup key cells k := by
  rw [DList.find_eq, DList.toList_eq h.linked]
  rfl

variable [LawfulBEq κ]

/-- Where one cell has the key, no other has. -/
theorem others (h : Keyed key d (l ++ (p, old) :: r)) :
    lookup key l (key old) = none ∧ lookup key r (key old) = none := by
  have distinct := h.distinct
  simp only [List.map_append, List.map_cons, List.nodup_append, List.nodup_cons] at distinct
  rw [lookup_eq_none, lookup_eq_none]
  constructor
  · intro cell there same
    exact distinct.2.2 _ (List.mem_map_of_mem there) _ List.mem_cons_self same
  · intro cell there same
    exact distinct.2.1.1 (same ▸ List.mem_map_of_mem there)

/-- Every value is the one with its key. -/
theorem mem (h : Keyed key d cells) {cell : Nat × α} (there : cell ∈ cells) :
    lookup key cells (key cell.2) = some cell.2 := by
  obtain ⟨l, r, rfl⟩ := List.append_of_mem there
  have others : lookup key l (key cell.2) = none := h.others.1
  rw [lookup_append, others, Option.none_or, lookup_cons, if_pos (beq_self_eq_true _)]

theorem lookup_key {k : κ} (there : lookup key cells k = some x) : key x = k := by
  obtain ⟨cell, found, rfl⟩ := Option.map_eq_some_iff.1 there
  have same := List.find?_some found
  exact eq_of_beq same

/-- A value with a new key. -/
theorem append (h : Keyed key d cells) (new : lookup key cells (key x) = none) :
    Keyed key (d.append x) (cells ++ [(d.brk, x)]) ∧
    ∀ k, lookup key (cells ++ [(d.brk, x)]) k =
      if key x == k then some x else lookup key cells k := by
  constructor
  · refine ⟨DList.append_is h.linked x, ?_⟩
    rw [List.map_append, List.nodup_append]
    refine ⟨h.distinct, List.nodup_singleton _, ?_⟩
    intro k there k' last
    obtain ⟨cell, inside, rfl⟩ := List.mem_map.1 there
    rw [List.mem_singleton.1 last]
    exact lookup_eq_none.1 new cell inside
  · intro k
    rw [lookup_append, lookup_cons]
    split
    · rename_i same
      rw [← eq_of_beq same, new, Option.none_or]
    · exact Option.or_none

/-- Another value with the key of the one in this cell. -/
theorem modify (h : Keyed key d (l ++ (p, old) :: r)) (same : key x = key old) :
    Keyed key (d.modify p fun _ => x) (l ++ (p, x) :: r) ∧
    ∀ k, lookup key (l ++ (p, x) :: r) k =
      if key x == k then some x else lookup key (l ++ (p, old) :: r) k := by
  constructor
  · refine ⟨DList.modify_is h.linked _, ?_⟩
    have distinct := h.distinct
    simpa only [List.map_append, List.map_cons, same] using distinct
  · intro k
    rw [lookup_append, lookup_append, lookup_cons, lookup_cons, same]
    split
    · rename_i there
      rw [← eq_of_beq there, h.others.1, Option.none_or]
    · rfl

/-- Taking out the value in this cell. -/
theorem delete (h : Keyed key d (l ++ (p, old) :: r)) :
    Keyed key ((d.unlink p).free p) (l ++ r) ∧
    ∀ k, lookup key (l ++ r) k =
      if key old == k then none else lookup key (l ++ (p, old) :: r) k := by
  constructor
  · have apart := h.linked.apart
    refine ⟨DList.free_is (DList.unlink_is h.linked) ?_, ?_⟩
    · intro cell there
      obtain there | there := List.mem_append.1 there
      · exact apart.1 cell there
      · exact apart.2 cell there
    · exact h.distinct.sublist (((List.sublist_cons_self _ _).append_left l).map _)
  · intro k
    rw [lookup_append, lookup_append, lookup_cons]
    split
    · rename_i there
      rw [← eq_of_beq there, h.others.1, h.others.2]
      rfl
    · rfl

end Keyed

end UnixProgramming.Heap
