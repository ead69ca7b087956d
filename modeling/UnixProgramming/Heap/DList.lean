import Mathlib.Data.List.Nodup
import Mathlib.Data.List.Range
import Mathlib.Data.List.Perm.Subperm

/-!
# Doubly linked lists in a heap

The pointer operations of a C list with a head and a tail pointer, and what
they do to the list of values they hold.

* `DList.Is`: the heap holds these cells, linked in this order both ways;
* `append_is`, `unlink_is`: adding at the tail, taking a cell out anywhere;
* `toList_eq`, `find_eq`: walking the `nxt` pointers visits exactly the list.
-/

namespace UnixProgramming.Heap

variable {α : Type}

structure Cell (α : Type) where
  val : α
  nxt : Option Nat
  prv : Option Nat

/-- Cells by address, the two end pointers, and the next address `malloc`
returns. Addresses are never used again. -/
structure DList (α : Type) where
  cells : Nat → Option (Cell α)
  hd : Option Nat
  tl : Option Nat
  brk : Nat

namespace DList

def empty : DList α := ⟨fun _ => none, none, none, 0⟩

/-- `p->nxt= v`, for a pointer that may be null in the caller's test. -/
def setNxt (d : DList α) (p v : Option Nat) : DList α :=
  { d with cells := fun a =>
      if p = some a then (d.cells a).map fun c => { c with nxt := v } else d.cells a }

def setPrv (d : DList α) (p v : Option Nat) : DList α :=
  { d with cells := fun a =>
      if p = some a then (d.cells a).map fun c => { c with prv := v } else d.cells a }

/-- Allocate a cell and link it behind the tail. -/
def append (d : DList α) (x : α) : DList α :=
  let p := d.brk
  let d' := if d.tl.isSome then d.setNxt d.tl (some p) else { d with hd := some p }
  { d' with
    cells := fun a => if a = p then some ⟨x, none, d.tl⟩ else d'.cells a
    tl := some p
    brk := p + 1 }

/-- Take the cell at `p` out of the list; the cell itself stays allocated. -/
def unlink (d : DList α) (p : Nat) : DList α :=
  match d.cells p with
  | none => d
  | some c =>
    let d := if c.prv.isSome then d.setNxt c.prv c.nxt else { d with hd := c.nxt }
    if c.nxt.isSome then d.setPrv c.nxt c.prv else { d with tl := c.prv }

def free (d : DList α) (p : Nat) : DList α :=
  { d with cells := fun a => if a = p then none else d.cells a }

/-- `p->field= ...`: the value in the cell at `p` changes. -/
def modify (d : DList α) (p : Nat) (f : α → α) : DList α :=
  { d with cells := fun a =>
      if a = p then (d.cells a).map fun c => { c with val := f c.val } else d.cells a }

/-- The value behind a pointer, unless it is dangling. -/
def val? (d : DList α) (p : Nat) : Option α := (d.cells p).map Cell.val

@[simp] theorem val?_modify_self (d : DList α) (p : Nat) (f : α → α) :
    (d.modify p f).val? p = (d.val? p).map f := by
  simp only [val?, modify, if_true, Option.map_map]
  rfl

@[simp] theorem val?_modify_ne (d : DList α) {p q : Nat} (f : α → α) (ne : q ≠ p) :
    (d.modify p f).val? q = d.val? q := by
  simp [val?, modify, ne]

/-- The cells met from `p` on, for at most `n` steps. -/
def walk (d : DList α) : Nat → Option Nat → List (Nat × α)
  | 0, _ => []
  | _ + 1, none => []
  | n + 1, some p =>
    match d.cells p with
    | none => []
    | some c => (p, c.val) :: d.walk n c.nxt

/-- The cells from the head on. -/
def toList (d : DList α) : List (Nat × α) := d.walk d.brk d.hd

def vals (d : DList α) : List α := d.toList.map Prod.snd

/-- `for(p= hd; p; p= p->nxt) if(test) break;` -/
def findFrom (d : DList α) (test : α → Bool) : Nat → Option Nat → Option (Nat × α)
  | 0, _ => none
  | _ + 1, none => none
  | n + 1, some p =>
    match d.cells p with
    | none => none
    | some c => if test c.val then some (p, c.val) else d.findFrom test n c.nxt

def find (d : DList α) (test : α → Bool) : Option (Nat × α) := d.findFrom test d.brk d.hd

/-- The list is well formed and holds these cells in this order: the ends are
the head and the tail pointer, both null for no cells, `nxt` and `prv` are the
neighbours, and no cell occurs twice. -/
structure Is (d : DList α) (as : List (Nat × α)) : Prop where
  hd : d.hd = as.head?.map Prod.fst
  tl : d.tl = as.getLast?.map Prod.fst
  nodup : (as.map Prod.fst).Nodup
  below : ∀ a ∈ as, a.1 < d.brk
  links : ∀ l a r, as = l ++ a :: r →
    d.cells a.1 = some ⟨a.2, r.head?.map Prod.fst, l.getLast?.map Prod.fst⟩

theorem empty_is : (empty : DList α).Is [] where
  hd := rfl
  tl := rfl
  nodup := by simp
  below := by simp
  links := by simp

theorem Is.length_le {d : DList α} {as : List (Nat × α)} (h : d.Is as) : as.length ≤ d.brk := by
  have sub : as.map Prod.fst ⊆ List.range d.brk := by
    intro a ha
    obtain ⟨x, hx, rfl⟩ := List.mem_map.1 ha
    exact List.mem_range.2 (h.below x hx)
  simpa using (h.nodup.subperm sub).length_le

/-- Two cells of one list with the same address are the same cell. -/
theorem Is.apart {d : DList α} {l r : List (Nat × α)} {a : Nat × α} (h : d.Is (l ++ a :: r)) :
    (∀ b ∈ l, b.1 ≠ a.1) ∧ ∀ b ∈ r, b.1 ≠ a.1 := by
  have hn := h.nodup
  simp only [List.map_append, List.map_cons, List.nodup_append, List.nodup_cons] at hn
  constructor
  · intro b hb e
    exact hn.2.2 b.1 (List.mem_map_of_mem hb) a.1 (by simp) e
  · intro b hb e
    exact hn.2.1.1 (e ▸ List.mem_map_of_mem hb)

theorem walk_eq {d : DList α} {as : List (Nat × α)} (h : d.Is as) :
    ∀ n l r, as = l ++ r → r.length ≤ n → d.walk n (r.head?.map Prod.fst) = r := by
  intro n
  induction n with
  | zero => intro l r _ hn; rw [List.length_eq_zero_iff.1 (Nat.le_zero.1 hn)]; rfl
  | succ n ih =>
    intro l r e hn
    cases r with
    | nil => rfl
    | cons a r =>
      simp only [List.head?_cons, Option.map_some, walk, h.links l a r e]
      rw [ih (l ++ [a]) r (by simp [e]) (by simpa using hn)]

theorem toList_eq {d : DList α} {as : List (Nat × α)} (h : d.Is as) : d.toList = as := by
  unfold toList
  rw [h.hd]
  exact walk_eq h d.brk [] as rfl h.length_le

theorem vals_eq {d : DList α} {as : List (Nat × α)} (h : d.Is as) :
    d.vals = as.map Prod.snd := by
  rw [vals, toList_eq h]

theorem findFrom_eq (d : DList α) (test : α → Bool) :
    ∀ n p, d.findFrom test n p = (d.walk n p).find? fun a => test a.2 := by
  intro n
  induction n with
  | zero => intro p; rfl
  | succ n ih =>
    intro p
    cases p with
    | none => rfl
    | some p =>
      simp only [findFrom, walk]
      cases d.cells p with
      | none => rfl
      | some c => simp only [List.find?_cons, ih]; cases test c.val <;> rfl

theorem find_eq (d : DList α) (test : α → Bool) :
    d.find test = d.toList.find? fun a => test a.2 :=
  findFrom_eq d test d.brk d.hd

/-- What a search finds is in its cell. -/
theorem find_some {d : DList α} {test : α → Bool} {a : Nat × α} (h : d.find test = some a) :
    d.val? a.1 = some a.2 ∧ test a.2 := by
  suffices all : ∀ n p, d.findFrom test n p = some a → d.val? a.1 = some a.2 ∧ test a.2 from
    all _ _ h
  intro n
  induction n with
  | zero => exact nofun
  | succ n ih =>
    rintro (_ | p) found
    · cases found
    · rw [findFrom] at found
      rcases cell : d.cells p with _ | c
      · rw [cell] at found
        cases found
      · rw [cell] at found
        dsimp only at found
        split at found
        · rename_i hit
          cases found
          exact ⟨by rw [val?, cell]; rfl, hit⟩
        · exact ih _ found

theorem append_val? (d : DList α) (x : α) : (d.append x).val? d.brk = some x := by
  simp [append, val?]

theorem append_is {d : DList α} {as : List (Nat × α)} (h : d.Is as) (x : α) :
    (d.append x).Is (as ++ [(d.brk, x)]) := by
  have fresh : ∀ a ∈ as, a.1 ≠ d.brk := fun a ha => Nat.ne_of_lt (h.below a ha)
  refine ⟨?_, ?_, ?_, ?_, ?_⟩
  · cases as with
    | nil => simp [append, h.tl]
    | cons b as =>
      have ht : d.tl.isSome = true := by simp [h.tl]
      simp [append, ht, setNxt, h.hd]
  · simp [append]
  · rw [List.map_append, List.nodup_append]
    refine ⟨h.nodup, by simp, ?_⟩
    rintro a ha b hb rfl
    obtain ⟨y, hy, rfl⟩ := List.mem_map.1 ha
    exact fresh y hy (by simpa using hb)
  · intro a ha
    rcases List.mem_append.1 ha with ha | ha
    · exact Nat.lt_succ_of_lt (h.below a ha)
    · simp only [List.mem_singleton] at ha
      simp [append, ha]
  · intro l a r e
    rcases List.eq_nil_or_concat r with rfl | ⟨r, b, rfl⟩
    · obtain ⟨rfl, rfl⟩ : as = l ∧ (d.brk, x) = a := by simpa using List.append_inj' e rfl
      simp [append, h.tl]
    · -- an old cell: only the former tail has a new neighbour
      obtain ⟨rfl, rfl⟩ : as = l ++ a :: r ∧ (d.brk, x) = b := by
        have e' : as ++ [(d.brk, x)] = (l ++ a :: r) ++ [b] := by simpa using e
        simpa using List.append_inj' e' rfl
      have ha : a.1 ≠ d.brk := fresh a (by simp)
      have ht : d.tl.isSome = true := by simp [h.tl]
      have old := h.links l a r rfl
      simp only [append, ha, ht, if_true, if_false, setNxt, old]
      cases r with
      | nil => simp [h.tl]
      | cons b r =>
        have hne : d.tl ≠ some a.1 := by
          obtain ⟨z, hz⟩ : ∃ z, (b :: r).getLast? = some z := by
            simp [List.getLast?_cons]
          have hz' : (l ++ a :: b :: r).getLast? = some z := by
            rw [List.getLast?_append, List.getLast?_cons_cons, hz]; rfl
          rw [h.tl, hz']
          simpa using h.apart.2 z (List.mem_of_getLast? hz)
        simp [hne]

theorem append_vals {d : DList α} {as : List (Nat × α)} (h : d.Is as) (x : α) :
    (d.append x).vals = d.vals ++ [x] := by
  rw [vals_eq (append_is h x), vals_eq h, List.map_append]
  rfl

theorem foldl_append_is {d : DList α} {as : List (Nat × α)} (h : d.Is as) (xs : List α) :
    ∃ bs, bs.map Prod.snd = xs ∧ (xs.foldl append d).Is (as ++ bs) := by
  induction xs generalizing d as with
  | nil => exact ⟨[], rfl, by simpa using h⟩
  | cons x xs ih =>
    obtain ⟨bs, rfl, linked⟩ := ih (append_is h x)
    exact ⟨(d.brk, x) :: bs, rfl, by simpa using linked⟩

theorem foldl_append_vals {d : DList α} {as : List (Nat × α)} (h : d.Is as) (xs : List α) :
    (xs.foldl append d).vals = d.vals ++ xs := by
  obtain ⟨bs, rfl, linked⟩ := foldl_append_is h xs
  rw [vals_eq linked, vals_eq h, List.map_append]

/-- Unlinking joins the two neighbours and touches nothing else. -/
theorem unlink_cells {d : DList α} {l r : List (Nat × α)} {a : Nat × α} (h : d.Is (l ++ a :: r))
    (b : Nat) : (d.unlink a.1).cells b = (d.cells b).map fun c =>
      ⟨c.val, if l.getLast?.map Prod.fst = some b then r.head?.map Prod.fst else c.nxt,
        if r.head?.map Prod.fst = some b then l.getLast?.map Prod.fst else c.prv⟩ := by
  simp only [unlink, h.links l a r rfl]
  rcases List.eq_nil_or_concat l with rfl | ⟨l, p, rfl⟩ <;> cases r with
  | nil =>
    rcases hb : d.cells b with _ | ⟨v, x, y⟩ <;> simp [setNxt, hb] <;> grind
  | cons n r =>
    rcases hb : d.cells b with _ | ⟨v, x, y⟩ <;> simp [setNxt, setPrv, hb]
    grind

theorem unlink_ends {d : DList α} {l r : List (Nat × α)} {a : Nat × α} (h : d.Is (l ++ a :: r)) :
    (d.unlink a.1).hd = (l ++ r).head?.map Prod.fst ∧
    (d.unlink a.1).tl = (l ++ r).getLast?.map Prod.fst ∧ (d.unlink a.1).brk = d.brk := by
  have hhd := h.hd
  have htl := h.tl
  simp only [unlink, h.links l a r rfl]
  rcases List.eq_nil_or_concat l with rfl | ⟨l, p, rfl⟩ <;> cases r with
  | nil => simp_all [setNxt]
  | cons n r => simp_all [setNxt, setPrv, List.getLast?_cons, List.head?_append]

theorem unlink_is {d : DList α} {l r : List (Nat × α)} {a : Nat × α} (h : d.Is (l ++ a :: r)) :
    (d.unlink a.1).Is (l ++ r) := by
  obtain ⟨hhd, htl, hbrk⟩ := unlink_ends h
  refine ⟨hhd, htl, ?_, ?_, ?_⟩
  · exact h.nodup.sublist ((List.sublist_cons_self a r).append_left l |>.map Prod.fst)
  · intro b hb
    rw [hbrk]
    exact h.below b (by simp only [List.mem_append, List.mem_cons] at hb ⊢; tauto)
  · intro l' b r' e
    rw [unlink_cells h]
    have side : (∃ m, l' = l ++ m ∧ r = m ++ b :: r') ∨ ∃ m, l = l' ++ b :: m ∧ r' = m ++ r := by
      rcases List.append_eq_append_iff.1 e with ⟨m, rfl, rfl⟩ | ⟨m, rfl, hr⟩
      · exact .inl ⟨m, rfl, rfl⟩
      · cases m with
        | nil => exact .inl ⟨[], by simp, by simpa using hr.symm⟩
        | cons n m =>
          obtain ⟨rfl, rfl⟩ := List.cons_eq_cons.1 hr
          exact .inr ⟨m, rfl, rfl⟩
    -- the cell is on one side of the gap, and there it may be the neighbour
    rcases side with ⟨m, rfl, rfl⟩ | ⟨m, rfl, rfl⟩
    · have h' : d.Is ((l ++ a :: m) ++ b :: r') := by simpa using h
      have hne : l.getLast?.map Prod.fst ≠ some b.1 := by
        intro hl
        obtain ⟨z, hz, hzb⟩ := Option.map_eq_some_iff.1 hl
        exact h'.apart.1 z (by simp [List.mem_of_getLast? hz]) hzb
      rw [h'.links _ b r' rfl]
      cases m with
      | nil => simp [hne]
      | cons n m =>
        have hn : n.1 ≠ b.1 := h'.apart.1 n (by simp)
        simp [hne, hn, List.getLast?_append]
    · have h' : d.Is (l' ++ b :: (m ++ a :: r)) := by simpa using h
      have hne : r.head?.map Prod.fst ≠ some b.1 := by
        intro hr
        obtain ⟨z, hz, hzb⟩ := Option.map_eq_some_iff.1 hr
        exact h'.apart.2 z (by simp [List.mem_of_mem_head? hz]) hzb
      rw [h'.links _ b _ rfl]
      rcases List.eq_nil_or_concat m with rfl | ⟨m, n, rfl⟩
      · simp [hne]
      · have hn : n.1 ≠ b.1 := h'.apart.2 n (by simp)
        simp [hne, hn, List.getLast?_append, List.getLast?_cons, List.head?_append]

/-- Unlinking what a search has found. -/
theorem unlink_vals {d : DList α} {as : List (Nat × α)} (h : d.Is as) {test : α → Bool}
    {a : Nat × α} (found : d.find test = some a) : (d.unlink a.1).vals = d.vals.eraseP test := by
  rw [find_eq, toList_eq h, List.find?_eq_some_iff_append] at found
  obtain ⟨hit, l, r, rfl, before⟩ := found
  have first : ∀ x ∈ l.map Prod.snd, ¬ test x := by
    intro x hx
    obtain ⟨b, hb, rfl⟩ := List.mem_map.1 hx
    simpa using before b hb
  rw [vals_eq (unlink_is h), vals_eq h, List.map_append, List.map_append, List.map_cons,
    List.eraseP_append_right _ first, List.eraseP_cons_of_pos hit]

/-- Freeing a cell that is not linked leaves the list as it is. -/
theorem free_is {d : DList α} {as : List (Nat × α)} (h : d.Is as) {p : Nat}
    (hp : ∀ a ∈ as, a.1 ≠ p) : (d.free p).Is as where
  hd := h.hd
  tl := h.tl
  nodup := h.nodup
  below := h.below
  links l a r e := by simp [free, hp a (by simp [e]), h.links l a r e]

theorem Is.val? {d : DList α} {as : List (Nat × α)} (h : d.Is as) {a : Nat × α} (ha : a ∈ as) :
    d.val? a.1 = some a.2 := by
  obtain ⟨l, r, rfl⟩ := List.append_of_mem ha
  rw [DList.val?, h.links l a r rfl]
  rfl

/-- A new value leaves the links as they are. -/
theorem modify_is {d : DList α} {l r : List (Nat × α)} {a : Nat × α} (h : d.Is (l ++ a :: r))
    (f : α → α) : (d.modify a.1 f).Is (l ++ (a.1, f a.2) :: r) where
  hd := by rw [modify, h.hd]; cases l <;> rfl
  tl := by
    rw [modify, h.tl]
    simp only [List.getLast?_append, List.getLast?_cons]
    cases r.getLast? <;> rfl
  nodup := by simpa using h.nodup
  below b hb := by
    simp only [List.mem_append, List.mem_cons] at hb
    obtain hb | rfl | hb := hb
    · exact h.below b (by simp [hb])
    · exact h.below a (by simp)
    · exact h.below b (by simp [hb])
  links l' b r' e := by
    rcases List.append_eq_append_iff.1 e with ⟨m, rfl, rest⟩ | ⟨m, rfl, rest⟩
    · cases m with
      | nil =>
        obtain ⟨rfl, rfl⟩ := List.cons_eq_cons.1 rest
        simp [modify, h.links l a r rfl]
      | cons n m =>
        obtain ⟨rfl, rfl⟩ := List.cons_eq_cons.1 rest
        have apart : b.1 ≠ a.1 := h.apart.2 b (by simp)
        have old := h.links (l ++ a :: m) b r' (by simp)
        simp only [modify, apart, if_false, old, List.getLast?_append, List.getLast?_cons]
        cases m.getLast? <;> rfl
    · cases m with
      | nil =>
        obtain ⟨rfl, rfl⟩ := List.cons_eq_cons.1 rest
        simp [modify, h.links _ a r' rfl]
      | cons n m =>
        obtain ⟨rfl, rfl⟩ := List.cons_eq_cons.1 rest
        have apart : b.1 ≠ a.1 := h.apart.1 b (by simp)
        have old := h.links l' b (m ++ a :: r) (by simp)
        simp only [modify, apart, if_false, old]
        cases m <;> rfl

end DList

end UnixProgramming.Heap
