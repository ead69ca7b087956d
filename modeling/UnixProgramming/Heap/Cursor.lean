import UnixProgramming.Heap.Chars

/-!
# Cursors into terminated arrays

A string in memory ends with a terminator, `0`, and a cursor is an offset into
its array. A read where the array is not gives `none`.

- `Inside`: a computation that never reads outside, and what holds of its result.
- `At`: a cursor into the array that just holds a string, with what is left.
- `skip_str`, `skip_inside`: a loop over a test that the terminator fails stops
  there at the latest.
-/

namespace UnixProgramming.Cursor

open Heap.Chars

variable {α β γ : Type}

/-! ## Computations that may go outside -/

/-- What is read goes on to the rest of the `do` block. -/
theorem bind_of {o : Option β} {k : β → Option γ} {b : β} (h : o = some b) : (o >>= k) = k b := by
  rw [h]
  rfl

/-- `o` does not go outside, and `Q` holds of what it gives. -/
def Inside (o : Option β) (Q : β → Prop) : Prop := ∃ b, o = some b ∧ Q b

theorem Inside.pure {Q : β → Prop} {b : β} (h : Q b) : Inside (some b) Q := ⟨b, rfl, h⟩

theorem Inside.bind {o : Option β} {k : β → Option γ} {Q : β → Prop} {R : γ → Prop}
    (h : Inside o Q) (next : ∀ b, Q b → Inside (k b) R) : Inside (o >>= k) R := by
  obtain ⟨b, rfl, q⟩ := h
  exact next b q

theorem Inside.next {o : Option β} {k : β → Option γ} {b : β} {R : γ → Prop}
    (h : o = some b) (next : Inside (k b) R) : Inside (o >>= k) R := by
  rw [bind_of h]
  exact next

theorem Inside.mono {o : Option β} {Q R : β → Prop} (h : Inside o Q) (weaker : ∀ b, Q b → R b) :
    Inside o R := by
  obtain ⟨b, e, q⟩ := h
  exact ⟨b, e, weaker b q⟩

/-! ## Cursors -/

variable [Zero α]

/-- The array that just holds `l`. -/
def terminated (l : List α) : List α := l ++ [0]

/-- From the cursor `p` into the array of `l` on, `rest` comes before the
terminator. -/
structure At (l : List α) (p : Nat) (rest : List α) : Prop where
  clean : 0 ∉ l
  before : p ≤ l.length
  rest : l.drop p = rest

variable {l rest a r : List α} {p : Nat}

theorem At.start (clean : 0 ∉ l) : At l 0 l := ⟨clean, Nat.zero_le _, rfl⟩

theorem At.offset (h : At l p rest) : p + rest.length = l.length := by
  have before := h.before
  rw [← h.rest, List.length_drop]
  omega

theorem At.clean_rest (h : At l p rest) : 0 ∉ rest := by
  rw [← h.rest]
  exact fun mem => h.clean (List.mem_of_mem_drop mem)

theorem At.next {c : α} (h : At l p (c :: rest)) : At l (p + 1) rest where
  clean := h.clean
  before := by
    have offset := h.offset
    simp only [List.length_cons] at offset
    omega
  rest := by rw [← List.tail_drop, h.rest, List.tail_cons]

theorem At.drop {n : Nat} (h : At l p rest) (before : n ≤ rest.length) :
    At l (p + n) (rest.drop n) where
  clean := h.clean
  before := by
    have offset := h.offset
    omega
  rest := by rw [← List.drop_drop, h.rest]

/-- One step further, where what is read there is not the terminator. -/
theorem At.tail (h : At l p rest) (more : rest.headD 0 ≠ 0) : At l (p + 1) rest.tail := by
  cases rest with
  | nil => exact absurd rfl more
  | cons c rest => exact h.next

/-- A cursor is further on when less is left. -/
theorem At.le_iff {q : Nat} {rest' : List α} (h : At l p rest) (h' : At l q rest') :
    p ≤ q ↔ rest'.length ≤ rest.length := by
  have := h.offset
  have := h'.offset
  omega

variable [DecidableEq α]

theorem At.str (h : At l p rest) : str 0 (terminated l) p = some rest := by
  refine str_eq_some.2 ⟨h.clean_rest, [], ?_⟩
  rw [terminated, List.drop_append_of_le_length h.before, h.rest]

/-- Where a string is read there is a unit, or else the terminator. -/
theorem str_get (h : str 0 a p = some r) : a[p]? = some (r.headD 0) := by
  cases r with
  | nil => exact getElem?_end h
  | cons c r => exact getElem?_inside (s := []) h

theorem At.get (h : At l p rest) : (terminated l)[p]? = some (rest.headD 0) := str_get h.str

theorem At.read (h : At l p rest) : Inside (terminated l)[p]? (· = rest.headD 0) :=
  ⟨_, h.get, rfl⟩

/-! ## The loop over a test -/

/-- `while(test(*p)) ++p;` -/
def skip (test : α → Bool) (a : List α) (p : Nat) : Option Nat :=
  if h : p < a.length then
    if test a[p] then skip test a (p + 1) else some p
  else none
termination_by a.length - p

theorem skip_step {test : α → Bool} (h : str 0 a p = some r) :
    skip test a p = if test (r.headD 0) then skip test a (p + 1) else some p := by
  obtain ⟨within, value⟩ := List.getElem?_eq_some_iff.1 (str_get h)
  rw [skip, dif_pos within, value]

theorem skip_str {test : α → Bool} (stops : test 0 = false) (h : str 0 a p = some r) :
    skip test a p = some (p + (r.takeWhile test).length) := by
  induction r generalizing p with
  | nil => rw [skip_step h, List.headD_nil, if_neg (by simp [stops]), List.takeWhile_nil]; rfl
  | cons c r ih =>
    rw [skip_step h, List.headD_cons, List.takeWhile_cons]
    split
    · have behind : str 0 a (p + 1) = some r := str_behind (s := []) h
      rw [ih behind, List.length_cons, Nat.add_assoc, Nat.add_comm 1]
    · rfl

omit [Zero α] [DecidableEq α] in
theorem drop_takeWhile (test : α → Bool) (l : List α) :
    l.drop (l.takeWhile test).length = l.dropWhile test := by
  have whole := (List.takeWhile_append_dropWhile (p := test) (l := l)).symm
  have behind := congrArg (List.drop (l.takeWhile test).length) whole
  rwa [List.drop_left] at behind

/-- Behind the loop there is the rest of the string. -/
theorem str_skip (test : α → Bool) (h : str 0 a p = some r) :
    str 0 a (p + (r.takeWhile test).length) = some (r.dropWhile test) := by
  rw [str_add h (List.takeWhile_prefix _).length_le, drop_takeWhile]

theorem skip_inside {test : α → Bool} (stops : test 0 = false) (h : At l p rest) :
    Inside (skip test (terminated l) p) (At l · (rest.dropWhile test)) := by
  refine ⟨_, skip_str stops h.str, ?_⟩
  rw [← drop_takeWhile]
  exact h.drop (List.takeWhile_prefix _).length_le

end UnixProgramming.Cursor
