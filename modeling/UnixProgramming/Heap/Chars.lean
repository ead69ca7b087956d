import Mathlib.Data.List.TakeWhile

/-!
# Strings in arrays

Arrays of characters in which a terminator ends each string, and the functions
that store strings in them. `none` stands for an access outside the array.

* `str_eq_some`: what it means that there is a string at an index;
* `strcpyAt_str`, `strcpyAt_append`: what is stored, alone and behind a string;
* `cut_str`, `set_back`: a string that is cut in place, and mended.
-/

namespace UnixProgramming.Heap.Chars

variable {α : Type}

/-- A store of consecutive characters. -/
def blit (a : List α) (i : Nat) (cs : List α) : Option (List α) :=
  if i + cs.length ≤ a.length then some (a.take i ++ cs ++ a.drop (i + cs.length)) else none

/-- `memmove(a+i,a+j,n)` -/
def memmove (a : List α) (i j n : Nat) : Option (List α) :=
  if j + n ≤ a.length then blit a i ((a.drop j).take n) else none

/-- `strcpy(a+i,s)` -/
def strcpyAt (nul : α) (a : List α) (i : Nat) (s : List α) : Option (List α) :=
  blit a i (s ++ [nul])

/-- `snprintf(a,n,..)` of a text, for an `n` that is not 0. -/
def snprintf (nul : α) (a : List α) (n : Nat) (s : List α) : Option (List α) :=
  strcpyAt nul a 0 (s.take (n - 1))

section
variable {nul : α} {a a' : List α} {i : Nat} {cs s : List α}

theorem blit_isSome : (blit a i cs).isSome ↔ i + cs.length ≤ a.length := by
  unfold blit
  split <;> simp [*]

theorem blit_length (h : blit a i cs = some a') : a'.length = a.length := by
  unfold blit at h
  split at h
  · cases h
    simp only [List.length_append, List.length_take, List.length_drop]
    omega
  · cases h

theorem blit_take (h : blit a i cs = some a') : a'.take i = a.take i := by
  unfold blit at h
  split at h
  · cases h
    rw [List.append_assoc, List.take_append_of_le_length (by rw [List.length_take]; omega),
      List.take_take, Nat.min_self]
  · cases h

theorem blit_drop (h : blit a i cs = some a') : a'.drop i = cs ++ a.drop (i + cs.length) := by
  unfold blit at h
  split at h
  · cases h
    rw [List.append_assoc, List.drop_append_of_le_length (by rw [List.length_take]; omega),
      List.drop_take_self, List.nil_append]
  · cases h

/-- Behind what is stored, the array is as it was. -/
theorem blit_behind (h : blit a i cs = some a') {j : Nat} (behind : i + cs.length ≤ j) :
    a'.drop j = a.drop j := by
  obtain ⟨n, rfl⟩ := Nat.exists_eq_add_of_le behind
  rw [← List.drop_drop, ← List.drop_drop, blit_drop h, List.drop_left', List.drop_drop]
  rfl

/-- Two stores, one behind the other, are one. -/
theorem blit_append (h : blit a i cs = some a') (ds : List α) :
    blit a' (i + cs.length) ds = blit a i (cs ++ ds) := by
  have front : a'.take (i + cs.length) = a.take i ++ cs := by
    rw [List.take_add, blit_take h, blit_drop h, List.take_left']
    rfl
  simp only [blit, blit_length h, List.length_append, Nat.add_assoc, front,
    blit_behind h (j := i + (cs.length + ds.length)) (by omega), List.append_assoc]

/-- A store of at least as many characters at the same place undoes a store. -/
theorem blit_again (h : blit a i cs = some a') {ds : List α} (covers : cs.length ≤ ds.length) :
    blit a' i ds = blit a i ds := by
  rw [blit, blit, blit_length h, blit_take h, blit_behind h (by omega)]

theorem blit_one (inside : i < a.length) (c : α) : blit a i [c] = some (a.set i c) := by
  have room : i + [c].length ≤ a.length := inside
  rw [blit, if_pos room, List.set_eq_take_append_cons_drop, if_pos inside, List.append_assoc]
  rfl

/-- A store of characters is the stores one after the other. -/
theorem blit_cons (a : List α) (i : Nat) (c : α) (cs : List α) :
    ((blit a i [c]).bind fun a => blit a (i + 1) cs) = blit a i (c :: cs) := by
  cases first : blit a i [c] with
  | none =>
    have outside := mt blit_isSome.2 (Option.not_isSome_iff_eq_none.2 first)
    rw [Option.bind_none, blit, if_neg]
    simp only [List.length_cons, List.length_nil] at outside ⊢
    omega
  | some a' => exact blit_append first cs

theorem strcpyAt_isSome : (strcpyAt nul a i s).isSome ↔ i + s.length < a.length := by
  rw [strcpyAt, blit_isSome, List.length_append, List.length_singleton]
  omega

theorem strcpyAt_some (nul : α) (inside : i + s.length < a.length) :
    ∃ a', strcpyAt nul a i s = some a' ∧ a'.length = a.length := by
  obtain ⟨a', h⟩ := Option.isSome_iff_exists.1 (strcpyAt_isSome.2 inside)
  exact ⟨a', h, blit_length h⟩

theorem strcpyAt_length (h : strcpyAt nul a i s = some a') : a'.length = a.length := blit_length h

end

/-! ## The string at an index -/

variable [DecidableEq α] (nul : α)

/-- The string that begins at an index. -/
def str (a : List α) (i : Nat) : Option (List α) :=
  if nul ∈ a.drop i then some ((a.drop i).takeWhile (· ≠ nul)) else none

def strcat (a s : List α) : Option (List α) := (str nul a 0).bind fun t => strcpyAt nul a t.length s

/-- One `strcat` after the other. -/
def strcats (a : List α) : List (List α) → Option (List α)
  | [] => some a
  | s :: ss => (strcat nul a s).bind fun a => strcats a ss

section
variable {nul} {a a' : List α} {i : Nat} {s t : List α}

/-- There is a string at `i`: its characters, its terminator, anything. -/
theorem str_eq_some : str nul a i = some s ↔ nul ∉ s ∧ ∃ rest, a.drop i = s ++ nul :: rest := by
  have reads {s rest : List α} (clean : nul ∉ s) :
      (s ++ nul :: rest).takeWhile (· ≠ nul) = s := by
    rw [List.takeWhile_append_of_pos fun c hc => by simpa using ne_of_mem_of_not_mem hc clean]
    simp
  unfold str
  constructor
  · intro h
    split at h
    · rename_i there
      obtain ⟨s', rest, split', clean⟩ := List.eq_append_cons_of_mem there
      rw [split', reads clean] at h
      cases h
      exact ⟨clean, rest, split'⟩
    · cases h
  · rintro ⟨clean, rest, split'⟩
    rw [split', if_pos (by simp), reads clean]

theorem str_length_lt (h : str nul a i = some s) : i + s.length < a.length := by
  obtain ⟨-, rest, split'⟩ := str_eq_some.1 h
  have := congrArg List.length split'
  simp only [List.length_drop, List.length_append, List.length_cons] at this
  omega

/-- A string further back in a string. -/
theorem str_add {n : Nat} (h : str nul a i = some s) (inside : n ≤ s.length) :
    str nul a (i + n) = some (s.drop n) := by
  obtain ⟨clean, rest, split'⟩ := str_eq_some.1 h
  refine str_eq_some.2 ⟨fun there => clean (List.mem_of_mem_drop there), rest, ?_⟩
  rw [← List.drop_drop, split', List.drop_append_of_le_length inside]

/-- What is stored is read up to a terminator in it. -/
theorem strcpyAt_reads (h : strcpyAt nul a i s = some a') :
    str nul a' i = some (s.takeWhile (· ≠ nul)) := by
  have stop (s rest : List α) : (s ++ nul :: rest).takeWhile (· ≠ nul) = s.takeWhile (· ≠ nul) := by
    induction s with
    | nil => simp
    | cons c s ih => simp only [List.cons_append, List.takeWhile_cons, ih]
  rw [str, blit_drop h, if_pos (by simp), List.append_assoc]
  exact congrArg some (stop s _)

theorem strcpyAt_str (h : strcpyAt nul a i s = some a') (clean : nul ∉ s) :
    str nul a' i = some s := by
  rw [strcpyAt_reads h, List.takeWhile_eq_self_iff.2]
  exact fun c there => by simpa using ne_of_mem_of_not_mem there clean

/-- A string that is stored where another one ends makes it longer. -/
theorem strcpyAt_append (there : str nul a 0 = some t) (h : strcpyAt nul a t.length s = some a')
    (clean : nul ∉ s) : str nul a' 0 = some (t ++ s) := by
  obtain ⟨clean', rest, split'⟩ := str_eq_some.1 there
  have front : a'.take t.length = t := by
    rw [blit_take h]
    rw [List.drop_zero] at split'
    simp [split']
  refine str_eq_some.2 ⟨by simp [clean, clean'], a.drop (t.length + (s ++ [nul]).length), ?_⟩
  rw [List.drop_zero, ← List.take_append_drop t.length a', front, blit_drop h]
  simp

theorem strcat_str (there : str nul a 0 = some t) (clean : nul ∉ s) (h : strcat nul a s = some a') :
    str nul a' 0 = some (t ++ s) := by
  rw [strcat, there, Option.bind_some] at h
  exact strcpyAt_append there h clean

theorem strcat_length (h : strcat nul a s = some a') : a'.length = a.length := by
  obtain ⟨t, -, h⟩ := Option.bind_eq_some_iff.1 h
  exact strcpyAt_length h

/-- A terminator ends the string that begins anywhere before it. -/
theorem str_isSome {j : Nat} (h : a[j]? = some nul) (before : i ≤ j) : (str nul a i).isSome := by
  obtain ⟨n, rfl⟩ := Nat.exists_eq_add_of_le before
  rw [← List.getElem?_drop] at h
  rw [str, if_pos (List.mem_of_getElem? h)]
  rfl

theorem strcat_isSome (there : str nul a 0 = some t) :
    (strcat nul a s).isSome ↔ t.length + s.length < a.length := by
  rw [strcat, there, Option.bind_some, strcpyAt_isSome]

/-- **Appending** goes well exactly if there is a place for all of it. -/
theorem strcats_isSome {ss : List (List α)} (there : str nul a 0 = some t)
    (clean : ∀ s ∈ ss, nul ∉ s) :
    (strcats nul a ss).isSome ↔ t.length + ss.flatten.length < a.length := by
  induction ss generalizing a t with
  | nil =>
    have inside := str_length_lt there
    simpa [strcats] using inside
  | cons s ss ih =>
    obtain ⟨clean', later⟩ := List.forall_mem_cons.1 clean
    have first := strcat_isSome (s := s) there
    rw [strcats, List.flatten_cons, List.length_append]
    cases appended : strcat nul a s with
    | none =>
      rw [appended] at first
      have full := mt first.2 Bool.false_ne_true
      rw [Option.bind_none]
      exact iff_of_false Bool.false_ne_true (by omega)
    | some a' =>
      rw [Option.bind_some, ih (strcat_str there clean' appended) later, List.length_append,
        strcat_length appended, Nat.add_assoc]

theorem strcats_str {ss : List (List α)} (there : str nul a 0 = some t) (clean : ∀ s ∈ ss, nul ∉ s)
    (h : strcats nul a ss = some a') :
    str nul a' 0 = some (t ++ ss.flatten) ∧ a'.length = a.length := by
  induction ss generalizing a t with
  | nil =>
    cases h
    exact ⟨by rw [there, List.flatten_nil, List.append_nil], rfl⟩
  | cons s ss ih =>
    obtain ⟨clean', later⟩ := List.forall_mem_cons.1 clean
    obtain ⟨b, appended, h⟩ := Option.bind_eq_some_iff.1 h
    obtain ⟨reads, length⟩ := ih (strcat_str there clean' appended) later h
    exact ⟨by rw [reads, List.flatten_cons, List.append_assoc], length.trans (strcat_length appended)⟩

/-! ## Cutting in place -/

theorem getElem?_end (h : str nul a i = some s) : a[i + s.length]? = some nul := by
  obtain ⟨-, rest, split'⟩ := str_eq_some.1 h
  rw [← List.getElem?_drop, split']
  simp

theorem getElem?_inside {c : α} (h : str nul a i = some (s ++ c :: t)) :
    a[i + s.length]? = some c := by
  obtain ⟨-, rest, split'⟩ := str_eq_some.1 h
  rw [← List.getElem?_drop, split']
  simp

theorem cut_str (h : str nul a i = some (s ++ t)) :
    str nul (a.set (i + s.length) nul) i = some s := by
  obtain ⟨clean, rest, split'⟩ := str_eq_some.1 h
  refine str_eq_some.2 ⟨fun there => clean (List.mem_append_left _ there), ?_⟩
  rw [List.drop_set, if_neg (by omega), split', Nat.add_sub_cancel_left, List.append_assoc,
    List.set_append_right _ _ le_rfl, Nat.sub_self]
  cases t with
  | nil => exact ⟨rest, rfl⟩
  | cons c t => exact ⟨t ++ nul :: rest, rfl⟩

/-- A terminator anywhere cuts a string to what is before it. -/
theorem set_str (h : str nul a i = some s) (n : Nat) :
    str nul (a.set (i + n) nul) i = some (s.take n) := by
  by_cases inside : n ≤ s.length
  · rw [← List.take_append_drop n s] at h
    have cut := cut_str h
    rwa [List.length_take, Nat.min_eq_left inside] at cut
  · obtain ⟨clean, rest, split'⟩ := str_eq_some.1 h
    rw [List.take_of_length_le (by omega)]
    obtain ⟨k, rfl⟩ := Nat.exists_eq_add_of_lt (Nat.not_le.1 inside)
    refine str_eq_some.2 ⟨clean, rest.set k nul, ?_⟩
    rw [List.drop_set, if_neg (by omega), split', List.set_append_right _ _ (by omega)]
    congr 1
    have behind : i + (s.length + k + 1) - i - s.length = k + 1 := by omega
    rw [behind]
    rfl

theorem str_behind {c : α} (h : str nul a i = some (s ++ c :: t)) :
    str nul a (i + s.length + 1) = some t := by
  have behind := str_add h (n := s.length + 1) (by simp)
  rwa [List.drop_append, List.drop_of_length_le (by omega), Nat.add_sub_cancel_left] at behind

end

theorem set_back {α : Type} {a : List α} {j : Nat} {c : α} (h : a[j]? = some c) (x : α) :
    (a.set j x).set j c = a := by
  obtain ⟨inside, rfl⟩ := List.getElem?_eq_some_iff.1 h
  rw [List.set_set, List.set_getElem_self]

/-- Another character makes another array. -/
theorem set_ne {α : Type} {a : List α} {j : Nat} {c x : α} (h : a[j]? = some c) (other : c ≠ x) :
    a.set j x ≠ a := by
  obtain ⟨inside, rfl⟩ := List.getElem?_eq_some_iff.1 h
  intro same
  apply other
  rw [← List.getElem_set_self (a := x) (by simpa using inside)]
  simp only [same]

end UnixProgramming.Heap.Chars
