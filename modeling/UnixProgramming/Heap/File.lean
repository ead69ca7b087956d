import Mathlib.Data.List.Basic

/-!
# Files as sequences

`pread` and `pwrite` on the contents of a file.

* `pread_mid`, `pwrite_mid`: access to one of the parts of a file;
* `pread_pwrite`, `pread_pwrite_other`: what is read behind a write.
-/

namespace UnixProgramming.Heap

variable {β : Type}

/-- What a read of `n` bytes at an offset delivers: less at the end. -/
def pread (f : List β) (off n : Nat) : List β := (f.drop off).take n

/-- A write at an offset. A hole behind the end is filled. -/
def pwrite (zero : β) (f : List β) (off : Nat) (bs : List β) : List β :=
  f.take off ++ List.replicate (off - f.length) zero ++ bs ++ f.drop (off + bs.length)

variable {zero : β} {f a b b' c bs : List β} {off off' n : Nat}

theorem pread_mid (before : a.length = off) (long : b.length = n) :
    pread (a ++ (b ++ c)) off n = b := by
  rw [pread, List.drop_left' before, List.take_left' long]

theorem pwrite_mid (before : a.length = off) (same : b'.length = b.length) :
    pwrite zero (a ++ (b ++ c)) off b' = a ++ (b' ++ c) := by
  have behind : (a ++ (b ++ c)).drop (off + b'.length) = c := by
    rw [← List.append_assoc]
    exact List.drop_left' (by simp [before, same])
  have hole : off - (a ++ (b ++ c)).length = 0 := by
    rw [List.length_append]
    omega
  rw [pwrite, behind, hole, List.take_left' before, List.replicate_zero, List.append_nil,
    List.append_assoc]

theorem pwrite_end (zero : β) (f bs : List β) : pwrite zero f f.length bs = f ++ bs := by
  simp [pwrite]

theorem length_pwrite (inside : off ≤ f.length) :
    (pwrite zero f off bs).length = max f.length (off + bs.length) := by
  simp only [pwrite, List.length_append, List.length_take, List.length_replicate, List.length_drop]
  omega

theorem length_pread (inside : off + n ≤ f.length) : (pread f off n).length = n := by
  rw [pread, List.length_take, List.length_drop]
  omega

theorem pread_append (inside : off + n ≤ f.length) : pread (f ++ bs) off n = pread f off n := by
  rw [pread, pread, List.drop_append_of_le_length (by omega),
    List.take_append_of_le_length (by rw [List.length_drop]; omega)]

theorem pread_end (f bs : List β) : pread (f ++ bs) f.length bs.length = bs := by
  rw [pread, List.drop_left' rfl, List.take_length]

/-- A write in a file of three parts. -/
theorem pwrite_eq (inside : off ≤ f.length) :
    pwrite zero f off bs = f.take off ++ (bs ++ f.drop (off + bs.length)) := by
  rw [pwrite, Nat.sub_eq_zero_of_le inside, List.replicate_zero, List.append_nil, List.append_assoc]

/-- What has been written is read. -/
theorem pread_pwrite (inside : off ≤ f.length) :
    pread (pwrite zero f off bs) off bs.length = bs := by
  rw [pwrite_eq inside]
  exact pread_mid (by rw [List.length_take]; omega) rfl

/-- Elsewhere nothing changes. -/
theorem pread_pwrite_other (inside : off + bs.length ≤ f.length) (inside' : off' + n ≤ f.length)
    (apart : off' + n ≤ off ∨ off + bs.length ≤ off') :
    pread (pwrite zero f off bs) off' n = pread f off' n := by
  rw [pwrite_eq (by omega)]
  rcases apart with before | behind
  · rw [pread_append (by rw [List.length_take]; omega)]
    nth_rewrite 2 [← List.take_append_drop off f]
    rw [pread_append (by rw [List.length_take]; omega)]
  · obtain ⟨k, rfl⟩ := Nat.exists_eq_add_of_le behind
    rw [pread, pread, ← List.append_assoc, ← List.drop_drop,
      List.drop_left' (by rw [List.length_append, List.length_take]; omega), List.drop_drop]

end UnixProgramming.Heap
