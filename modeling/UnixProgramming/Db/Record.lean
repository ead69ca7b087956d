import UnixProgramming.Db.Basic
import UnixProgramming.Heap.Layout
import UnixProgramming.Ssl.Scanf

/-!
# Numbers and records in the index file

What is written with `sprintf` is read back with `atol`, and the text of an
index record comes apart into what it has been made of.

* `atol_padded`, `atoi_padded`, `padded_length`: numbers in fields;
* `separate_entry`: the text of a record.
-/

namespace UnixProgramming.Db

open Calls (Prog)
open Ssl (Byte digitsText minus strtol stpblk isdigit isspace)

/-! ## Numbers -/

theorem decimal_natCast (n : Nat) : decimal n = digitsText 10 n := by
  rw [decimal, decide_eq_false (by omega), minus, if_neg (by decide), Int.natAbs_natCast]
  rfl

theorem decimal_length {n k : Nat} (some' : 0 < k) :
    (decimal n).length ≤ k ↔ n < 10 ^ k := by
  rw [decimal_natCast, digitsText, List.length_map, Nat.length_toDigits_le_iff (by decide) some']

theorem decimal_pos (n : Nat) : 0 < (decimal n).length := by
  rw [decimal_natCast]
  exact List.length_pos_of_ne_nil (Ssl.digitsText_ne_nil (by decide) n)

theorem isdigit_decimal {n : Nat} {c : Byte} (h : c ∈ decimal n) : isdigit c := by
  rw [decimal_natCast] at h
  exact Ssl.digitsText_all (by decide) Ssl.digitByte_tests.1 n c h

theorem not_mem_decimal (n : Nat) {c : Byte} (h : isdigit c = false) : c ∉ decimal n := by
  intro there
  rw [isdigit_decimal there] at h
  cases h

theorem padded_length {w n : Nat} (some' : 0 < w) (fits : n < 10 ^ w) :
    (padded w n).length = w := by
  have := (decimal_length some').2 fits
  rw [padded, List.length_append, List.length_replicate]
  omega

theorem padded_ne_nil (w n : Nat) : padded w n ≠ [] := by
  have := decimal_pos n
  intro none'
  have short := congrArg List.length none'
  rw [padded, List.length_append, List.length_nil] at short
  omega

theorem strtol_blanks (k : Nat) (t : List Byte) :
    strtol (List.replicate k SPACE ++ t) = strtol t := by
  have skipped : stpblk (List.replicate k SPACE ++ t) = stpblk t := by
    rw [stpblk, stpblk, List.dropWhile_append_of_pos]
    intro c hc
    rw [List.eq_of_mem_replicate hc]
    rfl
  simp only [strtol, skipped]

/-- A number that has been printed is read back. -/
theorem atol_decimal {n : Nat} (fits : n < 2 ^ 63) : atol (decimal n) = n := by
  have read := Ssl.strtol_digits false n
  rw [minus, if_neg (by decide), if_neg (by decide), List.nil_append] at read
  rw [atol, decimal_natCast, read, Option.getD_some]
  omega

theorem atol_padded {n : Nat} (w : Nat) (fits : n < 2 ^ 63) : atol (padded w n) = n := by
  rw [padded, atol, strtol_blanks]
  exact atol_decimal fits

theorem atoi_padded {n : Nat} (w : Nat) (fits : n < 2 ^ 31) : atoi (padded w n) = n := by
  rw [atoi, atol_padded w (by omega)]
  exact Int.bmod_eq_of_le (by omega) (by omega)

/-! ## The text of a record -/

theorem strchr_append {a : List Byte} {c : Byte} (clean : c ∉ a) (b : List Byte) :
    strchr (a ++ c :: b) c = some (a, b) := by
  have other : ∀ d ∈ a, decide (d ≠ c) = true := fun d hd => by
    simpa using ne_of_mem_of_not_mem hd clean
  rw [strchr, if_pos (by simp), List.takeWhile_append_of_pos other,
    List.dropWhile_append_of_pos other]
  simp

/-- **The text of a record** comes apart into what it was made of. -/
theorem separate_entry {key : List Byte} {datoff datlen : Nat} (clean : SEP ∉ key)
    (off : datoff < 2 ^ 63) (some' : 0 < datlen) (len : datlen ≤ DATLEN_MAX) (h : Handle) :
    (separate (key ++ SEP :: (decimal datoff ++ SEP :: decimal datlen))).run h =
      .ret ((), h.on fun db => { db with idxbuf := key, datoff, datlen }) := by
  have noSep (n : Nat) : SEP ∉ decimal n := not_mem_decimal n (by decide)
  have small : datlen ≤ 1024 := len
  have value : ((datlen : Int) % 2 ^ 64).toNat = datlen := by omega
  rw [separate, strchr_append clean]
  dsimp only
  rw [strchr_append (noSep datoff)]
  dsimp only
  rw [if_neg (noSep datlen), atol_decimal off, atol_decimal (by omega), if_neg (by omega), value,
    if_neg (by omega)]
  rfl

theorem entry_eq (key : List Byte) (datoff : Int) (datlen : Nat) :
    entry key datoff datlen =
      (key ++ SEP :: (decimal datoff ++ SEP :: decimal datlen)) ++ [NEWLINE] := by
  simp [entry]

/-- The text without its newline, up to a NUL that is not there. -/
theorem entry_dropLast {key : List Byte} {datoff datlen : Nat} (noNul : 0 ∉ key) :
    (entry key datoff datlen).dropLast.takeWhile (· ≠ 0) =
      key ++ SEP :: (decimal datoff ++ SEP :: decimal datlen) := by
  have digits (n : Nat) : (0 : Byte) ∉ decimal n := not_mem_decimal n (by decide)
  rw [entry_eq, List.dropLast_concat, List.takeWhile_eq_self_iff]
  intro c hc
  have : c ≠ 0 := by
    rintro rfl
    simp only [List.mem_append, List.mem_cons, digits, noNul, false_or, or_false] at hc
    revert hc
    decide
  simpa using this

theorem entry_getLast (key : List Byte) (datoff : Int) (datlen : Nat) :
    (entry key datoff datlen).getLast? = some NEWLINE := by
  rw [entry_eq, List.getLast?_concat]

theorem entry_length (key : List Byte) (datoff : Int) (datlen : Nat) :
    (entry key datoff datlen).length =
      key.length + (decimal datoff).length + (decimal datlen).length + 3 := by
  simp only [entry, List.length_append, List.length_cons, List.length_nil]
  omega

end UnixProgramming.Db
