import UnixProgramming.Db.Interface
import UnixProgramming.Db.Record

/-!
# The index file as a list of things

The pointers of the table, the newline behind them, and the records, each at its
offset in the file.

* `pread_ptr`, `pwrite_ptr`: the pointer with which a thing begins;
* `pread_head`, `pread_text`, `pwrite_slot`: a record.
-/

namespace UnixProgramming.Db

open Heap (pread pwrite)
open Heap.Layout (flat find put)
open Ssl (Byte)

/-- An index record. -/
structure Slot where
  ptr : Nat
  key : List Byte
  datoff : Nat
  datlen : Nat
  deriving DecidableEq, Repr

def Slot.text (t : Slot) : List Byte := entry t.key t.datoff t.datlen

/-- What there is in an index file. -/
inductive Item where
  | head (ptr : Nat)
  | newline
  | slot (t : Slot)
  deriving DecidableEq, Repr

namespace Item

def enc : Item → List Byte
  | head ptr => padded PTR_SZ ptr
  | newline => [NEWLINE]
  | slot t => padded PTR_SZ t.ptr ++ (padded IDXLEN_SZ t.text.length ++ t.text)

/-- The link of a thing. -/
def ptr : Item → Nat
  | head ptr => ptr
  | newline => 0
  | slot t => t.ptr

def setPtr (v : Nat) : Item → Item
  | head _ => head v
  | newline => newline
  | slot t => slot { t with ptr := v }

end Item

/-- A record that the library can read. -/
structure Slot.Ok (t : Slot) : Prop where
  ptr : t.ptr ≤ 9999999
  clean : SEP ∉ t.key
  noNul : 0 ∉ t.key
  off : t.datoff < 2 ^ 63
  some' : 0 < t.datlen
  len : t.datlen ≤ DATLEN_MAX
  long : IDXLEN_MIN ≤ t.text.length
  short : t.text.length ≤ IDXLEN_MAX

def Item.Ok : Item → Prop
  | head ptr => ptr ≤ 9999999
  | newline => True
  | slot t => t.Ok

/-- The link at an offset. -/
def cell (img : List Item) (o : Nat) : Nat := ((find Item.enc img o).map Item.ptr).getD 0

theorem enc_ne_nil (it : Item) : it.enc ≠ [] := by
  cases it with
  | head p => exact padded_ne_nil _ p
  | newline => exact List.cons_ne_nil _ _
  | slot t => exact List.append_ne_nil_of_left_ne_nil (padded_ne_nil _ _) _

section
variable {img : List Item} {it : Item} {t t' : Slot} {o v : Nat}

theorem cell_eq (h : find Item.enc img o = some it) : cell img o = it.ptr := by
  rw [cell, h]
  rfl

theorem Slot.text_getLast (t : Slot) : t.text.getLast? = some NEWLINE := entry_getLast ..

theorem Slot.Ok.text_dropLast (h : t.Ok) : t.text.dropLast.takeWhile (· ≠ 0) =
    t.key ++ SEP :: (decimal t.datoff ++ SEP :: decimal t.datlen) :=
  entry_dropLast h.noNul

theorem padded_ptr (h : v ≤ 9999999) : (padded PTR_SZ v).length = PTR_SZ :=
  padded_length (by decide) (Nat.lt_succ_of_le h)

theorem padded_len (h : t.Ok) : (padded IDXLEN_SZ t.text.length).length = IDXLEN_SZ := by
  have : t.text.length ≤ 1024 := h.short
  exact padded_length (by decide) (show t.text.length < 10000 by omega)

theorem Item.Ok.ptr_le (h : it.Ok) : it.ptr ≤ 9999999 := by
  cases it with
  | head p => exact h
  | newline => exact Nat.zero_le _
  | slot t => exact h.ptr

theorem setPtr_ptr (some' : it ≠ .newline) : (it.setPtr v).ptr = v := by
  cases it with
  | head p => rfl
  | newline => exact absurd rfl some'
  | slot t => rfl

theorem Item.Ok.setPtr (h : it.Ok) (fits : v ≤ 9999999) : (it.setPtr v).Ok := by
  cases it with
  | head p => exact fits
  | newline => exact trivial
  | slot t => exact ⟨fits, h.clean, h.noNul, h.off, h.some', h.len, h.long, h.short⟩

/-- A thing begins with its link. -/
theorem enc_split (h : it.Ok) (some' : it ≠ .newline) : ∃ rest, ∀ v,
    (it.setPtr v).enc = padded PTR_SZ v ++ rest ∧ it.enc = padded PTR_SZ it.ptr ++ rest := by
  cases it with
  | head p => exact ⟨[], fun v => ⟨(List.append_nil _).symm, (List.append_nil _).symm⟩⟩
  | newline => exact absurd rfl some'
  | slot t => exact ⟨padded IDXLEN_SZ t.text.length ++ t.text, fun v => ⟨rfl, rfl⟩⟩

theorem enc_setPtr_length (h : it.Ok) (fits : v ≤ 9999999) :
    (it.setPtr v).enc.length = it.enc.length := by
  by_cases none' : it = .newline
  · rw [none']
    rfl
  · obtain ⟨rest, both⟩ := enc_split h none'
    rw [(both v).1, (both v).2, List.length_append, List.length_append, padded_ptr fits,
      padded_ptr h.ptr_le]

theorem enc_slot_length (h : t.Ok) :
    (Item.slot t).enc.length = PTR_SZ + IDXLEN_SZ + t.text.length := by
  rw [Item.enc, List.length_append, List.length_append, padded_ptr h.ptr, padded_len h, Nat.add_assoc]

theorem pread_ptr (h : find Item.enc img o = some it) (ok : it.Ok) (some' : it ≠ .newline) :
    pread (flat Item.enc img) o PTR_SZ = padded PTR_SZ it.ptr := by
  obtain ⟨rest, both⟩ := enc_split ok some'
  have long := padded_ptr ok.ptr_le
  have inside : 0 + PTR_SZ ≤ it.enc.length := by
    rw [(both 0).2, List.length_append, long]
    omega
  have first := Heap.Layout.pread_find h inside
  rw [Nat.add_zero] at first
  rw [first, (both 0).2, pread, List.drop_zero, List.take_left' long]

theorem pwrite_ptr (h : find Item.enc img o = some it) (ok : it.Ok) (some' : it ≠ .newline)
    (fits : v ≤ 9999999) : pwrite 0 (flat Item.enc img) o (padded PTR_SZ v) =
      flat Item.enc (put Item.enc img o (it.setPtr v)) := by
  obtain ⟨rest, both⟩ := enc_split ok some'
  refine Heap.Layout.pwrite_put enc_ne_nil h ⟨_, (both 0).2, ?_⟩ (both v).1
  rw [padded_ptr ok.ptr_le, padded_ptr fits]

theorem pread_head (h : find Item.enc img o = some (.slot t)) (ok : t.Ok) :
    pread (flat Item.enc img) o (PTR_SZ + IDXLEN_SZ) =
      padded PTR_SZ t.ptr ++ padded IDXLEN_SZ t.text.length := by
  have inside : 0 + (PTR_SZ + IDXLEN_SZ) ≤ (Item.slot t).enc.length := by
    rw [enc_slot_length ok]
    omega
  have first := Heap.Layout.pread_find h inside
  rw [Nat.add_zero] at first
  rw [first, pread, List.drop_zero, Item.enc, ← List.append_assoc, List.take_left']
  rw [List.length_append, padded_ptr ok.ptr, padded_len ok]

theorem pread_text (h : find Item.enc img o = some (.slot t)) (ok : t.Ok) :
    pread (flat Item.enc img) (o + (PTR_SZ + IDXLEN_SZ)) t.text.length = t.text := by
  rw [Heap.Layout.pread_find h (enc_slot_length ok).ge, Item.enc, ← List.append_assoc, pread,
    List.drop_left', List.take_length]
  rw [List.length_append, padded_ptr ok.ptr, padded_len ok]

theorem pwrite_slot (h : find Item.enc img o = some (.slot t)) (ok : t.Ok) (ok' : t'.Ok)
    (same : t'.text.length = t.text.length) :
    pwrite 0 (flat Item.enc img) o (Item.slot t').enc =
      flat Item.enc (put Item.enc img o (.slot t')) := by
  refine Heap.Layout.pwrite_put enc_ne_nil h ⟨_, (List.append_nil _).symm, ?_⟩
    (List.append_nil _).symm
  rw [enc_slot_length ok, enc_slot_length ok', same]

end

end UnixProgramming.Db
