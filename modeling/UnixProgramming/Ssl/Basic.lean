import Mathlib.Algebra.Group.Int.Defs
import Mathlib.Algebra.Group.Nat.Defs
import Mathlib.Data.List.TakeWhile
import UnixProgramming.Pipe.Duplex

/-!
# Bytes, C strings and PortMaster messages

The part of `HDR/sockets.h` that both the PortMaster and the library use, the
two-byte network form of a message, and C strings inside fixed buffers.
-/

namespace UnixProgramming.Ssl

abbrev Byte := UInt8
abbrev SktEvent := UInt16

/-! ## Messages -/

-- the `PM_` constants of `sockets.h`
namespace PM
def server : SktEvent := 1
def client : SktEvent := 2
def close : SktEvent := 3
def resend : SktEvent := 4
def quit : SktEvent := 5
def sorryReply : SktEvent := 6
def ok : SktEvent := 7
def table : SktEvent := 9
def rmserver : SktEvent := 10
def fwinit : SktEvent := 11
def share : SktEvent := 12
def okshare : SktEvent := 13
def clientwait : SktEvent := 14

def bigbuf : Nat := 1024
def maxtry : Nat := 20
end PM

/-- `BUFSIZE` of `Spm.c`, `Sopen.c` and `Srmsrvr.c`. -/
def bufsize : Nat := 128

/-- The two bytes of a message in network order. -/
def htons (x : SktEvent) : List Byte := [UInt8.ofNat (x.toNat / 256), UInt8.ofNat (x.toNat % 256)]

/-- The message in two received bytes. `Sreadbytes` comes back with fewer only
when `recv` fails, and then the variable holds nothing the model knows. -/
def ntohs : List Byte → SktEvent
  | [hi, lo] => UInt16.ofNat (hi.toNat * 256 + lo.toNat)
  | _ => 0

@[simp] theorem htons_length (x : SktEvent) : (htons x).length = 2 := rfl

@[simp] theorem ntohs_htons (x : SktEvent) : ntohs (htons x) = x := by
  apply UInt16.toNat_inj.1
  have := x.toNat_lt
  simp only [ntohs, htons, UInt8.toNat_ofNat', UInt16.toNat_ofNat']
  omega

theorem htons_ntohs (hi lo : Byte) : htons (ntohs [hi, lo]) = [hi, lo] := by
  have h := hi.toNat_lt
  have l := lo.toNat_lt
  simp only [ntohs, htons, UInt16.toNat_ofNat', List.cons.injEq, and_true]
  constructor <;> apply UInt8.toNat_inj.1 <;> simp only [UInt8.toNat_ofNat'] <;> omega

/-! ## C strings -/

/-- The characters of a C string before its NUL. -/
def cstr (buf : List Byte) : List Byte := buf.takeWhile (· ≠ 0)

/-- The bytes of a string with its NUL, as `Sputs` sends them. -/
def withNul (s : List Byte) : List Byte := s ++ [0]

/-- The characters of a string. -/
structure CString where
  chars : List Byte
  clean : 0 ∉ chars

/-- The array that just holds a string. -/
def CString.array (s : CString) : List Byte := withNul s.chars

/-- Store `bs` from index `off` on. -/
def overlay (buf : List Byte) (off : Nat) (bs : List Byte) : List Byte :=
  buf.take off ++ bs ++ buf.drop (off + bs.length)

theorem cstr_noNul (buf : List Byte) : 0 ∉ cstr buf := by
  intro h
  have := List.mem_takeWhile_imp h
  simp at this

theorem cstr_append_nul {s : List Byte} (h : 0 ∉ s) (rest : List Byte) :
    cstr (s ++ 0 :: rest) = s := by
  rw [cstr, List.takeWhile_append_of_pos]
  · simp
  · intro b hb
    simpa using ne_of_mem_of_not_mem hb h

theorem cstr_withNul {s : List Byte} (h : 0 ∉ s) : cstr (withNul s) = s := cstr_append_nul h []

theorem cstr_append {s : List Byte} (h : 0 ∉ s) (rest : List Byte) :
    cstr (s ++ rest) = s ++ cstr rest := by
  rw [cstr, List.takeWhile_append_of_pos, cstr]
  intro b hb
  simpa using ne_of_mem_of_not_mem hb h

theorem overlay_length {buf bs : List Byte} {off : Nat} (h : off + bs.length ≤ buf.length) :
    (overlay buf off bs).length = buf.length := by
  simp only [overlay, List.length_append, List.length_take, List.length_drop]
  omega

theorem overlay_take {buf : List Byte} {off : Nat} (bs : List Byte) (h : off ≤ buf.length) :
    (overlay buf off bs).take off = buf.take off := by
  have hl : (buf.take off).length = off := by simp [h]
  rw [overlay, List.append_assoc, List.take_append_of_le_length (by omega),
    List.take_of_length_le (by omega)]

theorem overlay_drop {buf : List Byte} {off : Nat} (bs : List Byte) (h : off ≤ buf.length) :
    (overlay buf off bs).drop off = bs ++ buf.drop (off + bs.length) := by
  have hl : (buf.take off).length = off := by simp [h]
  rw [overlay, List.append_assoc, List.drop_append_of_le_length (by omega),
    List.drop_of_length_le (by omega), List.nil_append]

/-- What is stored over an earlier store of the same place hides it. -/
theorem overlay_overlay {buf : List Byte} {off : Nat} (bs : List Byte) (h : off ≤ buf.length) :
    overlay (overlay buf off bs) off bs = overlay buf off bs := by
  have hd : (overlay buf off bs).drop (off + bs.length) = buf.drop (off + bs.length) := by
    rw [← List.drop_drop, overlay_drop bs h, List.drop_left]
  conv_lhs => rw [overlay, overlay_take bs h, hd]
  rfl

@[simp] theorem overlay_nil (buf : List Byte) (off : Nat) : overlay buf off [] = buf := by
  simp [overlay]

/-- A store behind a store is one store. -/
theorem overlay_append {buf : List Byte} {off : Nat} (bs bs' : List Byte) (h : off ≤ buf.length) :
    overlay (overlay buf off bs) (off + bs.length) bs' = overlay buf off (bs ++ bs') := by
  have whole : (buf.take off ++ bs).length = off + bs.length := by simp [h]
  rw [overlay.eq_def buf off bs]
  simp only [overlay]
  rw [← whole, List.take_left, ← List.drop_drop, List.drop_left, List.drop_drop, whole]
  simp [Nat.add_assoc]

/-- A store never makes the buffer shorter. -/
theorem overlay_length_ge {buf : List Byte} {off : Nat} (bs : List Byte) (h : off ≤ buf.length) :
    buf.length ≤ (overlay buf off bs).length ∧ off + bs.length ≤ (overlay buf off bs).length := by
  simp only [overlay, List.length_append, List.length_take, List.length_drop]
  omega

/-- A store leaves what lies behind it alone. -/
theorem overlay_drop_behind {buf bs : List Byte} {off behind : Nat}
    (h : off + bs.length ≤ behind) (hb : behind ≤ buf.length) :
    (overlay buf off bs).drop behind = buf.drop behind := by
  have hl : (buf.take off ++ bs).length = off + bs.length := by simp; omega
  obtain ⟨n, rfl⟩ := Nat.exists_eq_add_of_le h
  rw [overlay, ← List.drop_drop, ← hl, List.drop_left, List.drop_drop, hl]

/-! ## What the PortMaster and the readers of a run speak about -/

/-- A `PortTable_str` without its links. -/
structure PortTable where
  sktname : List Byte
  sharehost : Option (List Byte)
  port : SktEvent
  deriving DecidableEq, Repr

/-- A `ClientWaiting_str` without its links; `client` names its socket. -/
structure ClientWaiting where
  client : Nat
  sktname : List Byte
  deriving DecidableEq, Repr

/-- Ghost marks: the bytes one `Sreadbytes` or `Sgets` has consumed, and an
entry made in the PortTable. -/
inductive Note where
  | read (field : List Byte)
  | made (entry : PortTable)
  deriving DecidableEq, Repr

abbrev Proc (α : Type) := Pipe.Proc Byte Note α

end UnixProgramming.Ssl
