import UnixProgramming.Heap.Chars
import UnixProgramming.Ssl.Basic

/-!
# What the put command sends

`Tputs` of `sktdbg.c` against the text in which each escape is replaced. It
stores one character over the other, so that of a text with an escape nothing
is sent.
-/

namespace UnixProgramming.Ssl

open Heap.Chars

/-- The loop of `Tputs` from `*b` on; no character left is the NUL. `lb` stays
where it is. -/
def tputsLoop (lb : Nat) : List Byte → List Byte → Option (List Byte)
  | [], locbuf => blit locbuf lb [0]
  | c :: text, locbuf =>
    (blit locbuf lb [c]).bind fun locbuf =>
      if c = 92 then
        match text with
        -- `b` is at the NUL, and the loop reads what is behind it
        | [] => none
        | d :: text =>
          if d = 92 then tputsLoop lb text locbuf
          else if 97 ≤ d ∧ d ≤ 122 then (blit locbuf lb [d - 97 + 1]).bind (tputsLoop lb text)
          else tputsLoop lb text locbuf
      else tputsLoop lb text locbuf

/-- The string that `Tputs` gives to `Sputs`. -/
def tputs (locbuf text : List Byte) : Option (List Byte) :=
  if 92 ∈ text then (tputsLoop 0 text locbuf).bind fun locbuf => str 0 locbuf 0 else some text

/-- `\a` to `\z` are control characters, `\\` is a backslash, and all else is itself. -/
def unescape : List Byte → List Byte
  | [] => []
  | c :: text =>
    if c = 92 then
      match text with
      | [] => [92]
      | d :: text =>
        if d = 92 then 92 :: unescape text
        else if 97 ≤ d ∧ d ≤ 122 then (d - 97 + 1) :: unescape text
        else 92 :: d :: unescape text
    else c :: unescape text

theorem unescape_plain {text : List Byte} (plain : 92 ∉ text) : unescape text = text := by
  induction text with
  | nil => rfl
  | cons c text ih =>
    obtain ⟨other, plain⟩ := List.ne_and_not_mem_of_not_mem_cons plain
    rw [unescape.eq_def]
    simp only [other.symm, if_false, ih plain]

theorem unescape_ne_nil {text : List Byte} (some' : text ≠ []) : unescape text ≠ [] := by
  fun_cases unescape text with
  | case1 => exact absurd rfl some'
  | _ => simp_all

/-- Whatever the text, a NUL is stored where its characters have been. -/
theorem tputsLoop_empty {lb : Nat} {text locbuf locbuf' : List Byte}
    (h : tputsLoop lb text locbuf = some locbuf') : str 0 locbuf' lb = some [] := by
  fun_induction tputsLoop lb text locbuf with
  | case1 locbuf => exact strcpyAt_str (s := []) h (by simp)
  | case2 c text locbuf escaped plain =>
    obtain ⟨t, -, h⟩ := Option.bind_eq_some_iff.1 h
    split at h
    · cases text with
      | nil => cases h
      | cons d text =>
        dsimp only at h
        split at h
        · exact (escaped t).1 h
        split at h
        · obtain ⟨u, -, h⟩ := Option.bind_eq_some_iff.1 h
          exact (escaped u).1 h
        · exact (escaped t).1 h
    · exact plain t h

/-- Of a text with a backslash nothing but the NUL is sent. -/
theorem tputs_escape {locbuf text s : List Byte} (escape : 92 ∈ text)
    (sends : tputs locbuf text = some s) : s = [] := by
  rw [tputs, if_pos escape] at sends
  obtain ⟨locbuf', loop, stored⟩ := Option.bind_eq_some_iff.1 sends
  rw [tputsLoop_empty loop] at stored
  exact (Option.some.inj stored).symm

/-- **The texts that the put command sends as they are meant**: those without a
backslash. -/
theorem tputs_sends (locbuf text : List Byte) :
    tputs locbuf text = some (unescape text) ↔ 92 ∉ text := by
  constructor
  · intro sends escape
    exact unescape_ne_nil (List.ne_nil_of_mem escape) (tputs_escape escape sends)
  · intro plain
    rw [tputs, if_neg plain, unescape_plain plain]

/-- `put \a` -/
theorem tputs_nothing : tputs (List.replicate bufsize 0) [92, 97] = some [] ∧
    unescape [92, 97] = [1] :=
  ⟨by simp [tputs, tputsLoop, blit, str, bufsize], rfl⟩

end UnixProgramming.Ssl
