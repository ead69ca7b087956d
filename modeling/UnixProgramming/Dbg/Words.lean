import UnixProgramming.Dbg.Commands

/-!
# Words with blanks between them

What the scanning functions make of a text that is words with blanks between
them: each call that reads a word stops in front of the next one.

* `Spaced.next`, `Spaced.behind`: where `stpnxt` stops;
* `Spaced.number`: the same for a number, and what is read of it.
-/

namespace UnixProgramming.Dbg

open Ssl (Byte stpblk stpnxt isspace isdigit sscanfD fmtDB)

def IsWord (w : List Byte) : Prop := w ≠ [] ∧ ∀ c ∈ w, isspace c = false

def Blanks (s : List Byte) : Prop := ∀ c ∈ s, isspace c

theorem blanks_nil : Blanks [] := fun _ no => nomatch no

/-- Words with blanks between them, and none behind the last. -/
inductive Spaced : List (List Byte) → List Byte → Prop where
  | nil : Spaced [] []
  | cons {w gap b : List Byte} {ws : List (List Byte)} (word : IsWord w) (blank : Blanks gap)
      (between : gap = [] ↔ ws = []) (rest : Spaced ws b) : Spaced (w :: ws) (w ++ (gap ++ b))

namespace Spaced

variable {w b lead : List Byte} {ws : List (List Byte)}

theorem eq_nil_iff (h : Spaced ws b) : b = [] ↔ ws = [] := by
  cases h with
  | nil => simp
  | cons word => simp [word.1]

theorem head? (h : Spaced (w :: ws) b) : b.head? = w.head? := by
  cases h with
  | cons word => rw [List.head?_append_of_ne_nil w word.1]

/-- Words are not blank. -/
theorem stpblk_eq (h : Spaced ws b) (blank : Blanks lead) : stpblk (lead ++ b) = b := by
  rw [stpblk, List.dropWhile_append_of_pos blank]
  apply Ssl.stpblk_self
  intro c hc
  cases h with
  | nil => cases hc
  | cons word =>
    rw [List.head?_append_of_ne_nil _ word.1] at hc
    exact word.2 c (List.mem_of_mem_head? hc)

/-- Words with single blanks between them. -/
theorem intercalate (words : ∀ w ∈ ws, IsWord w) : Spaced ws (List.intercalate [32] ws) := by
  have blank : Blanks [32] := by simp [Blanks, isspace]
  induction ws with
  | nil => exact .nil
  | cons w ws ih =>
    have first := words w List.mem_cons_self
    have ih := ih fun w hw => words w (.tail _ hw)
    cases ws with
    | nil =>
      have spaced := Spaced.cons first blanks_nil (by simp) .nil
      simpa [List.intercalate] using spaced
    | cons w' ws =>
      have spaced := Spaced.cons first blank (by simp) ih
      simpa [List.intercalate] using spaced

/-- What holds of all blanks and of what is in the words holds throughout. -/
theorem forall_mem {P : Byte → Prop} (h : Spaced ws b) (blank : ∀ c, isspace c → P c)
    (word : ∀ w ∈ ws, ∀ c ∈ w, P c) : ∀ c ∈ b, P c := by
  induction h with
  | nil => exact fun _ no => nomatch no
  | cons _ gaps _ _ ih =>
    intro c hc
    obtain hc | hc := List.mem_append.1 hc
    · exact word _ List.mem_cons_self c hc
    obtain hc | hc := List.mem_append.1 hc
    · exact blank c (gaps c hc)
    · exact ih (fun w hw => word w (.tail _ hw)) c hc

theorem getLast?_not_blank (h : Spaced ws b) : ∀ c ∈ b.getLast?, isspace c = false := by
  induction h with
  | nil => exact fun _ no => nomatch no
  | @cons w gap b ws word _ between rest ih =>
    intro c hc
    by_cases last : ws = []
    · rw [between.2 last, rest.eq_nil_iff.2 last, List.append_nil, List.append_nil] at hc
      exact word.2 c (List.mem_of_mem_getLast? hc)
    · have some' : b ≠ [] := mt rest.eq_nil_iff.1 last
      rw [← List.append_assoc, List.getLast?_append_of_ne_nil _ some'] at hc
      exact ih c hc

theorem length_le (h : Spaced ws b) : ws.length ≤ b.length := by
  induction h with
  | nil => exact Nat.le_refl 0
  | cons word _ _ _ ih =>
    have := List.length_pos_iff.2 word.1
    simp only [List.length_cons, List.length_append]
    omega

/-- What passes a test that blanks fail goes up to the next blank. -/
theorem span {test : Byte → Bool} {gap : List Byte} (all : ∀ c ∈ w, test c)
    (other : ∀ c, isspace c → test c = false) (blank : Blanks gap) (between : gap = [] ↔ ws = [])
    (rest : Spaced ws b) :
    (w ++ (gap ++ b)).takeWhile test = w ∧ (w ++ (gap ++ b)).dropWhile test = gap ++ b := by
  have stop : (gap ++ b).takeWhile test = [] ∧ (gap ++ b).dropWhile test = gap ++ b := by
    cases gap with
    | nil =>
      have none' := rest.eq_nil_iff.2 (between.1 rfl)
      rw [none']
      exact ⟨rfl, rfl⟩
    | cons c gap =>
      have fails : ¬ test c := by simp [other c (blank c List.mem_cons_self)]
      rw [List.cons_append]
      exact ⟨List.takeWhile_cons_of_neg fails, List.dropWhile_cons_of_neg fails⟩
  rw [List.takeWhile_append_of_pos all, List.dropWhile_append_of_pos all, stop.1, stop.2,
    List.append_nil]
  exact ⟨rfl, rfl⟩

theorem span_word {gap : List Byte} (word : IsWord w) (blank : Blanks gap)
    (between : gap = [] ↔ ws = []) (rest : Spaced ws b) :
    (w ++ (gap ++ b)).takeWhile (!isspace ·) = w ∧
      (w ++ (gap ++ b)).dropWhile (!isspace ·) = gap ++ b :=
  span (fun c hc => by rw [word.2 c hc]; rfl) (fun c space => by rw [space]; rfl)
    blank between rest

theorem sscanfS_eq (h : Spaced (w :: ws) b) (blank : Blanks lead) :
    sscanfS (lead ++ b) = some w := by
  rw [sscanfS, h.stpblk_eq blank]
  cases h with
  | cons word gap between rest =>
    rw [(span_word word gap between rest).1, if_neg (by simpa using word.1)]

/-- Behind the first word there are the others, behind blanks. -/
theorem rest_eq (h : Spaced (w :: ws) b) : ∃ gap b', Blanks gap ∧ Spaced ws b' ∧
    b.dropWhile (!isspace ·) = gap ++ b' ∧ (gap ++ b').length < b.length := by
  cases h with
  | cons word blank between rest =>
    refine ⟨_, _, blank, rest, (span_word word blank between rest).2, ?_⟩
    have := List.length_pos_iff.2 word.1
    simp only [List.length_append]
    omega

/-- What a word begins with can be taken off. -/
theorem cut {u v : List Byte} (h : Spaced ((u ++ v) :: ws) b) (some' : v ≠ []) :
    ∃ b', b = u ++ b' ∧ Spaced (v :: ws) b' := by
  cases h with
  | cons word blank between rest =>
    refine ⟨_, List.append_assoc _ _ _, .cons ⟨some', fun c hc => ?_⟩ blank between rest⟩
    exact word.2 c (List.mem_append_right u hc)

end Spaced

/-! ## stpnxt -/

theorem stpnxtLoop_s (turns : Nat) (s fmt : List Byte) :
    Ssl.stpnxtLoop (turns + 1) s (37 :: 115 :: fmt) =
      if ((stpblk s).dropWhile (!isspace ·)).length ≥ s.length then some s
      else Ssl.stpnxtLoop turns ((stpblk s).dropWhile (!isspace ·)) fmt := by
  by_cases some' : s = []
  · subst some'
    rfl
  · have width : Ssl.skipWidth (115 :: fmt) = 115 :: fmt := rfl
    have word : Ssl.convert 115 s = .on ((stpblk s).dropWhile (!isspace ·)) s := rfl
    rw [Ssl.stpnxtLoop_code some', width]
    simp only [List.headD_cons, word]

theorem stpnxtLoop_b (turns : Nat) (s : List Byte) :
    Ssl.stpnxtLoop (turns + 1) s [37, 98] = some (stpblk s) := by
  by_cases some' : s = []
  · subst some'
    rfl
  · have width : Ssl.skipWidth [98] = [98] := rfl
    have blanks : Ssl.convert 98 s = .on (stpblk s) s := rfl
    rw [Ssl.stpnxtLoop_code some', width]
    simp only [List.headD_cons, blanks, Ssl.stpnxtLoop_done]
    split
    · rename_i nothing
      rw [stpblk, (List.dropWhile_suffix isspace (l := s)).eq_of_length_le nothing]
    · rfl

namespace Spaced

variable {w w' b lead : List Byte} {ws : List (List Byte)}

/-- One `%s` of a format skips one word. -/
theorem stpnxtLoop_word (h : Spaced (w :: ws) b) (blank : Blanks lead) (turns : Nat)
    (fmt : List Byte) : ∃ gap b', Blanks gap ∧ Spaced ws b' ∧
      Ssl.stpnxtLoop (turns + 1) (lead ++ b) (37 :: 115 :: fmt) =
        Ssl.stpnxtLoop turns (gap ++ b') fmt := by
  obtain ⟨gap, b', gaps, rest, behind, shorter⟩ := h.rest_eq
  refine ⟨gap, b', gaps, rest, ?_⟩
  rw [stpnxtLoop_s, h.stpblk_eq blank, behind, if_neg]
  simp only [List.length_append] at shorter ⊢
  omega

/-- `stpnxt(b,"%s%b")` -/
theorem next (h : Spaced (w :: ws) b) : ∃ b', stpnxt b fmtSB = some b' ∧ Spaced ws b' := by
  obtain ⟨gap, b', gaps, rest, behind⟩ :=
    h.stpnxtLoop_word blanks_nil 4 [37, 98]
  refine ⟨b', ?_, rest⟩
  rw [← rest.stpblk_eq gaps, ← stpnxtLoop_b 3]
  exact behind

/-- `stpnxt(buf,"%s %s%b")` -/
theorem behind (h : Spaced (w :: w' :: ws) b) (blank : Blanks lead) :
    ∃ b', stpnxt (lead ++ b) fmtSSB = some b' ∧ Spaced ws b' := by
  obtain ⟨gap, b', gaps, rest, first⟩ := h.stpnxtLoop_word blank 7 [32, 37, 115, 37, 98]
  obtain ⟨gap', b'', gaps', rest', second⟩ := rest.stpnxtLoop_word gaps 5 [37, 98]
  refine ⟨b'', ?_, rest'⟩
  have some' : (gap ++ b').isEmpty = false := by
    cases rest with
    | cons word => simp [word.1]
  have space : Ssl.stpnxtLoop 7 (gap ++ b') [32, 37, 115, 37, 98] =
      Ssl.stpnxtLoop 6 (gap ++ b') [37, 115, 37, 98] := by
    rw [Ssl.stpnxtLoop, if_neg (by simp [some'])]
    rfl
  change Ssl.stpnxtLoop 8 (lead ++ b) [37, 115, 32, 37, 115, 37, 98] = _
  rw [first, space, second, stpnxtLoop_b, rest'.stpblk_eq gaps']

end Spaced

/-! ## Numbers -/

/-- A number as it is written. -/
structure Digits where
  chars : List Byte
  some' : chars ≠ []
  digit : chars.all isdigit

namespace Digits

def value (n : Digits) : Nat := n.chars.foldl (fun n c => 10 * n + (c.toNat - 48)) 0

/-- What `%d` stores in an `int`. -/
def int (n : Digits) : Int := (min (n.value : Int) (2 ^ 63 - 1)).bmod (2 ^ 32)

theorem forall_mem (n : Digits) : ∀ c ∈ n.chars, isdigit c := List.all_eq_true.1 n.digit

theorem int_eq_iff (n : Digits) : n.int = n.value ↔ n.value < 2 ^ 31 := by
  have upper : n.int < ((2 ^ 32 : Nat) + 1) / 2 := Int.bmod_lt (by decide)
  constructor
  · intro same
    rw [same] at upper
    omega
  · intro small
    have low : min (n.value : Int) (2 ^ 63 - 1) = n.value := by omega
    rw [int, low]
    exact Int.bmod_eq_of_le (by omega) (by omega)

/-- A number does not begin with a sign, nor is there one behind it. -/
theorem head (n : Digits) (rest : List Byte) : ∃ c s, n.chars ++ rest = c :: s ∧ isdigit c := by
  obtain ⟨c, s, e⟩ := List.exists_cons_of_ne_nil n.some'
  exact ⟨c, s ++ rest, by rw [e]; rfl, n.forall_mem c (by simp [e])⟩

end Digits

namespace Spaced

variable {b : List Byte} {ws : List (List Byte)}

/-- `sscanf(b,"%d",&x)` and `stpnxt(b,"%d%b")` -/
theorem number {n : Digits} (h : Spaced (n.chars :: ws) b) :
    sscanfD b = some n.int ∧ ∃ b', stpnxt b fmtDB = some b' ∧ Spaced ws b' := by
  have blanks := h.stpblk_eq blanks_nil
  rw [List.nil_append] at blanks
  cases h with
  | @cons _ gap b' _ word blank between rest =>
    have noDigit (c : Byte) (space : isspace c) : isdigit c = false := by
      by_contra digit
      rw [Ssl.isdigit_not_isspace (by simpa using digit)] at space
      cases space
    obtain ⟨number, behind⟩ := span n.forall_mem noDigit blank between rest
    obtain ⟨c, s, e, digit⟩ := n.head (gap ++ b')
    have noSign : Ssl.skipOne Ssl.issign (n.chars ++ (gap ++ b')) = n.chars ++ (gap ++ b') := by
      rw [e, Ssl.skipOne, Ssl.isdigit_not_issign digit]
      rfl
    have noMinus : (n.chars ++ (gap ++ b')).headD 0 ≠ 45 := by
      rw [e, List.headD_cons]
      rintro rfl
      exact absurd digit (by decide)
    constructor
    · rw [sscanfD, Ssl.strtol]
      simp only [blanks, noSign, number]
      rw [if_neg (by simpa using n.some'), if_neg noMinus]
      rfl
    · have := List.length_pos_iff.2 n.some'
      rw [Ssl.stpnxt_fmtDB, blanks, Ssl.decimal, noSign, behind, if_neg, rest.stpblk_eq blank]
      · exact ⟨b', rfl, rest⟩
      · simp only [List.length_append]
        omega

end Spaced

end UnixProgramming.Dbg
