import Mathlib.Data.List.Infix
import UnixProgramming.Ssl.Scan
import UnixProgramming.Ssl.Spm

/-!
# Formats

`strnxtfmt`, the part of `printf` and `scanf` that `Sprintf` and `Sscanf` use,
and formats of integers and strings with single blanks between them.

* `skip_part`, `skip_whole`: where `stpnxt` stops;
* `sscanf_word`: `sscanf` undoes `sprintf` on a single conversion.
-/

namespace UnixProgramming.Ssl

/-! ## strnxtfmt -/

/-- What may stand between the `%` and the code letter. -/
def isflag (c : Byte) : Bool :=
  isdigit c || c == 108 || c == 76 || c == 104 || c == 45 || c == 46

/-- The loop of `strnxtfmt`: what it puts into `locbuf`, and what is left. -/
def strnxtfmtLoop : List Byte → List Byte × List Byte
  | [] => ([], [])
  | c :: fmt =>
    if c ≠ 37 then (c :: (strnxtfmtLoop fmt).1, (strnxtfmtLoop fmt).2)
    else match fmt with
      | [] => ([c], [])
      | d :: rest =>
        if d = 37 then (c :: d :: (strnxtfmtLoop rest).1, (strnxtfmtLoop rest).2)
        else match (d :: rest).dropWhile isflag with
          | [] => (c :: (d :: rest).takeWhile isflag, [])
          | code :: f => (c :: ((d :: rest).takeWhile isflag ++ [code]), f)

/-- The size of `locbuf`. -/
def locbufSize : Nat := 256

/-- The next single format, and where `f` then points to. Nothing counts what
goes into `locbuf`: a piece of `locbufSize` characters or more is written behind
it. -/
def strnxtfmt (f : List Byte) : Option (List Byte × List Byte) :=
  if f.isEmpty then none else some (strnxtfmtLoop f)

/-! ## The C library -/

/-- What `printf` prints or `scanf` stores. -/
inductive Arg where
  | int (v : Int)
  | str (s : List Byte)
  deriving DecidableEq, Repr

/-- The `h` or the `l` before a code letter. -/
inductive Width where
  | plain
  | short
  | long
  deriving DecidableEq, Repr

def Width.bits : Width → Nat
  | plain => 32
  | short => 16
  | long => 64

/-- A number in base `b`. -/
def digitsText (b n : Nat) : List Byte := (Nat.toDigits b n).map fun c => UInt8.ofNat c.toNat

/-- What `printf` makes of an argument. -/
def printCode (z : Width) (code : Byte) : Arg → List Byte
  | .str s => if code = 115 then s else []
  | .int v =>
    let n := (v % 2 ^ z.bits).toNat
    if code = 100 then
      let v := v.bmod (2 ^ z.bits)
      if v < 0 then 45 :: digitsText 10 v.natAbs else digitsText 10 v.natAbs
    else if code = 117 then digitsText 10 n
    else if code = 111 then digitsText 8 n
    else if code = 120 then digitsText 16 n
    else []

/-- `vsprintf`, inside a conversion or, for `none`, between two. -/
def vsprintf : Option Width → List Byte → List Arg → List Byte
  | _, [], _ => []
  | none, c :: fmt, args =>
    if c = 37 then vsprintf (some .plain) fmt args else c :: vsprintf none fmt args
  | some z, c :: fmt, args =>
    if c = 104 then vsprintf (some .short) fmt args
    else if c = 108 then vsprintf (some .long) fmt args
    else if c = 37 then c :: vsprintf none fmt args
    else match args with
      | [] => []
      | arg :: args => printCode z c arg ++ vsprintf none fmt args

def digitValue (c : Byte) : Nat :=
  if c ≤ 57 then c.toNat - 48 else if 97 ≤ c then c.toNat - 87 else c.toNat - 55

/-- The number that `strtoul` reads in base `b`, whose digits pass the test. -/
def strtoul (b : Nat) (test : Byte → Bool) (s : List Byte) : Option Nat :=
  let t := stpblk s
  let x := skipOne issign t
  let x := if b = 16 ∧ ([48, 120].isPrefixOf x ∨ [48, 88].isPrefixOf x) then x.drop 2 else x
  let digits := x.takeWhile test
  if digits.isEmpty then none
  else
    let n := min (digits.foldl (fun n c => b * n + digitValue c) 0) (2 ^ 64 - 1)
    some (if t.headD 0 = 45 then (2 ^ 64 - n) % 2 ^ 64 else n)

/-- What `scanf` stores for a conversion, if it stores. -/
def scanCode (z : Width) (code : Byte) (s : List Byte) : Option Arg :=
  if code = 115 then some (.str ((stpblk s).takeWhile (!isspace ·)))
  else if code = 100 then (strtol s).map fun n => .int (n.bmod (2 ^ z.bits))
  else
    let store (n : Option Nat) : Option Arg := n.map fun n => .int ((n % 2 ^ z.bits : Nat) : Int)
    if code = 117 then store (strtoul 10 isdigit s)
    else if code = 111 then store (strtoul 8 isodigit s)
    else if code = 120 then store (strtoul 16 isxdigit s)
    else none

/-- `sscanf(s,fmt,arg)` with a single conversion and no field width: its
result, and what it stores. -/
def Libc.sscanfFrom : Option Width → List Byte → List Byte → Int × Option Arg
  | _, [], _ => (0, none)
  | none, c :: fmt, s =>
    if isspace c then sscanfFrom none fmt (stpblk s)
    else if c = 37 then sscanfFrom (some .plain) fmt s
    else match s with
      | [] => (-1, none)
      | d :: s => if d = c then sscanfFrom none fmt s else (0, none)
  | some z, c :: fmt, s =>
    if c = 104 then sscanfFrom (some .short) fmt s
    else if c = 108 then sscanfFrom (some .long) fmt s
    else if (stpblk s).isEmpty then (-1, none)
    else match scanCode z c s with
      | none => (0, none)
      | some arg => (1, some arg)

def Libc.sscanf (s fmt : List Byte) : Int × Option Arg := sscanfFrom none fmt s

/-! ## Numbers as text -/

/-- The character for a digit. -/
def digitByte (d : Nat) : Byte := UInt8.ofNat (Nat.digitChar d).toNat

theorem digitsText_small {b n : Nat} (h : n < b) : digitsText b n = [digitByte n] := by
  rw [digitsText, Nat.toDigits_of_lt_base h]
  rfl

section
variable {b : Nat} (base : 1 < b)
include base

theorem digitsText_large {n : Nat} (h : b ≤ n) :
    digitsText b n = digitsText b (n / b) ++ [digitByte (n % b)] := by
  rw [digitsText, Nat.toDigits_of_base_le base h, List.map_append]
  rfl

theorem mem_digitsText {n : Nat} {c : Byte} : c ∈ digitsText b n → ∃ d < b, c = digitByte d := by
  induction n using Nat.strongRecOn with
  | ind n ih =>
    intro h
    rcases Nat.lt_or_ge n b with small | large
    · rw [digitsText_small small, List.mem_singleton] at h
      exact ⟨n, small, h⟩
    · rw [digitsText_large base large, List.mem_append, List.mem_singleton] at h
      rcases h with front | last
      · exact ih (n / b) (Nat.div_lt_self (by omega) base) front
      · exact ⟨n % b, Nat.mod_lt _ (by omega), last⟩

theorem digitsText_ne_nil (n : Nat) : digitsText b n ≠ [] := by
  rcases Nat.lt_or_ge n b with small | large
  · rw [digitsText_small small]
    exact List.cons_ne_nil _ _
  · rw [digitsText_large base large]
    simp

/-- The value of the digits is the number they have been made of. -/
theorem foldl_digitsText {value : Byte → Nat} (hv : ∀ d < b, value (digitByte d) = d) (n : Nat) :
    (digitsText b n).foldl (fun n c => b * n + value c) 0 = n := by
  induction n using Nat.strongRecOn with
  | ind n ih =>
    rcases Nat.lt_or_ge n b with small | large
    · rw [digitsText_small small]
      simp [hv n small]
    · rw [digitsText_large base large, List.foldl_append,
        ih (n / b) (Nat.div_lt_self (by omega) base)]
      simp only [List.foldl_cons, List.foldl_nil]
      rw [hv _ (Nat.mod_lt _ (by omega)), Nat.div_add_mod]

theorem digitsText_all {test : Byte → Bool} (ht : ∀ d < b, test (digitByte d) = true) (n : Nat) :
    ∀ c ∈ digitsText b n, test c := by
  intro c hc
  obtain ⟨d, hd, rfl⟩ := mem_digitsText base hc
  exact ht d hd

end

/-! ## Conversions -/

/-- A conversion of `Sprintf` and `Sscanf`. -/
inductive Conv where
  | d (z : Width)
  | u (z : Width)
  | o (z : Width)
  | x (z : Width)
  | s
  deriving DecidableEq, Repr

namespace Conv

def width : Conv → Width
  | d z | u z | o z | x z => z
  | s => .plain

def code : Conv → Byte
  | d _ => 100
  | u _ => 117
  | o _ => 111
  | x _ => 120
  | s => 115

def text (c : Conv) : List Byte :=
  match c.width with
  | .plain => [37, c.code]
  | .short => [37, 104, c.code]
  | .long => [37, 108, c.code]

/-- The arguments that match a conversion. -/
def Takes : Conv → Arg → Prop
  | d z, .int v => -2 ^ (z.bits - 1) ≤ v ∧ v < 2 ^ (z.bits - 1)
  | u z, .int v | o z, .int v | x z, .int v => 0 ≤ v ∧ v < 2 ^ z.bits
  | s, .str t => t ≠ [] ∧ ∀ c ∈ t, c ≠ 0 ∧ isspace c = false
  | _, _ => False

instance : ∀ c a, Decidable (Takes c a)
  | d z, .int v =>
    inferInstanceAs (Decidable (-2 ^ (z.bits - 1) ≤ v ∧ v < 2 ^ (z.bits - 1)))
  | u z, .int v | o z, .int v | x z, .int v => inferInstanceAs (Decidable (0 ≤ v ∧ v < 2 ^ z.bits))
  | s, .str t => inferInstanceAs (Decidable (t ≠ [] ∧ ∀ c ∈ t, c ≠ 0 ∧ isspace c = false))
  | s, .int _ | d _, .str _ | u _, .str _ | o _, .str _ | x _, .str _ => .isFalse id

/-- What is sent for an argument. -/
def word (c : Conv) (a : Arg) : List Byte := printCode c.width c.code a

/-- What `stpnxt` skips behind the blanks. -/
def skip : Conv → List Byte → List Byte
  | d _, t => decimal t
  | u _, t => fraction (decimal t)
  | o _, t => (skipOne issign t).dropWhile isodigit
  | x _, t =>
    let x := skipOne issign t
    (if [48, 120].isPrefixOf x then x.drop 2 else x).dropWhile isxdigit
  | s, t => t.dropWhile (!isspace ·)

end Conv

/-- At most the blank that separates a conversion from the one before. -/
def Lead (lead : List Byte) : Prop := lead = [] ∨ lead = [32]

section
variable {lead : List Byte} (hl : Lead lead)
include hl

theorem strnxtfmt_conv (c : Conv) (rest : List Byte) :
    strnxtfmt (lead ++ c.text ++ rest) = some (lead ++ c.text, rest) := by
  rcases hl with rfl | rfl <;> rcases c with z | z | z | z | _ <;> first | rfl | (cases z <;> rfl)

/-- Such a piece has a few characters. -/
theorem piece_fits (c : Conv) : (lead ++ c.text).length < locbufSize := by
  have four : c.text.length ≤ 3 := by
    rcases c with z | z | z | z | _ <;> first | decide | (cases z <;> decide)
  have one : lead.length ≤ 1 := by rcases hl with rfl | rfl <;> decide
  rw [List.length_append, locbufSize]
  omega

end

theorem Conv.skip_suffix (c : Conv) (t : List Byte) : c.skip t <:+ t := by
  cases c with
  | d z => exact decimal_suffix t
  | u z => exact (fraction_suffix _).trans (decimal_suffix t)
  | o z => exact (List.dropWhile_suffix _).trans (skipOne_suffix _ _)
  | x z =>
    refine (List.dropWhile_suffix _).trans ?_
    split
    · exact (List.drop_suffix _ _).trans (skipOne_suffix _ _)
    · exact skipOne_suffix _ _
  | s => exact List.dropWhile_suffix _

theorem convert_code (c : Conv) (s : List Byte) :
    convert c.code s = .on (c.skip (stpblk s)) (if c = .s then s else stpblk s) := by
  cases c <;> rfl

theorem skipWidth_text (c : Conv) : ∃ fmt, c.text = 37 :: fmt ∧ skipWidth fmt = [c.code] := by
  rcases c with z | z | z | z | _
  all_goals first | exact ⟨_, rfl, rfl⟩ | (cases z <;> exact ⟨_, rfl, rfl⟩)

/-- Where nothing has been skipped, `stpnxt` returns the old pointer, which is the same. -/
theorem skipped {t ss : List Byte} (h : t <:+ ss) :
    (if t.length ≥ ss.length then some ss else some t) = some t := by
  split
  · rename_i nothing
    rw [h.eq_of_length_le nothing]
  · rfl

/-- **Where `stpnxt` stops** on a single conversion. -/
theorem stpnxt_conv {lead : List Byte} (hl : Lead lead) (c : Conv) (s : List Byte) :
    stpnxt s (lead ++ c.text) = some (c.skip (stpblk s)) := by
  by_cases some' : s = []
  · subst some'
    have nothing : c.skip (stpblk []) = [] := List.suffix_nil.1 (c.skip_suffix [])
    rw [nothing]
    rfl
  obtain ⟨fmt, text, width⟩ := skipWidth_text c
  have conv (turns : Nat) : stpnxtLoop (turns + 1) s c.text = some (c.skip (stpblk s)) := by
    rw [text, stpnxtLoop_code some', width, List.headD_cons, convert_code]
    simp only [stpnxtLoop_done]
    by_cases isS : c = .s
    · rw [if_pos isS]
      exact skipped ((c.skip_suffix _).trans (List.dropWhile_suffix _))
    · rw [if_neg isS]
      exact skipped (c.skip_suffix _)
  rcases hl with rfl | rfl
  · exact conv _
  · have blank : stpnxt s ([32] ++ c.text) = stpnxtLoop (c.text.length + 1) s c.text := by
      change stpnxtLoop (c.text.length + 1 + 1) s (32 :: c.text) = _
      rw [stpnxtLoop, if_neg (by simpa using some')]
      rfl
    rw [blank, conv]

/-! ## Words -/

/-- What may follow a word: nothing, or the blank before the next one. -/
def Stop (rest : List Byte) : Prop := ∀ c ∈ rest.head?, c = 32

/-- A number, or the first part of one. -/
def Numeral (test : Byte → Bool) (w : List Byte) : Prop :=
  ∃ sign digits, (sign = [] ∨ sign = [45]) ∧ w = sign ++ digits ∧ ∀ c ∈ digits, test c

section
variable {test : Byte → Bool} {u w rest digits : List Byte}

theorem Numeral.part (h : Numeral test w) (hu : u <+: w) : Numeral test u := by
  obtain ⟨sign, digits, rfl | rfl, rfl, all⟩ := h
  · exact ⟨[], u, .inl rfl, rfl, fun c hc => all c (hu.subset hc)⟩
  · cases u with
    | nil => exact ⟨[], [], .inl rfl, rfl, by simp⟩
    | cons c u =>
      obtain ⟨rfl, part⟩ := List.cons_prefix_cons.1 (show c :: u <+: 45 :: digits from hu)
      exact ⟨[45], u, .inr rfl, rfl, fun c hc => all c (part.subset hc)⟩

theorem Numeral.forall {P : Byte → Prop} (h : Numeral test w) (sign : P 45)
    (all : ∀ c, test c → P c) : ∀ c ∈ w, P c := by
  obtain ⟨s, digits, rfl | rfl, rfl, digit⟩ := h
  · exact fun c hc => all c (digit c hc)
  · intro c hc
    rcases List.mem_cons.1 hc with rfl | hc
    · exact sign
    · exact all c (digit c hc)

theorem skipOne_stop (stop : Stop rest) (other : test 32 = false) : skipOne test rest = rest := by
  cases rest with
  | nil => rfl
  | cons c rest =>
    obtain rfl := stop c rfl
    change (if test 32 then rest else 32 :: rest) = _
    rw [if_neg (by simp [other])]

theorem dropWhile_stop (stop : Stop rest) (other : test 32 = false) :
    rest.dropWhile test = rest := by
  cases rest with
  | nil => rfl
  | cons c rest =>
    obtain rfl := stop c rfl
    rw [List.dropWhile_cons_of_neg (by simp [other])]

theorem dropWhile_digits (all : ∀ c ∈ digits, test c) (stop : Stop rest) (other : test 32 = false) :
    (digits ++ rest).dropWhile test = rest := by
  rw [List.dropWhile_append_of_pos all, dropWhile_stop stop other]

/-- Behind the sign come the digits. -/
theorem skipOne_numeral (noSign : ∀ c, test c → issign c = false) (h : Numeral test u)
    (stop : Stop rest) :
    ∃ digits, (∀ c ∈ digits, test c) ∧ skipOne issign (u ++ rest) = digits ++ rest := by
  obtain ⟨sign, digits, rfl | rfl, e, all⟩ := h
  · refine ⟨digits, all, ?_⟩
    rw [e]
    cases digits with
    | nil => exact skipOne_stop stop (by decide)
    | cons c digits =>
      change (if issign c then digits ++ rest else c :: (digits ++ rest)) = _
      rw [if_neg (by simp [noSign c (all c (by simp))])]
      rfl
  · rw [e]
    exact ⟨digits, all, rfl⟩

theorem fraction_stop (stop : Stop rest) : fraction rest = rest := by
  unfold fraction
  rw [skipOne_stop stop (by decide), dropWhile_stop stop (by decide)]
  cases rest with
  | nil => rfl
  | cons c rest =>
    obtain rfl := stop c rfl
    rfl

end

theorem isxdigit_not_x {c : Byte} (h : isxdigit c) : c ≠ 120 := by
  rintro rfl
  exact absurd h (by decide)

theorem isxdigit_not_issign (c : Byte) (h : isxdigit c) : issign c = false := by
  by_contra sign
  simp only [issign, Bool.not_eq_false, Bool.or_eq_true, beq_iff_eq] at sign
  rcases sign with rfl | rfl
  · exact absurd h (by decide)
  · exact absurd h (by decide)

theorem isodigit_isdigit {c : Byte} (h : isodigit c) : isdigit c := by
  simp only [isodigit, isdigit, Bool.and_eq_true, decide_eq_true_eq] at h ⊢
  exact ⟨h.1, UInt8.le_trans h.2 (by decide)⟩

theorem isdigit_isxdigit {c : Byte} (h : isdigit c) : isxdigit c := by simp [isxdigit, h]

theorem isxdigit_not_isspace (c : Byte) (h : isxdigit c) : isspace c = false := by
  simp only [isxdigit, isdigit, isspace, Bool.or_eq_true, Bool.and_eq_true, decide_eq_true_eq,
    Bool.or_eq_false_iff, beq_eq_false_iff_ne, ne_eq, UInt8.le_iff_toNat_le,
    ← UInt8.toNat_inj] at h ⊢
  simp at h ⊢
  omega

/-- The words of a conversion, and the first parts of them. -/
def Conv.Word : Conv → List Byte → Prop
  | d _, w | u _, w => Numeral isdigit w
  | o _, w => Numeral isodigit w
  | x _, w => Numeral isxdigit w
  | s, w => ∀ c ∈ w, isspace c = false

namespace Conv

variable {c : Conv} {u w rest : List Byte}

theorem Word.part (h : c.Word w) (hu : u <+: w) : c.Word u := by
  cases c with
  | d z => exact Numeral.part h hu
  | u z => exact Numeral.part h hu
  | o z => exact Numeral.part h hu
  | x z => exact Numeral.part h hu
  | s => exact fun c hc => h c (hu.subset hc)

theorem Word.not_blank (h : c.Word w) : ∀ c ∈ w, isspace c = false := by
  have sign : isspace 45 = false := by decide
  cases c with
  | d z => exact Numeral.forall h sign fun c hc => isxdigit_not_isspace c (isdigit_isxdigit hc)
  | u z => exact Numeral.forall h sign fun c hc => isxdigit_not_isspace c (isdigit_isxdigit hc)
  | o z =>
    exact Numeral.forall h sign fun c hc =>
      isxdigit_not_isspace c (isdigit_isxdigit (isodigit_isdigit hc))
  | x z => exact Numeral.forall h sign isxdigit_not_isspace
  | s => exact h

/-- **`stpnxt` skips a word and nothing else.** -/
theorem Word.skip (h : c.Word w) (stop : Stop rest) : c.skip (w ++ rest) = rest := by
  have digit (c : Byte) (hc : isdigit c) : issign c = false :=
    isxdigit_not_issign c (isdigit_isxdigit hc)
  have number (h : Numeral isdigit w) : decimal (w ++ rest) = rest := by
    obtain ⟨digits, all, behind⟩ := skipOne_numeral digit h stop
    rw [decimal, behind, dropWhile_digits all stop (by decide)]
  cases c with
  | d z => exact number h
  | u z =>
    change fraction (decimal (w ++ rest)) = rest
    rw [number h, fraction_stop stop]
  | o z =>
    obtain ⟨digits, all, behind⟩ :=
      skipOne_numeral (fun c hc => digit c (isodigit_isdigit hc)) h stop
    change (skipOne issign (w ++ rest)).dropWhile isodigit = rest
    rw [behind, dropWhile_digits all stop (by decide)]
  | x z =>
    obtain ⟨digits, all, behind⟩ := skipOne_numeral isxdigit_not_issign h stop
    have plain : ¬ [48, 120].isPrefixOf (digits ++ rest) = true := by
      rw [List.isPrefixOf_iff_prefix]
      rintro ⟨more, e⟩
      match digits, e with
      | [], e =>
        cases rest with
        | nil => cases e
        | cons c rest =>
          obtain rfl := stop c rfl
          cases e
      | [c], e =>
        cases rest with
        | nil => cases e
        | cons c rest =>
          obtain rfl := stop c rfl
          cases e
      | c :: c' :: digits, e =>
        have same : c' = 120 := by
          simp only [List.cons_append, List.nil_append, List.cons.injEq] at e
          exact e.2.1.symm
        exact isxdigit_not_x (all c' (by simp)) same
    unfold Conv.skip
    dsimp only
    rw [behind, if_neg plain, dropWhile_digits all stop (by decide)]
  | s =>
    have all : ∀ c ∈ w, (!isspace c) = true := fun c hc => by rw [h c hc]; rfl
    exact dropWhile_digits all stop (by decide)

end Conv

/-! ## What is sent for an argument -/

theorem digitByte_tests : (∀ d < 10, isdigit (digitByte d) = true) ∧
    (∀ d < 8, isodigit (digitByte d) = true) ∧ (∀ d < 16, isxdigit (digitByte d) = true) := by
  decide

theorem digitValue_digitByte : ∀ d < 16, digitValue (digitByte d) = d := by decide

theorem digitByte_decimal : ∀ d < 10, (digitByte d).toNat - 48 = d := by decide

theorem stpblk_word {w : List Byte} (h : ∀ c ∈ w, isspace c = false) : stpblk w = w :=
  stpblk_self fun c hc => h c (List.mem_of_mem_head? hc)

/-- The sign of a negative number. -/
def minus (neg : Bool) : List Byte := if neg then [45] else []

theorem numeral_minus {test : Byte → Bool} {b : Nat} (base : 1 < b)
    (ht : ∀ d < b, test (digitByte d) = true) (neg : Bool) (n : Nat) :
    Numeral test (minus neg ++ digitsText b n) :=
  ⟨minus neg, _, by cases neg <;> simp [minus], rfl, digitsText_all base ht n⟩

theorem takeWhile_digits {test : Byte → Bool} {b : Nat} (base : 1 < b)
    (ht : ∀ d < b, test (digitByte d) = true) (n : Nat) :
    (digitsText b n).takeWhile test = digitsText b n :=
  List.takeWhile_eq_self_iff.2 (digitsText_all base ht n)

/-- `strtol` reads back what has been printed, as far as it goes. -/
theorem strtol_digits (neg : Bool) (n : Nat) : strtol (minus neg ++ digitsText 10 n) =
    some (if neg then max (-(n : Int)) (-2 ^ 63) else min (n : Int) (2 ^ 63 - 1)) := by
  have digit := digitByte_tests.1
  have numeral := numeral_minus (by decide) digit neg n
  have blanks : stpblk (minus neg ++ digitsText 10 n) = minus neg ++ digitsText 10 n :=
    stpblk_word (Conv.Word.not_blank (c := .d .plain) numeral)
  have digits : skipOne issign (minus neg ++ digitsText 10 n) = digitsText 10 n := by
    cases neg with
    | true => rfl
    | false =>
      obtain ⟨c, s, e⟩ := List.exists_cons_of_ne_nil (digitsText_ne_nil (by decide : 1 < 10) n)
      have first : isdigit c := digitsText_all (by decide) digit n c (by simp [e])
      rw [minus, if_neg (by decide), List.nil_append, e]
      exact if_neg (by simp [isdigit_not_issign first])
  have sign : (minus neg ++ digitsText 10 n).headD 0 = 45 ↔ neg = true := by
    cases neg with
    | true => simp [minus]
    | false =>
      obtain ⟨c, s, e⟩ := List.exists_cons_of_ne_nil (digitsText_ne_nil (by decide : 1 < 10) n)
      have first : isdigit c := digitsText_all (by decide) digit n c (by simp [e])
      have other : c ≠ 45 := by
        rintro rfl
        exact absurd first (by decide)
      simpa [minus, e] using other
  unfold strtol
  dsimp only
  rw [blanks, digits, takeWhile_digits (by decide) digit,
    if_neg (by simpa using digitsText_ne_nil (by decide : 1 < 10) n),
    foldl_digitsText (by decide) digitByte_decimal]
  simp only [sign]

/-- `strtoul` does, in any base of the conversions. -/
theorem strtoul_digits {b : Nat} {test : Byte → Bool} (base : 1 < b) (hb : b ≤ 16)
    (ht : ∀ d < b, test (digitByte d) = true) (hx : ∀ c, test c → isxdigit c) {n : Nat}
    (hn : n < 2 ^ 64) : strtoul b test (digitsText b n) = some n := by
  have all := digitsText_all base ht n
  have blanks : stpblk (digitsText b n) = digitsText b n :=
    stpblk_word fun c hc => isxdigit_not_isspace c (hx c (all c hc))
  obtain ⟨c, s, e⟩ := List.exists_cons_of_ne_nil (digitsText_ne_nil base n)
  have first : isxdigit c := hx c (all c (by simp [e]))
  have digits : skipOne issign (digitsText b n) = digitsText b n := by
    rw [e]
    exact if_neg (by simp [isxdigit_not_issign c first])
  have sign : (digitsText b n).headD 0 ≠ 45 := by
    rw [e]
    rintro rfl
    exact absurd first (by decide)
  have plain : ¬ (b = 16 ∧ ([48, 120].isPrefixOf (digitsText b n) ∨
      [48, 88].isPrefixOf (digitsText b n))) := by
    rintro ⟨-, hex | hex⟩
    · have x := (List.isPrefixOf_iff_prefix.1 hex).subset (show (120 : Byte) ∈ [48, 120] by decide)
      exact absurd (hx _ (all _ x)) (by decide)
    · have x := (List.isPrefixOf_iff_prefix.1 hex).subset (show (88 : Byte) ∈ [48, 88] by decide)
      exact absurd (hx _ (all _ x)) (by decide)
  unfold strtoul
  dsimp only
  rw [blanks, digits, if_neg plain, takeWhile_digits base ht,
    if_neg (by simpa using digitsText_ne_nil base n),
    foldl_digitsText base fun d hd => digitValue_digitByte d (by omega), if_neg sign]
  congr 1
  omega

namespace Conv

theorem Takes.d {z : Width} {v : Int} (h : (Conv.d z).Takes (.int v)) :
    v.bmod (2 ^ z.bits) = v := by
  obtain ⟨lo, hi⟩ := h
  cases z <;> simp only [Width.bits] at lo hi ⊢ <;> exact Int.bmod_eq_of_le (by omega) (by omega)

theorem word_d {z : Width} {v : Int} (h : (Conv.d z).Takes (.int v)) :
    (Conv.d z).word (.int v) = minus (decide (v < 0)) ++ digitsText 10 v.natAbs := by
  have same := h.d
  simp only [word, width, code, printCode, same, minus]
  by_cases neg : v < 0
  · simp [neg]
  · simp [neg]

/-- What the codes `u`, `o` and `x` make of a number that is not negative. -/
theorem printCode_unsigned {z : Width} {v : Int} (h : 0 ≤ v ∧ v < 2 ^ z.bits) :
    v % 2 ^ z.bits = v ∧ v.toNat < 2 ^ z.bits ∧ v.toNat < 2 ^ 64 := by
  obtain ⟨lo, hi⟩ := h
  refine ⟨Int.emod_eq_of_lt lo hi, ?_, ?_⟩
  · cases z <;> simp only [Width.bits] at hi ⊢ <;> omega
  · cases z <;> simp only [Width.bits] at hi ⊢ <;> omega

theorem word_u {z : Width} {v : Int} (h : (Conv.u z).Takes (.int v)) :
    (Conv.u z).word (.int v) = digitsText 10 v.toNat := by
  change digitsText 10 (v % 2 ^ z.bits).toNat = _
  rw [(printCode_unsigned h).1]

theorem word_o {z : Width} {v : Int} (h : (Conv.o z).Takes (.int v)) :
    (Conv.o z).word (.int v) = digitsText 8 v.toNat := by
  change digitsText 8 (v % 2 ^ z.bits).toNat = _
  rw [(printCode_unsigned h).1]

theorem word_x {z : Width} {v : Int} (h : (Conv.x z).Takes (.int v)) :
    (Conv.x z).word (.int v) = digitsText 16 v.toNat := by
  change digitsText 16 (v % 2 ^ z.bits).toNat = _
  rw [(printCode_unsigned h).1]

/-- **What is sent for an argument is a word of its conversion.** -/
theorem Takes.word {c : Conv} {a : Arg} (h : c.Takes a) : c.Word (c.word a) ∧ c.word a ≠ [] := by
  obtain ⟨digit, octal, hex⟩ := digitByte_tests
  match c, a, h with
  | .d z, .int v, h =>
    rw [word_d h]
    exact ⟨numeral_minus (by decide) digit _ _,
      List.append_ne_nil_of_right_ne_nil _ (digitsText_ne_nil (by decide) _)⟩
  | .u z, .int v, h =>
    rw [word_u h]
    exact ⟨numeral_minus (by decide) digit false _, digitsText_ne_nil (by decide) _⟩
  | .o z, .int v, h =>
    rw [word_o h]
    exact ⟨numeral_minus (by decide) octal false _, digitsText_ne_nil (by decide) _⟩
  | .x z, .int v, h =>
    rw [word_x h]
    exact ⟨numeral_minus (by decide) hex false _, digitsText_ne_nil (by decide) _⟩
  | .s, .str t, h => exact ⟨fun c hc => (h.2 c hc).2, h.1⟩

theorem Takes.noNul {c : Conv} {a : Arg} (h : c.Takes a) : 0 ∉ c.word a := by
  have digit {c : Byte} (hc : isxdigit c) : c ≠ 0 := by
    rintro rfl
    exact absurd hc (by decide)
  have minus : (45 : Byte) ≠ 0 := by decide
  match c, a, h with
  | .d z, .int v, h =>
    exact fun zero => Numeral.forall h.word.1 minus
      (fun c hc => digit (isdigit_isxdigit hc)) 0 zero rfl
  | .u z, .int v, h =>
    exact fun zero => Numeral.forall h.word.1 minus
      (fun c hc => digit (isdigit_isxdigit hc)) 0 zero rfl
  | .o z, .int v, h =>
    exact fun zero => Numeral.forall h.word.1 minus
      (fun c hc => digit (isdigit_isxdigit (isodigit_isdigit hc))) 0 zero rfl
  | .x z, .int v, h =>
    exact fun zero => Numeral.forall h.word.1 minus (fun c hc => digit hc) 0 zero rfl
  | .s, .str t, h => exact fun zero => (h.2 0 zero).1 rfl

/-- What is then stored of the number is the number. -/
theorem stored_unsigned {z : Width} {v : Int} (h : 0 ≤ v ∧ v < 2 ^ z.bits) :
    ((v.toNat % 2 ^ z.bits : Nat) : Int) = v := by
  rw [Nat.mod_eq_of_lt (printCode_unsigned h).2.1]
  exact Int.toNat_of_nonneg h.1

/-- **`scanf` undoes `printf`** on a single conversion. -/
theorem scanCode_word {c : Conv} {a : Arg} (h : c.Takes a) :
    scanCode c.width c.code (c.word a) = some a := by
  obtain ⟨digit, octal, hex⟩ := digitByte_tests
  match c, a, h with
  | .d z, .int v, h =>
    have range : -2 ^ 63 ≤ v ∧ v < 2 ^ 63 := by
      obtain ⟨lo, hi⟩ := h
      cases z <;> simp only [Width.bits] at lo hi <;> omega
    change (strtol _).map _ = _
    rw [word_d h, strtol_digits, Option.map_some]
    have back : (if decide (v < 0) = true then max (-(v.natAbs : Int)) (-2 ^ 63)
        else min (v.natAbs : Int) (2 ^ 63 - 1)) = v := by
      by_cases neg : v < 0
      · rw [if_pos (by simpa using neg)]
        omega
      · rw [if_neg (by simpa using neg)]
        omega
    rw [back, width, h.d]
  | .u z, .int v, h =>
    change (strtoul 10 isdigit _).map _ = _
    rw [word_u h, strtoul_digits (by decide) (by decide) digit (fun _ => isdigit_isxdigit)
      (printCode_unsigned h).2.2, Option.map_some, width, stored_unsigned h]
  | .o z, .int v, h =>
    change (strtoul 8 isodigit _).map _ = _
    rw [word_o h, strtoul_digits (by decide) (by decide) octal
      (fun _ hc => isdigit_isxdigit (isodigit_isdigit hc)) (printCode_unsigned h).2.2,
      Option.map_some, width, stored_unsigned h]
  | .x z, .int v, h =>
    change (strtoul 16 isxdigit _).map _ = _
    rw [word_x h, strtoul_digits (by decide) (by decide) hex (fun _ => id)
      (printCode_unsigned h).2.2, Option.map_some, width, stored_unsigned h]
  | .s, .str t, h =>
    change some (Arg.str ((stpblk t).takeWhile (!isspace ·))) = _
    have plain : ∀ c ∈ t, (!isspace c) = true := fun c hc => by rw [(h.2 c hc).2]; rfl
    rw [stpblk_word fun c hc => (h.2 c hc).2, List.takeWhile_eq_self_iff.2 plain]

end Conv

/-- **`sscanf` undoes `sprintf`**, with or without the blank before. -/
theorem sscanf_word {lead : List Byte} (hl : Lead lead) {c : Conv} {a : Arg} (h : c.Takes a) :
    Libc.sscanf (lead ++ c.word a) (lead ++ c.text) = (1, some a) := by
  obtain ⟨word, some'⟩ := h.word
  have blanks := stpblk_word word.not_blank
  have scan := c.scanCode_word h
  have conv : Libc.sscanfFrom none c.text (c.word a) = (1, some a) := by
    have behind : Libc.sscanfFrom none c.text (c.word a) =
        if (stpblk (c.word a)).isEmpty then (-1, none)
        else match scanCode c.width c.code (c.word a) with
          | none => (0, none)
          | some arg => (1, some arg) := by
      rcases c with z | z | z | z | _
      all_goals first | rfl | (cases z <;> rfl)
    rw [behind, blanks, if_neg (by simpa using some'), scan]
  rcases hl with rfl | rfl
  · exact conv
  · have skip : stpblk (32 :: c.word a) = c.word a := blanks
    change Libc.sscanfFrom none c.text (stpblk (32 :: c.word a)) = _
    rw [skip, conv]

section
variable {lead w u rest : List Byte} {c : Conv} (hl : Lead lead)
include hl

/-- A part of a word is skipped whole: there may be more of it. -/
theorem stpnxt_part (h : c.Word w) (hu : u <+: lead ++ w) :
    stpnxt u (lead ++ c.text) = some [] := by
  have behind : ∃ v, v <+: w ∧ stpblk u = v := by
    rcases hl with rfl | rfl
    · exact ⟨u, hu, stpblk_word (h.part hu).not_blank⟩
    · cases u with
      | nil => exact ⟨[], List.nil_prefix, rfl⟩
      | cons b v =>
        obtain ⟨rfl, part⟩ := List.cons_prefix_cons.1 (show b :: v <+: 32 :: w from hu)
        exact ⟨v, part, stpblk_word (h.part part).not_blank⟩
  obtain ⟨v, part, same⟩ := behind
  have skip : c.skip (v ++ []) = [] := (h.part part).skip (by simp [Stop])
  rw [List.append_nil] at skip
  rw [stpnxt_conv hl, same, skip]

/-- With what follows it there, a word is skipped and no more. -/
theorem stpnxt_whole (h : c.Word w) (some' : w ≠ []) (stop : Stop rest) :
    stpnxt (lead ++ w ++ rest) (lead ++ c.text) = some rest := by
  have front : stpblk (w ++ rest) = w ++ rest := by
    apply stpblk_self
    intro b hb
    rw [List.head?_append_of_ne_nil w some'] at hb
    exact h.not_blank b (List.mem_of_mem_head? hb)
  have blanks : stpblk (lead ++ w ++ rest) = w ++ rest := by
    rcases hl with rfl | rfl
    · exact front
    · exact front
  rw [stpnxt_conv hl, blanks, h.skip stop]

end

/-! ## Several conversions -/

/-- Further conversions, each behind a blank. -/
def spacedCodes (cs : List Conv) : List Byte := cs.flatMap fun c => 32 :: c.text

/-- The conversions with single blanks between them. -/
def format : List Conv → List Byte
  | [] => []
  | c :: cs => c.text ++ spacedCodes cs

/-- Further words, each behind a blank. -/
def spacedWords (fields : List (Conv × Arg)) : List Byte :=
  fields.flatMap fun f => 32 :: f.1.word f.2

/-- The words with single blanks between them. -/
def sentence : List (Conv × Arg) → List Byte
  | [] => []
  | f :: fields => f.1.word f.2 ++ spacedWords fields

theorem spacedCodes_cons (c : Conv) (cs : List Conv) :
    spacedCodes (c :: cs) = [32] ++ c.text ++ spacedCodes cs := List.flatMap_cons

theorem spacedWords_cons (f : Conv × Arg) (fields : List (Conv × Arg)) :
    spacedWords (f :: fields) = [32] ++ f.1.word f.2 ++ spacedWords fields := List.flatMap_cons

theorem vsprintf_conv (c : Conv) (fmt : List Byte) (a : Arg) (args : List Arg) :
    vsprintf none (c.text ++ fmt) (a :: args) = c.word a ++ vsprintf none fmt args := by
  rcases c with z | z | z | z | _
  all_goals first | rfl | (cases z <;> rfl)

/-- `vsprintf` prints the words. -/
theorem vsprintf_format (fields : List (Conv × Arg)) :
    vsprintf none (format (fields.map Prod.fst)) (fields.map Prod.snd) = sentence fields := by
  have more (fields : List (Conv × Arg)) :
      vsprintf none (spacedCodes (fields.map Prod.fst)) (fields.map Prod.snd) =
        spacedWords fields := by
    induction fields with
    | nil => rfl
    | cons f fields ih =>
      rw [List.map_cons, spacedCodes_cons, spacedWords_cons]
      change 32 :: vsprintf none (f.1.text ++ _) (f.2 :: _) = _
      rw [vsprintf_conv, ih]
      rfl
  cases fields with
  | nil => rfl
  | cons f fields =>
    change vsprintf none (f.1.text ++ _) (f.2 :: _) = _
    rw [vsprintf_conv, more]
    rfl

end UnixProgramming.Ssl
