import UnixProgramming.Ssl.Matching
import UnixProgramming.Ssl.Returned

/-!
# What Sscanf stores

The value of `Sscanf` counts what has been stored if there is on the stream
what its format asks for: for each piece that it comes to the blanks and
characters of the piece, and a whole field for its conversion. A piece that
`sscanf` refuses is no harm. One for which nothing is measured off is, since
`sscanf` then returns `EOF`, which is no success and is counted.

* `stored_agrees`: what is on the stream for a piece is measured off and stored;
* `sscanf_counts`: when the value is the number of the arguments stored.
-/

namespace UnixProgramming.Ssl

open Pipe

/-! ## Text for blanks and characters -/

/-- Text for the blanks and ordinary characters of a format, where a blank
stands for any number of them. -/
inductive Stands : List Byte → List Byte → Prop where
  | nil : Stands [] []
  | blank {c : Byte} {b l t : List Byte} (white : isspace c) (blanks : Blanks b)
      (rest : Stands l t) : Stands (c :: l) (b ++ t)
  | char {c : Byte} {l t : List Byte} (plain : c ≠ 37) (solid : isspace c = false)
      (rest : Stands l t) : Stands (c :: l) (c :: t)

/-- Whether the last character is a blank, or, if there is none, the one before. -/
def endsBlank : Bool → List Byte → Bool
  | blank, [] => blank
  | _, c :: l => endsBlank (isspace c) l

theorem scan_stands {l t : List Byte} (text : Stands l t) : ∀ (blank : Bool) (x p : List Byte),
    Libc.scan (if blank then stpblk (t ++ x) else t ++ x) (l ++ p) =
      Libc.scan (if endsBlank blank l then stpblk x else x) p := by
  induction text with
  | nil => intro blank x p; rfl
  | @blank c b l t white blanks _ ih =>
    intro blank x p
    have skipped : stpblk (if blank then stpblk (b ++ t ++ x) else b ++ t ++ x) =
        stpblk (t ++ x) := by
      rw [apply_ite stpblk, stpblk_stpblk, ite_self, List.append_assoc, stpblk_append blanks]
    have rest := ih true x p
    rw [if_pos rfl] at rest
    rw [List.cons_append, scan_blank _ _ white, skipped, rest, endsBlank, white]
  | @char c l t plain solid _ ih =>
    intro blank x p
    have here : (if blank then stpblk (c :: t ++ x) else c :: t ++ x) = c :: (t ++ x) := by
      rw [List.cons_append, stpblk_self (by simpa using solid), ite_self]
    have rest := ih false x p
    rw [here, List.cons_append, Libc.scan, Libc.scanFrom.eq_def]
    simp only [solid, Bool.false_eq_true, if_false, if_neg plain, if_true]
    simpa [endsBlank, solid, Libc.scan] using rest

/-- `stpnxt` skips blanks before a character only. -/
theorem stpnxt_stands {l t : List Byte} (text : Stands l t) : ∀ (blank : Bool) {b : List Byte},
    Blanks b → (b ≠ [] → blank = true) → ∀ {x : List Byte}, x ≠ [] → ∃ b', Blanks b' ∧
      (b' ≠ [] → endsBlank blank l = true) ∧ b' <:+ b ++ t ∧ ∀ turns p,
        stpnxtLoop (l.length + turns) (b ++ (t ++ x)) (l ++ p) = stpnxtLoop turns (b' ++ x) p := by
  induction text with
  | nil =>
    intro blank b blanks flag x some'
    refine ⟨b, blanks, flag, by simp, fun turns p => ?_⟩
    rw [List.length_nil, Nat.zero_add, List.nil_append, List.nil_append]
  | @blank c b₁ l t white blanks₁ _ ih =>
    intro blank b blanks flag x some'
    have both : Blanks (b ++ b₁) := blanks.append blanks₁
    obtain ⟨b', blanks', flag', last, goes⟩ := ih true both (fun _ => rfl) some'
    refine ⟨b', blanks', by rwa [endsBlank, white], by rwa [← List.append_assoc],
      fun turns p => ?_⟩
    have some'' : b ++ (b₁ ++ t ++ x) ≠ [] := by simp [some']
    have code : c ≠ 37 := by rintro rfl; cases white
    rw [List.length_cons, Nat.add_right_comm, List.cons_append, stpnxtLoop,
      if_neg (by simpa using some'')]
    simp only [if_neg code, if_pos white]
    rw [← goes turns p]
    simp
  | @char c l t plain solid _ ih =>
    intro blank b blanks flag x some'
    obtain ⟨b', blanks', flag', last, goes⟩ :=
      ih false (b := []) (by simp [Blanks]) (fun h => absurd rfl h) some'
    refine ⟨b', blanks', by rwa [endsBlank, solid],
      (last.trans (List.suffix_cons c t)).trans (List.suffix_append b _), fun turns p => ?_⟩
    change stpnxtLoop (l.length + 1 + turns) (b ++ c :: (t ++ x)) (c :: (l ++ p)) = _
    rw [Nat.add_right_comm, stpnxtLoop, if_neg (by simp)]
    simp only [if_neg plain, solid, Bool.false_eq_true, if_false, stpblk_behind blanks solid,
      ne_eq, not_true_eq_false]
    exact goes turns p

/-! ## Fields -/

/-- A sign, if there is one, and digits. -/
def Number (test : Byte → Bool) (w : List Byte) : Prop :=
  ∃ s ds, Sign s ∧ ds ≠ [] ∧ (∀ c ∈ ds, test c) ∧ w = s ++ ds

/-- A hexadecimal number, which may have `0x` before its digits. -/
structure HexNumber (s p ds : List Byte) : Prop where
  sign : Sign s
  pre : p = [] ∨ p = [48, 120]
  some' : ds ≠ []
  digits : ∀ c ∈ ds, isxdigit c

/-- The word or number at which a conversion finds itself, and what follows it:
nothing that either of the two scanners would take as a part of it. -/
def WholeField : Code → List Byte → List Byte → Prop
  | .c, _, _ => False
  | .s, w, r => w ≠ [] ∧ (∀ c ∈ w, isspace c = false) ∧ ∀ c ∈ r.head?, isspace c
  | .d, w, r => Number isdigit w ∧ ∀ c ∈ r.head?, isdigit c = false
  | .u, w, r => Number isdigit w ∧ ∀ c ∈ r.head?, isdigit c = false ∧ c ≠ 46 ∧ c ≠ 101
  | .o, w, r => Number isodigit w ∧ ∀ c ∈ r.head?, isodigit c = false
  | .x, w, r => ∃ s p ds, HexNumber s p ds ∧ w = s ++ (p ++ ds) ∧
    (∀ c ∈ r.head?, isxdigit c = false) ∧
      (p ++ ds = [48] → ∀ c ∈ r.head?, c ≠ 120 ∧ c ≠ 88)

theorem head_shorter {r r' : List Byte} (shorter : r' <+: r) {P : Byte → Prop}
    (all : ∀ c ∈ r.head?, P c) : ∀ c ∈ r'.head?, P c := by
  obtain ⟨e, rfl⟩ := shorter
  cases r' with
  | nil => simp
  | cons c r' => exact all

theorem WholeField.shorten {code : Code} {w r r' : List Byte} (whole : WholeField code w r)
    (shorter : r' <+: r) : WholeField code w r' := by
  cases code with
  | c => exact whole
  | s => exact ⟨whole.1, whole.2.1, head_shorter shorter whole.2.2⟩
  | d | u | o => exact ⟨whole.1, head_shorter shorter whole.2⟩
  | x =>
    obtain ⟨s, p, ds, number, e, stop, alone⟩ := whole
    exact ⟨s, p, ds, number, e, head_shorter shorter stop,
      fun zero => head_shorter shorter (alone zero)⟩

theorem Number.front {test : Byte → Bool} (digit : ∀ c, test c → isxdigit c) {w : List Byte}
    (number : Number test w) : w ≠ [] ∧ ∀ c ∈ w, isspace c = false := by
  obtain ⟨s, ds, sign, some', digits, rfl⟩ := number
  refine ⟨by simp [some'], fun c mem => ?_⟩
  rcases List.mem_append.1 mem with mem | mem
  · exact sign.solid c mem
  · exact (isxdigit_plain (digit c (digits c mem))).2

theorem HexNumber.plain {s p ds : List Byte} (number : HexNumber s p ds) :
    ∀ c ∈ p ++ ds, issign c = false ∧ isspace c = false := by
  intro c mem
  rcases List.mem_append.1 mem with mem | mem
  · rcases number.pre with rfl | rfl
    · cases mem
    · rcases List.mem_cons.1 mem with rfl | mem
      · decide
      · rw [List.mem_singleton.1 mem]
        decide
  · exact isxdigit_plain (number.digits c mem)

/-- A field is not empty and has no blanks. -/
theorem WholeField.front {code : Code} {w r : List Byte} (whole : WholeField code w r) :
    w ≠ [] ∧ ∀ c ∈ w, isspace c = false := by
  cases code with
  | c => exact whole.elim
  | s => exact ⟨whole.1, whole.2.1⟩
  | d | u => exact whole.1.front fun c => isdigit_isxdigit
  | o => exact whole.1.front fun c h => isdigit_isxdigit (isodigit_isdigit h)
  | x =>
    obtain ⟨s, p, ds, number, rfl, -⟩ := whole
    refine ⟨by simp [number.some'], fun c mem => ?_⟩
    rcases List.mem_append.1 mem with mem | mem
    · exact number.sign.solid c mem
    · exact (number.plain c mem).2

theorem dropWhile_self {test : Byte → Bool} {r : List Byte}
    (stop : ∀ c ∈ r.head?, test c = false) : r.dropWhile test = r := by
  cases r with
  | nil => rfl
  | cons c r => rw [List.dropWhile_cons, stop c rfl]; rfl

/-- Where the digits of a number end. -/
theorem Number.rest {test : Byte → Bool} (digit : ∀ c, test c → isxdigit c) {w r : List Byte}
    (number : Number test w) (stop : ∀ c ∈ r.head?, test c = false) :
    (skipOne issign (w ++ r)).dropWhile test = r ∧ (skipOne issign (w ++ r)).takeWhile test ≠ [] := by
  obtain ⟨s, ds, sign, some', digits, rfl⟩ := number
  obtain ⟨d, ds, rfl⟩ := List.exists_cons_of_ne_nil some'
  have first := digits d List.mem_cons_self
  rw [List.append_assoc, skipOne_sign sign fun c head => by
    cases head
    exact (isxdigit_plain (digit d first)).1]
  refine ⟨by rw [dropWhile_all digits, dropWhile_self stop], by simp [first]⟩

/-- What is read of a hexadecimal number behind its sign: no `0x` or `0X` is
seen but its own. -/
theorem HexNumber.rest {s p ds r : List Byte} (number : HexNumber s p ds)
    (alone : p ++ ds = [48] → ∀ c ∈ r.head?, c ≠ 120 ∧ c ≠ 88) :
    skipOne issign (s ++ (p ++ ds) ++ r) = p ++ (ds ++ r) ∧
      ([48, 120].isPrefixOf (p ++ (ds ++ r)) ↔ p ≠ []) ∧
        ¬ [48, 88].isPrefixOf (p ++ (ds ++ r)) := by
  obtain ⟨d, ds, rfl⟩ := List.exists_cons_of_ne_nil number.some'
  have unsigned : ∀ c ∈ (p ++ (d :: ds ++ r)).head?, issign c = false := by
    intro c head
    refine (number.plain c ?_).1
    cases p <;> cases head <;> simp
  refine ⟨by rw [List.append_assoc, List.append_assoc, skipOne_sign number.sign unsigned], ?_⟩
  rcases number.pre with rfl | rfl
  · -- a second digit is no `x`, and behind a single 0 there is none
    have other {b : Byte} (no : isxdigit b = false) (ne : b = 120 ∨ b = 88) :
        ¬ [48, b] <+: d :: ds ++ r := by
      rintro ⟨e, same⟩
      cases ds with
      | cons d' ds =>
        have second : b = d' := (List.cons.inj (List.cons.inj same).2).1
        rw [second, number.digits d' (by simp)] at no
        cases no
      | nil =>
        obtain rfl : 48 = d := (List.cons.inj same).1
        have behind : b :: e = r := (List.cons.inj same).2
        have not' := alone rfl b (by rw [← behind]; rfl)
        rcases ne with rfl | rfl
        · exact not'.1 rfl
        · exact not'.2 rfl
    refine ⟨iff_of_false (mt List.isPrefixOf_iff_prefix.1 (other rfl (.inl rfl))) (by simp),
      mt List.isPrefixOf_iff_prefix.1 (other rfl (.inr rfl))⟩
  · exact ⟨iff_of_true rfl (by simp), Bool.false_ne_true⟩

section
variable {code : Code} {w r : List Byte} (whole : WholeField code w r)
include whole

/-- `stpnxt` goes to the end of a field. -/
theorem WholeField.ahead {b : List Byte} (blanks : Blanks b) :
    code.ahead (b ++ (w ++ r)) = r ∧ (code.start (b ++ (w ++ r))).length > r.length := by
  obtain ⟨some', solid⟩ := whole.front
  have behind : stpblk (b ++ (w ++ r)) = w ++ r := by
    obtain ⟨c, w, rfl⟩ := List.exists_cons_of_ne_nil some'
    exact stpblk_behind blanks (solid c List.mem_cons_self) (w ++ r)
  have pos := List.length_pos_iff.2 some'
  have longer : (code.start (b ++ (w ++ r))).length > r.length := by
    have le := code.stpblk_le_start (b ++ (w ++ r))
    rw [behind, List.length_append] at le
    omega
  refine ⟨?_, longer⟩
  cases code with
  | c => exact whole.elim
  | s =>
    rw [Code.ahead, behind, dropWhile_all fun c mem => by simp [solid c mem]]
    exact dropWhile_self fun c head => by simp [whole.2.2 c head]
  | d =>
    rw [Code.ahead, behind, decimal]
    exact (whole.1.rest (fun c => isdigit_isxdigit) whole.2).1
  | u =>
    have digits := (whole.1.rest (fun c => isdigit_isxdigit) fun c head => (whole.2 c head).1).1
    rw [Code.ahead, behind, decimal, digits]
    have stop : ∀ c ∈ r.head?, isdigit c = false := fun c head => (whole.2 c head).1
    refine (fraction_suffix r).eq_of_length ((fraction_self stop).2 ⟨fun head => ?_, fun head => ?_⟩)
    · exact (whole.2 46 head).2.1 rfl
    · exact (whole.2 101 head).2.2 rfl
  | o =>
    rw [Code.ahead, behind]
    exact (whole.1.rest (fun c h => isdigit_isxdigit (isodigit_isdigit h)) whole.2).1
  | x =>
    obtain ⟨s, p, ds, number, rfl, stop, alone⟩ := whole
    obtain ⟨unsigned, small, -⟩ := number.rest alone
    simp only [Code.ahead, behind, unsigned, small]
    rcases number.pre with rfl | rfl
    · rw [if_neg (by simp), List.nil_append, dropWhile_all number.digits, dropWhile_self stop]
    · rw [if_pos (by simp)]
      change (ds ++ r).dropWhile isxdigit = r
      rw [dropWhile_all number.digits, dropWhile_self stop]

/-- `sscanf` does too, and stores. -/
theorem WholeField.scan (z : Width) :
    Libc.past code.byte (w ++ r) = r ∧ (scanCode z code.byte (w ++ r)).isSome := by
  obtain ⟨some', solid⟩ := whole.front
  have front : stpblk (w ++ r) = w ++ r := by
    obtain ⟨c, w, rfl⟩ := List.exists_cons_of_ne_nil some'
    exact stpblk_self fun d head => by cases head; exact solid c List.mem_cons_self
  -- a number is stored if it has digits
  have stored {b : Nat} {test : Byte → Bool} (f : Nat → Arg)
      (digits : (if b = 16 ∧ hexPrefix (skipOne issign (w ++ r)) then
        (skipOne issign (w ++ r)).drop 2 else skipOne issign (w ++ r)).takeWhile test ≠ []) :
      ((strtoul b test (w ++ r)).map f).isSome := by
    rw [Option.isSome_map, strtoul]
    simp only [front]
    rw [if_neg (by rw [List.isEmpty_iff]; exact digits)]
    rfl
  cases code with
  | c => exact whole.elim
  | s =>
    refine ⟨?_, rfl⟩
    change (w ++ r).dropWhile (!isspace ·) = r
    rw [dropWhile_all fun c mem => by simp [solid c mem]]
    exact dropWhile_self fun c head => by simp [whole.2.2 c head]
  | d =>
    obtain ⟨rest, digits⟩ := whole.1.rest (fun c => isdigit_isxdigit) whole.2
    refine ⟨rest, ?_⟩
    change ((strtol (w ++ r)).map _).isSome
    rw [Option.isSome_map, strtol]
    simp only [front]
    rw [if_neg (by rw [List.isEmpty_iff]; exact digits)]
    rfl
  | u =>
    obtain ⟨rest, digits⟩ :=
      whole.1.rest (fun c => isdigit_isxdigit) fun c head => (whole.2 c head).1
    exact ⟨rest, stored (b := 10) _ (by simpa using digits)⟩
  | o =>
    obtain ⟨rest, digits⟩ :=
      whole.1.rest (fun c h => isdigit_isxdigit (isodigit_isdigit h)) whole.2
    exact ⟨rest, stored (b := 8) _ (by simpa using digits)⟩
  | x =>
    obtain ⟨s, p, ds, number, rfl, stop, alone⟩ := whole
    obtain ⟨unsigned, small, big⟩ := number.rest alone
    have digits : (if hexPrefix (p ++ (ds ++ r)) then (p ++ (ds ++ r)).drop 2
        else p ++ (ds ++ r)) = ds ++ r := by
      simp only [hexPrefix, small, big]
      rcases number.pre with rfl | rfl
      · rfl
      · rfl
    obtain ⟨d, ds, rfl⟩ := List.exists_cons_of_ne_nil number.some'
    have first := number.digits d List.mem_cons_self
    constructor
    · have past : Libc.past Code.x.byte (s ++ (p ++ d :: ds) ++ r) =
          pastHex (skipOne issign (s ++ (p ++ d :: ds) ++ r)) := rfl
      rw [past, unsigned, pastHex, digits, dropWhile_all number.digits, dropWhile_self stop]
    · refine stored (b := 16) _ ?_
      simp only [unsigned, true_and]
      rw [digits, List.cons_append, List.takeWhile_cons, if_pos first]
      exact List.cons_ne_nil _ _

end

/-- A floating point number and what follows it. It is one for both scanners if
nothing there makes it longer, as a point, an exponent, or the `x` of a
hexadecimal number would. -/
structure Real (s ds p ds' e r : List Byte) : Prop where
  sign : Sign s
  digits : ∀ c ∈ ds, isdigit c
  point : p = [] ∧ ds' = [] ∨ p = [46]
  digits' : ∀ c ∈ ds', isdigit c
  some' : ds ++ ds' ≠ []
  exponent : e = [] ∨ ∃ es, Number isdigit es ∧ e = 101 :: es
  stop : ∀ c ∈ r.head?, isdigit c = false ∧ (p = [] → e = [] → c ≠ 46) ∧
    (e = [] → c ≠ 101 ∧ c ≠ 69) ∧ (ds ++ (p ++ (ds' ++ e)) = [48] → c ≠ 120 ∧ c ≠ 88)

/-- Such a number is not empty and has no blanks. -/
theorem Real.front {s ds p ds' e r : List Byte} (real : Real s ds p ds' e r) :
    s ++ (ds ++ (p ++ (ds' ++ e))) ≠ [] ∧
      ∀ c ∈ s ++ (ds ++ (p ++ (ds' ++ e))), isspace c = false := by
  constructor
  · have digits := real.some'
    simp only [ne_eq, List.append_eq_nil_iff] at digits ⊢
    exact fun none' => digits ⟨none'.2.1, none'.2.2.2.1⟩
  · intro c mem
    rcases List.mem_append.1 mem with mem | mem
    · exact real.sign.solid c mem
    · refine (real_plain real.digits (real.point.imp_left And.left) real.digits' ?_).1 c mem
      refine real.exponent.imp_right ?_
      rintro ⟨es, ⟨s', ds'', sign, -, digits, rfl⟩, rfl⟩
      exact ⟨s', ds'', sign, digits, rfl⟩

/-- `stpnxt` goes to the end of such a number. -/
theorem Real.ahead {s ds p ds' e r : List Byte} (real : Real s ds p ds' e r) :
    fraction (decimal (s ++ (ds ++ (p ++ (ds' ++ (e ++ r)))))) = r := by
  have stop : ∀ c ∈ (e ++ r).head?, isdigit c = false := by
    rcases real.exponent with rfl | ⟨es, -, rfl⟩
    · exact fun c head => (real.stop c head).1
    · rintro c ⟨⟩
      rfl
  have unsigned : ∀ c ∈ (ds ++ (p ++ (ds' ++ (e ++ r)))).head?, issign c = false := by
    intro c head
    cases ds with
    | cons d ds =>
      cases head
      exact (isxdigit_plain (isdigit_isxdigit (real.digits c List.mem_cons_self))).1
    | nil =>
      rcases real.point with ⟨rfl, rfl⟩ | rfl
      · exact absurd rfl real.some'
      · cases head
        rfl
  have exponent : behindExponent (e ++ r) = r := by
    rcases real.exponent with rfl | ⟨es, number, rfl⟩
    · rw [List.nil_append, behindExponent, if_neg]
      exact fun first => ((real.stop 101 first).2.2.1 rfl).1 rfl
    · exact (number.rest (fun c => isdigit_isxdigit) fun c head => (real.stop c head).1).1
  rw [decimal, skipOne_sign real.sign unsigned, dropWhile_all real.digits]
  have behind : (skipOne (· == 46) ((p ++ (ds' ++ (e ++ r))).dropWhile isdigit)).dropWhile isdigit =
      e ++ r := by
    rcases real.point with ⟨rfl, rfl⟩ | rfl
    · rw [List.nil_append, List.nil_append, dropWhile_self stop]
      have noPoint : skipOne (· == 46) (e ++ r) = e ++ r := by
        rcases real.exponent with rfl | ⟨es, -, rfl⟩
        · cases r with
          | nil => rfl
          | cons c r => simp [skipOne, (real.stop c rfl).2.1 rfl rfl]
        · rfl
      rw [noPoint, dropWhile_self stop]
    · change (ds' ++ (e ++ r)).dropWhile isdigit = e ++ r
      rw [dropWhile_all real.digits', dropWhile_self stop]
  rw [fraction_eq, behind, exponent]

/-! ## Pieces -/

/-- A conversion of a floating point number. -/
def realText (w : FieldWidth) (z : Width) (code : Byte) : List Byte :=
  37 :: (w.digits ++ (z.text ++ [code]))

def IsReal (code : Byte) : Prop := code = 101 ∨ code = 102 ∨ code = 103

instance (code : Byte) : Decidable (IsReal code) := inferInstanceAs (Decidable (_ ∨ _ ∨ _))

/-- What a piece asks for, and what follows that on the stream. For `%c` it has
no blanks before the character, and a width of 1. -/
inductive Asked : List Byte → List Byte → List Byte → Prop where
  | field {l t b word r : List Byte} {w : FieldWidth} {z : Width} {code : Code}
      (text : Stands l t) (blanks : Blanks b) (whole : WholeField code word r)
      (fits : ∀ n ∈ w.value, word.length ≤ n) :
      Asked (l ++ (Directive.conv w z code).text) (t ++ (b ++ word)) r
  | char {l t r : List Byte} {c : Byte} {w : FieldWidth} {z : Width} (text : Stands l t)
      (one : w.value.getD 1 = 1)
      (solid : endsBlank false l = true → ∀ d, d ∈ t.getLast? ∨ d = c → isspace d = false) :
      Asked (l ++ (Directive.conv w z .c).text) (t ++ [c]) r
  | real {l t b s ds p ds' e r : List Byte} {w : FieldWidth} {z : Width} {code : Byte}
      (letter : IsReal code) (text : Stands l t) (blanks : Blanks b) (real : Real s ds p ds' e r)
      (fits : ∀ n ∈ w.value, (s ++ (ds ++ (p ++ (ds' ++ e)))).length ≤ n) :
      Asked (l ++ realText w z code) (t ++ (b ++ (s ++ (ds ++ (p ++ (ds' ++ e)))))) r

/-- The digits of a conversion. -/
def Code.digit : Code → Byte → Bool
  | o => isodigit
  | x => isxdigit
  | _ => isdigit

/-- The conversions that read a number. -/
def Code.IsNumber (code : Code) : Prop := code = d ∨ code = u ∨ code = o ∨ code = x

/-- A string at which `sscanf` refuses a piece, having seen more than nothing: a
blank where the piece has a character, a sign, a point or an `e`, or a `0x`,
without a digit behind it that the width lets it see, or a character where `%c`
asks for more. -/
inductive Refused : List Byte → List Byte → Prop where
  | blank {l l' t r : List Byte} {c d : Byte} {w : FieldWidth} {z : Width} {code : Code}
      (text : Stands l t) (here : endsBlank false l = false) (plain : c ≠ 37)
      (solid : isspace c = false) (white : isspace d) :
      Refused (l ++ c :: (l' ++ (Directive.conv w z code).text)) (t ++ d :: r)
  | sign {l t b r : List Byte} {d : Byte} {w : FieldWidth} {z : Width} {code : Code}
      (text : Stands l t) (blanks : Blanks b)
      (number : code.IsNumber) (sign : issign d)
      (none' : w.value = some 1 ∨ ∀ c ∈ r.head?, code.digit c = false) :
      Refused (l ++ (Directive.conv w z code).text) (t ++ (b ++ d :: r))
  | point {l t b r : List Byte} {d : Byte} {w : FieldWidth} {z : Width}
      (text : Stands l t) (blanks : Blanks b) (point : d = 46 ∨ d = 101) :
      Refused (l ++ (Directive.conv w z .u).text) (t ++ (b ++ d :: r))
  | hex {l t b s r : List Byte} {w : FieldWidth} {z : Width}
      (text : Stands l t) (blanks : Blanks b) (sign : Sign s)
      (room : ∀ n ∈ w.value, s.length + 2 ≤ n)
      (none' : w.value = some (s.length + 2) ∨ ∀ c ∈ r.head?, isxdigit c = false) :
      Refused (l ++ (Directive.conv w z .x).text) (t ++ (b ++ (s ++ 48 :: 120 :: r)))
  | char {l t r : List Byte} {c : Byte} {w : FieldWidth} {z : Width} (text : Stands l t)
      (wide : 1 < w.value.getD 1)
      (solid : endsBlank false l = true → ∀ d, d ∈ t.getLast? ∨ d = c → isspace d = false) :
      Refused (l ++ (Directive.conv w z .c).text) (t ++ c :: r)

/-- What a conversion stores of its field, and where it goes on. -/
theorem WholeField.field {code : Code} {word r : List Byte} (whole : WholeField code word r) {w : Option Nat}
    (fits : ∀ n ∈ w, word.length ≤ n) (z : Width) :
    ∃ arg, Libc.field w z code.byte (word ++ r) = (some arg, r) := by
  have room : word.length ≤ w.getD (word ++ r).length := by
    cases w with
    | none => simp
    | some n => exact fits n rfl
  obtain ⟨k, size⟩ := Nat.exists_eq_add_of_le room
  have seen : (word ++ r).take (w.getD (word ++ r).length) = word ++ r.take k := by
    rw [size, List.take_length_add_append]
  have left : (word ++ r).drop (w.getD (word ++ r).length) = r.drop k := by
    rw [size, List.drop_length_add_append]
  obtain ⟨past, stored⟩ := (whole.shorten (List.take_prefix k r)).scan z
  obtain ⟨arg, stored⟩ := Option.isSome_iff_exists.1 stored
  exact ⟨arg, by rw [Libc.field]; simp only [seen, left, past, stored, List.take_append_drop]⟩

section
variable {l t : List Byte} (text : Stands l t)
include text

/-- `sscanf` comes to the conversion of a piece. -/
theorem scan_piece (x : List Byte) (w : FieldWidth) (z : Width) {code : Code} (notC : code ≠ .c) :
    Libc.scan (t ++ x) (l ++ (Directive.conv w z code).text) = match stpblk x with
      | [] => ⟨[], .exhausted, []⟩
      | d :: y => match Libc.field w.value z code.byte (d :: y) with
        | (none, rest) => ⟨[], .mismatch, rest⟩
        | (some arg, rest) => ⟨[arg], .done, rest⟩ := by
  have goes := scan_stands text false x (Directive.conv w z code).text
  have conv := scan_code (if endsBlank false l then stpblk x else x) [] w z notC
  rw [List.append_nil, apply_ite stpblk, stpblk_stpblk, ite_self] at conv
  rw [if_neg Bool.false_ne_true] at goes
  rw [goes, conv]
  rfl

/-- `stpnxt` comes to it too, with blanks left if the text ends with a blank. -/
theorem stpnxt_piece {x : List Byte} (some' : x ≠ []) (p : List Byte) :
    ∃ b', Blanks b' ∧ (b' ≠ [] → endsBlank false l = true) ∧ b' <:+ t ∧
      stpnxt (t ++ x) (l ++ p) = stpnxtLoop (p.length + 1) (b' ++ x) p := by
  obtain ⟨b', blanks, flag, last, goes⟩ :=
    stpnxt_stands text false (b := []) (by simp [Blanks]) (fun h => absurd rfl h) some'
  refine ⟨b', blanks, flag, by simpa using last, ?_⟩
  rw [stpnxt, List.length_append, Nat.add_assoc]
  exact goes (p.length + 1) p

theorem stpnxt_conversion {x : List Byte} (some' : x ≠ []) (w : FieldWidth) (z : Width)
    (code : Code) : ∃ b', Blanks b' ∧ (b' ≠ [] → endsBlank false l = true) ∧ b' <:+ t ∧
      stpnxt (t ++ x) (l ++ (Directive.conv w z code).text) = some (code.ahead (b' ++ x)) := by
  obtain ⟨b', blanks, flag, last, goes⟩ := stpnxt_piece text some' (Directive.conv w z code).text
  refine ⟨b', blanks, flag, last, ?_⟩
  have turn := stpnxtLoop_stopsAt [.conv w z code] (b' ++ x)
    ((Directive.conv w z code).text.length + 1) (Nat.succ_le_succ (Nat.zero_le _))
  rw [stopsAt_conv, fmtText_cons, fmtText_nil, List.append_nil] at turn
  rw [goes, turn]

/-- Where a character is asked for, the blanks of the piece have taken none. -/
theorem stpnxt_character {c : Byte} {r : List Byte} (w : FieldWidth) (z : Width)
    (solid : endsBlank false l = true → ∀ d, d ∈ t.getLast? ∨ d = c → isspace d = false) :
    stpnxt (t ++ c :: r) (l ++ (Directive.conv w z .c).text) = some r := by
  obtain ⟨b', blanks, flag, ⟨t', last⟩, goes⟩ :=
    stpnxt_conversion text (List.cons_ne_nil c r) w z .c
  have empty : b' = [] := by
    by_contra some'
    have white := blanks _ (List.getLast_mem some')
    rw [solid (flag some') _ (.inl ?_)] at white
    · cases white
    · rw [← last, List.getLast?_append, List.getLast?_eq_getLast_of_ne_nil some']
      rfl
  rw [goes, empty]
  rfl

theorem scan_character {c : Byte} {r : List Byte} (w : FieldWidth) (z : Width)
    (solid : endsBlank false l = true → ∀ d, d ∈ t.getLast? ∨ d = c → isspace d = false) :
    Libc.scan (t ++ c :: r) (l ++ (Directive.conv w z .c).text) =
      if (c :: r).length < w.value.getD 1 then ⟨[], .mismatch, []⟩
      else ⟨[.str ((c :: r).take (w.value.getD 1))], .done, (c :: r).drop (w.value.getD 1)⟩ := by
  have goes := scan_stands text false (c :: r) (Directive.conv w z .c).text
  have here : (if endsBlank false l then stpblk (c :: r) else c :: r) = c :: r := by
    split
    · rename_i blank
      exact stpblk_self fun d head => solid blank d (.inr (Option.some.inj head).symm)
    · rfl
  have conv := scan_char (c :: r) [] w z
  rw [List.append_nil, if_neg (List.cons_ne_nil c r)] at conv
  rw [if_neg Bool.false_ne_true, here] at goes
  rw [goes, conv]
  rfl

end

/-- **`stpnxt` goes to the end** of what a piece asks for. -/
theorem Asked.stpnxt {piece m r : List Byte} (asked : Asked piece m r) :
    stpnxt (m ++ r) piece = some r := by
  cases asked with
  | @field l t b word _ w z code text blanks whole fits =>
    have some' : b ++ (word ++ r) ≠ [] := by simp [whole.front.1]
    obtain ⟨b', blanks', -, -, goes⟩ := stpnxt_conversion text some' w z code
    have both : Blanks (b' ++ b) := blanks'.append blanks
    rw [List.append_assoc, List.append_assoc, goes, ← List.append_assoc b', (whole.ahead both).1]
  | @char l t _ c w z text one solid =>
    rw [List.append_assoc]
    exact stpnxt_character text w z solid
  | @real l t b s ds p ds' e _ w z code letter text blanks real fits =>
    have number : s ++ (ds ++ (p ++ (ds' ++ e))) ++ r = s ++ (ds ++ (p ++ (ds' ++ (e ++ r)))) := by
      simp
    obtain ⟨some', solid⟩ := real.front
    have some'' : b ++ (s ++ (ds ++ (p ++ (ds' ++ e))) ++ r) ≠ [] :=
      List.append_ne_nil_of_right_ne_nil _ (List.append_ne_nil_of_left_ne_nil some' _)
    obtain ⟨b', blanks', -, -, goes⟩ := stpnxt_piece text some'' (realText w z code)
    have both : Blanks (b' ++ b) := blanks'.append blanks
    have behind : stpblk (b' ++ (b ++ (s ++ (ds ++ (p ++ (ds' ++ e))) ++ r))) =
        s ++ (ds ++ (p ++ (ds' ++ e))) ++ r := by
      obtain ⟨c, y, here⟩ := List.exists_cons_of_ne_nil some'
      rw [here] at solid ⊢
      rw [← List.append_assoc b']
      exact stpblk_behind both (solid c List.mem_cons_self) (y ++ r)
    have takes (y : List Byte) :
        convert code y = .on (fraction (decimal (stpblk y))) (stpblk y) := by
      rcases letter with rfl | rfl | rfl <;> rfl
    have width : skipWidth (w.digits ++ (z.text ++ [code])) = [code] :=
      skipWidth_letter w z (by rcases letter with rfl | rfl | rfl <;> rfl) []
    have longer := List.length_pos_iff.2 some'
    rw [List.append_assoc, List.append_assoc, goes, realText, stpnxtLoop_code
      (List.append_ne_nil_of_right_ne_nil _ some''), width, List.headD_cons, takes, behind]
    have past : fraction (decimal (s ++ (ds ++ (p ++ (ds' ++ e))) ++ r)) = r := by
      rw [number, real.ahead]
    simp only [past, List.length_append] at longer ⊢
    rw [if_neg (by omega)]
    exact stpnxtLoop_done _ r

/-! ## The C library -/

/-- C's `sscanf` on a piece, with what it does for floating point numbers. -/
def Libc.withReals (reals : List Byte → List Byte → Single) (s snglfmt : List Byte) : Single :=
  if ∃ code ∈ snglfmt.getLast?, IsReal code then reals s snglfmt else Libc.single s snglfmt

/-- For a floating point number `sscanf` stores one argument, and consumes the number. -/
def ScansReals (reals : List Byte → List Byte → Single) : Prop :=
  ∀ {l t b s ds p ds' e r : List Byte} {w : FieldWidth} {z : Width} {code : Byte}, IsReal code →
    Stands l t → Blanks b → Real s ds p ds' e r →
    (∀ n ∈ w.value, (s ++ (ds ++ (p ++ (ds' ++ e)))).length ≤ n) →
    let m := t ++ (b ++ (s ++ (ds ++ (p ++ (ds' ++ e)))))
    (reals m (l ++ realText w z code)).result = 1 ∧
      (reals m (l ++ realText w z code)).arg.isSome ∧
        (reals (m ++ r) (l ++ realText w z code)).rest = r

section
variable {reals : List Byte → List Byte → Single}

theorem withReals_conv (l s : List Byte) (w : FieldWidth) (z : Width) (code : Code) :
    Libc.withReals reals s (l ++ (Directive.conv w z code).text) =
      Libc.single s (l ++ (Directive.conv w z code).text) := by
  have last : (l ++ (Directive.conv w z code).text).getLast? = some code.byte := by
    simp [Directive.text, List.getLast?_append, List.getLast?_cons]
  refine if_neg ?_
  rw [last]
  rintro ⟨_, ⟨⟩, real⟩
  cases code <;> exact absurd real (by decide)

theorem withReals_real (l s : List Byte) (w : FieldWidth) (z : Width) {code : Byte}
    (letter : IsReal code) : Libc.withReals reals s (l ++ realText w z code) =
      reals s (l ++ realText w z code) := by
  have last : (l ++ realText w z code).getLast? = some code := by
    simp [realText, List.getLast?_append, List.getLast?_cons]
  exact if_pos ⟨code, last, letter⟩

/-- **`sscanf` stores** what a piece asks for, and consumes it. -/
theorem Asked.scan (scans : ScansReals reals) {piece m r : List Byte} (asked : Asked piece m r) :
    (Libc.withReals reals m piece).result ≠ 0 ∧ (Libc.withReals reals m piece).arg.isSome ∧
      (Libc.withReals reals (m ++ r) piece).rest = r := by
  cases asked with
  | @field l t b word _ w z code text blanks whole fits =>
    have notC : code ≠ .c := by rintro rfl; exact whole
    have one (r : List Byte) (whole : WholeField code word r) : ∃ arg,
        Libc.scan (t ++ (b ++ word) ++ r) (l ++ (Directive.conv w z code).text) =
          ⟨[arg], .done, r⟩ := by
      obtain ⟨some', solid⟩ := whole.front
      obtain ⟨c, y, rfl⟩ := List.exists_cons_of_ne_nil some'
      obtain ⟨arg, field⟩ := whole.field fits z
      refine ⟨arg, ?_⟩
      rw [List.append_assoc, List.append_assoc, scan_piece text _ w z notC, List.cons_append,
        stpblk_behind blanks (solid c List.mem_cons_self)]
      rw [List.cons_append] at field
      simp only [field]
    obtain ⟨arg, alone⟩ := one [] (whole.shorten List.nil_prefix)
    obtain ⟨arg', all⟩ := one r whole
    rw [List.append_nil] at alone
    simp only [withReals_conv, Libc.single, alone, all]
    exact ⟨by simp [Scanned.result], rfl, trivial⟩
  | @char l t _ c w z text one solid =>
    have all (r : List Byte) : Libc.scan (t ++ [c] ++ r) (l ++ (Directive.conv w z .c).text) =
        ⟨[.str [c]], .done, r⟩ := by
      rw [List.append_assoc, List.singleton_append, scan_character text w z solid, one]
      simp
    have alone := all []
    rw [List.append_nil] at alone
    simp only [withReals_conv, Libc.single, alone, all]
    exact ⟨by simp [Scanned.result], rfl, trivial⟩
  | real letter text blanks real fits =>
    obtain ⟨one, stored, rest⟩ := scans letter text blanks real fits
    simp only [withReals_real _ _ _ _ letter]
    exact ⟨by rw [one]; decide, stored, rest⟩

theorem strtoul_none {b : Nat} {test : Byte → Bool} {t : List Byte} (front : stpblk t = t)
    (plain : b = 16 → ¬ hexPrefix (skipOne issign t))
    (none' : (skipOne issign t).takeWhile test = []) : strtoul b test t = none := by
  rw [strtoul]
  simp only [front]
  have noHex : ¬ (b = 16 ∧ ([48, 120].isPrefixOf (skipOne issign t) ∨
      [48, 88].isPrefixOf (skipOne issign t))) := fun h => plain h.1 h.2
  rw [if_neg noHex]
  exact if_pos (List.isEmpty_iff.2 none')

/-- Of a number without digits nothing is stored. -/
theorem scanCode_none {code : Code} (z : Width) {d : Byte} {r : List Byte}
    (number : code.IsNumber) (solid : isspace d = false)
    (none' : (skipOne issign (d :: r)).takeWhile code.digit = [])
    (noHex : code = .x → ¬ hexPrefix (skipOne issign (d :: r))) :
    scanCode z code.byte (d :: r) = none := by
  have front : stpblk (d :: r) = d :: r := stpblk_self fun c head => by cases head; exact solid
  rcases number with rfl | rfl | rfl | rfl
  · change (strtol (d :: r)).map _ = none
    rw [Option.map_eq_none_iff, strtol]
    simp only [front]
    exact if_pos (List.isEmpty_iff.2 none')
  · exact Option.map_eq_none_iff.2 (strtoul_none (b := 10) front (fun e => absurd e (by decide)) none')
  · exact Option.map_eq_none_iff.2 (strtoul_none (b := 8) front (fun e => absurd e (by decide)) none')
  · exact Option.map_eq_none_iff.2 (strtoul_none (b := 16) front (fun _ => noHex rfl) none')

/-- Behind a sign without a digit `stpnxt` has taken the sign. -/
theorem ahead_sign {code : Code} (number : code.IsNumber) {b : List Byte} (blanks : Blanks b)
    {d : Byte} (sign : issign d) (r : List Byte) :
    (code.ahead (b ++ d :: r)).length ≤ r.length := by
  have solid : isspace d = false := Sign.solid (.inr ⟨d, sign, rfl⟩) d List.mem_cons_self
  have unsigned : skipOne issign (d :: r) = r := by simp [skipOne, sign]
  rcases number with rfl | rfl | rfl | rfl
  · rw [Code.ahead, stpblk_behind blanks solid, decimal, unsigned]
    exact (List.dropWhile_suffix _).length_le
  · rw [Code.ahead, stpblk_behind blanks solid, decimal, unsigned]
    exact ((fraction_suffix _).trans (List.dropWhile_suffix _)).length_le
  · rw [Code.ahead, stpblk_behind blanks solid, unsigned]
    exact (List.dropWhile_suffix _).length_le
  · simp only [Code.ahead, stpblk_behind blanks solid, unsigned]
    refine ((List.dropWhile_suffix _).trans ?_).length_le
    split
    · exact List.drop_suffix _ _
    · exact List.suffix_refl _

/-- A string without a number for the conversion: a mismatch. -/
theorem scan_refused {l t : List Byte} (text : Stands l t) {b y : List Byte} (blanks : Blanks b)
    {d : Byte} (solid : isspace d = false) (w : FieldWidth) (z : Width) {code : Code}
    (notC : code ≠ .c) (none' : (Libc.field w.value z code.byte (d :: y)).1 = none) :
    (Libc.single (t ++ (b ++ d :: y)) (l ++ (Directive.conv w z code).text)).result = 0 ∧
      (Libc.single (t ++ (b ++ d :: y)) (l ++ (Directive.conv w z code).text)).arg = none := by
  have scan := scan_piece text (b ++ d :: y) w z notC
  rw [stpblk_behind blanks solid] at scan
  rcases field : Libc.field w.value z code.byte (d :: y) with ⟨arg, rest⟩
  rw [field] at none'
  obtain rfl : arg = none := none'
  simp only [field] at scan
  rw [Libc.single]
  simp only [scan]
  exact ⟨rfl, rfl⟩

/-- A field that begins with no digit is cut by no width before that shows. -/
theorem field_none (w : FieldWidth) (z : Width) (code : Code) (d : Byte) (r : List Byte)
    (none' : ∀ k, (w.value = some 1 → k = 0) → scanCode z code.byte (d :: r.take k) = none) :
    (Libc.field w.value z code.byte (d :: r)).1 = none := by
  obtain ⟨k, width, one⟩ : ∃ k, w.value.getD (d :: r).length = k + 1 ∧
      (w.value = some 1 → k = 0) := by
    cases value : w.value with
    | none => exact ⟨r.length, rfl, by simp⟩
    | some n =>
      have pos := w.pos n value
      exact ⟨n - 1, by simp; omega, fun e => by cases e; rfl⟩
  rw [Libc.field]
  simp only [width, List.take_succ_cons]
  exact none' k one

theorem takeWhile_none {test : Byte → Bool} {r : List Byte}
    (none' : ∀ c ∈ r.head?, test c = false) (k : Nat) : (r.take k).takeWhile test = [] := by
  have first := head_shorter (List.take_prefix k r) none'
  generalize r.take k = y at first
  cases y with
  | nil => rfl
  | cons c y => rw [List.takeWhile_cons, first c rfl]; rfl

theorem hexPrefix_head {y : List Byte} (hex : hexPrefix y) : 48 ∈ y.head? := by
  rcases hex with hex | hex <;> obtain ⟨e, rfl⟩ := List.isPrefixOf_iff_prefix.1 hex <;> rfl

/-- Behind a point or an `e` without digits before it `stpnxt` has taken that. -/
theorem ahead_point {b : List Byte} (blanks : Blanks b) {d : Byte} (point : d = 46 ∨ d = 101)
    (r : List Byte) : (Code.u.ahead (b ++ d :: r)).length ≤ r.length := by
  have same : decimal (d :: r) = d :: r := by rcases point with rfl | rfl <;> rfl
  have solid : isspace d = false := by rcases point with rfl | rfl <;> rfl
  have stop : ∀ c ∈ (d :: r).head?, isdigit c = false := by
    rintro c ⟨⟩
    rcases point with rfl | rfl <;> rfl
  have taken : (fraction (d :: r)).length ≠ (d :: r).length := by
    intro all
    have other := (fraction_self stop).1 all
    rcases point with rfl | rfl
    · exact other.1 rfl
    · exact other.2 rfl
  have shorter := (fraction_suffix (d :: r)).length_le
  rw [Code.ahead, stpblk_behind blanks solid, same]
  rw [List.length_cons] at taken shorter
  omega

/-- Of a `0x` without digits nothing is stored. -/
theorem field_hex {s : List Byte} (sign : Sign s) {r : List Byte}
    {w : Option Nat} (room : ∀ n ∈ w, s.length + 2 ≤ n)
    (none' : w = some (s.length + 2) ∨ ∀ c ∈ r.head?, isxdigit c = false) (z : Width) :
    (Libc.field w z 120 (s ++ 48 :: 120 :: r)).1 = none := by
  have enough : s.length + 2 ≤ w.getD (s ++ 48 :: 120 :: r).length := by
    cases w with
    | none => simp
    | some n => exact room n rfl
  obtain ⟨k, size⟩ := Nat.exists_eq_add_of_le enough
  have seen : (s ++ 48 :: 120 :: r).take (w.getD (s ++ 48 :: 120 :: r).length) =
      s ++ 48 :: 120 :: r.take k := by
    rw [size, Nat.add_assoc, List.take_length_add_append, Nat.add_comm 2 k]
    rfl
  rw [Libc.field]
  simp only [seen]
  refine Option.map_eq_none_iff.2 ?_
  have front : stpblk (s ++ 48 :: 120 :: r.take k) = s ++ 48 :: 120 :: r.take k := by
    refine stpblk_self fun c head => ?_
    rcases sign with rfl | ⟨d, is, rfl⟩
    · cases head
      rfl
    · cases head
      exact Sign.solid (.inr ⟨c, is, rfl⟩) c List.mem_cons_self
  have unsigned : skipOne issign (s ++ 48 :: 120 :: r.take k) = 48 :: 120 :: r.take k :=
    skipOne_sign sign fun c head => by cases head; rfl
  rw [strtoul]
  simp only [front, unsigned]
  refine if_pos (List.isEmpty_iff.2 ?_)
  change (r.take k).takeWhile isxdigit = []
  rcases none' with rfl | none'
  · obtain rfl : k = 0 := by simpa using size
    rfl
  · exact takeWhile_none none' k

/-- The first `n` bytes of a string that is refused, if `stpnxt` stops there. -/
theorem Refused.scan {piece x : List Byte} (refused : Refused piece x) {n : Nat}
    (stops : Ssl.stpnxt x piece = some (x.drop n)) (inside : n ≤ x.length) :
    (Libc.withReals reals (x.take n) piece).result = 0 ∧
      (Libc.withReals reals (x.take n) piece).arg = none := by
  -- what is seen of a string of which `stpnxt` leaves no more than `r`
  have seen (front r : List Byte) (split : x = front ++ r) {y : List Byte}
      (stops' : Ssl.stpnxt x piece = some y) (short : y.length ≤ r.length) :
      x.take n = front ++ r.take (r.length - y.length) := by
    have size : y = x.drop n := Option.some.inj (stops'.symm.trans stops)
    subst split
    rw [size, List.length_drop, List.length_append] at short ⊢
    rw [List.length_append] at inside
    have long : n = front.length + (r.length - (front.length + r.length - n)) := by omega
    conv_lhs => rw [long, List.take_length_add_append]
  cases refused with
  | @blank l l' t r c d w z code text here plain solid white =>
    obtain ⟨b', -, flag, -, goes⟩ := stpnxt_piece text (List.cons_ne_nil d r)
      (c :: (l' ++ (Directive.conv w z code).text))
    obtain rfl : b' = [] := by
      by_contra some'
      rw [flag some'] at here
      cases here
    obtain ⟨y, goes'⟩ := stpnxt_isSome (t ++ d :: r)
      (l ++ c :: (l' ++ (Directive.conv w z code).text))
    have short : y.length ≤ r.length := by
      have shorter := (stpblk_suffix r).length_le
      have behind : stpblk (d :: r) = stpblk r := by simp [stpblk, white]
      rw [goes, List.nil_append, stpnxtLoop, if_neg (by simp)] at goes'
      simp only [if_neg plain, solid, Bool.false_eq_true, if_false, behind] at goes'
      cases blanks : stpblk r with
      | nil =>
        rw [blanks] at goes'
        cases goes'
        exact Nat.zero_le _
      | cons e y' =>
        rw [blanks] at shorter goes'
        dsimp only at goes'
        split at goes'
        · cases goes'
          exact shorter
        · exact ((stpnxtLoop_suffix goes').length_le.trans (Nat.le_succ _)).trans shorter
    have part := seen (t ++ [d]) r (by simp) goes' short
    have spelled : l ++ c :: (l' ++ (Directive.conv w z code).text) =
        l ++ c :: l' ++ (Directive.conv w z code).text := by simp
    have scan := scan_stands text false (d :: r.take (r.length - y.length))
      (c :: (l' ++ (Directive.conv w z code).text))
    have other : d ≠ c := by
      rintro rfl
      rw [white] at solid
      cases solid
    rw [if_neg Bool.false_ne_true, here, if_neg Bool.false_ne_true, Libc.scan, Libc.scan,
      Libc.scanFrom.eq_def _ (c :: _)] at scan
    simp only [solid, Bool.false_eq_true, if_false, if_neg plain, if_neg other] at scan
    rw [part, spelled, withReals_conv, ← spelled, List.append_assoc, List.singleton_append,
      Libc.single, Libc.scan]
    simp only [scan]
    exact ⟨rfl, rfl⟩
  | @sign l t b r d w z code text blanks number sign none' =>
    obtain ⟨b', blanks', -, -, goes⟩ := stpnxt_conversion text
      (List.append_ne_nil_of_right_ne_nil b (List.cons_ne_nil d r)) w z code
    have both : Blanks (b' ++ b) := blanks'.append blanks
    have short := ahead_sign number both sign r
    rw [List.append_assoc] at short
    have part := seen (t ++ (b ++ [d])) r (by simp) goes short
    have solid : isspace d = false := Sign.solid (.inr ⟨d, sign, rfl⟩) d List.mem_cons_self
    have notC : code ≠ .c := by rintro rfl; simp [Code.IsNumber] at number
    rw [part, withReals_conv, List.append_assoc, List.append_assoc, List.singleton_append]
    refine scan_refused text blanks solid w z notC (field_none w z code d _ fun k one => ?_)
    have unsigned (y : List Byte) : skipOne issign (d :: y) = y := by simp [skipOne, sign]
    rw [List.take_take]
    rcases none' with value | none'
    · -- the width ends behind the sign
      rw [one value, Nat.zero_min, List.take_zero]
      refine scanCode_none z number solid (by rw [unsigned]; rfl) fun _ => ?_
      rw [unsigned]
      decide
    refine scanCode_none z number solid (by rw [unsigned]; exact takeWhile_none none' _) fun isX => ?_
    rw [unsigned]
    subst isX
    intro hex
    have digit := head_shorter (List.take_prefix _ r) none' 48 (hexPrefix_head hex)
    exact absurd digit (by decide)
  | @point l t b r d w z text blanks point =>
    obtain ⟨b', blanks', -, -, goes⟩ := stpnxt_conversion text
      (List.append_ne_nil_of_right_ne_nil b (List.cons_ne_nil d r)) w z .u
    have both : Blanks (b' ++ b) := blanks'.append blanks
    have short := ahead_point both point r
    rw [List.append_assoc] at short
    have part := seen (t ++ (b ++ [d])) r (by simp) goes short
    have solid : isspace d = false := by rcases point with rfl | rfl <;> rfl
    rw [part, withReals_conv, List.append_assoc, List.append_assoc, List.singleton_append]
    refine scan_refused text blanks solid w z (by decide) (field_none w z .u d _ fun k _ => ?_)
    refine scanCode_none z (.inr (.inl rfl)) solid ?_ (fun isX => absurd isX (by decide))
    rcases point with rfl | rfl <;> rfl
  | @hex l t b s r w z text blanks sign room none' =>
    have some' : b ++ (s ++ 48 :: 120 :: r) ≠ [] := by simp
    obtain ⟨b', blanks', -, -, goes⟩ := stpnxt_conversion text some' w z .x
    have both : Blanks (b' ++ b) := blanks'.append blanks
    obtain ⟨d, solid, first⟩ : ∃ d, isspace d = false ∧ ∀ r', ∃ y, s ++ 48 :: 120 :: r' = d :: y := by
      rcases sign with rfl | ⟨d, is, rfl⟩
      · exact ⟨48, rfl, fun r' => ⟨_, rfl⟩⟩
      · exact ⟨d, Sign.solid (.inr ⟨d, is, rfl⟩) d List.mem_cons_self, fun r' => ⟨_, rfl⟩⟩
    have short : (Code.x.ahead (b' ++ (b ++ (s ++ 48 :: 120 :: r)))).length ≤ r.length := by
      have behind : stpblk (b' ++ b ++ (s ++ 48 :: 120 :: r)) = s ++ 48 :: 120 :: r := by
        obtain ⟨y, here⟩ := first r
        rw [here]
        exact stpblk_behind both solid y
      have unsigned : skipOne issign (s ++ 48 :: 120 :: r) = 48 :: 120 :: r :=
        skipOne_sign sign fun c head => by cases head; rfl
      rw [← List.append_assoc]
      simp only [Code.ahead, behind, unsigned]
      exact (List.dropWhile_suffix _).length_le
    have part := seen (t ++ (b ++ (s ++ [48, 120]))) r (by simp) goes short
    have field := field_hex sign room (none'.imp_right (head_shorter (List.take_prefix
      (r.length - (Code.x.ahead (b' ++ (b ++ (s ++ 48 :: 120 :: r)))).length) r))) z
    obtain ⟨y, here⟩ := first (r.take
      (r.length - (Code.x.ahead (b' ++ (b ++ (s ++ 48 :: 120 :: r)))).length))
    have shape (r' : List Byte) : t ++ (b ++ (s ++ [48, 120])) ++ r' =
        t ++ (b ++ (s ++ 48 :: 120 :: r')) := by simp
    rw [part, withReals_conv, shape, here]
    rw [here] at field
    exact scan_refused text blanks solid w z (by decide) field
  | @char l t r c w z text wide solid =>
    have goes := stpnxt_character (r := r) text w z solid
    have part := seen (t ++ [c]) r (by simp) goes (Nat.le_refl _)
    rw [Nat.sub_self, List.take_zero, List.append_nil] at part
    rw [part, withReals_conv, Libc.single, scan_character text w z solid]
    simp only [List.length_singleton, if_pos wide]
    exact ⟨rfl, rfl⟩

end

/-! ## What is measured off -/

theorem cstr_take (q : List Byte) (n : Nat) : cstr (q.take n) = (cstr q).take n :=
  List.take_takeWhile.symm

/-- The string in the unread bytes ends with a NUL or where they do. -/
theorem getD_cstr {q : List Byte} {n : Nat} (inside : n ≤ (cstr q).length) :
    q.getD n 0 = 0 ↔ n = (cstr q).length := by
  induction q generalizing n with
  | nil => simpa [cstr] using inside
  | cons c q ih =>
    by_cases zero : c = 0
    · subst zero
      have empty : (cstr (0 :: q)).length = 0 := rfl
      rw [empty] at inside ⊢
      simp [Nat.le_zero.1 inside]
    · have more : (cstr (c :: q)).length = (cstr q).length + 1 := by simp [cstr, zero]
      rw [more] at inside ⊢
      cases n with
      | zero => simp [zero]
      | succ n => simpa using ih (Nat.le_of_succ_le_succ inside)


/-- What is read for a piece, without a NUL behind it, is up to where `stpnxt`
stops in the unread bytes. -/
theorem measured {q snglfmt : List Byte}
    (ends : stopIn (window q) snglfmt < (window q).length) :
    stopIn (window q) snglfmt ≤ (cstr q).length ∧
      stpnxt (cstr q) snglfmt = some ((cstr q).drop (stopIn (window q) snglfmt)) ∧
      cstr (q.take (taken q snglfmt)) = (cstr q).take (stopIn (window q) snglfmt) := by
  obtain ⟨same, -⟩ := stopIn_prefix (List.take_prefix _ q) (Nat.ne_of_lt ends)
  obtain ⟨s, stops⟩ := stpnxt_isSome (cstr q) snglfmt
  obtain ⟨front, split⟩ := stpnxt_suffix stops
  have lengths := congrArg List.length split
  rw [List.length_append] at lengths
  have at' : stopIn (window q) snglfmt = front.length := by
    rw [window, same, stopIn, stops, Option.getD_some]
    omega
  rw [at']
  have inside : front.length ≤ (cstr q).length := by omega
  refine ⟨inside, ?_, ?_⟩
  · rw [stops, ← split, List.drop_left]
  · rw [cstr_take, taken]
    simp only [at', getD_cstr inside]
    split
    · rename_i all
      rw [List.take_of_length_le (by omega), List.take_of_length_le (by omega)]
    · rfl

/-! ## The value -/

/-- Where `sscanf` ends on the unread bytes. -/
def scanLength (libc : List Byte → List Byte → Single) (q snglfmt : List Byte) : Nat :=
  (cstr q).length - (libc (cstr q) snglfmt).rest.length

/-- For an argument that is stored, the bytes that `sscanf` consumes and at
most a NUL behind them. -/
def Consumed (libc : List Byte → List Byte → Single) :
    List Byte → List Byte → List (List Byte × Single) → Prop
  | _, _, [] => True
  | f, q, (buf, r) :: entries => match strnxtfmt f with
    | none => False
    | some (snglfmt, f) =>
      (r.arg.isSome → buf = q.take (scanLength libc q snglfmt) ∨
        q[scanLength libc q snglfmt]? = some 0 ∧ buf = q.take (scanLength libc q snglfmt + 1)) ∧
      Consumed libc f (q.drop buf.length) entries

/-- The value is the number of arguments stored, which are the first. -/
structure Counts (libc : List Byte → List Byte → Single) (f q : List Byte) (cnt : Nat)
    (entries : List (List Byte × Single)) : Prop where
  stored : entries.map (fun e => e.2.arg.isSome) =
    List.replicate cnt true ++ List.replicate (entries.length - cnt) false
  consumed : Consumed libc f q entries

section
variable {libc : List Byte → List Byte → Single} {arg : Nat → Bool} {left i : Nat}
  {f snglfmt f' q : List Byte} {ending : Ending}

/-- Where `stpnxt` stops where `sscanf` does, the bytes read for a piece are
those that `sscanf` consumes. -/
theorem taken_same (ends : stopIn (window q) snglfmt < (window q).length)
    (same : stopIn (window q) snglfmt = scanLength libc q snglfmt) :
    q.take (taken q snglfmt) = q.take (scanLength libc q snglfmt) ∨
      q[scanLength libc q snglfmt]? = some 0 ∧
        q.take (taken q snglfmt) = q.take (scanLength libc q snglfmt + 1) := by
  have short := ends.trans_le (List.take_prefix _ q).length_le
  rw [← same, taken]
  split
  · rename_i nul
    refine .inr ⟨?_, rfl⟩
    rw [List.getD, List.getElem?_eq_getElem short, Option.getD_some] at nul
    rw [List.getElem?_eq_getElem short, nul]
  · exact .inl rfl

/-- The first piece, stored, and the others. -/
theorem counts_cons {entries : List (List Byte × Single)} {cnt : Nat}
    (next : strnxtfmt f = some (snglfmt, f'))
    (ends : stopIn (window q) snglfmt < (window q).length)
    (stored : (verdict libc q snglfmt).arg.isSome)
    (same : stopIn (window q) snglfmt = scanLength libc q snglfmt)
    (rest : Counts libc f' (q.drop (taken q snglfmt)) cnt entries) :
    Counts libc f q (cnt + 1) ((q.take (taken q snglfmt), verdict libc q snglfmt) :: entries) := by
  have size : (q.take (taken q snglfmt)).length = taken q snglfmt := by
    rw [List.length_take, Nat.min_eq_left (taken_le ends)]
  refine ⟨by simpa [List.replicate_succ, stored] using rest.stored, ?_⟩
  rw [Consumed, next]
  dsimp only
  rw [size]
  exact ⟨fun _ => taken_same ends same, rest.consumed⟩

/-- A piece for which nothing is stored is the last and is not counted. -/
theorem counts_failed {buf : List Byte} (next : strnxtfmt f = some (snglfmt, f'))
    (none' : (verdict libc q snglfmt).arg = none) :
    Counts libc f q 0 [(buf, verdict libc q snglfmt)] := by
  refine ⟨by simp [none'], ?_⟩
  rw [Consumed, next]
  exact ⟨by simp [none'], trivial⟩

/-- What is on the stream for a format: at each piece that is come to, which has
room in `locbuf`, nothing more, what the piece asks for, or something that
`sscanf` refuses. Behind what it asks for, a NUL is read with it. -/
inductive Right (arg : Nat → Bool) : Nat → List Byte → List Byte → Prop where
  | null {i : Nat} {f q : List Byte} (none' : arg i = false) : Right arg i f q
  | ended {i : Nat} {q : List Byte} : Right arg i [] q
  | noMore {i : Nat} {f snglfmt f' : List Byte} (next : strnxtfmt f = some (snglfmt, f'))
      (fits : snglfmt.length < locbufSize) : Right arg i f []
  | asked {i : Nat} {f snglfmt f' m r : List Byte} (next : strnxtfmt f = some (snglfmt, f'))
      (fits : snglfmt.length < locbufSize) (noNul : 0 ∉ m) (asked : Asked snglfmt m (cstr r))
      (more : Right arg (i + 1) f' (if r.headD 0 = 0 then r.tail else r)) :
      Right arg i f (m ++ r)
  | refused {i : Nat} {f snglfmt f' q : List Byte} (next : strnxtfmt f = some (snglfmt, f'))
      (fits : snglfmt.length < locbufSize) (refused : Refused snglfmt (cstr q)) : Right arg i f q

variable {reals : List Byte → List Byte → Single} (scans : ScansReals reals)

include scans in
/-- **What is on the stream for a piece** is measured off and stored. -/
theorem stored_agrees {m r : List Byte} (noNul : 0 ∉ m) (asked : Asked snglfmt m (cstr r))
    (ends : stopIn (window (m ++ r)) snglfmt < (window (m ++ r)).length) :
    (verdict (Libc.withReals reals) (m ++ r) snglfmt).result ≠ 0 ∧
      (verdict (Libc.withReals reals) (m ++ r) snglfmt).arg.isSome ∧
      stopIn (window (m ++ r)) snglfmt = scanLength (Libc.withReals reals) (m ++ r) snglfmt ∧
      (m ++ r).drop (taken (m ++ r) snglfmt) = if r.headD 0 = 0 then r.tail else r := by
  obtain ⟨inside, stops, read⟩ := measured ends
  have whole : cstr (m ++ r) = m ++ cstr r := cstr_append noNul r
  obtain ⟨passed, stored, rest⟩ := asked.scan scans
  have size : stopIn (window (m ++ r)) snglfmt = m.length := by
    rw [whole, asked.stpnxt, Option.some.injEq] at stops
    have lengths := congrArg List.length stops
    rw [whole, List.length_append] at inside
    rw [List.length_drop, List.length_append] at lengths
    omega
  have word : cstr ((m ++ r).take (taken (m ++ r) snglfmt)) = m := by
    rw [read, whole, size, List.take_left]
  refine ⟨by rwa [verdict, word], by rwa [verdict, word], ?_, ?_⟩
  · rw [scanLength, whole, rest, List.length_append, Nat.add_sub_cancel, size]
  · have char : (m ++ r).getD m.length 0 = r.headD 0 := by
      cases r <;> simp [List.getD]
    rw [taken]
    simp only [size, char]
    split
    · rw [List.drop_length_add_append, List.drop_one]
    · rw [List.drop_left]

theorem refused_agrees (reals : List Byte → List Byte → Single)
    (refused : Refused snglfmt (cstr q))
    (ends : stopIn (window q) snglfmt < (window q).length) :
    (verdict (Libc.withReals reals) q snglfmt).result = 0 ∧
      (verdict (Libc.withReals reals) q snglfmt).arg = none := by
  obtain ⟨inside, stops, read⟩ := measured ends
  rw [verdict, read]
  exact refused.scan stops inside

include scans in
theorem sscanfOn_counts : ∀ (left i : Nat) (f q : List Byte) {cnt : Nat}
    {entries : List (List Byte × Single)} {rest : List Byte}, Right arg i f q →
    sscanfOn (Libc.withReals reals) arg ending left i f q = some ((cnt, entries), rest) →
    Counts (Libc.withReals reals) f q cnt entries := by
  have nothing' (f q : List Byte) : Counts (Libc.withReals reals) f q 0 [] := ⟨rfl, trivial⟩
  intro left
  induction left with
  | zero =>
    rintro i f q cnt entries rest - ⟨⟩
    exact nothing' f q
  | succ left ih =>
    intro i f q cnt entries rest right on
    by_cases nothing : arg i = false ∨ strnxtfmt f = none
    · rw [(sscanfOn_nothing _ ending left q nothing).2] at on
      cases on
      exact nothing' f q
    obtain ⟨given, piece⟩ : arg i = true ∧ strnxtfmt f ≠ none := by simpa using nothing
    -- a piece that does not end does not let the call return
    have returned {snglfmt f' : List Byte} (next : strnxtfmt f = some (snglfmt, f'))
        (some' : q ≠ []) : stopIn (window q) snglfmt < (window q).length := by
      by_contra outside
      rw [sscanfOn_outside given next (.inr ⟨some', outside⟩)] at on
      cases on
    by_cases some' : q = []
    · subst some'
      obtain ⟨⟨snglfmt, f'⟩, next⟩ := Option.ne_none_iff_exists'.1 piece
      by_cases fits : snglfmt.length < locbufSize
      · rw [sscanfOn_empty given next fits] at on
        split at on
        · cases on
          exact nothing' f []
        · cases on
      · rw [sscanfOn_outside given next (.inl (Nat.le_of_not_lt fits))] at on
        cases on
    cases right with
    | null none' => rw [given] at none'; cases none'
    | ended => exact absurd rfl piece
    | noMore => exact absurd rfl some'
    | @asked _ _ snglfmt f' m r next fits noNul asked more =>
      have ends := returned next some'
      obtain ⟨passed, stored, same, left'⟩ := stored_agrees scans noNul asked ends
      rw [sscanfOn_piece given next fits some' ends, if_neg passed] at on
      split at on
      · cases on
        exact counts_cons next ends stored same (nothing' _ _)
      · obtain ⟨⟨⟨cnt', entries'⟩, rest'⟩, more', e⟩ := Option.map_eq_some_iff.1 on
        cases e
        refine counts_cons next ends stored same (ih _ _ _ ?_ more')
        rwa [left']
    | @refused _ _ snglfmt f' _ next fits refused =>
      have ends := returned next some'
      obtain ⟨failed, none'⟩ := refused_agrees reals refused ends
      rw [sscanfOn_piece given next fits some' ends, if_pos failed] at on
      cases on
      exact counts_failed next none'

/-- A `sscanf` that stores the text of a floating point number. -/
def textReals (s snglfmt : List Byte) : Single :=
  ⟨1, some (.str (stpblk s)), (stpnxt s snglfmt).getD []⟩

theorem scansReals_text : ScansReals textReals := fun letter text blanks real fits =>
  ⟨rfl, rfl, by rw [textReals, (Asked.real letter text blanks real fits).stpnxt]; rfl⟩

/-- `%d %s %f` -/
def fmtDSF : List Byte := [37, 100, 32, 37, 115, 32, 37, 102]

/-- `12 ab -.5e1` and a NUL, in pieces. -/
def threeFields : Arrivals Byte :=
  ⟨[49], [[50, 32, 97], [98, 32, 45, 46], [53, 101, 49, 0]], .silent⟩

theorem head_of {r : List Byte} {b : Byte} (first : r.head? = some b) {P : Byte → Prop}
    (hb : P b) : ∀ c ∈ r.head?, P c := by
  rw [first]
  rintro c ⟨⟩
  exact hb

theorem right_threeFields : Right (fun i => decide (i < 3)) 0 fmtDSF threeFields.bytes := by
  have blank : Stands [32] [32] := .blank rfl (b := [32]) (by simp [Blanks]; rfl) .nil
  have digits : ∀ c ∈ [49, 50], isdigit c := List.all_eq_true.1 rfl
  have exponent : Number isdigit [49] := ⟨[], [49], .inl rfl, by simp, List.all_eq_true.1 rfl, rfl⟩
  have number : WholeField .d [49, 50] (cstr [32, 97, 98, 32, 45, 46, 53, 101, 49, 0]) :=
    ⟨⟨[], [49, 50], .inl rfl, by decide, digits, rfl⟩, head_of (b := 32) rfl rfl⟩
  have word : WholeField .s [97, 98] (cstr [32, 45, 46, 53, 101, 49, 0]) :=
    ⟨by decide, List.forall_mem_cons.2 ⟨rfl, List.forall_mem_singleton.2 rfl⟩,
      head_of (b := 32) rfl rfl⟩
  have float : Real [45] [] [46] [53] [101, 49] (cstr [0]) :=
    ⟨.inr ⟨45, rfl, rfl⟩, by simp, .inr rfl, List.all_eq_true.1 rfl, by simp, .inr ⟨[49], exponent, rfl⟩,
      nofun⟩
  have noWidth (n : Nat) : ∀ k ∈ FieldWidth.none.value, n ≤ k := by
    simp [FieldWidth.value, FieldWidth.none, widthValue]
  have first : Asked [37, 100] [49, 50] (cstr [32, 97, 98, 32, 45, 46, 53, 101, 49, 0]) :=
    .field (z := .plain) .nil (b := []) (by simp [Blanks]) number (noWidth _)
  have second : Asked [32, 37, 115] [32, 97, 98] (cstr [32, 45, 46, 53, 101, 49, 0]) :=
    .field (z := .plain) blank (b := []) (by simp [Blanks]) word (noWidth _)
  have third : Asked [32, 37, 102] [32, 45, 46, 53, 101, 49] (cstr [0]) :=
    .real (z := .plain) (.inr (.inl rfl)) blank (b := []) (by simp [Blanks]) float (noWidth _)
  have last : Right (fun i => decide (i < 3)) 2 [32, 37, 102]
      ([32, 45, 46, 53, 101, 49] ++ [0]) :=
    .asked (show strnxtfmt [32, 37, 102] = some ([32, 37, 102], []) from rfl) (by decide)
      (by decide) third .ended
  have others : Right (fun i => decide (i < 3)) 1 [32, 37, 115, 32, 37, 102]
      ([32, 97, 98] ++ [32, 45, 46, 53, 101, 49, 0]) :=
    .asked (show strnxtfmt [32, 37, 115, 32, 37, 102] = some ([32, 37, 115], [32, 37, 102]) from rfl)
      (by decide) (by decide) second last
  change Right _ 0 fmtDSF ([49, 50] ++ [32, 97, 98, 32, 45, 46, 53, 101, 49, 0])
  exact .asked (show strnxtfmt fmtDSF = some ([37, 100], [32, 37, 115, 32, 37, 102]) from rfl)
    (by decide) (by decide) first others

end

end UnixProgramming.Ssl
