import UnixProgramming.Ssl.Measure
import UnixProgramming.Ssl.Pieces

/-!
# The text of a piece

What there may be on a stream for a piece of a format to take all of it: blanks
and the piece's characters, and for its conversion a word, a number, or the
first part of one. `stpnxt` then stops at the end of what it is shown, and
`Sscanf` peeks once more.

* `field_iff`: what a conversion takes;
* `stpnxt_all`: `stpnxt` comes to the end of the text of a piece, and of
  nothing else.
-/

namespace UnixProgramming.Ssl

/-! ## Fields -/

def Blanks (b : List Byte) : Prop := ∀ c ∈ b, isspace c

/-- At most a sign. -/
def Sign (s : List Byte) : Prop := s = [] ∨ ∃ c, issign c ∧ s = [c]

/-- At most an `e`, with a sign and digits behind it. -/
def Exponent (e : List Byte) : Prop :=
  e = [] ∨ ∃ s ds, Sign s ∧ (∀ c ∈ ds, isdigit c) ∧ e = 101 :: (s ++ ds)

/-- Bytes that a conversion with this letter takes all of. The letters that are
missing take nothing. -/
inductive FieldText : Byte → List Byte → Prop where
  | word {b w : List Byte} (blanks : Blanks b) (solid : ∀ c ∈ w, isspace c = false) :
      FieldText 115 (b ++ w)
  | char (c : Byte) : FieldText 99 [c]
  | hex {b s p ds : List Byte} (blanks : Blanks b) (sign : Sign s)
      (pre : p = [] ∨ p = [48, 120]) (digits : ∀ c ∈ ds, isxdigit c) :
      FieldText 120 (b ++ (s ++ (p ++ ds)))
  | octal {b s ds : List Byte} (blanks : Blanks b) (sign : Sign s)
      (digits : ∀ c ∈ ds, isodigit c) : FieldText 111 (b ++ (s ++ ds))
  | decimal {b s ds : List Byte} (blanks : Blanks b) (sign : Sign s)
      (digits : ∀ c ∈ ds, isdigit c) : FieldText 100 (b ++ (s ++ ds))
  | real {code : Byte} {b s ds p ds' e : List Byte}
      (letter : code = 101 ∨ code = 102 ∨ code = 103 ∨ code = 117) (blanks : Blanks b)
      (sign : Sign s) (digits : ∀ c ∈ ds, isdigit c) (point : p = [] ∨ p = [46])
      (digits' : ∀ c ∈ ds', isdigit c) (exponent : Exponent e) :
      FieldText code (b ++ (s ++ (ds ++ (p ++ (ds' ++ e)))))
  | blanks {code : Byte} {b : List Byte} (letter : code = 37 ∨ code = 98) (blanks : Blanks b) :
      FieldText code b

/-! ## What a conversion takes -/

theorem Blanks.append {b b' : List Byte} (blanks : Blanks b) (blanks' : Blanks b') :
    Blanks (b ++ b') :=
  fun c mem => (List.mem_append.1 mem).elim (blanks c) (blanks' c)

theorem split_blanks (x : List Byte) : ∃ b, Blanks b ∧ x = b ++ stpblk x :=
  ⟨x.takeWhile isspace, fun _ => List.mem_takeWhile_imp, List.takeWhile_append_dropWhile.symm⟩

theorem stpblk_append {b : List Byte} (blanks : Blanks b) (t : List Byte) :
    stpblk (b ++ t) = stpblk t :=
  List.dropWhile_append_of_pos blanks

/-- Behind the blanks is what has none. -/
theorem stpblk_solid {b t : List Byte} (blanks : Blanks b) (solid : ∀ c ∈ t, isspace c = false) :
    stpblk (b ++ t) = t := by
  rw [stpblk_append blanks]
  exact stpblk_self fun c first => solid c (List.mem_of_mem_head? first)

theorem stpblk_all {b : List Byte} (blanks : Blanks b) : stpblk b = [] :=
  List.dropWhile_eq_nil_iff.2 blanks

theorem dropWhile_all {test : Byte → Bool} {ds : List Byte} (all : ∀ c ∈ ds, test c)
    (t : List Byte) : (ds ++ t).dropWhile test = t.dropWhile test :=
  List.dropWhile_append_of_pos all

/-- A sign, if there is one, and the rest. -/
theorem split_sign (t : List Byte) : ∃ s, Sign s ∧ t = s ++ skipOne issign t := by
  cases t with
  | nil => exact ⟨[], .inl rfl, rfl⟩
  | cons c t =>
    by_cases sign : issign c
    · exact ⟨[c], .inr ⟨c, sign, rfl⟩, by simp [skipOne, sign]⟩
    · exact ⟨[], .inl rfl, by simp [skipOne, sign]⟩

theorem skipOne_sign {s t : List Byte} (sign : Sign s)
    (unsigned : ∀ c ∈ t.head?, issign c = false) : skipOne issign (s ++ t) = t := by
  rcases sign with rfl | ⟨c, is, rfl⟩
  · cases t with
    | nil => rfl
    | cons c t => simp [skipOne, unsigned c rfl]
  · simp [skipOne, is]

theorem Sign.solid {s : List Byte} (sign : Sign s) : ∀ c ∈ s, isspace c = false := by
  rcases sign with rfl | ⟨c, is, rfl⟩
  · simp
  · have code : c = 43 ∨ c = 45 := by simpa [issign] using is
    rcases code with rfl | rfl <;> simp <;> rfl

/-- No digit is a sign or a blank. -/
theorem isxdigit_plain {c : Byte} (h : isxdigit c) : issign c = false ∧ isspace c = false :=
  ⟨isxdigit_not_issign c h, isxdigit_not_isspace c h⟩

/-- A sign and characters that pass the test, which are neither signs nor blanks. -/
theorem signed_iff {test : Byte → Bool} (digit : ∀ c, test c → isxdigit c) (x : List Byte) :
    (skipOne issign (stpblk x)).dropWhile test = [] ↔
      ∃ b s ds, Blanks b ∧ Sign s ∧ (∀ c ∈ ds, test c) ∧ x = b ++ (s ++ ds) := by
  constructor
  · intro all
    obtain ⟨b, blanks, e⟩ := split_blanks x
    obtain ⟨s, sign, e'⟩ := split_sign (stpblk x)
    exact ⟨b, s, _, blanks, sign, List.dropWhile_eq_nil_iff.1 all, by rw [← e', ← e]⟩
  · rintro ⟨b, s, ds, blanks, sign, digits, rfl⟩
    have none' : ∀ c ∈ s ++ ds, isspace c = false := by
      intro c mem
      rcases List.mem_append.1 mem with mem | mem
      · exact sign.solid c mem
      · exact (isxdigit_plain (digit c (digits c mem))).2
    rw [stpblk_solid blanks none', skipOne_sign sign fun c first =>
      (isxdigit_plain (digit c (digits c (List.mem_of_mem_head? first)))).1]
    exact List.dropWhile_eq_nil_iff.2 digits

/-- `0x`, if it is there, and hexadecimal digits. -/
theorem hex_iff (x : List Byte) :
    (let t := skipOne issign (stpblk x)
      if [48, 120].isPrefixOf t then t.drop 2 else t).dropWhile isxdigit = [] ↔
      ∃ b s p ds, Blanks b ∧ Sign s ∧ (p = [] ∨ p = [48, 120]) ∧ (∀ c ∈ ds, isxdigit c) ∧
        x = b ++ (s ++ (p ++ ds)) := by
  dsimp only
  constructor
  · intro all
    obtain ⟨b, blanks, e⟩ := split_blanks x
    obtain ⟨s, sign, e'⟩ := split_sign (stpblk x)
    split at all
    · rename_i hex
      obtain ⟨ds, behind⟩ := List.isPrefixOf_iff_prefix.1 hex
      rw [← behind] at all e'
      exact ⟨b, s, [48, 120], ds, blanks, sign, .inr rfl, List.dropWhile_eq_nil_iff.1 all,
        by rw [← e', ← e]⟩
    · exact ⟨b, s, [], _, blanks, sign, .inl rfl, List.dropWhile_eq_nil_iff.1 all,
        by rw [List.nil_append, ← e', ← e]⟩
  · rintro ⟨b, s, p, ds, blanks, sign, pre, digits, rfl⟩
    have plain : ∀ c ∈ p ++ ds, issign c = false ∧ isspace c = false := by
      intro c mem
      rcases List.mem_append.1 mem with mem | mem
      · rcases pre with rfl | rfl
        · cases mem
        · rcases List.mem_cons.1 mem with rfl | mem
          · decide
          · rw [List.mem_singleton.1 mem]
            decide
      · exact isxdigit_plain (digits c mem)
    have solid : ∀ c ∈ s ++ (p ++ ds), isspace c = false := by
      intro c mem
      rcases List.mem_append.1 mem with mem | mem
      · exact sign.solid c mem
      · exact (plain c mem).2
    rw [stpblk_solid blanks solid, skipOne_sign sign fun c first =>
      (plain c (List.mem_of_mem_head? first)).1]
    rcases pre with rfl | rfl
    · split
      · exact List.dropWhile_eq_nil_iff.2 fun c mem => digits c (List.mem_of_mem_drop mem)
      · exact List.dropWhile_eq_nil_iff.2 digits
    · exact List.dropWhile_eq_nil_iff.2 digits

/-- What `fraction` leaves of the rest behind the digits. -/
def behindExponent (z : List Byte) : List Byte :=
  if z.head? = some 101 then (skipOne issign z.tail).dropWhile isdigit else z

theorem fraction_eq (y : List Byte) :
    fraction y = behindExponent ((skipOne (· == 46) y).dropWhile isdigit) := by
  unfold fraction behindExponent
  dsimp only
  split
  · rename_i e
    rw [e]
    rfl
  · rename_i other
    rw [if_neg]
    intro first
    obtain ⟨s, e⟩ := List.head?_eq_some_iff.1 first
    exact other s e

/-- What may stand behind the digits of a number. -/
theorem fraction_iff {y : List Byte} (stop : ∀ c ∈ y.head?, isdigit c = false) :
    fraction y = [] ↔ ∃ p ds e, (p = [] ∨ p = [46]) ∧ (∀ c ∈ ds, isdigit c) ∧ Exponent e ∧
      y = p ++ (ds ++ e) := by
  have split_point (y : List Byte) : ∃ p, (p = [] ∨ p = [46]) ∧ y = p ++ skipOne (· == 46) y := by
    cases y with
    | nil => exact ⟨[], .inl rfl, rfl⟩
    | cons c y =>
      by_cases point : c = 46
      · exact ⟨[46], .inr rfl, by simp [skipOne, point]⟩
      · exact ⟨[], .inl rfl, by simp [skipOne, point]⟩
  have exponent_iff (z : List Byte) (stop : ∀ c ∈ z.head?, isdigit c = false) :
      behindExponent z = [] ↔ Exponent z := by
    constructor
    · intro all
      unfold behindExponent at all
      split at all
      · rename_i first
        obtain ⟨z', rfl⟩ := List.head?_eq_some_iff.1 first
        obtain ⟨s, sign, e⟩ := split_sign z'
        exact .inr ⟨s, _, sign, List.dropWhile_eq_nil_iff.1 all, congrArg _ e⟩
      · exact .inl all
    · rintro (rfl | ⟨s, ds, sign, digits, rfl⟩)
      · rfl
      · change (skipOne issign (s ++ ds)).dropWhile isdigit = []
        rw [skipOne_sign sign fun c first =>
          (isxdigit_plain (isdigit_isxdigit (digits c (List.mem_of_mem_head? first)))).1]
        exact List.dropWhile_eq_nil_iff.2 digits
  have behind := exponent_iff ((skipOne (· == 46) y).dropWhile isdigit) fun c first => by
    have stops := List.head?_dropWhile_not isdigit (skipOne (· == 46) y)
    rwa [Option.mem_def.1 first] at stops
  rw [fraction_eq, behind]
  constructor
  · intro exponent
    obtain ⟨p, point, e⟩ := split_point y
    exact ⟨p, (skipOne (· == 46) y).takeWhile isdigit, _, point,
      fun _ => List.mem_takeWhile_imp, exponent, by rw [List.takeWhile_append_dropWhile, ← e]⟩
  · rintro ⟨p, ds, e, point, digits, exponent, rfl⟩
    have none' : e.dropWhile isdigit = e := by
      rcases exponent with rfl | ⟨s, ds', -, -, rfl⟩
      · rfl
      · rfl
    have rest : (skipOne (· == 46) (p ++ (ds ++ e))).dropWhile isdigit = e := by
      rcases point with rfl | rfl
      · have empty : ds = [] := by
          cases ds with
          | nil => rfl
          | cons d ds =>
            have no := stop d rfl
            rw [digits d List.mem_cons_self] at no
            cases no
        subst empty
        rcases exponent with rfl | ⟨s, ds', -, -, rfl⟩
        · rfl
        · rfl
      · change (ds ++ e).dropWhile isdigit = e
        rw [dropWhile_all digits, none']
    rw [rest]
    exact exponent

/-- The characters of a number are neither blanks nor, behind its sign, signs. -/
theorem real_plain {ds p ds' e : List Byte} (digits : ∀ c ∈ ds, isdigit c)
    (point : p = [] ∨ p = [46]) (digits' : ∀ c ∈ ds', isdigit c) (exponent : Exponent e) :
    (∀ c ∈ ds ++ (p ++ (ds' ++ e)), isspace c = false) ∧
      ∀ c ∈ (ds ++ (p ++ (ds' ++ e))).head?, issign c = false := by
  have plain {c : Byte} {l : List Byte} (all : ∀ c ∈ l, isdigit c) (mem : c ∈ l) :=
    isxdigit_plain (isdigit_isxdigit (all c mem))
  constructor
  · intro c mem
    simp only [List.mem_append] at mem
    rcases mem with mem | mem | mem | mem
    · exact (plain digits mem).2
    · rcases point with rfl | rfl
      · cases mem
      · rw [List.mem_singleton.1 mem]
        decide
    · exact (plain digits' mem).2
    · rcases exponent with rfl | ⟨s, ds'', sign, digits'', rfl⟩
      · cases mem
      · rcases List.mem_cons.1 mem with rfl | mem
        · decide
        · rcases List.mem_append.1 mem with mem | mem
          · exact sign.solid c mem
          · exact (plain digits'' mem).2
  · intro c first
    cases ds with
    | cons d ds =>
      cases first
      exact (plain digits List.mem_cons_self).1
    | nil =>
    rcases point with rfl | rfl
    · cases ds' with
      | cons d ds' =>
        cases first
        exact (plain digits' List.mem_cons_self).1
      | nil =>
      rcases exponent with rfl | ⟨s, ds'', -, -, rfl⟩
      · cases first
      · cases first
        decide
    · cases first
      decide

theorem real_iff (x : List Byte) : fraction (decimal (stpblk x)) = [] ↔
    ∃ b s ds p ds' e, Blanks b ∧ Sign s ∧ (∀ c ∈ ds, isdigit c) ∧ (p = [] ∨ p = [46]) ∧
      (∀ c ∈ ds', isdigit c) ∧ Exponent e ∧ x = b ++ (s ++ (ds ++ (p ++ (ds' ++ e)))) := by
  have stop (t : List Byte) : ∀ c ∈ (decimal t).head?, isdigit c = false := by
    intro c first
    have stops := List.head?_dropWhile_not isdigit (skipOne issign t)
    rwa [← decimal, Option.mem_def.1 first] at stops
  constructor
  · intro all
    obtain ⟨b, blanks, e⟩ := split_blanks x
    obtain ⟨s, sign, e'⟩ := split_sign (stpblk x)
    obtain ⟨p, ds', ex, point, digits', exponent, behind⟩ := (fraction_iff (stop _)).1 all
    refine ⟨b, s, (skipOne issign (stpblk x)).takeWhile isdigit, p, ds', ex, blanks, sign,
      fun _ => List.mem_takeWhile_imp, point, digits', exponent, ?_⟩
    rw [← behind, decimal, List.takeWhile_append_dropWhile, ← e', ← e]
  · rintro ⟨b, s, ds, p, ds', e, blanks, sign, digits, point, digits', exponent, rfl⟩
    obtain ⟨solid, unsigned⟩ := real_plain digits point digits' exponent
    have solid' : ∀ c ∈ s ++ (ds ++ (p ++ (ds' ++ e))), isspace c = false := by
      intro c mem
      rcases List.mem_append.1 mem with mem | mem
      · exact sign.solid c mem
      · exact solid c mem
    rw [stpblk_solid blanks solid', decimal, skipOne_sign sign unsigned, dropWhile_all digits]
    rcases point with rfl | rfl
    · have none' : e.dropWhile isdigit = e := by
        rcases exponent with rfl | ⟨s, ds'', -, -, rfl⟩ <;> rfl
      rw [List.nil_append, dropWhile_all digits', none']
      have stop : ∀ c ∈ e.head?, isdigit c = false := by
        rcases exponent with rfl | ⟨s, ds'', -, -, rfl⟩
        · simp
        · rintro c ⟨⟩
          rfl
      exact (fraction_iff stop).2 ⟨[], [], e, .inl rfl, by simp, exponent, rfl⟩
    · have stop : ∀ c ∈ ([46] ++ (ds' ++ e)).head?, isdigit c = false := by
        rintro c ⟨⟩
        rfl
      exact (fraction_iff stop).2 ⟨[46], ds', e, .inr rfl, digits', exponent, rfl⟩

/-- Where `stpnxt` goes on behind the last conversion of a format. -/
def Turn.left : Turn → List Byte
  | out s => s
  | on s ss => if s.length ≥ ss.length then ss else s

theorem Turn.left_on {s ss : List Byte} (h : s <:+ ss) : (Turn.on s ss).left = s := by
  rw [Turn.left]
  split
  · rename_i nothing
    exact (h.eq_of_length_le nothing).symm
  · rfl

/-- **What a conversion takes.** -/
theorem field_iff (code : Byte) {x : List Byte} (some' : x ≠ []) :
    (convert code x).left = [] ↔ FieldText code x := by
  have blanks := stpblk_suffix x
  by_cases isS : code = 115
  · subst isS
    change (Turn.on _ x).left = [] ↔ _
    rw [Turn.left_on ((List.dropWhile_suffix _).trans blanks), List.dropWhile_eq_nil_iff]
    constructor
    · intro all
      obtain ⟨b, white, e⟩ := split_blanks x
      rw [e]
      exact .word white fun c mem => by simpa using all c mem
    · intro h
      cases h with
      | word white solid =>
        rw [stpblk_solid white solid]
        exact fun c mem => by simp [solid c mem]
      | real letter | blanks letter => exact absurd letter (by decide)
  by_cases isC : code = 99
  · subst isC
    change (Turn.on x.tail x).left = [] ↔ _
    rw [Turn.left_on (List.tail_suffix x)]
    constructor
    · intro none'
      obtain ⟨c, t, rfl⟩ := List.exists_cons_of_ne_nil some'
      rw [show t = [] from none']
      exact .char c
    · intro h
      cases h with
      | char c => rfl
      | real letter | blanks letter => exact absurd letter (by decide)
  by_cases isX : code = 120
  · subst isX
    have suffix : (let t := skipOne issign (stpblk x)
        if [48, 120].isPrefixOf t then t.drop 2 else t).dropWhile isxdigit <:+ stpblk x := by
      refine (List.dropWhile_suffix _).trans ?_
      dsimp only
      split
      · exact (List.drop_suffix _ _).trans (skipOne_suffix _ _)
      · exact skipOne_suffix _ _
    have left := Turn.left_on suffix
    change (convert 120 x).left = _ at left
    rw [left, hex_iff]
    constructor
    · rintro ⟨b, s, p, ds, white, sign, pre, digits, rfl⟩
      exact .hex white sign pre digits
    · intro h
      cases h with
      | hex white sign pre digits => exact ⟨_, _, _, _, white, sign, pre, digits, rfl⟩
      | real letter | blanks letter => exact absurd letter (by decide)
  by_cases isO : code = 111
  · subst isO
    change (Turn.on ((skipOne issign (stpblk x)).dropWhile isodigit) (stpblk x)).left = [] ↔ _
    rw [Turn.left_on ((List.dropWhile_suffix _).trans (skipOne_suffix _ _)),
      signed_iff fun c h => isdigit_isxdigit (isodigit_isdigit h)]
    constructor
    · rintro ⟨b, s, ds, white, sign, digits, rfl⟩
      exact .octal white sign digits
    · intro h
      cases h with
      | octal white sign digits => exact ⟨_, _, _, white, sign, digits, rfl⟩
      | real letter | blanks letter => exact absurd letter (by decide)
  by_cases isD : code = 100
  · subst isD
    change (Turn.on (decimal (stpblk x)) (stpblk x)).left = [] ↔ _
    rw [Turn.left_on (decimal_suffix _), decimal, signed_iff fun c => isdigit_isxdigit]
    constructor
    · rintro ⟨b, s, ds, white, sign, digits, rfl⟩
      exact .decimal white sign digits
    · intro h
      cases h with
      | decimal white sign digits => exact ⟨_, _, _, white, sign, digits, rfl⟩
      | real letter | blanks letter => exact absurd letter (by decide)
  by_cases isF : code = 101 ∨ code = 102 ∨ code = 103 ∨ code = 117
  · have takes : convert code x = .on (fraction (decimal (stpblk x))) (stpblk x) := by
      simp only [convert, isS, isC, isX, isO, isD, isF, if_true, if_false]
    rw [takes, Turn.left_on ((fraction_suffix _).trans (decimal_suffix _)), real_iff]
    constructor
    · rintro ⟨b, s, ds, p, ds', e, white, sign, digits, point, digits', exponent, rfl⟩
      exact .real isF white sign digits point digits' exponent
    · intro h
      cases h with
      | real _ white sign digits point digits' exponent =>
        exact ⟨_, _, _, _, _, _, white, sign, digits, point, digits', exponent, rfl⟩
      | word | char | hex | octal | decimal => exact absurd isF (by decide)
      | blanks letter => rcases letter with rfl | rfl <;> exact absurd isF (by decide)
  by_cases isB : code = 37 ∨ code = 98
  · have takes : (convert code x).left = [] ↔ stpblk x = [] := by
      rcases isB with rfl | rfl
      · change (if (stpblk x).headD 0 ≠ 37 then Turn.out (stpblk x) else .on (stpblk x) x).left =
          [] ↔ _
        split
        · rfl
        · rw [Turn.left_on blanks]
      · change (Turn.on (stpblk x) x).left = [] ↔ _
        rw [Turn.left_on blanks]
    rw [takes, stpblk, List.dropWhile_eq_nil_iff]
    constructor
    · exact fun white => .blanks isB white
    · intro h
      cases h with
      | blanks _ white => exact white
      | word | char | hex | octal | decimal => exact absurd isB (by decide)
      | real letter => rcases letter with rfl | rfl | rfl | rfl <;> exact absurd isB (by decide)
  · have takes : convert code x = .on x x := by
      rw [not_or] at isB
      simp only [convert, isS, isC, isX, isO, isD, isF, isB, if_false]
    rw [takes, Turn.left_on (List.suffix_refl x)]
    refine iff_of_false some' fun h => ?_
    cases h with
    | word => exact isS rfl
    | char => exact isC rfl
    | hex => exact isX rfl
    | octal => exact isO rfl
    | decimal => exact isD rfl
    | real letter => exact isF letter
    | blanks letter => exact isB letter

/-! ## Pieces -/

/-- Bytes that a piece takes all of. Of the `%` for a `%%` it takes none, and
goes on behind the `%%` only if blanks stand before it. -/
inductive PieceText : List Byte → List Byte → Prop where
  | nothing (p : List Byte) : PieceText p []
  | blank {c : Byte} {p x : List Byte} (white : isspace c) (rest : PieceText p x) :
      PieceText (c :: p) x
  | char {b : List Byte} {c : Byte} {p x : List Byte} (blanks : Blanks b) (plain : c ≠ 37)
      (solid : isspace c = false) (rest : PieceText p x) : PieceText (c :: p) (b ++ c :: x)
  | front {b : List Byte} {c : Byte} {p : List Byte} (blanks : Blanks b) (plain : c ≠ 37)
      (solid : isspace c = false) : PieceText (c :: p) b
  | percent {b p x : List Byte} (blanks : Blanks b) (some' : b ≠ [])
      (rest : PieceText p (37 :: x)) : PieceText (37 :: 37 :: p) (b ++ 37 :: x)
  | before {b p : List Byte} (blanks : Blanks b) : PieceText (37 :: 37 :: p) b
  | field {p x : List Byte} {code : Byte} (letter : skipWidth p = [code])
      (text : FieldText code x) : PieceText (37 :: p) x

/-- Behind its text, a piece ends or has one conversion, which may lack its letter. -/
def Closing (tail : List Byte) : Prop := tail = [] ∨ Unfinished tail ∨ Conversion tail

theorem FieldText.not_flag {code : Byte} {x : List Byte} (h : FieldText code x) :
    isflag code = false := by
  cases h with
  | word | char | hex | octal | decimal => rfl
  | real letter => rcases letter with rfl | rfl | rfl | rfl <;> rfl
  | blanks letter => rcases letter with rfl | rfl <;> rfl

/-- A flag is no letter that a `case` names. -/
theorem convert_flag {c : Byte} (flag : isflag c) (x : List Byte) : convert c x = .on x x := by
  have other {d : Byte} (no : isflag d = false) : ¬ c = d := by
    rintro rfl
    rw [flag] at no
    cases no
  simp only [convert, other (d := 115) rfl, other (d := 99) rfl, other (d := 120) rfl,
    other (d := 111) rfl, other (d := 100) rfl, other (d := 101) rfl, other (d := 102) rfl,
    other (d := 103) rfl, other (d := 117) rfl, other (d := 37) rfl, other (d := 98) rfl,
    or_self, if_false]

theorem skipOne_last (test : Byte → Bool) (l : List Byte) {code : Byte} (no : test code = false) :
    ∃ l', l' <:+ l ∧ skipOne test (l ++ [code]) = l' ++ [code] := by
  cases l with
  | nil => exact ⟨[], List.suffix_refl _, by simp [skipOne, no]⟩
  | cons c l =>
    by_cases passes : test c
    · exact ⟨l, List.suffix_cons c l, by simp [skipOne, passes]⟩
    · exact ⟨c :: l, List.suffix_refl _, by simp [skipOne, passes]⟩

theorem dropWhile_last {test : Byte → Bool} (l : List Byte) {code : Byte} (no : test code = false) :
    ∃ l', l' <:+ l ∧ (l ++ [code]).dropWhile test = l' ++ [code] := by
  refine ⟨l.dropWhile test, List.dropWhile_suffix _, ?_⟩
  induction l with
  | nil => simp [no]
  | cons c l ih =>
    rw [List.cons_append, List.dropWhile_cons, List.dropWhile_cons]
    split
    · exact ih
    · rfl

/-- What is skipped before a code letter are flags. -/
theorem skipWidth_last (l : List Byte) {code : Byte} (letter : isflag code = false) :
    ∃ l', l' <:+ l ∧ skipWidth (l ++ [code]) = l' ++ [code] := by
  simp only [isflag, Bool.or_eq_false_iff, beq_eq_false_iff_ne, ne_eq] at letter
  obtain ⟨⟨⟨⟨⟨digit, l'⟩, -⟩, h'⟩, minus⟩, point⟩ := letter
  obtain ⟨l₁, first, same₁⟩ := skipOne_last (· == 45) l (by simpa using minus)
  obtain ⟨l₂, second, same₂⟩ : ∃ l₂, l₂ <:+ l₁ ∧ (if isdigit ((l₁ ++ [code]).headD 0) then
      (l₁ ++ [code]).dropWhile fun c => isdigit c || c == 46 else l₁ ++ [code]) = l₂ ++ [code] := by
    split
    · exact dropWhile_last l₁ (by simpa using ⟨digit, point⟩)
    · exact ⟨l₁, List.suffix_refl _, rfl⟩
  obtain ⟨l₃, third, same₃⟩ := skipOne_last (fun c => c == 108 || c == 104) l₂
    (by simpa using ⟨l', h'⟩)
  exact ⟨l₃, third.trans (second.trans first), by simp only [skipWidth, same₁, same₂, same₃]⟩

section
variable {x : List Byte}

/-- Where the letter is a flag nothing is taken. -/
theorem stpnxtLoop_flag (some' : x ≠ []) {l : List Byte} (turns : Nat)
    (flag : ∀ c ∈ (skipWidth l).head?, isflag c) :
    stpnxtLoop (turns + 1) x (37 :: l) = some x := by
  rw [stpnxtLoop_code some']
  cases letter : skipWidth l with
  | nil => rw [convert_nul]; exact if_pos le_rfl
  | cons c l' =>
    rw [List.headD_cons, convert_flag (flag c (by rw [letter]; rfl))]
    exact if_pos le_rfl

theorem pieceText_flag (some' : x ≠ []) {l : List Byte} (second : l.head? ≠ some 37)
    (flag : ∀ c ∈ (skipWidth l).head?, isflag c) : ¬ PieceText (37 :: l) x := by
  intro text
  cases text with
  | nothing => exact some' rfl
  | blank white => cases white
  | char _ plain => exact plain rfl
  | front _ plain => exact plain rfl
  | percent | before => exact second rfl
  | field letter text =>
    have no := text.not_flag
    rw [flag _ (by rw [letter]; rfl)] at no
    cases no

theorem stpnxtLoop_closing (some' : x ≠ []) {tail : List Byte} (closing : Closing tail) (turns : Nat) :
    stpnxtLoop (turns + 1) x tail = some [] ↔ PieceText tail x := by
  rcases closing with rfl | ⟨flags, rfl, all⟩ | ⟨flags, code, rfl, all, letter, one⟩
  · rw [stpnxtLoop_done]
    refine iff_of_false (by simpa using some') fun text => ?_
    cases text
    exact some' rfl
  · have flag : ∀ c ∈ (skipWidth flags).head?, isflag c := fun c first =>
      all c ((skipWidth_suffix flags).subset (List.mem_of_mem_head? first))
    have second : flags.head? ≠ some 37 := by
      intro first
      have no := all 37 (List.mem_of_mem_head? first)
      cases no
    rw [stpnxtLoop_flag some' turns flag]
    exact iff_of_false (by simpa using some') (pieceText_flag some' second flag)
  · obtain ⟨l, inside, width⟩ := skipWidth_last flags letter
    have second : (flags ++ [code]).head? ≠ some 37 := by
      intro first
      cases flags with
      | nil => exact one rfl (Option.some.inj first)
      | cons d flags =>
        cases first
        have no := all 37 List.mem_cons_self
        cases no
    cases l with
    | cons d l =>
      have flag : ∀ c ∈ (skipWidth (flags ++ [code])).head?, isflag c := by
        rw [width]
        rintro c ⟨⟩
        exact all d (inside.subset List.mem_cons_self)
      rw [stpnxtLoop_flag some' turns flag]
      exact iff_of_false (by simpa using some') (pieceText_flag some' second flag)
    | nil =>
      rw [List.nil_append] at width
      have goes : stpnxtLoop (turns + 1) x (37 :: (flags ++ [code])) =
          some (convert code x).left := by
        rw [stpnxtLoop_code some', width, List.headD_cons]
        cases convert code x with
        | out s => rfl
        | on s ss =>
          dsimp only [Turn.left]
          split
          · rfl
          · exact stpnxtLoop_done turns s
      rw [goes, Option.some.injEq, field_iff code some']
      constructor
      · exact fun text => .field width text
      · intro text
        generalize flags ++ [code] = l at width second text
        cases text with
        | nothing => exact absurd rfl some'
        | blank white => cases white
        | char _ plain => exact absurd rfl plain
        | front _ plain => exact absurd rfl plain
        | percent | before => exact absurd rfl second
        | field letter text =>
          rw [width] at letter
          cases letter
          exact text

end

theorem pieceText_blank {c : Byte} {p x : List Byte} (white : isspace c) :
    PieceText (c :: p) x ↔ PieceText p x := by
  constructor
  · intro text
    cases text with
    | nothing => exact .nothing _
    | blank _ rest => exact rest
    | char _ _ solid | front _ _ solid => rw [white] at solid; cases solid
    | percent | before | field => cases white
  · exact .blank white

theorem stpblk_behind {b : List Byte} (blanks : Blanks b) {c : Byte} (solid : isspace c = false)
    (x : List Byte) : stpblk (b ++ c :: x) = c :: x := by
  rw [stpblk_append blanks]
  exact stpblk_self fun d first => by cases first; exact solid

theorem pieceText_char {c : Byte} {p x : List Byte} (plain : c ≠ 37) (solid : isspace c = false) :
    PieceText (c :: p) x ↔ ∀ d t, stpblk x = d :: t → d = c ∧ PieceText p t := by
  constructor
  · intro text d t behind
    cases text with
    | nothing => cases behind
    | blank white => rw [white] at solid; cases solid
    | char blanks _ _ rest =>
      rw [stpblk_behind blanks solid] at behind
      cases behind
      exact ⟨rfl, rest⟩
    | front blanks => rw [stpblk_all blanks] at behind; cases behind
    | percent | before | field => exact absurd rfl plain
  · intro all
    obtain ⟨b, blanks, split⟩ := split_blanks x
    cases behind : stpblk x with
    | nil =>
      rw [behind, List.append_nil] at split
      exact split ▸ .front blanks plain solid
    | cons d t =>
      obtain ⟨rfl, rest⟩ := all d t behind
      rw [split, behind]
      exact .char blanks plain solid rest

theorem pieceText_pair {p x : List Byte} : PieceText (37 :: 37 :: p) x ↔
    ∀ d t, stpblk x = d :: t → d = 37 ∧ stpblk x ≠ x ∧ PieceText p (37 :: t) := by
  constructor
  · intro text d t behind
    have ended {code : Byte} (letter : skipWidth (37 :: p) = [code]) : code = 37 := by
      rw [show skipWidth (37 :: p) = 37 :: p from rfl] at letter
      exact (List.cons.inj letter).1.symm
    cases text with
    | nothing => cases behind
    | blank white => cases white
    | char _ plain | front _ plain => exact absurd rfl plain
    | percent blanks some' rest =>
      have moved := stpblk_behind blanks (c := 37) rfl
      rw [moved] at behind ⊢
      cases behind
      refine ⟨rfl, fun same => some' ?_, rest⟩
      simpa using congrArg List.length same
    | before blanks => rw [stpblk_all blanks] at behind; cases behind
    | field letter text =>
      obtain rfl := ended letter
      cases text with
      | real letter => exact absurd letter (by decide)
      | blanks _ white => rw [stpblk_all white] at behind; cases behind
  · intro all
    obtain ⟨b, blanks, split⟩ := split_blanks x
    cases behind : stpblk x with
    | nil =>
      rw [behind, List.append_nil] at split
      exact split ▸ .before blanks
    | cons d t =>
      obtain ⟨rfl, moved, rest⟩ := all d t behind
      have some' : b ≠ [] := by
        rintro rfl
        exact moved split.symm
      rw [split, behind]
      exact .percent blanks some' rest

/-- **Bytes that `stpnxt` takes all of**, for text and what closes a piece. -/
theorem stpnxtLoop_all {tail : List Byte} (closing : Closing tail) {lit : List Byte}
    (literal : Literal lit) : ∀ (turns : Nat) (x : List Byte), (lit ++ tail).length < turns →
      (stpnxtLoop turns x (lit ++ tail) = some [] ↔ PieceText (lit ++ tail) x) := by
  induction literal with
  | nil =>
    intro turns x enough
    obtain ⟨turns, rfl⟩ : ∃ n, turns = n + 1 := ⟨turns - 1, by omega⟩
    by_cases some' : x = []
    · rw [some']
      exact iff_of_true (stpnxtLoop_empty _ _) (.nothing _)
    · exact stpnxtLoop_closing some' closing turns
  | @char c lit plain _ ih =>
    intro turns x enough
    obtain ⟨turns, rfl⟩ : ∃ n, turns = n + 1 := ⟨turns - 1, by omega⟩
    rw [List.cons_append, List.length_cons] at enough
    rw [List.cons_append]
    by_cases some' : x = []
    · rw [some']
      exact iff_of_true (stpnxtLoop_empty _ _) (.nothing _)
    rw [stpnxtLoop, if_neg (by simpa using some')]
    simp only [if_neg plain]
    by_cases white : isspace c
    · rw [if_pos white, ih turns x (by omega), pieceText_blank white]
    · rw [if_neg white, pieceText_char plain (by simpa using white)]
      cases stpblk x with
      | nil => simp
      | cons d t =>
        by_cases same : d = c
        · simpa [same] using ih turns t (by omega)
        · simp [same]
  | @pair lit _ ih =>
    intro turns x enough
    obtain ⟨turns, rfl⟩ : ∃ n, turns = n + 1 := ⟨turns - 1, by omega⟩
    rw [List.cons_append, List.cons_append, List.length_cons, List.length_cons] at enough
    rw [List.cons_append, List.cons_append]
    by_cases some' : x = []
    · rw [some']
      exact iff_of_true (stpnxtLoop_empty _ _) (.nothing _)
    have percent : convert 37 x = if (stpblk x).headD 0 ≠ 37 then .out (stpblk x)
        else .on (stpblk x) x := rfl
    rw [stpnxtLoop_code some', show skipWidth (37 :: (lit ++ tail)) = 37 :: (lit ++ tail) by rfl,
      List.headD_cons, percent, pieceText_pair]
    have shorter := stpblk_suffix x
    cases behind : stpblk x with
    | nil => simp
    | cons d t =>
      rw [behind] at shorter
      by_cases other : d = 37
      · subst other
        have moved : (37 :: t).length ≥ x.length ↔ 37 :: t = x :=
          ⟨fun long => shorter.eq_of_length_le long, fun same => by rw [same]⟩
        simp only [List.headD_cons, ne_eq, not_true_eq_false, if_false, moved]
        by_cases stays : 37 :: t = x
        · subst stays
          simp
        · simpa [stays] using ih turns (37 :: t) (by omega)
      · simp [other]

/-- **Bytes that `stpnxt` takes all of** for a piece of a format. -/
theorem stpnxt_all {f snglfmt f' : List Byte} (next : strnxtfmt f = some (snglfmt, f'))
    (x : List Byte) : stpnxt x snglfmt = some [] ↔ PieceText snglfmt x := by
  obtain ⟨lit, tail, rfl, literal, closing⟩ : ∃ lit tail, snglfmt = lit ++ tail ∧ Literal lit ∧
      Closing tail := by
    have split := strnxtfmtLoop_split f
    rw [strnxtfmt] at next
    split at next
    · cases next
    rw [Option.some.inj next] at split
    rcases split with ⟨lit, conv, e, literal, conversion⟩ | ⟨⟨lit, tail, e, literal, ends⟩, -⟩
    · exact ⟨lit, conv, e, literal, .inr (.inr conversion)⟩
    · exact ⟨lit, tail, e, literal, ends.imp_right .inl⟩
  exact stpnxtLoop_all closing literal _ x (Nat.lt_succ_self _)

end UnixProgramming.Ssl
