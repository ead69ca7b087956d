import UnixProgramming.Ssl.Scanf

/-!
# stpnxt and sscanf

`stpnxt` goes over a format as `sscanf` does, with rules of its own: it knows
no field widths, does not step over the `%` that `%%` has matched, skips blanks
before every ordinary character and none for a blank at the end of the format
or before `%c`, takes a fraction with `%u` and no `0X` with `%x`.

* `stpnxt_stopsAt`: where `stpnxt` stops, directive by directive;
* `conv_agrees`: when the two take the same for a conversion;
* `stpnxt_agrees`: they agree on a format and on its parts where none of the
  rules makes a difference, and nowhere else.
-/

namespace UnixProgramming.Ssl

/-! ## Where stpnxt stops -/

namespace Code

/-- Where `stpnxt` goes for a conversion. -/
def ahead : Code → List Byte → List Byte
  | c, p => p.tail
  | s, p => (stpblk p).dropWhile (!isspace ·)
  | d, p => decimal (stpblk p)
  | u, p => fraction (decimal (stpblk p))
  | x, p =>
    let x := skipOne issign (stpblk p)
    (if [48, 120].isPrefixOf x then x.drop 2 else x).dropWhile isxdigit
  | o, p => (skipOne issign (stpblk p)).dropWhile isodigit

/-- The pointer that `stpnxt` returns when a conversion takes nothing. -/
def start : Code → List Byte → List Byte
  | c, p | s, p => p
  | d, p | u, p | x, p | o, p => stpblk p

theorem convert_byte (code : Code) (p : List Byte) :
    convert code.byte p = .on (code.ahead p) (code.start p) := by
  cases code <;> rfl

end Code

/-- Where `stpnxt` stops on a format. -/
def stopsAt (p : List Byte) : List Directive → List Byte
  | [] => p
  | .blank .. :: items => stopsAt p items
  | .plain c _ :: items => match stpblk p with
    | [] => []
    | d :: t => if d = c then stopsAt t items else d :: t
  | .percent :: items =>
    if (stpblk p).head? ≠ some 37 then stpblk p
    else if p.length ≤ (stpblk p).length then p
    else stopsAt (stpblk p) items
  | .conv _ _ code :: items =>
    if (code.start p).length ≤ (code.ahead p).length then code.start p
    else stopsAt (code.ahead p) items

/-- The width and the size are skipped, and nothing of what follows them. -/
theorem skipWidth_letter (w : FieldWidth) (z : Width) {code : Byte} (letter : isflag code = false)
    (fmt : List Byte) : skipWidth (w.digits ++ (z.text ++ code :: fmt)) = code :: fmt := by
  simp only [isflag, Bool.or_eq_false_iff, beq_eq_false_iff_ne, ne_eq] at letter
  obtain ⟨⟨⟨⟨⟨notDigit, notL⟩, -⟩, notH⟩, notMinus⟩, notPoint⟩ := letter
  have size : skipOne (fun c => c == 108 || c == 104) (z.text ++ code :: fmt) = code :: fmt := by
    cases z with
    | plain => simp [Width.text, skipOne, notL, notH]
    | short | long => rfl
  obtain ⟨b, f, next, digit, point, minus⟩ : ∃ b f, z.text ++ code :: fmt = b :: f ∧
      isdigit b = false ∧ b ≠ 46 ∧ b ≠ 45 := by
    cases z with
    | plain => exact ⟨_, _, rfl, notDigit, notPoint, notMinus⟩
    | short | long => exact ⟨_, _, rfl, by decide⟩
  have all := w.all
  rw [next] at size ⊢
  cases digits : w.digits with
  | nil =>
    have none' : skipOne (· == 45) ([] ++ b :: f) = b :: f := by simp [skipOne, minus]
    simp only [skipWidth, none', List.headD_cons, digit, Bool.false_eq_true, if_false, size]
  | cons c ds =>
    rw [digits] at all
    have first := all c List.mem_cons_self
    have none' : skipOne (· == 45) (c :: ds ++ b :: f) = c :: ds ++ b :: f := by
      have dash : c ≠ 45 := by rintro rfl; cases first
      simp [skipOne, dash]
    have behind : (c :: ds ++ b :: f).dropWhile (fun c => isdigit c || c == 46) = b :: f := by
      rw [List.dropWhile_append_of_pos fun d hd => by simp [all d hd]]
      simp [digit, point]
    simp only [skipWidth, none', behind]
    simpa [first] using size

theorem skipWidth_conv (w : FieldWidth) (z : Width) (code : Code) (fmt : List Byte) :
    skipWidth (w.digits ++ (z.text ++ code.byte :: fmt)) = code.byte :: fmt :=
  skipWidth_letter w z (by cases code <;> rfl) fmt

@[simp] theorem stopsAt_nil (items : List Directive) : stopsAt [] items = [] := by
  induction items with
  | nil => rfl
  | cons i items ih =>
    cases i with
    | blank => exact ih
    | plain | percent => rfl
    | conv w z code => cases code <;> rfl

/-- **Where `stpnxt` stops**, a turn for each directive. -/
theorem stpnxtLoop_stopsAt (items : List Directive) : ∀ (p : List Byte) (turns : Nat),
    items.length ≤ turns → stpnxtLoop turns p (fmtText items) = some (stopsAt p items) := by
  induction items with
  | nil => intro p turns _; exact stpnxtLoop_done turns p
  | cons i items ih =>
    intro p turns enough
    obtain ⟨turns, rfl⟩ : ∃ n, turns = n + 1 := ⟨turns - 1, by simp at enough; omega⟩
    replace enough : items.length ≤ turns := by simpa using enough
    by_cases some' : p = []
    · rw [some', stopsAt_nil, stpnxtLoop_empty]
    have running : ¬ p.isEmpty := by simpa using some'
    rw [fmtText_cons]
    cases i with
    | blank c white =>
      have code : c ≠ 37 := by rintro rfl; cases white
      rw [Directive.text, List.singleton_append, stpnxtLoop, if_neg running]
      simp only [if_neg code, if_pos white]
      exact ih p turns enough
    | plain c ordinary =>
      rw [Directive.text, List.singleton_append, stpnxtLoop, if_neg running]
      simp only [if_neg ordinary.2.1, ordinary.1, Bool.false_eq_true, if_false, stopsAt]
      cases stpblk p with
      | nil => rfl
      | cons d t =>
        by_cases same : d = c
        · simp only [same, ne_eq, not_true_eq_false, if_false, if_true]
          exact ih t turns enough
        · simp only [ne_eq, same, not_false_eq_true, if_true, if_false]
    | percent =>
      have percent : convert 37 p = if (stpblk p).headD 0 ≠ 37 then .out (stpblk p)
          else .on (stpblk p) p := rfl
      rw [Directive.text, List.cons_append, stpnxtLoop_code some', List.singleton_append,
        show skipWidth (37 :: fmtText items) = 37 :: fmtText items by rfl]
      simp only [List.headD_cons, percent, stopsAt]
      have first : (stpblk p).headD 0 ≠ 37 ↔ (stpblk p).head? ≠ some 37 := by
        cases stpblk p <;> simp
      by_cases other : (stpblk p).head? ≠ some 37
      · simp only [if_pos other, if_pos (first.2 other)]
      · simp only [if_neg other, if_neg (mt first.1 other)]
        split
        · rfl
        · exact ih _ _ enough
    | conv w z code =>
      have text : (Directive.conv w z code).text ++ fmtText items =
          37 :: (w.digits ++ (z.text ++ code.byte :: fmtText items)) := by simp [Directive.text]
      rw [text, stpnxtLoop_code some', skipWidth_conv]
      simp only [List.headD_cons, Code.convert_byte, stopsAt]
      split
      · rfl
      · exact ih _ _ enough

theorem fmtText_length (items : List Directive) : items.length ≤ (fmtText items).length := by
  induction items with
  | nil => exact Nat.le_refl _
  | cons i items ih =>
    have one : 1 ≤ i.text.length := by cases i <;> simp [Directive.text]
    rw [fmtText_cons, List.length_append, List.length_cons]
    omega

theorem stpnxt_stopsAt (s : List Byte) (items : List Directive) :
    stpnxt s (fmtText items) = some (stopsAt s items) :=
  stpnxtLoop_stopsAt items s _ (Nat.le_succ_of_le (fmtText_length items))

/-! ## Fields that fit their width -/

/-- With the field width `w`, a field that is behind at `rest` is not cut. -/
def Within (w : Option Nat) (t rest : List Byte) : Prop := ∀ n ∈ w, t.length ≤ rest.length + n

instance (w : Option Nat) (t rest : List Byte) : Decidable (Within w t rest) :=
  inferInstanceAs (Decidable (∀ n ∈ w, _))

theorem dropWhile_take (test : Byte → Bool) : ∀ (t : List Byte) (n : Nat),
    t.length ≤ (t.dropWhile test).length + n →
    (t.take n).dropWhile test ++ t.drop n = t.dropWhile test := by
  intro t
  induction t with
  | nil => intro n _; simp
  | cons c t ih =>
    intro n fits
    cases n with
    | zero =>
      have all := (List.dropWhile_suffix test (l := c :: t)).eq_of_length_le fits
      rw [all]
      rfl
    | succ n =>
      rw [List.take_succ_cons, List.drop_succ_cons, List.dropWhile_cons, List.dropWhile_cons]
      rw [List.dropWhile_cons] at fits
      split
      · rename_i passes
        rw [if_pos passes, List.length_cons] at fits
        exact ih n (by omega)
      · rw [List.cons_append, List.take_append_drop]

/-- What is said of a field behind a sign is said of the field with it. -/
theorem skipOne_take {test : Byte → Bool} {f : List Byte → List Byte} (behind : ∀ t, f t <:+ t)
    (local' : ∀ t n, t.length ≤ (f t).length + n → f (t.take n) ++ t.drop n = f t)
    (t : List Byte) (n : Nat) (fits : t.length ≤ (f (skipOne test t)).length + n) :
    f (skipOne test (t.take n)) ++ t.drop n = f (skipOne test t) := by
  cases t with
  | nil => simp
  | cons c t =>
    by_cases sign : test c
    · have shorter := (behind t).length_le
      simp only [skipOne, sign, if_true, List.length_cons] at fits ⊢
      obtain ⟨m, rfl⟩ : ∃ m, n = m + 1 := ⟨n - 1, by omega⟩
      simpa [skipOne, sign] using local' t m (by omega)
    · have same : skipOne test ((c :: t).take n) = (c :: t).take n := by
        cases n <;> simp [skipOne, sign]
      have plain : skipOne test (c :: t) = c :: t := by simp [skipOne, sign]
      rw [plain] at fits
      rw [same, plain]
      exact local' (c :: t) n fits

/-- The `0x` or `0X` that `scanf` takes before hexadecimal digits. -/
def hexPrefix (x : List Byte) : Prop := [48, 120].isPrefixOf x ∨ [48, 88].isPrefixOf x

instance (x : List Byte) : Decidable (hexPrefix x) := inferInstanceAs (Decidable (_ ∨ _))

def pastHex (x : List Byte) : List Byte :=
  (if hexPrefix x then x.drop 2 else x).dropWhile isxdigit

theorem pastHex_suffix (x : List Byte) : pastHex x <:+ x := by
  refine (List.dropWhile_suffix _).trans ?_
  split
  · exact List.drop_suffix _ _
  · exact List.suffix_refl _

theorem pastHex_take (x : List Byte) (n : Nat) (fits : x.length ≤ (pastHex x).length + n) :
    pastHex (x.take n) ++ x.drop n = pastHex x := by
  by_cases hex : hexPrefix x
  · obtain ⟨b, y, rfl⟩ : ∃ b y, x = 48 :: b :: y := by
      rcases hex with hex | hex <;> obtain ⟨y, rfl⟩ := List.isPrefixOf_iff_prefix.1 hex <;>
        exact ⟨_, y, rfl⟩
    have shorter := (List.dropWhile_suffix isxdigit (l := y)).length_le
    simp only [pastHex, if_pos hex, List.drop_succ_cons, List.drop_zero, List.length_cons] at fits
    obtain ⟨m, rfl⟩ : ∃ m, n = m + 2 := ⟨n - 2, by omega⟩
    have hex' : hexPrefix (48 :: b :: y.take m) := by
      simpa [hexPrefix, List.isPrefixOf] using hex
    rw [List.take_succ_cons, List.take_succ_cons]
    simp only [pastHex, if_pos hex, if_pos hex', List.drop_succ_cons, List.drop_zero]
    exact dropWhile_take isxdigit y m (by omega)
  · have hex' : ¬ hexPrefix (x.take n) := by
      intro h
      exact hex (h.imp
        (fun h => List.isPrefixOf_iff_prefix.2
          ((List.isPrefixOf_iff_prefix.1 h).trans (List.take_prefix _ _)))
        (fun h => List.isPrefixOf_iff_prefix.2
          ((List.isPrefixOf_iff_prefix.1 h).trans (List.take_prefix _ _))))
    simp only [pastHex, if_neg hex] at fits
    simp only [pastHex, if_neg hex, if_neg hex']
    exact dropWhile_take isxdigit x n fits

/-- **A width that is not reached makes no difference.** -/
theorem past_take {code : Code} (notC : code ≠ .c) (t : List Byte) (n : Nat)
    (fits : t.length ≤ (Libc.past code.byte t).length + n) :
    Libc.past code.byte (t.take n) ++ t.drop n = Libc.past code.byte t := by
  cases code with
  | c => exact absurd rfl notC
  | s => exact dropWhile_take _ t n fits
  | d | u | o =>
    exact skipOne_take (fun t => List.dropWhile_suffix _) (dropWhile_take _) t n fits
  | x => exact skipOne_take pastHex_suffix pastHex_take t n fits

/-- What a conversion leaves is what it would leave without a width, or more. -/
theorem field_rest {code : Code} (notC : code ≠ .c) (w : Option Nat) (z : Width) (t : List Byte) :
    (Libc.field w z code.byte t).2 = Libc.past code.byte t ∧
        Within w t (Libc.past code.byte t) ∨
      (Libc.past code.byte t).length < (Libc.field w z code.byte t).2.length ∧
        ¬ Within w t (Libc.past code.byte t) := by
  cases w with
  | none => exact .inl ⟨by simp [Libc.field], by simp [Within]⟩
  | some n =>
    have within : Within (some n) t (Libc.past code.byte t) ↔
        t.length ≤ (Libc.past code.byte t).length + n := by simp [Within]
    rw [within]
    by_cases fits : t.length ≤ (Libc.past code.byte t).length + n
    · exact .inl ⟨past_take notC t n fits, fits⟩
    · refine .inr ⟨?_, fits⟩
      simp only [Libc.field, Option.getD_some, List.length_append, List.length_drop]
      omega

/-! ## One conversion -/

/-- What stands behind the blanks is read alike by both. -/
def Code.Matched (code : Code) (w : Option Nat) (t : List Byte) : Prop :=
  match code with
  | c => w.getD 1 = 1
  | s | d | o => Within w t (Libc.past code.byte t)
  | u => Within w t (decimal t) ∧ (decimal t).head? ≠ some 46 ∧ (decimal t).head? ≠ some 101
  | x =>
    -- of `0X` both take the digit 0 if the width ends there
    if [48, 88].isPrefixOf (skipOne issign t) then
      w = some (t.length - (skipOne issign t).length + 1)
    else Within w t (Libc.past code.byte t)

instance (code : Code) (w : Option Nat) (t : List Byte) : Decidable (code.Matched w t) :=
  match code with
  | .c => inferInstanceAs (Decidable (_ = _))
  | .s | .d | .o => inferInstanceAs (Decidable (Within _ _ _))
  | .u => inferInstanceAs (Decidable (_ ∧ _))
  | .x => by unfold Code.Matched; infer_instance

theorem decimal_head (t : List Byte) : ∀ c ∈ (decimal t).head?, isdigit c = false := by
  intro c first
  have stops := List.head?_dropWhile_not isdigit (skipOne issign t)
  rw [← decimal, Option.mem_def.1 first] at stops
  exact stops

/-- A fraction begins with a point or an exponent. -/
theorem fraction_self {x : List Byte} (stop : ∀ c ∈ x.head?, isdigit c = false) :
    (fraction x).length = x.length ↔ x.head? ≠ some 46 ∧ x.head? ≠ some 101 := by
  cases x with
  | nil => simp [fraction, skipOne]
  | cons c x =>
    have digit : isdigit c = false := stop c rfl
    by_cases point : c = 46
    · subst point
      have shorter := (fraction_suffix x).length_le
      have inside : (fraction (46 :: x)).length ≤ x.length := by
        have digits := (List.dropWhile_suffix isdigit (l := x)).length_le
        unfold fraction
        simp only [skipOne, beq_self_eq_true, if_true]
        split
        · rename_i s e
          have rest := ((List.dropWhile_suffix isdigit).trans (skipOne_suffix issign s)).length_le
          rw [e, List.length_cons] at digits
          exact rest.trans (by omega)
        · exact digits
      simp only [List.length_cons, List.head?_cons, ne_eq, not_true_eq_false, false_and, iff_false]
      omega
    · have same : (skipOne (· == 46) (c :: x)).dropWhile isdigit = c :: x := by
        simp [skipOne, point, digit]
      by_cases exponent : c = 101
      · subst exponent
        have inside : (fraction (101 :: x)).length ≤ x.length := by
          rw [fraction, same]
          exact ((List.dropWhile_suffix isdigit).trans (skipOne_suffix issign x)).length_le
        simp only [List.length_cons, List.head?_cons, ne_eq, not_true_eq_false, and_false,
          iff_false]
        omega
      · have all : fraction (c :: x) = c :: x := by
          rw [fraction, same]
          split
          · rename_i e
            exact absurd (List.cons.inj e).1 exponent
          · rfl
        simp [all, point, exponent]

/-- Behind `0X`, `sscanf` takes the digits too. -/
theorem pastHex_big (y : List Byte) (n : Nat) :
    (pastHex (48 :: 88 :: y.take n) ++ y.drop n).length ≤ y.length := by
  have digits := (List.dropWhile_suffix isxdigit (l := y.take n)).length_le
  have past : pastHex (48 :: 88 :: y.take n) = (y.take n).dropWhile isxdigit := rfl
  rw [past, List.length_append, List.length_drop]
  rw [List.length_take] at digits
  omega

/-- With `0X` before the digits, `stpnxt` takes the 0. -/
theorem field_bigX (w : Option Nat) (z : Width) {t : List Byte}
    (big : [48, 88].isPrefixOf (skipOne issign t)) :
    (Libc.field w z 120 t).2 = (skipOne issign t).dropWhile isxdigit ↔
      w = some (t.length - (skipOne issign t).length + 1) := by
  obtain ⟨y, hx⟩ := List.isPrefixOf_iff_prefix.1 big
  have digit : (skipOne issign t).dropWhile isxdigit = 88 :: y := by rw [← hx]; rfl
  have longer {rest : List Byte} (le : rest.length ≤ y.length) : rest ≠ 88 :: y := by
    rintro rfl
    rw [List.length_cons] at le
    omega
  rw [digit]
  -- the number of characters before the `X`
  obtain ⟨before, rfl, one⟩ : ∃ before, t = before ++ 88 :: y ∧
      (before = [48] ∨ ∃ sign, issign sign ∧ before = [sign, 48]) := by
    cases t with
    | nil => cases big
    | cons c t =>
      by_cases sign : issign c
      · simp only [skipOne, sign, if_true] at hx
        exact ⟨[c, 48], by rw [← hx]; rfl, .inr ⟨c, sign, rfl⟩⟩
      · simp only [skipOne, sign] at hx
        exact ⟨[48], hx.symm, .inl rfl⟩
  have rest (n : Nat) : (Libc.field (some n) z 120 (before ++ 88 :: y)).2 =
      pastHex (skipOne issign ((before ++ 88 :: y).take n)) ++ (before ++ 88 :: y).drop n := rfl
  have count : (before ++ 88 :: y).length - (skipOne issign (before ++ 88 :: y)).length + 1 =
      before.length := by
    rw [← hx]
    rcases one with rfl | ⟨sign, -, rfl⟩ <;> simp
  rw [count]
  cases w with
  | none =>
    refine iff_of_false (longer ?_) (by simp)
    have all : (Libc.field none z 120 (before ++ 88 :: y)).2 =
        pastHex (skipOne issign (before ++ 88 :: y)) := by
      rcases field_rest (by decide : Code.x ≠ .c) none z (before ++ 88 :: y) with ⟨e, -⟩ | ⟨-, cut⟩
      · exact e
      · exact absurd (by simp [Within]) cut
    rw [all, ← hx]
    simpa using pastHex_big y y.length
  | some n =>
    rw [Option.some.injEq, rest]
    rcases one with rfl | ⟨sign, is, rfl⟩
    · rcases n with _ | _ | n
      · simp [skipOne, pastHex, hexPrefix]
      · simp [skipOne, pastHex, hexPrefix, issign, isxdigit, isdigit]
      · exact iff_of_false (longer (pastHex_big y n)) (by simp)
    · rcases n with _ | _ | _ | n
      · refine iff_of_false (fun same => ?_) (by simp)
        have lengths := congrArg List.length same
        simp [skipOne, pastHex, hexPrefix] at lengths
        omega
      · have left : pastHex (skipOne issign [sign]) ++ 48 :: 88 :: y = 48 :: 88 :: y := by
          simp [skipOne, pastHex, hexPrefix, is]
        refine iff_of_false (fun same => ?_) (by simp)
        simpa using congrArg List.length (left.symm.trans same)
      · simp [skipOne, pastHex, hexPrefix, is, isxdigit, isdigit]
      · refine iff_of_false (longer ?_) (by simp)
        simpa [skipOne, is] using pastHex_big y n

/-- **When the two agree on a conversion** of a word or a number. -/
theorem conv_agrees {code : Code} (notC : code ≠ .c) (w : Option Nat) (z : Width) (p : List Byte) :
    (Libc.field w z code.byte (stpblk p)).2 = code.ahead p ↔ code.Matched w (stpblk p) := by
  have rest := field_rest notC w z (stpblk p)
  have plain {past : List Byte} (same : Libc.past code.byte (stpblk p) = past) :
      (Libc.field w z code.byte (stpblk p)).2 = past ↔ Within w (stpblk p) past := by
    subst same
    rcases rest with ⟨same, fits⟩ | ⟨more, cut⟩
    · exact iff_of_true same fits
    · exact iff_of_false (fun same => by rw [same] at more; omega) cut
  cases code with
  | c => exact absurd rfl notC
  | s | d | o => exact plain rfl
  | u =>
    have shorter := (fraction_suffix (decimal (stpblk p))).length_le
    have fraction := fraction_self (decimal_head (stpblk p))
    change _ = UnixProgramming.Ssl.fraction (decimal (stpblk p)) ↔ Within _ _ _ ∧ _
    rw [← fraction]
    have past : Libc.past Code.u.byte (stpblk p) = decimal (stpblk p) := rfl
    rw [past] at rest
    rcases rest with ⟨same, fits⟩ | ⟨more, cut⟩
    · rw [same, and_iff_right fits]
      exact ⟨fun e => by rw [← e], fun e => ((fraction_suffix _).eq_of_length e).symm⟩
    · exact iff_of_false (fun e => by rw [e] at more; omega) fun h => cut h.1
  | x =>
    simp only [Code.Matched]
    split
    · rename_i big
      have small : ¬ [48, 120].isPrefixOf (skipOne issign (stpblk p)) := by
        intro small
        obtain ⟨y, hx⟩ := List.isPrefixOf_iff_prefix.1 big
        rw [← hx] at small
        cases small
      have ahead : Code.x.ahead p = (skipOne issign (stpblk p)).dropWhile isxdigit := by
        simp only [Code.ahead, if_neg small]
      rw [ahead]
      exact field_bigX w z big
    · rename_i other
      have ahead : Libc.past Code.x.byte (stpblk p) = Code.x.ahead p := by
        simp [Libc.past, Code.ahead, Code.byte, other]
      rw [← ahead]
      exact plain rfl

theorem dropWhile_shorter {test : Byte → Bool} {t : List Byte} (some' : t.takeWhile test ≠ []) :
    (t.dropWhile test).length < t.length := by
  have pos := List.length_pos_iff.2 some'
  have all := congrArg List.length (List.takeWhile_append_dropWhile (p := test) (l := t))
  rw [List.length_append] at all
  omega

theorem strtol_shorter {t : List Byte} (noBlank : stpblk t = t) {n : Int}
    (h : strtol t = some n) : (decimal t).length < t.length := by
  simp only [strtol, noBlank] at h
  split at h
  · cases h
  · rename_i digits
    exact (dropWhile_shorter (by simpa using digits)).trans_le (skipOne_suffix _ _).length_le

/-- The digits of a number behind its sign and prefix. -/
theorem strtoul_some {b : Nat} {test : Byte → Bool} {t : List Byte} (noBlank : stpblk t = t)
    {n : Nat} (h : strtoul b test t = some n) :
    (if b = 16 ∧ hexPrefix (skipOne issign t) then (skipOne issign t).drop 2
      else skipOne issign t).takeWhile test ≠ [] := by
  intro empty
  have none' : strtoul b test t = none := by
    simp only [strtoul, noBlank]
    exact if_pos (List.isEmpty_iff.2 empty)
  rw [none'] at h
  cases h

theorem scanCode_shorter {code : Code} (notC : code ≠ .c) {z : Width} {t : List Byte}
    (some' : t ≠ []) (noBlank : stpblk t = t) {arg : Arg} (h : scanCode z code.byte t = some arg) :
    (Libc.past code.byte t).length < t.length := by
  have behind := (skipOne_suffix issign t).length_le
  cases code with
  | c => exact absurd rfl notC
  | s =>
    obtain ⟨b, t, rfl⟩ := List.exists_cons_of_ne_nil some'
    refine dropWhile_shorter ?_
    have word : isspace b = false := by
      by_contra white
      rw [stpblk, List.dropWhile_cons_of_pos (by simpa using white)] at noBlank
      have := congrArg List.length noBlank
      have := (List.dropWhile_suffix isspace (l := t)).length_le
      simp at *
      omega
    simp [word]
  | d =>
    obtain ⟨n, number, -⟩ := Option.map_eq_some_iff.1 (show (strtol t).map _ = some arg from h)
    exact strtol_shorter noBlank number
  | u =>
    obtain ⟨n, number, -⟩ :=
      Option.map_eq_some_iff.1 (show (strtoul 10 isdigit t).map _ = some arg from h)
    exact (dropWhile_shorter (by simpa using strtoul_some noBlank number)).trans_le behind
  | o =>
    obtain ⟨n, number, -⟩ :=
      Option.map_eq_some_iff.1 (show (strtoul 8 isodigit t).map _ = some arg from h)
    exact (dropWhile_shorter (by simpa using strtoul_some noBlank number)).trans_le behind
  | x =>
    obtain ⟨n, number, -⟩ :=
      Option.map_eq_some_iff.1 (show (strtoul 16 isxdigit t).map _ = some arg from h)
    have digits := strtoul_some noBlank number
    simp only [true_and] at digits
    refine (dropWhile_shorter digits).trans_le (le_trans ?_ behind)
    split
    · exact (List.drop_suffix _ _).length_le
    · exact Nat.le_refl _

theorem stpblk_take {t : List Byte} (noBlank : stpblk t = t) (n : Nat) :
    stpblk (t.take n) = t.take n := by
  refine stpblk_self fun c first => ?_
  cases t with
  | nil => simp at first
  | cons b t =>
    cases n with
    | zero => simp at first
    | succ n =>
      simp only [List.take_succ_cons, List.head?_cons, Option.mem_def, Option.some.injEq] at first
      subst first
      have stops := List.head?_dropWhile_not isspace (b :: t)
      rw [← stpblk, noBlank] at stops
      exact stops

/-- What has been stored has been taken off. -/
theorem field_stored {code : Code} (notC : code ≠ .c) {w : Option Nat} (pos : ∀ n ∈ w, 0 < n)
    {z : Width} {p : List Byte} (some' : stpblk p ≠ []) {arg : Arg}
    (stored : (Libc.field w z code.byte (stpblk p)).1 = some arg) :
    (Libc.field w z code.byte (stpblk p)).2.length < (stpblk p).length := by
  have long := List.length_pos_iff.2 some'
  have width : 0 < w.getD (stpblk p).length := by
    cases w with
    | none => exact long
    | some n => exact pos n rfl
  have taken : (stpblk p).take (w.getD (stpblk p).length) ≠ [] := by
    simp only [ne_eq, List.take_eq_nil_iff, some', or_false]
    omega
  have shorter := scanCode_shorter notC taken (stpblk_take (stpblk_stpblk p) _) stored
  rw [List.length_take] at shorter
  simp only [Libc.field, List.length_append, List.length_drop]
  omega

/-! ## Formats -/

/-- `sscanf` performs all conversions of the format. -/
def Performs (s : List Byte) (items : List Directive) : Prop :=
  (Libc.scan s (fmtText items)).args.length = items.countP Directive.isConv

instance (s : List Byte) (items : List Directive) : Decidable (Performs s items) :=
  inferInstanceAs (Decidable (_ = _))

/-- `stpnxt` stops at the first character that `sscanf` does not consume. -/
def Agree (s : List Byte) (items : List Directive) : Prop :=
  stpnxt s (fmtText items) = some (Libc.scan s (fmtText items)).rest

/-- None of the rules that only `stpnxt` or only `sscanf` has comes to bear,
with `stpnxt` at `p` and, after a blank in the format, `sscanf` behind the
blanks there. -/
def Plain : Bool → List Byte → List Directive → Prop
  | blank, p, [] => blank = true → stpblk p = p
  | _, p, .blank .. :: items => Plain true p items
  | blank, p, .plain c _ :: items => (blank = true ∨ stpblk p = p) ∧
    ((stpblk p).head? = some c → Plain false (stpblk p).tail items)
  | _, p, .percent :: _ => (stpblk p).head? ≠ some 37
  | blank, p, .conv w _ code :: items => (code = .c → blank = true → stpblk p = p) ∧
    code.Matched w.value (stpblk p) ∧ Plain false (code.ahead p) items

instance decidablePlain : ∀ blank p items, Decidable (Plain blank p items)
  | _, _, [] => inferInstanceAs (Decidable (_ → _))
  | _, p, .blank .. :: items => decidablePlain true p items
  | _, p, .plain _ _ :: items =>
    have := decidablePlain false (stpblk p).tail items
    inferInstanceAs (Decidable (_ ∧ _))
  | _, _, .percent :: _ => inferInstanceAs (Decidable (_ ≠ _))
  | _, p, .conv _ _ code :: items =>
    have := decidablePlain false (code.ahead p) items
    inferInstanceAs (Decidable (_ ∧ _ ∧ _))

/-- A part of a format from its beginning: all of it, or up to a directive that
is no blank. -/
def Part (items part : List Directive) : Prop :=
  part <+: items ∧ (part = items ∨ ∃ i ∈ part.getLast?, i.isBlank = false)

theorem forall_part_cons {i : Directive} {items : List Directive} {P : List Directive → Prop} :
    (∀ part, Part (i :: items) part → P part) ↔
      (i.isBlank = false → P [i]) ∧ ∀ part, Part items part → P (i :: part) := by
  constructor
  · intro all
    refine ⟨fun solid => all [i] ⟨⟨items, rfl⟩, .inr ⟨i, rfl, solid⟩⟩, fun part ⟨prefix', last⟩ => ?_⟩
    refine all (i :: part) ⟨(List.cons_prefix_cons).2 ⟨rfl, prefix'⟩, ?_⟩
    rcases last with rfl | ⟨j, last, solid⟩
    · exact .inl rfl
    · refine .inr ⟨j, ?_, solid⟩
      rw [List.getLast?_cons, Option.mem_def.1 last]
      rfl
  · rintro ⟨one, more⟩ part ⟨prefix', last⟩
    cases part with
    | nil => rcases last with none' | ⟨_, none', _⟩ <;> cases none'
    | cons j part =>
      obtain ⟨rfl, inner⟩ := List.cons_prefix_cons.1 prefix'
      by_cases end' : part = []
      · subst end'
        rcases last with all | ⟨k, last, solid⟩
        · exact more [] ⟨inner, .inl (List.cons.inj all).2⟩
        · cases last
          exact one solid
      · refine more part ⟨inner, last.imp (fun e => (List.cons.inj e).2) ?_⟩
        rintro ⟨k, last, solid⟩
        rw [List.getLast?_cons_of_ne_nil end'] at last
        exact ⟨k, last, solid⟩

/-! ## The two on a format -/

/-- The same with `stpnxt` at `p` and `sscanf` at `q`. -/
def AgreeAt (p q : List Byte) (items : List Directive) : Prop :=
  stopsAt p items = (Libc.scan q (fmtText items)).rest

theorem performs_blank {s : List Byte} {c : Byte} {white : isspace c} {items : List Directive}
    (h : Performs s (.blank c white :: items)) : Performs (stpblk s) items := by
  rw [Performs, fmtText_cons, Directive.text, List.singleton_append, scan_blank _ _ white] at h
  simpa [Performs, Directive.isConv] using h

theorem performs_plain {d : Byte} {t : List Byte} {ordinary : isspace d = false ∧ d ≠ 37 ∧ d ≠ 0}
    {items : List Directive} (h : Performs (d :: t) (.plain d ordinary :: items)) :
    Performs t items := by
  rw [Performs, fmtText_cons, Directive.text, List.singleton_append, scan_plain _ _ ordinary] at h
  simpa [Performs, Directive.isConv] using h

/-- A conversion that is performed has a field to store. -/
theorem performs_conv {s : List Byte} {w : FieldWidth} {z : Width} {code : Code}
    {items : List Directive} (h : Performs s (.conv w z code :: items)) (notC : code ≠ .c) :
    stpblk s ≠ [] ∧ ∃ arg rest, Libc.field w.value z code.byte (stpblk s) = (some arg, rest) ∧
      Performs rest items ∧ ∀ fmt, (Libc.scan s ((Directive.conv w z code).text ++ fmt)).rest =
        (Libc.scan rest fmt).rest := by
  have one : List.countP Directive.isConv (.conv w z code :: items) =
      items.countP Directive.isConv + 1 := List.countP_cons_of_pos rfl
  rw [Performs, fmtText_cons, scan_code _ _ _ _ notC, one] at h
  simp only [scan_code _ _ _ _ notC]
  cases front : stpblk s with
  | nil => rw [front] at h; cases h
  | cons d t =>
    rw [front] at h
    refine ⟨List.cons_ne_nil _ _, ?_⟩
    rcases stored : Libc.field w.value z code.byte (d :: t) with ⟨_ | arg, rest⟩
    · simp only [stored] at h
      cases h
    · simp only [stored, Scanned.store_args, List.length_cons, Nat.add_right_cancel_iff] at h
      exact ⟨arg, rest, rfl, h, fun fmt => by simp only [stored]; rfl⟩

theorem performs_char {s : List Byte} {w : FieldWidth} {z : Width} {items : List Directive}
    (h : Performs s (.conv w z .c :: items)) : s ≠ [] ∧ w.value.getD 1 ≤ s.length ∧
      Performs (s.drop (w.value.getD 1)) items ∧
      ∀ fmt, (Libc.scan s ((Directive.conv w z .c).text ++ fmt)).rest =
        (Libc.scan (s.drop (w.value.getD 1)) fmt).rest := by
  have one : List.countP Directive.isConv (.conv w z .c :: items) =
      items.countP Directive.isConv + 1 := List.countP_cons_of_pos rfl
  rw [Performs, fmtText_cons, scan_char, one] at h
  simp only [scan_char]
  by_cases some' : s = []
  · rw [if_pos some'] at h; cases h
  rw [if_neg some'] at h
  by_cases short : s.length < w.value.getD 1
  · rw [if_pos short] at h; cases h
  rw [if_neg short] at h
  simp only [Scanned.store_args, List.length_cons, Nat.add_right_cancel_iff] at h
  exact ⟨some', by omega, h, fun fmt => by rw [if_neg some', if_neg short]; rfl⟩

/-- Blanks at the front are a first character and something to skip. -/
theorem stpblk_front {p : List Byte} (front : stpblk p ≠ p) :
    (stpblk p).length < p.length ∧ ∃ b t, p = b :: t ∧ isspace b := by
  constructor
  · by_contra long
    exact front ((stpblk_suffix p).eq_of_length_le (by omega))
  · cases p with
    | nil => exact absurd rfl front
    | cons b t =>
      refine ⟨b, t, rfl, ?_⟩
      by_contra solid
      exact front (stpblk_self (by simpa using solid))

section
variable {c : Byte} {ordinary : isspace c = false ∧ c ≠ 37 ∧ c ≠ 0}

/-- Blanks that the format does not mention are skipped by one of the two only. -/
theorem plain_front {p : List Byte} (front : stpblk p ≠ p) : ¬ AgreeAt p p [.plain c ordinary] := by
  obtain ⟨shorter, b, t, rfl, white⟩ := stpblk_front front
  have other : b ≠ c := by
    rintro rfl
    rw [ordinary.1] at white
    cases white
  have stays : (Libc.scan (b :: t) (fmtText [.plain c ordinary])).rest = b :: t := by
    rw [fmtText_cons, Directive.text, List.singleton_append, scan_plain _ _ ordinary]
    simp only [if_neg other]
  rw [AgreeAt, stays]
  intro same
  have further : (stopsAt (b :: t) [.plain c ordinary]).length ≤ (stpblk (b :: t)).length := by
    rw [stopsAt]
    cases stpblk (b :: t) with
    | nil => exact Nat.le_refl _
    | cons d u =>
      simp only [stopsAt]
      split
      · exact Nat.le_succ _
      · exact Nat.le_refl _
  rw [same] at further
  omega

theorem plain_step (p : List Byte) (part : List Directive) :
    AgreeAt p (stpblk p) (.plain c ordinary :: part) ↔
      ∀ t, stpblk p = c :: t → AgreeAt t t part := by
  rw [AgreeAt, fmtText_cons, Directive.text, List.singleton_append, scan_plain _ _ ordinary,
    stopsAt]
  cases stpblk p with
  | nil => simp
  | cons d t =>
    by_cases same : d = c
    · simp [same, AgreeAt]
    · simp [same]

end

/-- `stpnxt` does not step over the `%`. -/
theorem percent_stays {p q : List Byte} (same : stpblk q = stpblk p)
    (percent : (stpblk p).head? = some 37) : ¬ AgreeAt p q [.percent] := by
  obtain ⟨t, unread⟩ : ∃ t, stpblk p = 37 :: t := List.head?_eq_some_iff.1 percent
  have behind : (Libc.scan q (fmtText [.percent])).rest = t := by
    rw [fmtText_cons, Directive.text, List.cons_append, List.singleton_append, scan_percent, same,
      unread]
    rfl
  rw [AgreeAt, behind, stopsAt, if_neg (not_not.2 percent)]
  have shorter := (stpblk_suffix p).length_le
  rw [unread] at shorter ⊢
  rw [List.length_cons] at shorter
  intro e
  split at e
  · rw [← e] at shorter
    omega
  · simpa [stopsAt] using congrArg List.length e

theorem percent_step {p q : List Byte} (same : stpblk q = stpblk p)
    (other : (stpblk p).head? ≠ some 37) (part : List Directive) :
    AgreeAt p q (.percent :: part) := by
  rw [AgreeAt, fmtText_cons, Directive.text, List.cons_append, List.singleton_append,
    scan_percent, same, stopsAt, if_pos other]
  cases unread : stpblk p with
  | nil => rfl
  | cons d t =>
    rw [unread] at other
    simp only [if_neg (show ¬ d = 37 by simpa using other)]

theorem Code.ahead_suffix (code : Code) (p : List Byte) : code.ahead p <:+ code.start p := by
  cases code with
  | c => exact List.tail_suffix p
  | s => exact (List.dropWhile_suffix _).trans (stpblk_suffix p)
  | d => exact decimal_suffix _
  | u => exact (fraction_suffix _).trans (decimal_suffix _)
  | o => exact (List.dropWhile_suffix _).trans (skipOne_suffix _ _)
  | x =>
    refine (List.dropWhile_suffix _).trans ?_
    split
    · exact (List.drop_suffix _ _).trans (skipOne_suffix _ _)
    · exact skipOne_suffix _ _

theorem Code.stpblk_le_start (code : Code) (p : List Byte) :
    (stpblk p).length ≤ (code.start p).length := by
  cases code with
  | c | s => exact (stpblk_suffix p).length_le
  | d | u | o | x => exact Nat.le_refl _

/-- What a conversion at the end of a format comes to. -/
theorem stopsAt_conv (w : FieldWidth) (z : Width) (code : Code) (p : List Byte) :
    stopsAt p [.conv w z code] = code.ahead p := by
  rw [stopsAt]
  split
  · rename_i nothing
    exact ((code.ahead_suffix p).eq_of_length_le nothing).symm
  · rfl

/-- A conversion by which both come to the same place. -/
theorem conv_step {w : FieldWidth} {z : Width} {code : Code} {p q : List Byte}
    (less : (code.ahead p).length < (code.start p).length)
    (scan : ∀ fmt, (Libc.scan q ((Directive.conv w z code).text ++ fmt)).rest =
      (Libc.scan (code.ahead p) fmt).rest) (part : List Directive) :
    AgreeAt p q (.conv w z code :: part) ↔ AgreeAt (code.ahead p) (code.ahead p) part := by
  rw [AgreeAt, AgreeAt, fmtText_cons, scan, stopsAt, if_neg (by omega)]

/-- One character for both: no width of more, and no blank that only one skips. -/
theorem char_same {blank : Bool} {n : Nat} {p q : List Byte} (one : 1 ≤ n) (long : n ≤ q.length)
    (at' : q = if blank then stpblk p else p) :
    q.drop n = p.tail ↔ (blank = true → stpblk p = p) ∧ n = 1 := by
  have suffix : q <:+ p := by
    cases blank
    · exact at' ▸ List.suffix_refl _
    · exact at' ▸ stpblk_suffix p
  constructor
  · intro same
    have shorter := suffix.length_le
    have lengths := congrArg List.length same
    rw [List.length_drop, List.length_tail] at lengths
    obtain rfl : q = p := suffix.eq_of_length_le (by omega)
    exact ⟨fun set => by simpa [set] using at'.symm, by omega⟩
  · rintro ⟨none', rfl⟩
    obtain rfl : q = p := by
      cases blank
      · exact at'
      · exact at'.trans (none' rfl)
    exact List.drop_one

/-- **What is read for a conversion**: `sscanf` goes on at `rest`, and that is
where `stpnxt` goes if and only if they agree on the conversion. -/
theorem conv_read {blank : Bool} {p q : List Byte} {w : FieldWidth} {z : Width} {code : Code}
    {items : List Directive} (at' : q = if blank then stpblk p else p)
    (performs : Performs q (.conv w z code :: items)) : ∃ rest, Performs rest items ∧
      (∀ fmt, (Libc.scan q ((Directive.conv w z code).text ++ fmt)).rest =
        (Libc.scan rest fmt).rest) ∧
      (rest = code.ahead p ↔ (code = .c → blank = true → stpblk p = p) ∧
        code.Matched w.value (stpblk p)) ∧
      (rest = code.ahead p → rest.length < (code.start p).length) := by
  by_cases isC : code = .c
  · subst isC
    obtain ⟨some', long, performs, scan⟩ := performs_char performs
    have one : 1 ≤ w.value.getD 1 := by
      cases width : w.value with
      | none => exact Nat.le_refl _
      | some n => exact w.pos n width
    have suffix : q.length ≤ p.length := by
      rw [at']
      split
      · exact (stpblk_suffix p).length_le
      · exact Nat.le_refl _
    have pos := List.length_pos_iff.2 some'
    refine ⟨_, performs, scan, ?_, fun _ => ?_⟩
    · simpa [Code.Matched, Code.ahead] using char_same one long at'
    · rw [List.length_drop, Code.start]
      omega
  · have same : stpblk q = stpblk p := by cases blank <;> simp [at']
    obtain ⟨some', arg, rest, stored, performs, scan⟩ := performs_conv performs isC
    rw [same] at some' stored
    have agrees := conv_agrees isC w.value z p
    have shorter := field_stored (w := w.value) isC w.pos some' (congrArg Prod.fst stored)
    rw [stored] at agrees shorter
    refine ⟨rest, performs, scan, ?_, fun _ => shorter.trans_le (code.stpblk_le_start p)⟩
    rw [agrees, and_iff_right fun c => absurd c isC]

/-- The first directive that the two read differently shows at once: the rest
of the format is not needed for it. -/
theorem agreeAt_iff (items : List Directive) : ∀ (blank : Bool) (p q : List Byte),
    q = (if blank then stpblk p else p) → Performs q items →
    ((∀ part, Part items part → AgreeAt p q part) ↔ Plain blank p items) := by
  induction items with
  | nil =>
    intro blank p q at' _
    subst at'
    have only : (∀ part, Part [] part → AgreeAt p (if blank then stpblk p else p) part) ↔
        p = if blank then stpblk p else p :=
      ⟨fun all => all [] ⟨List.nil_prefix, .inl rfl⟩, fun same part ⟨prefix', _⟩ => by
        rw [List.prefix_nil.1 prefix']
        exact same⟩
    rw [only, Plain]
    cases blank <;> simp [eq_comm]
  | cons i items ih =>
    intro blank p q at' performs
    rw [forall_part_cons]
    cases i with
    | blank c white =>
      have step (part : List Directive) :
          AgreeAt p q (.blank c white :: part) ↔ AgreeAt p (stpblk q) part := by
        rw [AgreeAt, AgreeAt, fmtText_cons, Directive.text, List.singleton_append,
          scan_blank _ _ white]
        rfl
      simp only [Directive.isBlank, Bool.true_eq_false, false_imp_iff, true_and, step, Plain]
      refine ih true p (stpblk q) ?_ (performs_blank performs)
      cases blank <;> simp [at']
    | plain c ordinary =>
      simp only [Directive.isBlank, true_imp_iff, Plain]
      by_cases front : blank = true ∨ stpblk p = p
      · obtain rfl : q = stpblk p := by
          rcases front with rfl | same
          · exact at'
          · rw [at', same, ite_self]
        simp only [plain_step, front, true_and]
        have first : ∀ t, stpblk p = c :: t → AgreeAt t t [] := fun t _ => rfl
        rw [and_iff_right first]
        cases unread : stpblk p with
        | nil => simp
        | cons d t =>
          by_cases same : d = c
          · subst same
            rw [unread] at performs
            simpa using ih false t t rfl (performs_plain performs)
          · simp [same]
      · obtain ⟨ahead, front⟩ := not_or.1 front
        obtain rfl : q = p := by simpa [ahead] using at'
        exact iff_of_false (fun all => plain_front front all.1) fun h => h.1.elim ahead front
    | percent =>
      have same : stpblk q = stpblk p := by cases blank <;> simp [at']
      simp only [Directive.isBlank, true_imp_iff, Plain]
      by_cases percent : (stpblk p).head? = some 37
      · exact iff_of_false (fun all => percent_stays same percent all.1) (not_not.2 percent)
      · exact iff_of_true ⟨percent_step same percent [], fun part _ => percent_step same percent part⟩
          percent
    | conv w z code =>
      obtain ⟨rest, performs, scan, agrees, less⟩ := conv_read at' performs
      simp only [Directive.isBlank, true_imp_iff, Plain]
      rw [← and_assoc, ← agrees]
      by_cases agree : rest = code.ahead p
      · subst agree
        simp only [conv_step (less rfl) scan, true_and]
        exact (and_iff_right rfl).trans (ih false _ _ rfl performs)
      · refine iff_of_false (fun all => agree ?_) fun h => agree h.1
        have one := all.1
        rw [AgreeAt, stopsAt_conv, fmtText_cons, scan] at one
        exact one.symm

/-- **`stpnxt` agrees with `sscanf`** on a format whose conversions `sscanf`
performs, and on what the format begins with, if and only if neither has a rule
to apply that the other has not. -/
theorem stpnxt_agrees (s : List Byte) (items : List Directive) (performs : Performs s items) :
    (∀ part, Part items part → Agree s part) ↔ Plain false s items := by
  rw [← agreeAt_iff items false s s rfl performs]
  simp only [Agree, AgreeAt, stpnxt_stopsAt, Option.some.injEq]

/-- `"12 ab"` and `"%d %2s"`. -/
theorem stpnxt_agrees_word : Agree [49, 50, 32, 97, 98] [.conv .none .plain .d, .blank 32 rfl,
    .conv ⟨[50], List.all_eq_true.1 rfl, by decide⟩ .plain .s] :=
  (stpnxt_agrees [49, 50, 32, 97, 98] _ (by decide)).2 (by decide) _ ⟨List.prefix_refl _, .inl rfl⟩

/-- `"1234"` and `"%2d"`: `sscanf` stops after the second digit, `stpnxt` at the end. -/
theorem stpnxt_ignores_width :
    Performs [49, 50, 51, 52] [.conv ⟨[50], List.all_eq_true.1 rfl, by decide⟩ .plain .d] ∧
      ¬ Agree [49, 50, 51, 52] [.conv ⟨[50], List.all_eq_true.1 rfl, by decide⟩ .plain .d] := by
  refine ⟨by decide, ?_⟩
  unfold Agree
  decide

end UnixProgramming.Ssl
