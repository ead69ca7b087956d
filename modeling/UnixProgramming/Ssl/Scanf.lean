import UnixProgramming.Ssl.Formats

/-!
# sscanf

`sscanf` with field widths, `%c`, `%%` and any number of conversions, and
formats as the directives they are made of.

* `scan_conv`: on a single conversion without a width it is `Libc.sscanf`;
* `scan_blank`, `scan_plain`, `scan_percent`, `scan_code`: one directive.
-/

namespace UnixProgramming.Ssl

@[simp] theorem stpblk_stpblk (p : List Byte) : stpblk (stpblk p) = stpblk p := by
  refine stpblk_self fun c first => ?_
  have stops := List.head?_dropWhile_not isspace p
  rw [← stpblk, Option.mem_def.1 first] at stops
  exact stops

/-! ## The C library -/

/-- Why `sscanf` comes to an end: with its format, at a character that does not
match, or at the end of the input. -/
inductive Halt where
  | done
  | mismatch
  | exhausted
  deriving DecidableEq, Repr

/-- What `sscanf` has stored, why it has ended, and what it has not consumed. -/
structure Scanned where
  args : List Arg
  halt : Halt
  rest : List Byte
  deriving DecidableEq, Repr

namespace Scanned

/-- The value that `sscanf` returns: `EOF` if the input ends before anything is
stored or does not match. -/
def result (r : Scanned) : Int :=
  if r.args = [] ∧ r.halt = .exhausted then -1 else r.args.length

def store (r : Scanned) (arg : Arg) : Scanned := { r with args := arg :: r.args }

@[simp] theorem store_args (r : Scanned) (arg : Arg) : (r.store arg).args = arg :: r.args := rfl
@[simp] theorem store_rest (r : Scanned) (arg : Arg) : (r.store arg).rest = r.rest := rfl

end Scanned

namespace Libc

/-- What is behind the characters that a conversion of words or numbers takes. -/
def past (code : Byte) (t : List Byte) : List Byte :=
  if code = 115 then t.dropWhile (!isspace ·)
  else if code = 111 then (skipOne issign t).dropWhile isodigit
  else if code = 120 then
    let x := skipOne issign t
    (if [48, 120].isPrefixOf x ∨ [48, 88].isPrefixOf x then x.drop 2 else x).dropWhile isxdigit
  else decimal t

/-- A directive behind its blanks, with the field width: what it stores, if it
stores, and what it leaves. -/
def field (w : Option Nat) (z : Width) (code : Byte) (t : List Byte) : Option Arg × List Byte :=
  let n := w.getD t.length
  (scanCode z code (t.take n), past code (t.take n) ++ t.drop n)

/-- `sscanf`, between two directives or, with what it has read of it, inside one. -/
def scanFrom : Option (Option Nat × Width) → List Byte → List Byte → Scanned
  | _, [], s => ⟨[], .done, s⟩
  | none, c :: fmt, s =>
    if isspace c then scanFrom none fmt (stpblk s)
    else if c = 37 then scanFrom (some (none, .plain)) fmt s
    else match s with
      | [] => ⟨[], .exhausted, []⟩
      | d :: t => if d = c then scanFrom none fmt t else ⟨[], .mismatch, d :: t⟩
  | some (w, z), c :: fmt, s =>
    if isdigit c then scanFrom (some (some (10 * w.getD 0 + (c.toNat - 48)), z)) fmt s
    else if c = 104 then scanFrom (some (w, .short)) fmt s
    else if c = 108 then scanFrom (some (w, .long)) fmt s
    -- as many characters as the width says, blanks among them
    else if c = 99 then
      if s = [] then ⟨[], .exhausted, []⟩
      else if s.length < w.getD 1 then ⟨[], .mismatch, []⟩
      else (scanFrom none fmt (s.drop (w.getD 1))).store (.str (s.take (w.getD 1)))
    else match stpblk s with
      | [] => ⟨[], .exhausted, []⟩
      | d :: t =>
        if c = 37 then if d = 37 then scanFrom none fmt t else ⟨[], .mismatch, d :: t⟩
        else match field w z c (d :: t) with
          | (none, rest) => ⟨[], .mismatch, rest⟩
          | (some arg, rest) => (scanFrom none fmt rest).store arg

def scan (s fmt : List Byte) : Scanned := scanFrom none fmt s

end Libc

/-! ## Directives -/

/-- The number that digits behind those of `w` make. -/
def widthValue (w : Option Nat) (digits : List Byte) : Option Nat :=
  digits.foldl (fun w c => some (10 * w.getD 0 + (c.toNat - 48))) w

/-- The digits of a field width, none if there is no width. -/
structure FieldWidth where
  digits : List Byte
  all : ∀ c ∈ digits, isdigit c
  pos : ∀ n ∈ widthValue none digits, 0 < n

/-- The width as a number. -/
def FieldWidth.value (w : FieldWidth) : Option Nat := widthValue none w.digits

def FieldWidth.none : FieldWidth := ⟨[], by simp, by simp [widthValue]⟩

def Width.text : Width → List Byte
  | plain => []
  | short => [104]
  | long => [108]

inductive Code where
  | c
  | s
  | d
  | u
  | x
  | o
  deriving DecidableEq, Repr

def Code.byte : Code → Byte
  | c => 99
  | s => 115
  | d => 100
  | u => 117
  | x => 120
  | o => 111

/-- A directive of a format: white space, an ordinary character, `%%`, or a
conversion. -/
inductive Directive where
  | blank (c : Byte) (white : isspace c)
  | plain (c : Byte) (ordinary : isspace c = false ∧ c ≠ 37 ∧ c ≠ 0)
  | percent
  | conv (w : FieldWidth) (z : Width) (code : Code)

namespace Directive

def text : Directive → List Byte
  | blank c _ => [c]
  | plain c _ => [c]
  | percent => [37, 37]
  | conv w z code => 37 :: (w.digits ++ (z.text ++ [code.byte]))

def isConv : Directive → Bool
  | conv .. => true
  | _ => false

def isBlank : Directive → Bool
  | blank .. => true
  | _ => false

end Directive

/-- A format as its directives spell it. -/
def fmtText (items : List Directive) : List Byte := items.flatMap Directive.text

@[simp] theorem fmtText_nil : fmtText [] = [] := rfl
@[simp] theorem fmtText_cons (i : Directive) (items : List Directive) :
    fmtText (i :: items) = i.text ++ fmtText items := rfl

/-! ## One directive -/

section
variable (s : List Byte)

variable (fmt : List Byte)

theorem scan_blank {c : Byte} (white : isspace c) :
    Libc.scan s (c :: fmt) = Libc.scan (stpblk s) fmt := by
  rw [Libc.scan, Libc.scanFrom.eq_def]
  simp only [if_pos white]
  rfl

theorem scan_plain {c : Byte} (ordinary : isspace c = false ∧ c ≠ 37 ∧ c ≠ 0) :
    Libc.scan s (c :: fmt) = match s with
      | [] => ⟨[], .exhausted, []⟩
      | d :: t => if d = c then Libc.scan t fmt else ⟨[], .mismatch, d :: t⟩ := by
  rw [Libc.scan, Libc.scanFrom.eq_def]
  simp only [ordinary.1, Bool.false_eq_true, if_false, if_neg ordinary.2.1]
  rfl

theorem scan_percent : Libc.scan s (37 :: 37 :: fmt) = match stpblk s with
      | [] => ⟨[], .exhausted, []⟩
      | d :: t => if d = 37 then Libc.scan t fmt else ⟨[], .mismatch, d :: t⟩ := rfl

theorem scanFrom_digits (w : Option Nat) {digits : List Byte} (all : ∀ c ∈ digits, isdigit c) :
    Libc.scanFrom (some (w, .plain)) (digits ++ fmt) s =
      Libc.scanFrom (some (widthValue w digits, .plain)) fmt s := by
  induction digits generalizing w with
  | nil => rfl
  | cons c digits ih =>
    rw [List.cons_append, Libc.scanFrom.eq_def]
    simp only [if_pos (all c List.mem_cons_self)]
    exact ih _ fun d hd => all d (.tail _ hd)

theorem scanFrom_width (w : Option Nat) (z : Width) :
    Libc.scanFrom (some (w, .plain)) (z.text ++ fmt) s = Libc.scanFrom (some (w, z)) fmt s := by
  cases z <;> rfl

/-- A conversion: its width and size are read, then its code letter. -/
theorem scan_conv_text (w : FieldWidth) (z : Width) (code : Code) :
    Libc.scan s ((Directive.conv w z code).text ++ fmt) =
      Libc.scanFrom (some (w.value, z)) (code.byte :: fmt) s := by
  have spelled : (Directive.conv w z code).text ++ fmt =
      37 :: (w.digits ++ (z.text ++ (code.byte :: fmt))) := by simp [Directive.text]
  rw [spelled, FieldWidth.value, ← scanFrom_width, ← scanFrom_digits _ _ _ w.all]
  rfl

theorem scan_char (w : FieldWidth) (z : Width) :
    Libc.scan s ((Directive.conv w z .c).text ++ fmt) =
      if s = [] then ⟨[], .exhausted, []⟩
      else if s.length < w.value.getD 1 then ⟨[], .mismatch, []⟩
      else (Libc.scan (s.drop (w.value.getD 1)) fmt).store (.str (s.take (w.value.getD 1))) := by
  rw [scan_conv_text]
  rfl

theorem scan_code (w : FieldWidth) (z : Width) {code : Code} (notC : code ≠ .c) :
    Libc.scan s ((Directive.conv w z code).text ++ fmt) = match stpblk s with
      | [] => ⟨[], .exhausted, []⟩
      | d :: t => match Libc.field w.value z code.byte (d :: t) with
        | (none, rest) => ⟨[], .mismatch, rest⟩
        | (some arg, rest) => (Libc.scan rest fmt).store arg := by
  rw [scan_conv_text]
  cases code with
  | c => exact absurd rfl notC
  | s | d | u | x | o => rfl

end

/-! ## A single conversion without a width -/

theorem scanCode_stpblk (z : Width) (code : Byte) (s : List Byte) :
    scanCode z code (stpblk s) = scanCode z code s := by
  simp only [scanCode, strtol, strtoul, stpblk_stpblk]

/-- Where both are defined, `Libc.sscanf` is this `sscanf`. -/
theorem scan_conv {lead : List Byte} (hl : Lead lead) (c : Conv) (s : List Byte) :
    Libc.sscanf s (lead ++ c.text) = ((Libc.scan s (lead ++ c.text)).result,
      (Libc.scan s (lead ++ c.text)).args.head?) := by
  have conv (s : List Byte) : Libc.sscanf s c.text =
      ((Libc.scan s c.text).result, (Libc.scan s c.text).args.head?) := by
    obtain ⟨code, notC, letter, text⟩ : ∃ code : Code, code ≠ .c ∧ c.code = code.byte ∧
        c.text = (Directive.conv .none c.width code).text ++ [] := by
      rcases c with z | z | z | z | _
      · exact ⟨.d, by decide, rfl, by cases z <;> rfl⟩
      · exact ⟨.u, by decide, rfl, by cases z <;> rfl⟩
      · exact ⟨.o, by decide, rfl, by cases z <;> rfl⟩
      · exact ⟨.x, by decide, rfl, by cases z <;> rfl⟩
      · exact ⟨.s, by decide, rfl, rfl⟩
    have old : Libc.sscanf s c.text = Libc.sscanfFrom (some c.width) [c.code] s := by
      rcases c with z | z | z | z | _ <;> first | rfl | (cases z <;> rfl)
    have notH : code.byte ≠ 104 := by cases code <;> decide
    have notL : code.byte ≠ 108 := by cases code <;> decide
    rw [old, letter, Libc.sscanfFrom, if_neg notH, if_neg notL, text,
      scan_code s [] .none c.width notC, ← scanCode_stpblk]
    cases stpblk s with
    | nil => rfl
    | cons d t =>
      have whole : Libc.field FieldWidth.none.value c.width code.byte (d :: t) =
          (scanCode c.width code.byte (d :: t), Libc.past code.byte (d :: t)) := by
        simp [Libc.field, FieldWidth.none, FieldWidth.value, widthValue]
      simp only [whole, List.isEmpty_cons, Bool.false_eq_true, if_false]
      cases scanCode c.width code.byte (d :: t) <;> rfl
  rcases hl with rfl | rfl
  · exact conv s
  · change Libc.sscanf (stpblk s) c.text = _
    rw [List.singleton_append, scan_blank _ _ (by decide)]
    exact conv _

end UnixProgramming.Ssl
