import UnixProgramming.Ssl.Basic

/-!
# Scanning text

`stpblk`, `stpnxt` and the two library calls the firewall file is read with,
`fgets` and `sscanf` with a single `%d`. A pointer into a string is the rest of
the string from there on, and its NUL is the end of the list.
-/

namespace UnixProgramming.Ssl

/-! ## Characters -/

def isspace (c : Byte) : Bool := c == 32 || (9 ≤ c && c ≤ 13)
def isdigit (c : Byte) : Bool := 48 ≤ c && c ≤ 57
def isxdigit (c : Byte) : Bool := isdigit c || (97 ≤ c && c ≤ 102) || (65 ≤ c && c ≤ 70)
def isodigit (c : Byte) : Bool := 48 ≤ c && c ≤ 55
def issign (c : Byte) : Bool := c == 43 || c == 45

theorem isdigit_iff {c : Byte} : isdigit c ↔ 48 ≤ c.toNat ∧ c.toNat ≤ 57 := by
  simp [isdigit, UInt8.le_iff_toNat_le]

theorem isspace_iff {c : Byte} : isspace c ↔ c.toNat = 32 ∨ 9 ≤ c.toNat ∧ c.toNat ≤ 13 := by
  simp [isspace, UInt8.le_iff_toNat_le, ← UInt8.toNat_inj]

theorem isdigit_toDigits {n : Nat} {d : Char} (h : d ∈ Nat.toDigits 10 n) :
    isdigit (UInt8.ofNat d.toNat) := by
  have digit := Nat.isDigit_of_mem_toDigits (by decide) (by decide) h
  simp only [Char.isDigit, Bool.and_eq_true, decide_eq_true_eq, ge_iff_le,
    UInt32.le_iff_toNat_le] at digit
  have lo : 48 ≤ d.toNat := digit.1
  have hi : d.toNat ≤ 57 := digit.2
  rw [isdigit_iff, UInt8.toNat_ofNat']
  omega

theorem isdigit_not_isspace {c : Byte} (h : isdigit c) : isspace c = false := by
  have := isdigit_iff.1 h
  rw [Bool.eq_false_iff, ne_eq, isspace_iff]
  omega

theorem isdigit_not_issign {c : Byte} (h : isdigit c) : issign c = false := by
  have := isdigit_iff.1 h
  simp only [issign, Bool.or_eq_false_iff, beq_eq_false_iff_ne, ne_eq, ← UInt8.toNat_inj]
  constructor <;> simp <;> omega

/-- `if(test(*s)) ++s;` for a test that the NUL fails. -/
def skipOne (test : Byte → Bool) : List Byte → List Byte
  | [] => []
  | c :: s => if test c then s else c :: s

theorem skipOne_suffix (test : Byte → Bool) (t : List Byte) : skipOne test t <:+ t := by
  cases t with
  | nil => exact List.suffix_refl _
  | cons c t =>
    change (if test c then t else c :: t) <:+ c :: t
    split
    · exact List.suffix_cons _ _
    · exact List.suffix_refl _

def stpblk (p : List Byte) : List Byte := p.dropWhile isspace

theorem stpblk_suffix (p : List Byte) : stpblk p <:+ p := List.dropWhile_suffix _

theorem stpblk_self {p : List Byte} (h : ∀ c ∈ p.head?, isspace c = false) : stpblk p = p := by
  cases p with
  | nil => rfl
  | cons c p => rw [stpblk, List.dropWhile_cons, if_neg (by simp [h c (by simp)])]

/-! ## stpnxt -/

/-- The `-`, the digits and points, and the `l` or `h` before a code letter. -/
def skipWidth (fmt : List Byte) : List Byte :=
  let fmt := skipOne (· == 45) fmt
  let fmt := if isdigit (fmt.headD 0) then fmt.dropWhile fun c => isdigit c || c == 46 else fmt
  skipOne (fun c => c == 108 || c == 104) fmt

theorem skipWidth_suffix (l : List Byte) : skipWidth l <:+ l := by
  refine (skipOne_suffix _ _).trans ?_
  split
  · exact (List.dropWhile_suffix _).trans (skipOne_suffix _ _)
  · exact skipOne_suffix _ _

/-- What the `switch` of `stpnxt` does with a code letter. -/
inductive Turn where
  | out (s : List Byte)
  | on (s ss : List Byte)

def decimal (s : List Byte) : List Byte := (skipOne issign s).dropWhile isdigit

/-- The floating point codes go on behind the digits. -/
def fraction (s : List Byte) : List Byte :=
  let s := (skipOne (· == 46) s).dropWhile isdigit
  match s with
  | 101 :: s => (skipOne issign s).dropWhile isdigit
  | s => s

theorem decimal_suffix (t : List Byte) : decimal t <:+ t :=
  (List.dropWhile_suffix _).trans (skipOne_suffix _ _)

theorem fraction_suffix (t : List Byte) : fraction t <:+ t := by
  have digits : (skipOne (· == 46) t).dropWhile isdigit <:+ t :=
    (List.dropWhile_suffix _).trans (skipOne_suffix _ _)
  unfold fraction
  dsimp only
  split
  · rename_i e
    rw [e] at digits
    exact ((List.dropWhile_suffix _).trans (skipOne_suffix _ _)).trans
      ((List.suffix_cons _ _).trans digits)
  · exact digits

def convert (code : Byte) (s : List Byte) : Turn :=
  let t := stpblk s
  if code = 115 then .on (t.dropWhile (!isspace ·)) s       -- s
  else if code = 99 then .on s.tail s                       -- c
  else if code = 120 then                                   -- x
    let x := skipOne issign t
    let x := if [48, 120].isPrefixOf x then x.drop 2 else x
    .on (x.dropWhile isxdigit) t
  else if code = 111 then .on ((skipOne issign t).dropWhile isodigit) t   -- o
  else if code = 100 then .on (decimal t) t                 -- d
  else if code = 101 ∨ code = 102 ∨ code = 103 ∨ code = 117 then          -- e f g u
    .on (fraction (decimal t)) t
  else if code = 37 then if t.headD 0 ≠ 37 then .out t else .on t s       -- %
  else if code = 98 then .on t s                            -- b
  else .on s s

/-- The loop of `stpnxt`, for at most `turns` characters of the format. It is
`none` when `fmt` would be read behind its NUL. -/
def stpnxtLoop : Nat → List Byte → List Byte → Option (List Byte)
  | 0, s, _ => some s
  | turns + 1, s, fmt =>
    if s.isEmpty then some s else
    match fmt with
    | [] => some s
    | c :: rest =>
      if c = 37 then
        let fmt := skipWidth rest
        match convert (fmt.headD 0) s with
        | .out s => some s
        | .on s ss =>
          if s.length ≥ ss.length then some ss
          else match fmt with
            | [] => none
            | _ :: fmt => stpnxtLoop turns s fmt
      else if isspace c then stpnxtLoop turns s rest
      else match stpblk s with
        | [] => some []
        | d :: s => if d ≠ c then some (d :: s) else stpnxtLoop turns s rest

def stpnxt (s fmt : List Byte) : Option (List Byte) := stpnxtLoop (fmt.length + 1) s fmt

/-- A code letter at the end of the format is the NUL, which no `case` names. -/
theorem convert_nul (s : List Byte) : convert (([] : List Byte).headD 0) s = .on s s := rfl

theorem stpnxtLoop_code {s : List Byte} (some' : s ≠ []) (turns : Nat) (rest : List Byte) :
    stpnxtLoop (turns + 1) s (37 :: rest) =
      match convert ((skipWidth rest).headD 0) s with
      | .out s => some s
      | .on s ss =>
        if s.length ≥ ss.length then some ss
        else match skipWidth rest with
          | [] => none
          | _ :: fmt => stpnxtLoop turns s fmt := by
  rw [stpnxtLoop, if_neg (by simpa using some')]
  rfl

theorem stpnxtLoop_done (turns : Nat) (s : List Byte) : stpnxtLoop turns s [] = some s := by
  cases turns with
  | zero => rfl
  | succ turns =>
    unfold stpnxtLoop
    split <;> rfl

theorem stpnxtLoop_empty (turns : Nat) (fmt : List Byte) : stpnxtLoop turns [] fmt = some [] := by
  cases turns with
  | zero => rfl
  | succ turns => rw [stpnxtLoop.eq_def]; rfl

/-- What is left is the end of what there was. -/
def Turn.Behind (p : List Byte) : Turn → Prop
  | out s => s <:+ p
  | on s ss => s <:+ p ∧ ss <:+ p

theorem convert_behind (code : Byte) (s : List Byte) : (convert code s).Behind s := by
  have blanks := stpblk_suffix s
  have sign := (skipOne_suffix issign (stpblk s)).trans blanks
  simp only [convert]
  split
  · exact ⟨(List.dropWhile_suffix _).trans blanks, List.suffix_refl s⟩
  split
  · exact ⟨List.tail_suffix s, List.suffix_refl s⟩
  split
  · refine ⟨(List.dropWhile_suffix _).trans ?_, blanks⟩
    split
    · exact (List.drop_suffix _ _).trans sign
    · exact sign
  split
  · exact ⟨(List.dropWhile_suffix _).trans sign, blanks⟩
  split
  · exact ⟨(decimal_suffix _).trans blanks, blanks⟩
  split
  · exact ⟨(fraction_suffix _).trans ((decimal_suffix _).trans blanks), blanks⟩
  split
  · split
    · exact blanks
    · exact ⟨blanks, List.suffix_refl s⟩
  split
  · exact ⟨blanks, List.suffix_refl s⟩
  · exact ⟨List.suffix_refl s, List.suffix_refl s⟩

theorem stpnxtLoop_suffix : ∀ {turns : Nat} {s fmt t : List Byte},
    stpnxtLoop turns s fmt = some t → t <:+ s
  | 0, s, fmt, t, h => by
    cases h
    exact List.suffix_refl s
  | turns + 1, s, fmt, t, h => by
    unfold stpnxtLoop at h
    split at h
    · cases h
      exact List.suffix_refl s
    split at h
    · cases h
      exact List.suffix_refl s
    split at h
    · rename_i rest _
      have behind := convert_behind ((skipWidth rest).headD 0) s
      dsimp only at h
      split at h
      · rename_i ended
        cases h
        rw [ended] at behind
        exact behind
      · rename_i goes
        rw [goes] at behind
        split at h
        · cases h
          exact behind.2
        · split at h
          · cases h
          · exact (stpnxtLoop_suffix h).trans behind.1
    split at h
    · exact stpnxtLoop_suffix h
    split at h
    · cases h
      exact List.nil_suffix
    · rename_i d s' first
      have rest : d :: s' <:+ s := first ▸ stpblk_suffix s
      split at h
      · cases h
        exact rest
      · exact (stpnxtLoop_suffix h).trans ((List.suffix_cons d s').trans rest)

theorem stpnxt_suffix {s fmt t : List Byte} (h : stpnxt s fmt = some t) : t <:+ s :=
  stpnxtLoop_suffix h

/-- `"%d%b"` -/
def fmtDB : List Byte := [37, 100, 37, 98]

/-- Behind the first number and the blanks after it, or at the first
character that cannot begin one. -/
theorem stpnxt_fmtDB (s : List Byte) : stpnxt s fmtDB = some
    (if (decimal (stpblk s)).length ≥ (stpblk s).length then stpblk s
      else stpblk (decimal (stpblk s))) := by
  by_cases some' : s = []
  · subst some'; rfl
  have number : convert 100 s = .on (decimal (stpblk s)) (stpblk s) := rfl
  change stpnxtLoop 5 s (37 :: [100, 37, 98]) = _
  rw [stpnxtLoop_code some', show skipWidth [100, 37, 98] = [100, 37, 98] by decide]
  simp only [List.headD_cons, number]
  split
  · rfl
  · generalize decimal (stpblk s) = t
    by_cases ended : t = []
    · subst ended; rfl
    · have blanks : convert 98 t = .on (stpblk t) t := rfl
      rw [stpnxtLoop_code ended, show skipWidth [98] = [98] by decide]
      simp only [List.headD_cons, blanks, stpnxtLoop_done]
      split
      · rename_i h
        rw [stpblk, (List.dropWhile_suffix isspace (l := t)).eq_of_length_le h]
      · rfl

/-! ## The C library -/

/-- The number that `strtol` reads in base 10, if there is one. -/
def strtol (s : List Byte) : Option Int :=
  let t := stpblk s
  let digits := (skipOne issign t).takeWhile isdigit
  if digits.isEmpty then none
  else
    let n : Nat := digits.foldl (fun n c => 10 * n + (c.toNat - 48)) 0
    some (if t.headD 0 = 45 then max (-n) (-2 ^ 63) else min n (2 ^ 63 - 1))

/-- `sscanf(s,"%d",&x)`: what it stores, if it stores. -/
def sscanfD (s : List Byte) : Option Int := (strtol s).map fun n => n.bmod (2 ^ 32)

/-- `fgets` with room for `room` characters before the NUL: what it stores and
what is left of the file. -/
def fgets : Nat → List Byte → List Byte × List Byte
  | 0, file => ([], file)
  | _ + 1, [] => ([], [])
  | room + 1, c :: file =>
    if c = 10 then ([c], file)
    else ((c :: (fgets room file).1), (fgets room file).2)

theorem fgets_length (room : Nat) (file : List Byte) : (fgets room file).1.length ≤ room := by
  induction room generalizing file with
  | zero => exact Nat.zero_le _
  | succ room ih =>
    cases file with
    | nil => exact Nat.zero_le _
    | cons c file =>
      rw [fgets]
      split
      · exact Nat.succ_le_succ (Nat.zero_le _)
      · exact Nat.succ_le_succ (ih file)

theorem fgets_append (room : Nat) (file : List Byte) :
    (fgets room file).1 ++ (fgets room file).2 = file := by
  induction room generalizing file with
  | zero => rfl
  | succ room ih =>
    cases file with
    | nil => rfl
    | cons c file =>
      rw [fgets]
      split
      · rfl
      · exact congrArg (c :: ·) (ih file)

/-- A newline is the last character that is read. -/
theorem fgets_takeWhile (room : Nat) (file : List Byte) :
    (fgets room file).1 = (fgets room file).1.takeWhile (· ≠ 10) ∨
      (fgets room file).1 = (fgets room file).1.takeWhile (· ≠ 10) ++ [10] := by
  induction room generalizing file with
  | zero => exact .inl rfl
  | succ room ih =>
    cases file with
    | nil => exact .inl rfl
    | cons c file =>
      rw [fgets]
      split
      case isTrue newline =>
        subst newline
        exact .inr rfl
      case isFalse other =>
        have keeps (s : List Byte) : (c :: s).takeWhile (· ≠ 10) = c :: s.takeWhile (· ≠ 10) :=
          List.takeWhile_cons_of_pos (by simpa using other)
        dsimp only
        rw [keeps]
        rcases ih file with whole | ended
        · exact .inl (congrArg (c :: ·) whole)
        · exact .inr (congrArg (c :: ·) ended)

/-- `while(fgets(buf,BUFSIZE,fp))`: the strings in `buf`, turn by turn. -/
def fgetsAll (bufsize : Nat) : Nat → List Byte → List (List Byte)
  | 0, _ => []
  | turns + 1, file =>
    if file.isEmpty then []
    else cstr (fgets (bufsize - 1) file).1 :: fgetsAll bufsize turns (fgets (bufsize - 1) file).2

end UnixProgramming.Ssl
