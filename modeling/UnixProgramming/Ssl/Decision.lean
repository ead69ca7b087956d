import Mathlib.Data.Fin.VecNotation
import UnixProgramming.Ssl.Firewall

/-!
# What the firewall decides

* `FwLine`: a line of the firewall file as it is meant;
* `spmfwLines_text`: reading the file brings out what its lines mean;
* `firewall_decision_iff`: the decision is the one meant, unless the address of
  the PortMaster's own host has an octet of 128 or above.
-/

namespace UnixProgramming.Ssl

/-! ## The file -/

def digitsValue (digits : List Byte) : Nat :=
  digits.foldl (fun n c => 10 * n + (c.toNat - 48)) 0

/-- A number from 0 to 255 as it is written. -/
structure FwNumber where
  digits : List Byte
  some' : digits ≠ []
  digit : ∀ c ∈ digits, isdigit c
  small : digitsValue digits ≤ 255

/-- A field of a line: `*` or a number. -/
inductive FwField where
  | any
  | number (n : FwNumber)

namespace FwField

def text : FwField → List Byte
  | any => [42]
  | number n => n.digits

def Matches (b : Byte) : FwField → Prop
  | any => True
  | number n => digitsValue n.digits = b.toNat

end FwField

def Blank (s : List Byte) : Prop := ∀ c ∈ s, isspace c

instance (s : List Byte) : Decidable (Blank s) := List.decidableBAll (isspace · = true) s

theorem blank_nil : Blank [] := fun _ h => nomatch h

/-- Fields, each with the blanks behind it, which only the last can do without. -/
inductive Separated : List (FwField × List Byte) → Prop where
  | last (f gap) (blank : Blank gap) : Separated [(f, gap)]
  | cons (f gap fields) (blank : Blank gap) (some' : gap ≠ []) (more : Separated fields) :
      Separated ((f, gap) :: fields)

def fieldsText (fields : List (FwField × List Byte)) : List Byte :=
  fields.flatMap fun f => f.1.text ++ f.2

/-- A line without its newline, shorter than `BUFSIZE`: no field or six, and
perhaps a comment. -/
structure FwLine where
  lead : List Byte
  fields : List (FwField × List Byte)
  comment : Option (List Byte)
  blank : Blank lead
  six : fields = [] ∨ fields.length = 6 ∧ Separated fields
  short : (lead ++ fieldsText fields ++ (comment.map fun c => 35 :: c).getD []).length < bufsize
  oneLine : 10 ∉ lead ++ fieldsText fields ++ (comment.map fun c => 35 :: c).getD []

namespace FwLine

def text (line : FwLine) : List Byte :=
  line.lead ++ fieldsText line.fields ++ (line.comment.map fun c => 35 :: c).getD []

/-- The line is a rule and the peer has what it asks for in each place. -/
def Matches (line : FwLine) (peer : Peer) : Prop :=
  ∃ h : line.fields.length = 6, ∀ i : Fin 6, line.fields[i].1.Matches (peer i)

end FwLine

/-- The last line may lack its newline. -/
def fileText (lines : List FwLine) (last : FwLine) : List Byte :=
  lines.flatMap (fun line => line.text ++ [10]) ++ last.text

/-! ## Reading a field -/

section
variable {f : FwField} {gap rest : List Byte}

theorem stpblk_blank (h : Blank gap) : stpblk (gap ++ rest) = stpblk rest :=
  List.dropWhile_append_of_pos h

/-- What a field begins with is no blank and ends no string or line's text. -/
theorem FwField.head (f : FwField) : ∃ c s, f.text = c :: s ∧ isspace c = false := by
  cases f with
  | any => exact ⟨42, [], rfl, by decide⟩
  | number n =>
    obtain ⟨c, s, e⟩ := List.exists_cons_of_ne_nil n.some'
    exact ⟨c, s, e, isdigit_not_isspace (n.digit c (by simp [e]))⟩

theorem stpblk_field : stpblk (f.text ++ rest) = f.text ++ rest := by
  obtain ⟨c, s, e, other⟩ := f.head
  apply stpblk_self
  rw [e]
  rintro c' ⟨⟩
  exact other

/-- The digits of a number end where a blank or the end of the text is. -/
theorem FwNumber.span (n : FwNumber) (h : ∀ c ∈ rest.head?, isspace c) :
    (n.digits ++ rest).dropWhile isdigit = rest ∧
      (n.digits ++ rest).takeWhile isdigit = n.digits := by
  have stop : rest.dropWhile isdigit = rest ∧ rest.takeWhile isdigit = [] := by
    cases rest with
    | nil => exact ⟨rfl, rfl⟩
    | cons c rest =>
      have space := h c (by simp)
      have other : isdigit c = false := by
        by_contra digit
        rw [isdigit_not_isspace (by simpa using digit)] at space
        cases space
      rw [List.dropWhile_cons, List.takeWhile_cons, other]
      exact ⟨rfl, rfl⟩
  rw [List.dropWhile_append_of_pos n.digit, List.takeWhile_append_of_pos n.digit, stop.1, stop.2,
    List.append_nil]
  exact ⟨rfl, rfl⟩

theorem FwNumber.no_sign (n : FwNumber) : skipOne issign (n.digits ++ rest) = n.digits ++ rest := by
  obtain ⟨c, s, e⟩ := List.exists_cons_of_ne_nil n.some'
  have other : issign c = false := isdigit_not_issign (n.digit c (by simp [e]))
  rw [e, List.cons_append, skipOne, other]
  rfl

/-- A separator, or nothing at the end of the text. -/
theorem head_gap (blank : Blank gap) (sep : gap ≠ [] ∨ rest = []) :
    ∀ c ∈ (gap ++ rest).head?, isspace c := by
  intro c hc
  cases gap with
  | nil =>
    obtain rfl := sep.resolve_left (by simp)
    cases hc
  | cons g gap =>
    cases hc
    exact blank _ (by simp)

theorem nextField_field (blank : Blank gap) (sep : gap ≠ [] ∨ rest = [])
    (hr : stpblk rest = rest) : nextField (f.text ++ (gap ++ rest)) = rest := by
  cases f with
  | any =>
    change stpblk (gap ++ rest) = rest
    rw [stpblk_blank blank, hr]
  | number n =>
    have behind := (n.span (head_gap blank sep)).1
    have blanks : stpblk (n.digits ++ (gap ++ rest)) = n.digits ++ (gap ++ rest) :=
      stpblk_field (f := .number n)
    have pos := List.length_pos_iff.2 n.some'
    have star : n.digits.headD 0 ≠ 42 := by
      obtain ⟨c, s, e⟩ := List.exists_cons_of_ne_nil n.some'
      have digit := n.digit c (by simp [e])
      rw [e, List.headD_cons]
      rintro rfl
      exact absurd digit (by decide)
    have next : nextField (n.digits ++ (gap ++ rest)) =
        (stpnxt (n.digits ++ (gap ++ rest)) fmtDB).getD [] := by
      obtain ⟨c, s, e⟩ := List.exists_cons_of_ne_nil n.some'
      rw [e] at star ⊢
      rw [nextField]
      rintro b same
      cases same
      exact star rfl
    change nextField (n.digits ++ (gap ++ rest)) = rest
    rw [next, stpnxt_fmtDB, blanks, decimal, n.no_sign, behind, if_neg]
    · rw [Option.getD_some, stpblk_blank blank, hr]
    · simp only [List.length_append]
      omega

/-- What the entry of a line holds for the field. -/
def FwField.datum : FwField → Int
  | any => -1
  | number n => digitsValue n.digits

theorem fieldData_field (junk : Int) (blank : Blank gap) (sep : gap ≠ [] ∨ rest = []) :
    fieldData junk (f.text ++ (gap ++ rest)) = f.datum := by
  cases f with
  | any => rfl
  | number n =>
    have digits := (n.span (head_gap blank sep)).2
    have blanks : stpblk (n.digits ++ (gap ++ rest)) = n.digits ++ (gap ++ rest) :=
      stpblk_field (f := .number n)
    obtain ⟨c, s, e⟩ := List.exists_cons_of_ne_nil n.some'
    have digit := n.digit c (by simp [e])
    have head : (n.digits ++ (gap ++ rest)).headD 0 = c := by rw [e]; rfl
    have star : c ≠ 42 := by rintro rfl; exact absurd digit (by decide)
    have minus : c ≠ 45 := by rintro rfl; exact absurd digit (by decide)
    have small := n.small
    change fieldData junk (n.digits ++ (gap ++ rest)) = (digitsValue n.digits : Int)
    rw [fieldData, head, if_neg star, sscanfD, strtol]
    simp only [blanks, n.no_sign, digits]
    rw [if_neg (by simp [n.some']), head, if_neg minus]
    have low : min (digitsValue n.digits : Int) (2 ^ 63 - 1) = digitsValue n.digits := by omega
    refine (congrArg (Int.bmod · (2 ^ 32)) low).trans ?_
    rw [Int.bmod_def]
    omega

end

/-! ## Reading a line -/

theorem fieldAt_succ (b : List Byte) (i : Nat) : fieldAt b (i + 1) = fieldAt (nextField b) i := by
  induction i with
  | zero => rfl
  | succ i ih => rw [fieldAt, ih, fieldAt]

/-- The first field is where the blanks end. -/
theorem Separated.start {fields : List (FwField × List Byte)} (h : Separated fields)
    (nl : List Byte) : ∃ c s, fieldsText fields ++ nl = c :: s ∧ isspace c = false := by
  have first (f : FwField) (tail : List Byte) : ∃ c s, f.text ++ tail = c :: s ∧
      isspace c = false := by
    obtain ⟨c, s, e, other⟩ := f.head
    exact ⟨c, s ++ tail, by rw [e, List.cons_append], other⟩
  cases h with
  | last f gap => simpa [fieldsText] using first f (gap ++ nl)
  | cons f gap fields => simpa [fieldsText] using first f (gap ++ (fieldsText fields ++ nl))

theorem Separated.fieldData {fields : List (FwField × List Byte)} (h : Separated fields)
    {nl : List Byte} (blank : Blank nl) (junk : Int) :
    ∀ i (hi : i < fields.length),
      fieldData junk (fieldAt (fieldsText fields ++ nl) i) = fields[i].1.datum := by
  induction h with
  | last f gap hgap =>
    intro i hi
    obtain rfl : i = 0 := by simpa using hi
    have gaps : Blank (gap ++ nl) := by
      intro c hc
      exact (List.mem_append.1 hc).elim (hgap c) (blank c)
    have text : fieldsText [(f, gap)] ++ nl = f.text ++ (gap ++ nl ++ []) := by simp [fieldsText]
    rw [text]
    exact fieldData_field junk gaps (.inr rfl)
  | @cons f gap fields hgap some' more ih =>
    intro i hi
    have text : fieldsText ((f, gap) :: fields) ++ nl =
        f.text ++ (gap ++ (fieldsText fields ++ nl)) := by simp [fieldsText]
    rw [text]
    cases i with
    | zero => exact fieldData_field junk hgap (.inl some')
    | succ i =>
      obtain ⟨c, s, e, other⟩ := more.start nl
      have start : stpblk (fieldsText fields ++ nl) = fieldsText fields ++ nl := by
        apply stpblk_self
        rw [e]
        rintro _ ⟨⟩
        exact other
      rw [fieldAt_succ, nextField_field hgap (.inl some') start]
      exact ih i (by simpa using hi)

/-- No byte of a field or of the blanks is a NUL or begins a comment. -/
theorem plain_byte {c : Byte} (h : isspace c ∨ isdigit c ∨ c = 42) : c ≠ 0 ∧ c ≠ 35 := by
  constructor
  · rintro rfl
    exact absurd h (by decide)
  · rintro rfl
    exact absurd h (by decide)

theorem Separated.plain {fields : List (FwField × List Byte)} (h : Separated fields) :
    ∀ c ∈ fieldsText fields, c ≠ 0 ∧ c ≠ 35 := by
  have field (f : FwField) : ∀ c ∈ f.text, c ≠ 0 ∧ c ≠ 35 := by
    intro c hc
    apply plain_byte
    cases f with
    | any => exact .inr (.inr (by simpa [FwField.text] using hc))
    | number n => exact .inr (.inl (n.digit c hc))
  induction h with
  | last f gap hgap =>
    intro c hc
    have hc : c ∈ f.text ∨ c ∈ gap := by simpa [fieldsText] using hc
    exact hc.elim (field f c) fun m => plain_byte (.inl (hgap c m))
  | cons f gap fields hgap _ _ ih =>
    intro c hc
    have hc : c ∈ f.text ∨ c ∈ gap ∨ c ∈ fieldsText fields := by simpa [fieldsText] using hc
    rcases hc with m | m | m
    · exact field f c m
    · exact plain_byte (.inl (hgap c m))
    · exact ih c m

namespace FwLine

variable (line : FwLine)

/-- The entry that a line is meant to make. -/
def entry : Option SpmFWData :=
  if h : line.fields.length = 6 then some fun i => line.fields[i].1.datum else none

theorem plain : ∀ c ∈ line.lead ++ fieldsText line.fields, c ≠ 0 ∧ c ≠ 35 := by
  intro c hc
  rcases List.mem_append.1 hc with m | m
  · exact plain_byte (.inl (line.blank c m))
  · rcases line.six with none' | ⟨-, sep⟩
    · rw [none'] at m
      cases m
    · exact sep.plain c m

/-- What a string that holds the line has before its comment. -/
theorem uncomment {nl : List Byte} (blank : Blank nl) : ∃ nl', Blank nl' ∧
    (cstr (line.text ++ nl)).takeWhile (· ≠ 35) = line.lead ++ fieldsText line.fields ++ nl' := by
  have plain := line.plain
  have body (tail : List Byte) :
      (cstr (line.lead ++ fieldsText line.fields ++ tail)).takeWhile (· ≠ 35) =
        line.lead ++ fieldsText line.fields ++ (cstr tail).takeWhile (· ≠ 35) := by
    rw [cstr_append fun m => (plain 0 m).1 rfl, List.takeWhile_append_of_pos]
    intro c hc
    simpa using (plain c hc).2
  unfold text
  cases line.comment with
  | none =>
    refine ⟨(cstr nl).takeWhile (· ≠ 35), ?_, ?_⟩
    · intro c hc
      exact blank c (List.takeWhile_subset _ (List.takeWhile_subset _ hc))
    · rw [Option.map_none, Option.getD_none, List.append_nil, body]
  | some c =>
    refine ⟨[], by simp [Blank], ?_⟩
    rw [Option.map_some, Option.getD_some, List.append_assoc, body]
    congr 1

/-- **A string that holds a line makes the entry that is meant**, whatever the
entry's memory held before. -/
theorem spmfwLine_text (junk : SpmFWData) {nl : List Byte} (blank : Blank nl) :
    spmfwLine junk (cstr (line.text ++ nl)) = line.entry := by
  obtain ⟨nl', blank', cut⟩ := line.uncomment blank
  rw [spmfwLine, cut, List.append_assoc, stpblk_blank line.blank]
  rcases line.six with none' | ⟨six, sep⟩
  · have nothing : stpblk (fieldsText line.fields ++ nl') = [] := by
      have blanks : stpblk (nl' ++ []) = stpblk [] := stpblk_blank blank'
      rw [List.append_nil] at blanks
      rw [none']
      exact blanks
    rw [nothing, entry, dif_neg (by simp [none'])]
    rfl
  · obtain ⟨c, s, e, other⟩ := sep.start nl'
    have start : stpblk (fieldsText line.fields ++ nl') = fieldsText line.fields ++ nl' := by
      apply stpblk_self
      rw [e]
      rintro _ ⟨⟩
      exact other
    rw [start, if_neg (by simp [e]), entry, dif_pos six]
    congr 1
    funext i
    exact sep.fieldData blank' (junk i) i (by omega)

end FwLine

/-! ## Reading the file -/

theorem fgets_line {room : Nat} {s : List Byte} (h : 10 ∉ s) (short : s.length < room)
    (rest : List Byte) : fgets room (s ++ 10 :: rest) = (s ++ [10], rest) := by
  induction s generalizing room with
  | nil =>
    obtain ⟨room, rfl⟩ := Nat.exists_eq_succ_of_ne_zero (by omega : room ≠ 0)
    rfl
  | cons c s ih =>
    obtain ⟨room, rfl⟩ := Nat.exists_eq_succ_of_ne_zero (by omega : room ≠ 0)
    simp only [List.mem_cons, not_or] at h
    have tail := ih h.2 (by simpa using short)
    rw [List.cons_append, fgets, if_neg (Ne.symm h.1), tail]
    rfl

/-- Without a newline in reach: what fits, and the rest. -/
theorem fgets_full {s : List Byte} (h : 10 ∉ s) (rest : List Byte) :
    fgets s.length (s ++ rest) = (s, rest) := by
  induction s with
  | nil => rfl
  | cons c s ih =>
    simp only [List.mem_cons, not_or] at h
    rw [List.cons_append, List.length_cons, fgets, if_neg (Ne.symm h.1), ih h.2]

theorem fgets_last {room : Nat} {s : List Byte} (h : 10 ∉ s) (short : s.length ≤ room) :
    fgets room s = (s, []) := by
  induction s generalizing room with
  | nil => cases room <;> rfl
  | cons c s ih =>
    obtain ⟨room, rfl⟩ := Nat.exists_eq_succ_of_ne_zero (by simp at short; omega : room ≠ 0)
    simp only [List.mem_cons, not_or] at h
    rw [fgets, if_neg (Ne.symm h.1), ih h.2 (by simpa using short)]

theorem spmfwLines_cons (junk : Nat → SpmFWData) (buf : List Byte) (bufs : List (List Byte)) :
    spmfwLines junk (buf :: bufs) =
      (spmfwLine (junk 0) buf).toList ++ spmfwLines (fun n => junk (n + 1)) bufs := by
  rw [spmfwLines, List.zipIdx_cons, List.filterMap_cons, spmfwLines, List.zipIdx_succ,
    List.filterMap_map]
  cases spmfwLine (junk 0) buf <;> rfl

theorem fgetsAll_step {turns : Nat} {file : List Byte} (some' : file ≠ []) :
    fgetsAll bufsize (turns + 1) file = cstr (fgets (bufsize - 1) file).1 ::
      fgetsAll bufsize turns (fgets (bufsize - 1) file).2 := by
  rw [fgetsAll, if_neg (by simpa using some')]

theorem fgetsAll_nil (turns : Nat) : fgetsAll bufsize turns [] = [] := by
  cases turns <;> rfl

/-- **The file's entries are those that its lines are meant to make.** -/
theorem spmfwLines_text (last : FwLine) (lines : List FwLine) :
    ∀ (junk : Nat → SpmFWData) {turns : Nat}, (fileText lines last).length ≤ turns →
      spmfwLines junk (fgetsAll bufsize turns (fileText lines last)) =
        (lines ++ [last]).filterMap FwLine.entry := by
  induction lines with
  | nil =>
    intro junk turns enough
    change spmfwLines junk (fgetsAll bufsize turns last.text) = _
    by_cases empty : last.text = []
    · have none' : last.entry = none := by
        have same := last.spmfwLine_text (junk 0) blank_nil
        rw [empty] at same
        exact same.symm
      rw [empty, fgetsAll_nil, List.nil_append, List.filterMap_cons, none']
      rfl
    · obtain ⟨turns, rfl⟩ : ∃ n, turns = n + 1 := by
        have pos := List.length_pos_iff.2 empty
        change last.text.length ≤ turns at enough
        exact ⟨turns - 1, by omega⟩
      have oneLine : 10 ∉ last.text := last.oneLine
      have short : last.text.length ≤ bufsize - 1 := Nat.le_sub_one_of_lt last.short
      have line := last.spmfwLine_text (junk 0) blank_nil
      rw [List.append_nil] at line
      rw [fgetsAll_step empty, fgets_last oneLine short, fgetsAll_nil, spmfwLines_cons, line,
        List.nil_append, List.filterMap_cons]
      cases last.entry <;> rfl
  | cons line lines ih =>
    intro junk turns enough
    have text : fileText (line :: lines) last = line.text ++ 10 :: fileText lines last := by
      simp [fileText]
    rw [text] at enough ⊢
    have some' : line.text ++ 10 :: fileText lines last ≠ [] := by simp
    rw [List.length_append, List.length_cons] at enough
    obtain ⟨turns, rfl⟩ : ∃ n, turns = n + 1 := ⟨turns - 1, by omega⟩
    have oneLine : 10 ∉ line.text := line.oneLine
    rw [fgetsAll_step some', List.cons_append, List.filterMap_cons]
    rcases Nat.lt_or_eq_of_le (Nat.le_sub_one_of_lt line.short) with short | full
    · have nl : Blank [10] := by simp [Blank, isspace]
      have entry := line.spmfwLine_text (junk 0) nl
      rw [fgets_line oneLine short, spmfwLines_cons, entry, ih _ (by omega)]
      cases line.entry <;> rfl
    · -- the newline makes a string of its own, which is blank
      have full : line.text.length = bufsize - 1 := full
      have entry := line.spmfwLine_text (junk 0) blank_nil
      rw [List.append_nil] at entry
      have first : fgets (bufsize - 1) (line.text ++ 10 :: fileText lines last) =
          (line.text, 10 :: fileText lines last) := full ▸ fgets_full oneLine _
      have big : 2 ≤ line.text.length := by rw [full]; decide
      obtain ⟨turns, rfl⟩ : ∃ n, turns = n + 1 := ⟨turns - 1, by omega⟩
      have second : fgets (bufsize - 1) (10 :: fileText lines last) = ([10], fileText lines last) :=
        fgets_line (s := []) (by simp) (by decide) _
      rw [first, spmfwLines_cons, entry, fgetsAll_step (by simp), second, spmfwLines_cons,
        ih _ (by omega)]
      cases line.entry <;> rfl

/-! ## The decision -/

/-- The four octets of the peer's address. -/
def address (peer : Peer) : Fin 4 → Byte := fun i => peer (i.addNat 2)

/-- What the search of `firewall` asks of an entry. -/
def EntryMatches (peer : Peer) (data : SpmFWData) : Prop :=
  ∀ i, data i = -1 ∨ data i = firewallDatum (peer i)

theorem FwField.matches_iff (f : FwField) (b : Byte) :
    f.datum = -1 ∨ f.datum = firewallDatum b ↔ f.Matches b := by
  rw [firewallDatum_eq]
  cases f with
  | any => exact iff_of_true (.inl rfl) trivial
  | number n =>
    change (digitsValue n.digits : Int) = -1 ∨ (digitsValue n.digits : Int) = b.toNat ↔
      digitsValue n.digits = b.toNat
    omega

theorem FwLine.entry_matches (line : FwLine) (peer : Peer) :
    (∃ data ∈ line.entry, EntryMatches peer data) ↔ line.Matches peer := by
  unfold entry Matches
  by_cases six : line.fields.length = 6
  · simp only [six, dite_true, Option.mem_def, Option.some.injEq, exists_eq_left', exists_true_left]
    exact forall_congr' fun i => (line.fields[i].1).matches_iff (peer i)
  · simp [six]

/-- An octet of the PortMaster's own host: one that is negative as a `char` is
no octet of any peer's, and 255 is the star. -/
theorem octet_matches (a b : Byte) :
    (signedHostaddr a.toInt8).toInt = -1 ∨ (signedHostaddr a.toInt8).toInt = firewallDatum b ↔
      a = 255 ∨ a.toNat < 128 ∧ b = a := by
  have ha := a.toNat_lt
  have hb := b.toNat_lt
  have value : (signedHostaddr a.toInt8).toInt = char a := by rw [signedHostaddr_eq, char]
  rw [value, char_eq, firewallDatum_eq, ← UInt8.toNat_inj, ← UInt8.toNat_inj,
    show (255 : Byte).toNat = 255 from rfl]
  split <;> omega

theorem hostEntry_matches (addr : Fin 4 → Byte) (peer : Peer) :
    EntryMatches peer (hostEntry fun i => signedHostaddr (addr i).toInt8) ↔
      ∀ i, addr i = 255 ∨ (addr i).toNat < 128 ∧ address peer i = addr i := by
  constructor
  · intro h i
    rw [← octet_matches]
    exact h (i.addNat 2)
  · intro h i
    match i with
    | 0 => exact .inl rfl
    | 1 => exact .inl rfl
    | ⟨i + 2, hi⟩ => exact (octet_matches _ _).2 (h ⟨i, by omega⟩)

section
variable {sys : System} {dashF : Option (List Byte)} {fwfile : List Byte} {lines : List FwLine}
  {last : FwLine}

/-- What lets a peer in: a line of the file, or the entry of the host. -/
theorem firewall_accepts_iff (chosen : firewallFile sys (dashF.getD []) = some fwfile)
    (file : sys.files fwfile = some (fileText lines last)) (room : 0 < sys.limit)
    (addr : Fin 4 → Byte) (peer : Peer) :
    firewall (firewallStart sys (some addr) dashF) (some peer) = false ↔
      (∃ line ∈ lines ++ [last], line.Matches peer) ∨
        ∀ i, addr i = 255 ∨ (addr i).toNat < 128 ∧ address peer i = addr i := by
  have entries : (firewallStart sys (some addr) dashF).spmfw =
      ((lines ++ [last]).filterMap FwLine.entry).reverse ++
        [hostEntry fun i => signedHostaddr (addr i).toInt8] := by
    have text : firewallText sys (dashF.getD []) 0 = some (fileText lines last) := by
      rw [firewallText, chosen, Option.bind_some, if_pos room, file]
    rw [← spmfwLines_text last lines sys.junk (Nat.le_refl _), firewallStart, firewallInit, text]
  have accepts : firewall (firewallStart sys (some addr) dashF) (some peer) = false ↔
      ∃ data ∈ (firewallStart sys (some addr) dashF).spmfw, EntryMatches peer data := by
    rw [firewall, if_neg (by simp [entries])]
    simp [EntryMatches]
  rw [accepts, entries, ← hostEntry_matches]
  constructor
  · rintro ⟨data, m, fits⟩
    rcases List.mem_append.1 m with m | m
    · obtain ⟨line, hl, he⟩ := List.mem_filterMap.1 (List.mem_reverse.1 m)
      exact .inl ⟨line, hl, (line.entry_matches peer).1 ⟨data, he, fits⟩⟩
    · rw [List.mem_singleton.1 m] at fits
      exact .inr fits
  · rintro (⟨line, hl, fits⟩ | fits)
    · obtain ⟨data, he, fits⟩ := (line.entry_matches peer).2 fits
      refine ⟨data, ?_, fits⟩
      exact List.mem_append_left _ (List.mem_reverse.2 (List.mem_filterMap.2 ⟨line, hl, he⟩))
    · exact ⟨_, List.mem_append_right _ (List.mem_singleton_self _), fits⟩

/-- No octet of the host's address decides wrongly about this peer: the host
itself has none from 128 to 254, and any other peer differs from it in one that
can be told apart. -/
def HostRead (addr : Fin 4 → Byte) (peer : Peer) : Prop :=
  (address peer = addr → ∀ i, (addr i).toNat < 128 ∨ addr i = 255) ∧
    (address peer ≠ addr → ∃ i, addr i ≠ 255 ∧ (128 ≤ (addr i).toNat ∨ address peer i ≠ addr i))

/-- **The firewall lets in the peers that a line or the host's own address
stands for, and no others,** exactly when a line stands for the peer or no octet
of the host's address is taken for a star or for no octet at all. -/
theorem firewall_decision_iff (chosen : firewallFile sys (dashF.getD []) = some fwfile)
    (file : sys.files fwfile = some (fileText lines last)) (room : 0 < sys.limit)
    (addr : Fin 4 → Byte) (peer : Peer) :
    (firewall (firewallStart sys (some addr) dashF) (some peer) = false ↔
      (∃ line ∈ lines ++ [last], line.Matches peer) ∨ address peer = addr) ↔
    (∃ line ∈ lines ++ [last], line.Matches peer) ∨ HostRead addr peer := by
  rw [firewall_accepts_iff chosen file room]
  by_cases line : ∃ line ∈ lines ++ [last], line.Matches peer
  · exact iff_of_true (iff_of_true (.inl line) (.inl line)) (.inl line)
  rw [or_iff_right line, or_iff_right line, or_iff_right line, HostRead]
  by_cases own : address peer = addr
  · rw [imp_iff_right own, and_iff_left fun other => absurd own other, iff_true_intro own, iff_true]
    apply forall_congr' fun i => ?_
    rw [iff_true_intro (congrFun own i), and_true]
    exact or_comm
  · rw [imp_iff_right own, and_iff_right fun same => absurd same own, iff_false_intro own,
      iff_false, not_forall]
    apply exists_congr fun i => ?_
    rw [not_or, not_and_or, Nat.not_lt]

end

/-- `* * 10 0 0 7` -/
def sampleLine : FwLine where
  lead := []
  fields := [(.any, [32]), (.any, [32]),
    (.number ⟨[49, 48], by decide, by simp [isdigit], by decide⟩, [32]),
    (.number ⟨[48], by decide, by simp [isdigit], by decide⟩, [32]),
    (.number ⟨[48], by decide, by simp [isdigit], by decide⟩, [32]),
    (.number ⟨[55], by decide, by simp [isdigit], by decide⟩, [])]
  comment := none
  blank := by decide
  six := .inr ⟨rfl, .cons _ _ _ (by decide) (by decide) <| .cons _ _ _ (by decide) (by decide) <|
    .cons _ _ _ (by decide) (by decide) <| .cons _ _ _ (by decide) (by decide) <|
    .cons _ _ _ (by decide) (by decide) <| .last _ _ (by decide)⟩
  short := by decide
  oneLine := by decide

/-- Every file there is holds that line, and `SPMFIREWALL` names one. -/
def sampleSystem : System where
  spmfirewall := some [102]
  files := fun _ => some (fileText [] sampleLine)
  limit := 256
  junk := fun _ _ => 0

/-- The host 192.168.1.2. -/
def sampleHost : Fin 4 → Byte := ![192, 168, 1, 2]

/-- A program on that host. -/
def samplePeer : Peer := ![4, 0, 192, 168, 1, 2]

theorem firewall_decision_sample :
    (firewall (firewallStart sampleSystem (some sampleHost) none) (some samplePeer) = false ↔
      (∃ line ∈ [] ++ [sampleLine], line.Matches samplePeer) ∨ address samplePeer = sampleHost) ↔
    (∃ line ∈ [] ++ [sampleLine], line.Matches samplePeer) ∨ HostRead sampleHost samplePeer := by
  have chosen : firewallFile sampleSystem ((none : Option (List Byte)).getD []) = some [102] := rfl
  exact firewall_decision_iff chosen rfl (by decide) sampleHost samplePeer

/-- The host itself is kept out: its 192 and 168 are negative as a `char`. -/
theorem own_host_rejected :
    ¬ (firewall (firewallStart sampleSystem (some sampleHost) none) (some samplePeer) = false ↔
      (∃ line ∈ [] ++ [sampleLine], line.Matches samplePeer) ∨
        address samplePeer = sampleHost) := by
  intro h
  have own : address samplePeer = sampleHost := funext (by decide)
  exact absurd (h.2 (.inr own)) (by decide)

end UnixProgramming.Ssl
