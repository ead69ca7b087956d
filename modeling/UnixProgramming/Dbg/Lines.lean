import UnixProgramming.Dbg.Database
import UnixProgramming.Dbg.Words

/-!
# Lines of the command language

`CmdLine` is a line in its written form with all its optional parts, and the
functions of `initdbg3` are taken one by one to see what they leave of it.

* `CmdLine.left`: what the options leave over in front of the prerequisites;
* `readDetail_line`, `parseColons_line`: where the options leave the pointer;
* `readLine_line`: the command that is made of any line.
-/

namespace UnixProgramming.Dbg

open Ssl (Byte stpblk stpnxt isspace isdigit sscanfD)
open Heap (DList)

/-! ## What is written -/

inductive Mode where
  | on
  | ondis
  | keep
  deriving DecidableEq

def Mode.chars : Mode → List Byte
  | on => text "on"
  | ondis => text "ondis"
  | keep => text "keep"

def Mode.status : Mode → Status
  | on => .on
  | ondis => .ondis
  | keep => .keep

/-- Neither a blank nor what begins a comment. -/
def inName (c : Byte) : Bool := !isspace c && c != 35

/-- A function name begins with a letter, `_` or `$`. -/
structure Name where
  chars : List Byte
  first : isalpha (chars.headD 0) ∨ chars.headD 0 = 95 ∨ chars.headD 0 = 36
  inner : chars.all inName

/-- What may stand in front of the name of a prerequisite. -/
inductive Mark where
  | plain
  | bang
  | plus
  deriving DecidableEq

def Mark.chars : Mark → List Byte
  | plain => []
  | bang => text "!"
  | plus => text "+"

/-- A prerequisite. -/
structure Token where
  mark : Mark
  name : Name

def Token.chars (t : Token) : List Byte := t.mark.chars ++ t.name.chars

structure Filename where
  chars : List Byte
  some' : chars ≠ []
  inner : chars.all inName

/-- `{on|ondis|keep} funcname [*] [detail] [:nodfl] [:dtst1 [:dtst2]]
[prerequisites] [>file]` -/
structure CmdLine where
  mode : Mode
  funcname : Name
  star : Bool
  detail : Option Digits
  nodfl : Bool
  dtsts : Option (Digits × Option Digits)
  preqs : List Token
  file : Option Filename

namespace CmdLine

def starWords (l : CmdLine) : List (List Byte) := if l.star then [text "*"] else []

def detailWords (l : CmdLine) : List (List Byte) := l.detail.toList.map Digits.chars

def nodflWords (l : CmdLine) : List (List Byte) := if l.nodfl then [text ":nodfl"] else []

def dtstWords (l : CmdLine) : List (List Byte) :=
  match l.dtsts with
  | none => []
  | some (dtst1, dtst2) => (dtst1 :: dtst2.toList).map fun n => 58 :: n.chars

def preqWords (l : CmdLine) : List (List Byte) := l.preqs.map Token.chars

def fileWords (l : CmdLine) : List (List Byte) := l.file.toList.map fun f => 62 :: f.chars

def behindDetail (l : CmdLine) : List (List Byte) :=
  l.nodflWords ++ (l.dtstWords ++ (l.preqWords ++ l.fileWords))

def behindStar (l : CmdLine) : List (List Byte) := l.detailWords ++ l.behindDetail

def words (l : CmdLine) : List (List Byte) :=
  l.mode.chars :: l.funcname.chars :: (l.starWords ++ l.behindStar)

/-- The line in a buffer, between any blanks and perhaps with a comment. -/
def Written (l : CmdLine) (buf : List Byte) : Prop :=
  ∃ lead body trail comment, buf = lead ++ (body ++ (trail ++ comment)) ∧ Blanks lead ∧
    Spaced l.words body ∧ (∀ c ∈ trail, isspace c ∧ c ≠ 12) ∧ ∀ c ∈ comment.head?, c = 35

/-- What is read into `modebuf` or `fnamebuf` of a line that is read as written. -/
def names (l : CmdLine) : List (List Byte) :=
  l.funcname.chars :: (l.preqWords ++ l.file.toList.map Filename.chars)

/-- Each name fits into `modebuf` and `fnamebuf`. -/
def Fits (l : CmdLine) : Prop := ∀ w ∈ l.names, w.length < DBGBUF

instance (l : CmdLine) : Decidable l.Fits := inferInstanceAs (Decidable (∀ w ∈ l.names, _))

/-! ## What is read -/

/-- Nothing follows the `*`, and so no blank either. -/
def bare (l : CmdLine) : Bool := l.star && l.behindStar.isEmpty

/-- The detail level that is read. -/
def detailInt (l : CmdLine) : Int :=
  if l.mode = .keep then 0
  else
    match l.detail with
    | some n => n.int
    | none => if !l.bare && l.behindDetail.isEmpty then 0 else 1

/-- What there is to read behind the detail level. -/
def unread (l : CmdLine) : List (List Byte) :=
  if l.bare then [text "*"] else if l.mode = .keep then l.behindStar else l.behindDetail

/-- What is left over in front of the prerequisites and taken for some: a `*`
that nothing follows, the detail level of a `keep` with all that begins with `:`,
or the `fl` of `:nodfl` with what comes behind it. -/
def left (l : CmdLine) : List (List Byte) :=
  if l.bare then [text "*"]
  else if l.mode = .keep ∧ l.detail.isSome then l.detailWords ++ (l.nodflWords ++ l.dtstWords)
  else if l.nodfl then text "fl" :: l.dtstWords
  else []

/-- All that is read into `modebuf` or `fnamebuf` fits, what is left over included. -/
def Inside (l : CmdLine) : Prop := l.Fits ∧ ∀ w ∈ l.left, w.length < DBGBUF

instance (l : CmdLine) : Decidable l.Inside := inferInstanceAs (Decidable (_ ∧ _))

end CmdLine

/-- What is read of the number behind a `:`. -/
def Digits.dtst (n : Digits) : Int := if n.int < 0 then DBG_DTSTOFF else n.int

/-- What the numbers and flags behind `:` change. -/
def CmdLine.coloned (l : CmdLine) (d : DBGCMD) : DBGCMD :=
  if l.bare ∨ l.mode = .keep ∧ l.detail.isSome then d
  else if l.nodfl then { d with dbgdfl := false }
  else
    match l.dtsts with
    | none => d
    | some (dtst1, none) => { d with dtst1 := dtst1.dtst }
    | some (dtst1, some dtst2) => { d with dtst1 := dtst1.dtst, dtst2 := dtst2.dtst }

/-! ## The first characters of words -/

theorem isalpha_iff {c : Byte} : isalpha c ↔
    65 ≤ c.toNat ∧ c.toNat ≤ 90 ∨ 97 ≤ c.toNat ∧ c.toNat ≤ 122 := by
  simp [isalpha, UInt8.le_iff_toNat_le]

/-- What all words begin with begins the text, if there is any. -/
theorem Spaced.first {P : Byte → Prop} {ws : List (List Byte)} {b : List Byte} (h : Spaced ws b)
    (all : ∀ w ∈ ws, ∃ c ∈ w.head?, P c) : ∀ c ∈ b.head?, P c := by
  intro c hc
  cases ws with
  | nil =>
    rw [h.eq_nil_iff.2 rfl] at hc
    cases hc
  | cons w ws =>
    obtain ⟨c', hc', holds⟩ := all w List.mem_cons_self
    rw [h.head?] at hc
    cases Option.mem_unique hc hc'
    exact holds

namespace CmdLine

variable {l : CmdLine} {w : List Byte}

theorem detailWords_head (h : w ∈ l.detailWords) : ∃ c ∈ w.head?, isdigit c := by
  obtain ⟨n, -, rfl⟩ := List.mem_map.1 h
  obtain ⟨c, s, e⟩ := List.exists_cons_of_ne_nil n.some'
  exact ⟨c, by rw [e]; rfl, n.forall_mem c (by simp [e])⟩

theorem nodflWords_head (h : w ∈ l.nodflWords) : w.head? = some 58 := by
  unfold nodflWords at h
  split at h
  · rw [List.mem_singleton.1 h]
    rfl
  · cases h

theorem dtstWords_head (h : w ∈ l.dtstWords) : w.head? = some 58 := by
  unfold dtstWords at h
  split at h
  · cases h
  · obtain ⟨n, -, rfl⟩ := List.mem_map.1 h
    rfl

theorem fileWords_head (h : w ∈ l.fileWords) : w.head? = some 62 := by
  obtain ⟨f, -, rfl⟩ := List.mem_map.1 h
  rfl

/-- What a prerequisite begins with begins nothing else. -/
theorem preqWords_head (h : w ∈ l.preqWords) : ∃ c ∈ w.head?,
    isalpha c ∨ c = 95 ∨ c = 36 ∨ c = 33 ∨ c = 43 := by
  obtain ⟨⟨mark, name⟩, -, rfl⟩ := List.mem_map.1 h
  cases mark with
  | bang => exact ⟨33, rfl, by decide⟩
  | plus => exact ⟨43, rfl, by decide⟩
  | plain =>
    have first := name.first
    rw [Token.chars, Mark.chars, List.nil_append]
    rcases chars : name.chars with _ | ⟨c, s⟩
    · rw [chars] at first
      exact absurd first (by decide)
    · rw [chars, List.headD_cons] at first
      refine ⟨c, rfl, ?_⟩
      tauto

theorem preqWords_other (h : w ∈ l.preqWords) : ∃ c ∈ w.head?,
    ¬ isdigit c ∧ c ≠ 42 ∧ c ≠ 58 ∧ c ≠ 62 := by
  obtain ⟨c, hc, first⟩ := preqWords_head h
  refine ⟨c, hc, ?_⟩
  simp only [isalpha_iff, Ssl.isdigit_iff, ne_eq, ← UInt8.toNat_inj, UInt8.reduceToNat] at first ⊢
  omega

theorem behindDetail_other (h : w ∈ l.behindDetail) : ∃ c ∈ w.head?, ¬ isdigit c ∧ c ≠ 42 := by
  simp only [behindDetail, List.mem_append] at h
  obtain h | h | h | h := h
  · exact ⟨58, nodflWords_head h, by decide⟩
  · exact ⟨58, dtstWords_head h, by decide⟩
  · obtain ⟨c, hc, digit, star, -⟩ := preqWords_other h
    exact ⟨c, hc, digit, star⟩
  · exact ⟨62, fileWords_head h, by decide⟩

theorem behindStar_other (h : w ∈ l.behindStar) : ∃ c ∈ w.head?, c ≠ 42 := by
  obtain h | h := List.mem_append.1 h
  · obtain ⟨c, hc, digit⟩ := detailWords_head h
    refine ⟨c, hc, ?_⟩
    rintro rfl
    exact absurd digit (by decide)
  · obtain ⟨c, hc, -, star⟩ := behindDetail_other h
    exact ⟨c, hc, star⟩

theorem endWords_other (h : w ∈ l.preqWords ++ l.fileWords) : ∃ c ∈ w.head?, c ≠ 58 := by
  obtain h | h := List.mem_append.1 h
  · obtain ⟨c, hc, -, -, colon, -⟩ := preqWords_other h
    exact ⟨c, hc, colon⟩
  · exact ⟨62, fileWords_head h, by decide⟩

end CmdLine

/-! ## The options, one by one -/

section
variable {l : CmdLine} {b : List Byte} {ws : List (List Byte)}

theorem skipStar_line (h : Spaced (l.starWords ++ l.behindStar) b) (d : DBGCMD) :
    ∃ b', Spaced (if l.bare then [text "*"] else l.behindStar) b' ∧
      skipStar d b = (if l.star ∧ ¬ l.bare then { d with inherit := false } else d, b') := by
  unfold skipStar
  by_cases star : l.star
  · rw [CmdLine.starWords, if_pos star] at h
    cases h with
    | @cons _ gap b' _ word blank between rest =>
      by_cases last : l.behindStar = []
      · -- there is nothing behind the `*`
        have bare : l.bare := by simp [CmdLine.bare, star, last]
        have none' : b' = [] := rest.eq_nil_iff.2 last
        rw [if_pos bare, between.2 last, none', if_neg (by decide),
          if_neg (by simp [bare])]
        exact ⟨_, .cons word blanks_nil (by simp) .nil, rfl⟩
      · have more : ¬ l.bare := by simp [CmdLine.bare, last]
        obtain ⟨c, gap', rfl⟩ := List.exists_cons_of_ne_nil (mt between.1 last)
        have space := blank c List.mem_cons_self
        have blanks : Blanks gap' := fun c hc => blank c (.tail _ hc)
        refine ⟨b', ?_, ?_⟩
        · rwa [if_neg more]
        · rw [if_pos ⟨rfl, space⟩, if_pos ⟨star, more⟩]
          exact congrArg _ (rest.stpblk_eq blanks)
  · rw [CmdLine.starWords, if_neg star, List.nil_append] at h
    have other := h.first fun w hw => CmdLine.behindStar_other hw
    have more : ¬ l.bare := by simp [CmdLine.bare, star]
    refine ⟨b, by rwa [if_neg more], ?_⟩
    rw [if_neg fun both => other 42 both.1 rfl, if_neg (by simp [star])]

theorem readDetail_number {d : DBGCMD} (active : d.status = .on ∨ d.status = .ondis) {n : Digits}
    (h : Spaced (n.chars :: ws) b) : ∃ b', Spaced ws b' ∧ readDetail d b =
      if n.int < 0 then .error (.negativeDetail d.funcname n.int)
      else .ok ({ d with detail := n.int }, b') := by
  obtain ⟨number, b', behind, rest⟩ := h.number
  obtain ⟨c, s, e, digit⟩ := n.head []
  rw [List.append_nil] at e
  have head : b.head? = some c := by
    rw [h.head?, e]
    rfl
  have some' : b ≠ [] := by
    rintro rfl
    cases head
  have first : isdigit (b.headD 0) := by rwa [List.headD_eq_head?_getD, head]
  refine ⟨b', rest, ?_⟩
  rw [readDetail, if_pos ⟨some', active⟩]
  simp only [first, if_true, number, behind, Option.getD_some]

theorem readDetail_other {d : DBGCMD} (active : d.status = .on ∨ d.status = .ondis)
    (some' : b ≠ []) (other : ∀ c ∈ b.head?, ¬ isdigit c) :
    readDetail d b = .ok ({ d with detail := 1 }, b) := by
  obtain ⟨c, s, rfl⟩ := List.exists_cons_of_ne_nil some'
  have first : ¬ isdigit c := other c rfl
  rw [readDetail, if_pos ⟨some', active⟩]
  simp only [List.headD_cons, first]
  rfl

theorem readDetail_line (h : Spaced (if l.bare then [text "*"] else l.behindStar) b) {d : DBGCMD}
    (status : d.status = l.mode.status) (detail : d.detail = 0) :
    ∃ b', Spaced l.unread b' ∧ readDetail d b =
      if l.detailInt < 0 then .error (.negativeDetail d.funcname l.detailInt)
      else .ok ({ d with detail := l.detailInt }, b') := by
  unfold CmdLine.unread CmdLine.detailInt
  by_cases keep : l.mode = .keep
  · have passive : ¬ (d.status = .on ∨ d.status = .ondis) := by rw [status, keep]; decide
    refine ⟨b, by simpa only [keep, if_true] using h, ?_⟩
    rw [if_pos keep, if_neg (by decide), readDetail, if_neg fun both => passive both.2, ← detail]
  have active : d.status = .on ∨ d.status = .ondis := by
    rw [status]
    cases mode : l.mode with
    | on => exact .inl rfl
    | ondis => exact .inr rfl
    | keep => exact absurd mode keep
  simp only [keep, if_false]
  by_cases bare : l.bare
  · have none' : l.detail = none := by
      simp only [CmdLine.bare, CmdLine.behindStar, CmdLine.detailWords, Bool.and_eq_true,
        List.isEmpty_iff, List.append_eq_nil_iff] at bare
      simpa using bare.2.1
    rw [if_pos bare] at h ⊢
    have head := h.head?
    have some' : b ≠ [] := by
      rintro rfl
      cases head
    refine ⟨b, h, ?_⟩
    rw [readDetail_other active some' (by rw [head]; rintro c ⟨⟩; decide), none']
    simp [bare]
  rw [if_neg bare] at h ⊢
  rw [CmdLine.behindStar, CmdLine.detailWords] at h
  cases written : l.detail with
  | some n =>
    rw [written] at h
    exact readDetail_number active h
  | none =>
    rw [written] at h
    refine ⟨b, h, ?_⟩
    by_cases ended : l.behindDetail = []
    · have none' : b = [] := h.eq_nil_iff.2 ended
      simp only [bare, ended, Bool.not_false, List.isEmpty_nil, Bool.and_self, if_true]
      rw [if_neg (by decide), readDetail, if_neg fun both => both.1 none', ← detail]
    · have some' : b ≠ [] := mt h.eq_nil_iff.1 ended
      have other := h.first fun w hw => CmdLine.behindDetail_other hw
      rw [readDetail_other active some' fun c hc => (other c hc).1]
      simp [ended]

theorem parseDtst_line {n : Digits} (h : Spaced ((58 :: n.chars) :: ws) b) (dtst : Int) :
    ∃ b', Spaced ws b' ∧ b.head? = some 58 ∧ parseDtst b.tail dtst = (n.dtst, b') := by
  obtain ⟨t, rfl, number⟩ := Spaced.cut (u := [58]) h n.some'
  obtain ⟨stored, b', behind, rest⟩ := number.number
  have blanks := number.stpblk_eq blanks_nil
  refine ⟨b', rest, rfl, ?_⟩
  change parseDtst t dtst = _
  unfold parseDtst
  rw [List.nil_append] at blanks
  simp only [blanks, stored, behind, Option.getD_some]
  rfl

/-- A number is not `nodfl`. -/
theorem no_nodfl {n : Digits} (h : Spaced ((58 :: n.chars) :: ws) b) :
    ¬ (text "nodfl").isPrefixOf (stpblk b.tail) := by
  obtain ⟨t, rfl, number⟩ := Spaced.cut (u := [58]) h n.some'
  have blanks := number.stpblk_eq blanks_nil
  have head := number.head?
  obtain ⟨c, s, e, digit⟩ := n.head []
  rw [List.nil_append] at blanks
  rw [List.append_nil] at e
  rw [e] at head
  change ¬ (text "nodfl").isPrefixOf (stpblk t)
  rw [blanks, List.isPrefixOf_iff_prefix]
  rintro ⟨more, rfl⟩
  cases head
  exact absurd digit (by decide)

theorem readDtsts_other {d : DBGCMD} (other : b.head? ≠ some 58) : readDtsts d b = (d, b) := by
  rw [readDtsts, if_neg other]

theorem parseColons_other {d : DBGCMD} (other : b.head? ≠ some 58) : parseColons d b = (d, b) := by
  rw [parseColons_eq, if_neg fun both => other both.1, readDtsts_other other]

/-- Of `:nodfl` only five characters are passed. -/
theorem parseColons_nodfl (h : Spaced (text ":nodfl" :: ws) b) (d : DBGCMD) :
    ∃ b', Spaced (text "fl" :: ws) b' ∧ parseColons d b = ({ d with dbgdfl := false }, b') := by
  obtain ⟨t, rfl, nodfl⟩ := Spaced.cut (u := text ":") (v := text "nodfl") h (by decide)
  have blanks := nodfl.stpblk_eq blanks_nil
  rw [List.nil_append] at blanks
  obtain ⟨b', rfl, fl⟩ := Spaced.cut (u := text "nod") (v := text "fl") nodfl (by decide)
  have blanks' := fl.stpblk_eq blanks_nil
  rw [List.nil_append] at blanks'
  have seen : (text "nodfl").isPrefixOf (text "nod" ++ b') := by
    cases fl with
    | cons => rfl
  refine ⟨b', fl, ?_⟩
  change parseColons d (58 :: (text "nod" ++ b')) = _
  rw [parseColons_eq, List.tail_cons, blanks, if_pos ⟨rfl, seen⟩]
  change readDtsts _ (stpblk b') = _
  rw [blanks', readDtsts_other]
  rw [fl.head?]
  decide

theorem readDtsts_line (h : Spaced (l.dtstWords ++ (l.preqWords ++ l.fileWords)) b)
    (d : DBGCMD) : ∃ b', Spaced (l.preqWords ++ l.fileWords) b' ∧ parseColons d b =
      (match l.dtsts with
        | none => d
        | some (dtst1, none) => { d with dtst1 := dtst1.dtst }
        | some (dtst1, some dtst2) => { d with dtst1 := dtst1.dtst, dtst2 := dtst2.dtst }, b') := by
  have ended {b : List Byte} (h : Spaced (l.preqWords ++ l.fileWords) b) : b.head? ≠ some 58 :=
    fun head => h.first (fun w hw => CmdLine.endWords_other hw) 58 head rfl
  rw [CmdLine.dtstWords] at h
  rcases dtsts : l.dtsts with _ | ⟨n, m⟩
  · rw [dtsts] at h
    exact ⟨b, h, parseColons_other (ended h)⟩
  rw [dtsts] at h
  obtain ⟨b₁, rest, colon, first⟩ := parseDtst_line h d.dtst1
  rw [parseColons_eq, if_neg fun both => no_nodfl h both.2, readDtsts, if_pos colon, first]
  cases m with
  | none =>
    refine ⟨b₁, rest, ?_⟩
    simp only [ended rest, if_false]
  | some m =>
    obtain ⟨b₂, rest', colon', second⟩ := parseDtst_line rest d.dtst2
    refine ⟨b₂, rest', ?_⟩
    simp only [colon', if_true, second]

theorem parseColons_line (h : Spaced l.unread b) (d : DBGCMD) :
    ∃ b', Spaced (l.left ++ (l.preqWords ++ l.fileWords)) b' ∧
      parseColons d b = (l.coloned d, b') := by
  unfold CmdLine.unread at h
  unfold CmdLine.left CmdLine.coloned
  by_cases bare : l.bare
  · have ended : l.preqWords ++ l.fileWords = [] := by
      simp only [CmdLine.bare, CmdLine.behindStar, CmdLine.behindDetail, Bool.and_eq_true,
        List.isEmpty_iff, List.append_eq_nil_iff] at bare
      simp [bare.2.2.2.2]
    rw [if_pos bare] at h
    rw [if_pos bare, if_pos (.inl bare), ended]
    refine ⟨b, h, parseColons_other ?_⟩
    rw [h.head?]
    decide
  rw [if_neg bare] at h
  rw [if_neg bare]
  by_cases unasked : l.mode = .keep ∧ l.detail.isSome
  · -- the detail level of a `keep` stays where it is
    rw [if_pos unasked.1, CmdLine.behindStar, CmdLine.behindDetail] at h
    rw [if_pos unasked, if_pos (.inr unasked)]
    refine ⟨b, by simpa using h, parseColons_other ?_⟩
    obtain ⟨n, written⟩ := Option.isSome_iff_exists.1 unasked.2
    obtain ⟨c, s, e, digit⟩ := n.head []
    rw [CmdLine.detailWords, written] at h
    rw [List.append_nil] at e
    rw [h.head?, e]
    rintro ⟨⟩
    exact absurd digit (by decide)
  rw [if_neg unasked, if_neg (not_or.2 ⟨bare, unasked⟩)]
  have options : Spaced (l.nodflWords ++ (l.dtstWords ++ (l.preqWords ++ l.fileWords))) b := by
    by_cases keep : l.mode = .keep
    · have none' : l.detail = none := by simpa [keep] using unasked
      rwa [if_pos keep, CmdLine.behindStar, CmdLine.detailWords, none'] at h
    · rwa [if_neg keep] at h
  by_cases nodfl : l.nodfl
  · rw [CmdLine.nodflWords, if_pos nodfl] at options
    rw [if_pos nodfl, if_pos nodfl]
    exact parseColons_nodfl options d
  · rw [CmdLine.nodflWords, if_neg nodfl] at options
    rw [if_neg nodfl, if_neg nodfl]
    exact readDtsts_line options d

end

/-! ## Prerequisites and output -/

/-- The words in front of the output file are counted, and those that pass the
check are stored. -/
theorem parsePreqs_line {ws ends : List (List Byte)} (inside : ∀ w ∈ ws, w.length < DBGBUF)
    (name : ∀ w ∈ ws, w.head? ≠ some 62) (file : ∀ w ∈ ends, w.head? = some 62) {turns : Nat}
    (room : ws.length < turns) {b : List Byte} (h : Spaced (ws ++ ends) b) (d : DBGCMD)
    (modebuf : List Byte) (s : State) :
    ∃ b' modebuf' s', Spaced ends b' ∧ parsePreqs turns d b modebuf s =
      .ok ({ d with npreq := d.npreq + ws.length
                    preqs := (ws.filterMap preqOf).foldl DList.append d.preqs },
        b', modebuf', s') := by
  induction ws generalizing turns b d modebuf s with
  | nil =>
    obtain ⟨turns, rfl⟩ := Nat.exists_eq_succ_of_ne_zero (Nat.ne_of_gt room)
    refine ⟨b, modebuf, s, h, ?_⟩
    have ended : b = [] ∨ b.head? = some 62 := by
      cases ends with
      | nil => exact .inl (h.eq_nil_iff.2 rfl)
      | cons w ends => exact .inr (h.head?.trans (file w List.mem_cons_self))
    rw [parsePreqs_succ, if_pos ended]
    rfl
  | cons w ws ih =>
    obtain ⟨turns, rfl⟩ := Nat.exists_eq_succ_of_ne_zero (Nat.ne_of_gt (Nat.zero_lt_of_lt room))
    obtain ⟨next, skipped, rest⟩ := h.next
    have read := h.sscanfS_eq blanks_nil
    have short := inside w List.mem_cons_self
    have more : ¬ (b = [] ∨ b.head? = some 62) := by
      rw [h.head?, h.eq_nil_iff]
      exact not_or.2 ⟨List.cons_ne_nil _ _, name w List.mem_cons_self⟩
    have ih := @ih (fun w hw => inside w (.tail _ hw)) (fun w hw => name w (.tail _ hw)) turns
      (Nat.lt_of_succ_lt_succ room) next rest
    rw [List.nil_append] at read
    rw [parsePreqs_succ, if_neg more]
    simp only [read, skipped, Option.getD_some]
    rw [if_neg (by omega)]
    cases preq : preqOf w with
    | none =>
      obtain ⟨b', modebuf', s', rest', parsed⟩ :=
        ih { d with npreq := d.npreq + 1 } w (s.warn (.badPrerequisite w))
      refine ⟨b', modebuf', s', rest', parsed.trans ?_⟩
      rw [List.filterMap_cons_none preq, List.length_cons, Nat.add_assoc, Nat.add_comm 1]
    | some p =>
      obtain ⟨b', modebuf', s', rest', parsed⟩ :=
        ih { d with npreq := d.npreq + 1, preqs := d.preqs.append p }
          (if isalpha (w.headD 0) then w.take (FUNCBUF - 1) else w.take FUNCBUF) s
      refine ⟨b', modebuf', s', rest', parsed.trans ?_⟩
      rw [List.filterMap_cons_some preq, List.length_cons, Nat.add_assoc, Nat.add_comm 1]
      rfl

/-- A word that is too long is stored behind `modebuf`. -/
theorem parsePreqs_outside {ws ends : List (List Byte)} (long : ∃ w ∈ ws, DBGBUF ≤ w.length)
    (name : ∀ w ∈ ws, w.head? ≠ some 62) {turns : Nat} (room : ws.length < turns)
    {b : List Byte} (h : Spaced (ws ++ ends) b) (d : DBGCMD) (modebuf : List Byte) (s : State) :
    parsePreqs turns d b modebuf s = .error .outside := by
  induction ws generalizing turns b d modebuf s with
  | nil =>
    obtain ⟨w, none', -⟩ := long
    cases none'
  | cons w ws ih =>
    obtain ⟨turns, rfl⟩ := Nat.exists_eq_succ_of_ne_zero (Nat.ne_of_gt (Nat.zero_lt_of_lt room))
    obtain ⟨next, skipped, rest⟩ := h.next
    have read := h.sscanfS_eq blanks_nil
    have more : ¬ (b = [] ∨ b.head? = some 62) := by
      rw [h.head?, h.eq_nil_iff]
      exact not_or.2 ⟨List.cons_ne_nil _ _, name w List.mem_cons_self⟩
    rw [List.nil_append] at read
    rw [parsePreqs_succ, if_neg more]
    simp only [read, skipped, Option.getD_some]
    by_cases short : w.length < DBGBUF
    · have later : ∃ w ∈ ws, DBGBUF ≤ w.length := by
        obtain ⟨w', h', long'⟩ := long
        obtain rfl | h' := List.mem_cons.1 h'
        · omega
        · exact ⟨w', h', long'⟩
      rw [if_neg (by omega)]
      cases preqOf w with
      | none => exact ih later (fun w hw => name w (.tail _ hw)) (Nat.lt_of_succ_lt_succ room) rest ..
      | some p => exact ih later (fun w hw => name w (.tail _ hw)) (Nat.lt_of_succ_lt_succ room) rest ..
    · rw [if_pos (by omega)]

/-- The file that an output is for. -/
def outputOf (g : Globals) (dbgout : Option Nat) : Option (Option (List Byte)) :=
  dbgout.map fun a => (g.outs.val? a).map DBGOUT.filename

theorem parseOut_line {l : CmdLine} {b : List Byte} (h : Spaced l.fileWords b)
    (inside : ∀ f ∈ l.file, f.chars.length < DBGBUF) (d : DBGCMD) (modebuf : List Byte)
    (s : State) : ∃ out s', parseOut d b modebuf s = .ok ({ d with dbgout := out }, s') ∧
      outputOf s'.g out = l.file.map fun f => some f.chars := by
  unfold CmdLine.fileWords at h
  cases file : l.file with
  | none =>
    rw [file] at h
    cases h
    exact ⟨none, s, rfl, rfl⟩
  | some f =>
    rw [file] at h
    obtain ⟨t, rfl, name⟩ := Spaced.cut (u := [62]) (v := f.chars) h f.some'
    have read := name.sscanfS_eq blanks_nil
    have short := inside f file
    rw [List.nil_append] at read
    have head : (62 :: t : List Byte).head? = some 62 := rfl
    change ∃ out s', parseOut d (62 :: t) modebuf s = _ ∧ _
    rw [parseOut, if_pos head, List.tail_cons]
    simp only [read, Option.getD_some]
    rw [if_neg (by omega)]
    rcases found : s.g.outs.find fun o => o.filename == f.chars with _ | ⟨a, o⟩
    · refine ⟨_, _, rfl, ?_⟩
      rw [outputOf, Option.map_some]
      exact congrArg (fun o => some (Option.map DBGOUT.filename o)) (Heap.DList.append_val? ..)
    · refine ⟨_, _, rfl, ?_⟩
      obtain ⟨there, same⟩ := Heap.DList.find_some found
      rw [outputOf, Option.map_some, there]
      simpa using same

theorem parseOut_outside {l : CmdLine} {b : List Byte} (h : Spaced l.fileWords b)
    (long : ∃ f ∈ l.file, DBGBUF ≤ f.chars.length) (d : DBGCMD) (modebuf : List Byte) (s : State) :
    parseOut d b modebuf s = .error .outside := by
  obtain ⟨f, file, long⟩ := long
  rw [CmdLine.fileWords, Option.mem_def.1 file] at h
  obtain ⟨t, rfl, name⟩ := Spaced.cut (u := [62]) (v := f.chars) h f.some'
  have read := name.sscanfS_eq blanks_nil
  rw [List.nil_append] at read
  have head : (62 :: t : List Byte).head? = some 62 := rfl
  change parseOut d (62 :: t) modebuf s = _
  rw [parseOut, if_pos head, List.tail_cons]
  simp only [read, Option.getD_some]
  rw [if_pos long]

/-! ## The whole line -/

theorem CmdLine.words_plain {l : CmdLine} {w : List Byte} (h : w ∈ l.words) :
    w ≠ [] ∧ w.all inName := by
  have digits (n : Digits) : n.chars.all inName := by
    refine List.all_eq_true.2 fun c hc => ?_
    have digit := n.forall_mem c hc
    have other : c ≠ 35 := by
      rintro rfl
      exact absurd digit (by decide)
    simp [inName, Ssl.isdigit_not_isspace digit, other]
  simp only [words, behindStar, behindDetail, List.mem_cons, List.mem_append] at h
  obtain rfl | rfl | h | h | h | h | h | h := h
  · cases l.mode <;> decide
  · refine ⟨fun none' => ?_, l.funcname.inner⟩
    exact absurd l.funcname.first (by rw [none']; decide)
  · unfold starWords at h
    split at h
    · rw [List.mem_singleton.1 h]
      decide
    · cases h
  · obtain ⟨n, -, rfl⟩ := List.mem_map.1 h
    exact ⟨n.some', digits n⟩
  · unfold nodflWords at h
    split at h
    · rw [List.mem_singleton.1 h]
      decide
    · cases h
  · unfold dtstWords at h
    split at h
    · cases h
    · obtain ⟨n, -, rfl⟩ := List.mem_map.1 h
      exact ⟨List.cons_ne_nil _ _, by rw [List.all_cons, digits n]; rfl⟩
  · obtain ⟨c, hc, -⟩ := preqWords_head h
    refine ⟨?_, ?_⟩
    · rintro none'
      rw [none'] at hc
      cases hc
    obtain ⟨⟨mark, name⟩, -, rfl⟩ := List.mem_map.1 h
    rw [Token.chars, List.all_append, name.inner]
    cases mark <;> rfl
  · obtain ⟨f, -, rfl⟩ := List.mem_map.1 h
    exact ⟨List.cons_ne_nil _ _, by rw [List.all_cons, f.inner]; rfl⟩

/-- What the words of a line consist of. -/
theorem CmdLine.words_inName {l : CmdLine} {w : List Byte} (h : w ∈ l.words) :
    ∀ c ∈ w, isspace c = false ∧ c ≠ 35 := by
  intro c hc
  simpa [inName] using List.all_eq_true.1 (words_plain h).2 c hc

/-- Every line can be written, with single blanks. -/
theorem CmdLine.written (l : CmdLine) : l.Written (List.intercalate [32] l.words) := by
  refine ⟨[], List.intercalate [32] l.words, [], [], by simp, blanks_nil, ?_, by simp, by simp⟩
  exact Spaced.intercalate fun w hw =>
    ⟨(words_plain hw).1, fun c hc => (words_inName hw c hc).1⟩

theorem srmtrblk_append {s trail : List Byte} (last : ∀ c ∈ s.getLast?, isspace c = false)
    (trailing : ∀ c ∈ trail, isspace c ∧ c ≠ 12) : srmtrblk (s ++ trail) = s := by
  have pass : ∀ c ∈ trail.reverse, (isspace c && c != 12) = true := by
    intro c hc
    simpa using trailing c (List.mem_reverse.1 hc)
  rw [srmtrblk, List.rdropWhile, List.reverse_append, List.dropWhile_append_of_pos pass]
  change s.rdropWhile _ = s
  rw [List.rdropWhile_eq_self_iff]
  intro some'
  simp [last _ (List.getLast?_eq_some_getLast some')]

/-- A comment is cut off, and there is no blank behind the last word. -/
theorem srmtrblk_line {l : CmdLine} {buf : List Byte} (written : l.Written buf) :
    ∃ lead body, srmtrblk (buf.takeWhile (· ≠ 35)) = lead ++ body ∧ Blanks lead ∧
      Spaced l.words body := by
  obtain ⟨lead, body, trail, comment, rfl, blank, spaced, trailing, hash⟩ := written
  refine ⟨lead, body, ?_, blank, spaced⟩
  have space (c : Byte) (hc : isspace c) : c ≠ 35 := by
    rintro rfl
    exact absurd hc (by decide)
  have inner := spaced.forall_mem space fun w hw c hc => (CmdLine.words_inName hw c hc).2
  have cut : comment.takeWhile (· ≠ 35) = [] := by
    cases comment with
    | nil => rfl
    | cons c comment =>
      cases hash c rfl
      rfl
  have some' : body ≠ [] := mt spaced.eq_nil_iff.1 (List.cons_ne_nil _ _)
  have last : ∀ c ∈ (lead ++ body).getLast?, isspace c = false := by
    rw [List.getLast?_append_of_ne_nil _ some']
    exact spaced.getLast?_not_blank
  rw [List.takeWhile_append_of_pos fun c hc => decide_eq_true (space c (blank c hc)),
    List.takeWhile_append_of_pos fun c hc => decide_eq_true (inner c hc),
    List.takeWhile_append_of_pos fun c hc => decide_eq_true (space c (trailing c hc).1),
    cut, List.append_nil, ← List.append_assoc, srmtrblk_append last trailing]

/-- The name that the database has, of at most 65 characters. -/
def CmdLine.name (l : CmdLine) : List Byte := l.funcname.chars.take (FUNCBUF - 1)

/-- What the numbers behind `:` are read as. -/
def CmdLine.dtst1 (l : CmdLine) : Int := ((l.dtsts.map Prod.fst).map Digits.dtst).getD DBG_DTSTOFF
def CmdLine.dtst2 (l : CmdLine) : Int := ((l.dtsts.bind Prod.snd).map Digits.dtst).getD DBG_DTSTOFF

/-- The command that is made of a line; `dfl` is the flag that it starts with. -/
structure Made (l : CmdLine) (dfl : Bool) (g : Globals) (d : DBGCMD) : Prop where
  status : d.status = l.mode.status
  inherit : d.inherit = !(l.star && !l.bare)
  detail : d.detail = l.detailInt
  colons : l.left = [] → d.dbgdfl = dfl ∧ d.dtst1 = l.dtst1 ∧ d.dtst2 = l.dtst2
  npreq : d.npreq = (l.left ++ l.preqWords).length
  preqs : d.preqs.vals = (l.left ++ l.preqWords).filterMap preqOf
  output : outputOf g d.dbgout = l.file.map fun f => some f.chars

/-- Nothing is left over. -/
theorem CmdLine.left_eq_nil {l : CmdLine} : l.left = [] ↔
    ¬ l.bare ∧ ¬ (l.mode = .keep ∧ l.detail.isSome) ∧ ¬ l.nodfl := by
  unfold left
  by_cases bare : l.bare
  · simp [bare]
  by_cases unasked : l.mode = .keep ∧ l.detail.isSome
  · obtain ⟨n, written⟩ := Option.isSome_iff_exists.1 unasked.2
    simp [bare, unasked, detailWords, written]
  · simp [bare, unasked]

/-- The options change what they are about. -/
theorem CmdLine.coloned_kept (l : CmdLine) (d : DBGCMD) :
    (l.coloned d).funcname = d.funcname ∧ (l.coloned d).status = d.status ∧
      (l.coloned d).inherit = d.inherit ∧ (l.coloned d).detail = d.detail ∧
      (l.coloned d).preqs = d.preqs := by
  unfold coloned
  repeat' split
  all_goals exact ⟨rfl, rfl, rfl, rfl, rfl⟩

theorem CmdLine.coloned_clean {l : CmdLine} (clean : l.left = []) {d : DBGCMD}
    (dtst1 : d.dtst1 = DBG_DTSTOFF) (dtst2 : d.dtst2 = DBG_DTSTOFF) :
    (l.coloned d).dbgdfl = d.dbgdfl ∧ (l.coloned d).dtst1 = l.dtst1 ∧
      (l.coloned d).dtst2 = l.dtst2 := by
  obtain ⟨bare, unasked, nodfl⟩ := left_eq_nil.1 clean
  unfold coloned CmdLine.dtst1 CmdLine.dtst2
  rw [if_neg (not_or.2 ⟨bare, unasked⟩), if_neg nodfl]
  rcases l.dtsts with _ | ⟨n, _ | m⟩
  · exact ⟨rfl, dtst1, dtst2⟩
  · exact ⟨rfl, rfl, dtst2⟩
  · exact ⟨rfl, rfl, rfl⟩

/-- No word that is counted as a prerequisite begins an output file. -/
theorem CmdLine.left_other {l : CmdLine} {w : List Byte} (h : w ∈ l.left ++ l.preqWords) :
    w.head? ≠ some 62 := by
  have colon {w : List Byte} (h : w.head? = some 58) : w.head? ≠ some 62 := by
    rw [h]
    decide
  have dtsts {w : List Byte} (h : w ∈ l.dtstWords) := colon (dtstWords_head h)
  obtain h | h := List.mem_append.1 h
  · unfold left at h
    split at h
    · rw [List.mem_singleton.1 h]
      decide
    split at h
    · simp only [List.mem_append] at h
      obtain h | h | h := h
      · obtain ⟨c, hc, digit⟩ := detailWords_head h
        rw [Option.mem_def.1 hc]
        rintro ⟨⟩
        exact absurd digit (by decide)
      · exact colon (nodflWords_head h)
      · exact dtsts h
    split at h
    · obtain rfl | h := List.mem_cons.1 h
      · decide
      · exact dtsts h
    · cases h
  · obtain ⟨c, hc, -, -, -, other⟩ := preqWords_other h
    rw [Option.mem_def.1 hc]
    rintro ⟨⟩
    exact other rfl

theorem modeStatus_chars (mode : Mode) (status : Status) :
    modeStatus mode.chars status = mode.status := by
  cases mode <;> rfl

/-- `*` and the detail level of a line. -/
theorem parseDetail_line {l : CmdLine} {lead body : List Byte} (blank : Blanks lead)
    (h : Spaced l.words body) {d : DBGCMD} (status : d.status = l.mode.status)
    (inherit : d.inherit = true) (detail : d.detail = 0) :
    ∃ b, Spaced l.unread b ∧ parseDetail (lead ++ body) d =
      if l.detailInt < 0 then .error (.negativeDetail d.funcname l.detailInt)
      else .ok ({ d with inherit := !(l.star && !l.bare), detail := l.detailInt }, b) := by
  have notOff : d.status ≠ .off := by rw [status]; cases l.mode <;> decide
  obtain ⟨b₁, behind, spaced₁⟩ := h.behind blank
  obtain ⟨b₂, spaced₂, star⟩ := skipStar_line spaced₁ d
  have starred : (if l.star ∧ ¬ l.bare then { d with inherit := false } else d) =
      { d with inherit := !(l.star && !l.bare) } := by
    cases l.star <;> cases l.bare <;> simp [← inherit]
  rw [starred] at star
  obtain ⟨b₃, spaced₃, level⟩ := readDetail_line spaced₂
    (d := { d with inherit := !(l.star && !l.bare) }) status detail
  refine ⟨b₃, spaced₃, ?_⟩
  rw [parseDetail_eq]
  dsimp only
  rw [if_pos notOff, behind, Option.getD_some, star]
  exact level

/-- There is room for the loop over the prerequisites. -/
theorem left_room {l : CmdLine} {b : List Byte}
    (h : Spaced ((l.left ++ l.preqWords) ++ l.fileWords) b) :
    (l.left ++ l.preqWords).length < b.length + 1 := by
  have := h.length_le
  rw [List.length_append] at this
  omega

/-- What is behind the detail level, from the `:` to the output file. -/
theorem parseRest_line {l : CmdLine} {b : List Byte} (h : Spaced l.unread b)
    (inside : l.Inside) (d : DBGCMD) (modebuf : List Byte) (s : State) :
    ∃ b₁ r out s', parseColons d b = (l.coloned d, b₁) ∧
      parsePreqs (b₁.length + 1) { l.coloned d with npreq := 0 } b₁ modebuf s = .ok r ∧
      parseOut r.1 r.2.1 r.2.2.1 r.2.2.2 = .ok ({ l.coloned d with
        npreq := (l.left ++ l.preqWords).length
        preqs := ((l.left ++ l.preqWords).filterMap preqOf).foldl DList.append (l.coloned d).preqs
        dbgout := out }, s') ∧
      s'.g.cmds = s.g.cmds ∧ outputOf s'.g out = l.file.map fun f => some f.chars := by
  obtain ⟨b₁, spaced₁, colons⟩ := parseColons_line h d
  rw [← List.append_assoc] at spaced₁
  have short : ∀ w ∈ l.left ++ l.preqWords, w.length < DBGBUF := by
    intro w hw
    obtain hw | hw := List.mem_append.1 hw
    · exact inside.2 w hw
    · exact inside.1 w (.tail _ (List.mem_append_left _ hw))
  obtain ⟨b₂, modebuf₂, s₂, spaced₂, preqs⟩ := parsePreqs_line short
    (fun w hw => CmdLine.left_other hw) (fun w hw => CmdLine.fileWords_head hw)
    (left_room spaced₁) spaced₁ { l.coloned d with npreq := 0 } modebuf s
  have shortFile : ∀ f ∈ l.file, f.chars.length < DBGBUF := by
    intro f hf
    refine inside.1 _ (.tail _ (List.mem_append_right _ (List.mem_map_of_mem ?_)))
    exact Option.mem_toList.2 hf
  obtain ⟨out, s₃, output, file⟩ := parseOut_line spaced₂ shortFile _ modebuf₂ s₂
  have cmds : s₃.g.cmds = s.g.cmds :=
    (parseOut_kept output).2.2.2.trans (parsePreqs_kept _ preqs).2
  refine ⟨b₁, _, out, s₃, colons, preqs, ?_, cmds, file⟩
  rw [output, Nat.zero_add]

/-- A word behind the function name is too long for `modebuf`. -/
theorem parseRest_outside {l : CmdLine} {b : List Byte} (h : Spaced l.unread b)
    (fnamebuf : l.funcname.chars.length < DBGBUF) (outside : ¬ l.Inside) (d : DBGCMD)
    (modebuf : List Byte) (s : State) :
    (parsePreqs ((parseColons d b).2.length + 1) { (parseColons d b).1 with npreq := 0 }
      (parseColons d b).2 modebuf s).bind (fun r => parseOut r.1 r.2.1 r.2.2.1 r.2.2.2) =
        .error .outside := by
  obtain ⟨b₁, spaced₁, colons⟩ := parseColons_line h d
  rw [← List.append_assoc] at spaced₁
  rw [colons]
  dsimp only
  by_cases long : ∃ w ∈ l.left ++ l.preqWords, DBGBUF ≤ w.length
  · rw [parsePreqs_outside long (fun w hw => CmdLine.left_other hw) (left_room spaced₁) spaced₁]
    rfl
  have short : ∀ w ∈ l.left ++ l.preqWords, w.length < DBGBUF := by
    intro w hw
    by_contra big
    exact long ⟨w, hw, Nat.not_lt.1 big⟩
  obtain ⟨b₂, modebuf₂, s₂, spaced₂, preqs⟩ := parsePreqs_line short
    (fun w hw => CmdLine.left_other hw) (fun w hw => CmdLine.fileWords_head hw)
    (left_room spaced₁) spaced₁ { l.coloned d with npreq := 0 } modebuf s
  rw [preqs]
  refine parseOut_outside spaced₂ ?_ _ modebuf₂ s₂
  by_contra file
  refine outside ⟨fun w hw => ?_, fun w hw => short w (List.mem_append_left _ hw)⟩
  obtain rfl | hw := List.mem_cons.1 hw
  · exact fnamebuf
  obtain hw | hw := List.mem_append.1 hw
  · exact short w (List.mem_append_right _ hw)
  · obtain ⟨f, hf, rfl⟩ := List.mem_map.1 hw
    by_contra big
    exact file ⟨f, Option.mem_toList.1 hf, Nat.not_lt.1 big⟩

/-- The options and the prerequisites of a line. -/
theorem readCommand_line {l : CmdLine} {lead body : List Byte} (blank : Blanks lead)
    (h : Spaced l.words body) (fnamebuf : l.funcname.chars.length < DBGBUF) (u : Unset) {s : State}
    (linked : Linked s.g) :
    if l.detailInt < 0 ∨ ¬ l.Inside then ∃ e, readCommand u (lead ++ body) l.mode.chars l.name s = .error e
    else ∃ d s', readCommand u (lead ++ body) l.mode.chars l.name s = .ok (d, s') ∧
      findCmd s'.g.cmds l.name = some d ∧ Made l (inheritedDfl s.g.cmds.vals l.name) s'.g d := by
  obtain ⟨cells, db⟩ := linked
  obtain ⟨p, d₀, s₀, before, after, alloc, name, empty, -, -, -, held, dfl⟩ :=
    allocCmd_held db u l.name
  have plain : ¬ l.mode.chars = text "thrd" := by cases l.mode <;> decide
  obtain ⟨b₁, spaced₁, detail⟩ := parseDetail_line blank h
    (d := defaults l.mode.chars (prvCmd s₀.g.cmds p) d₀) (modeStatus_chars ..) rfl rfl
  unfold readCommand
  rw [alloc]
  dsimp only
  rw [if_neg plain, detail]
  by_cases negative : l.detailInt < 0
  · rw [if_pos (.inl negative), if_pos negative]
    exact ⟨_, rfl⟩
  rw [if_neg negative]
  obtain ⟨d₁, levelled⟩ : ∃ d₁, d₁ = { defaults l.mode.chars (prvCmd s₀.g.cmds p) d₀ with
    inherit := !(l.star && !l.bare), detail := l.detailInt } := ⟨_, rfl⟩
  rw [← levelled]
  by_cases inside : l.Inside
  swap
  · have outside := parseRest_outside spaced₁ fnamebuf inside d₁ l.mode.chars s₀
    rw [if_pos (.inr inside)]
    dsimp only [Except.bind] at outside ⊢
    cases preqs : parsePreqs ((parseColons d₁ b₁).2.length + 1)
        { (parseColons d₁ b₁).1 with npreq := 0 } (parseColons d₁ b₁).2 l.mode.chars s₀ with
    | error e => exact ⟨e, rfl⟩
    | ok r =>
      rw [preqs] at outside
      dsimp only at outside ⊢
      rw [outside]
      exact ⟨_, rfl⟩
  rw [if_neg (not_or.2 ⟨negative, not_not.2 inside⟩)]
  obtain ⟨b₂, ⟨d₂, b₃, modebuf, s₁⟩, out, s₂, colons, preqs, parsed, cmds, output⟩ :=
    parseRest_line spaced₁ inside d₁ l.mode.chars s₀
  obtain ⟨d₃, made⟩ : ∃ d₃, d₃ = { l.coloned d₁ with
      npreq := (l.left ++ l.preqWords).length
      preqs := ((l.left ++ l.preqWords).filterMap preqOf).foldl DList.append (l.coloned d₁).preqs
      dbgout := out } := ⟨_, rfl⟩
  rw [← made] at parsed
  have read : (parseOut d₂ b₃ modebuf s₁).map (fun r =>
      (r.1, setCmds r.2 (r.2.g.cmds.modify p fun _ => r.1))) =
        .ok (d₃, setCmds s₂ (s₂.g.cmds.modify p fun _ => d₃)) := by
    rw [parsed]
    rfl
  dsimp only [Except.bind]
  rw [colons]
  dsimp only
  rw [preqs]
  dsimp only [Except.bind]
  rw [← cmds] at held
  obtain ⟨name', status', inherit', detail', preqs'⟩ := l.coloned_kept d₁
  have name₃ : d₃.funcname = l.name := by
    rw [made]
    exact name'.trans (by rw [levelled]; exact name)
  refine ⟨d₃, _, read, (held.store name₃).1, ?_⟩
  rw [made]
  exact
    { status := status'.trans (by rw [levelled]; exact modeStatus_chars ..)
      inherit := inherit'.trans (by rw [levelled])
      detail := detail'.trans (by rw [levelled])
      colons := fun clean => by
        obtain ⟨dfl', dtsts⟩ := CmdLine.coloned_clean clean (d := d₁) (by rw [levelled]; rfl)
          (by rw [levelled]; rfl)
        refine ⟨dfl'.trans ?_, dtsts⟩
        rw [levelled, ← dfl]
        rfl
      npreq := rfl
      preqs := by
        dsimp only
        rw [preqs', levelled]
        refine (Heap.DList.foldl_append_vals empty _).trans ?_
        rw [Heap.DList.vals_eq empty]
        rfl
      output := output }

/-- **What is made of a line**: nothing, if the detail level is read as a negative
number or a word is too long for its buffer, else this command. -/
theorem readLine_line {l : CmdLine} {buf : List Byte} (written : l.Written buf) (u : Unset)
    {s : State} (linked : Linked s.g) :
    if l.detailInt < 0 ∨ ¬ l.Inside then ∃ e, readLine u buf s = .error e
    else ∃ d s', readLine u buf s = .ok (some d, s') ∧ findCmd s'.g.cmds l.name = some d ∧
      Made l (inheritedDfl s.g.cmds.vals l.name) s'.g d := by
  obtain ⟨lead, body, text', blank, spaced⟩ := srmtrblk_line written
  have mode := spaced.sscanfS_eq blank
  obtain ⟨gap, rest, gaps, spaced', behind, -⟩ := spaced.rest_eq
  have funcname := spaced'.sscanfS_eq gaps
  have some' : lead ++ body ≠ [] := by
    have : body ≠ [] := mt spaced.eq_nil_iff.1 (List.cons_ne_nil _ _)
    simp [this]
  have mode' : l.mode.chars.length < DBGBUF := by cases l.mode <;> decide
  by_cases fnamebuf : l.funcname.chars.length < DBGBUF
  swap
  · -- the name is stored behind `fnamebuf`
    have outside : ¬ l.Inside := fun inside => fnamebuf (inside.1 _ List.mem_cons_self)
    rw [if_pos (.inr outside)]
    refine ⟨.outside, ?_⟩
    unfold readLine
    rw [text']
    simp only [mode, spaced.stpblk_eq blank, behind, funcname, Option.getD_some]
    rw [if_neg some', if_pos (by omega)]
  have short : ¬ max l.mode.chars.length l.funcname.chars.length ≥ DBGBUF := by omega
  have other : ¬ l.mode.chars = text "del" := by cases l.mode <;> decide
  have made := readCommand_line blank spaced fnamebuf u linked
  have read : readLine u buf s =
      (readCommand u (lead ++ body) l.mode.chars l.name s).map fun r => (some r.1, r.2) := by
    unfold readLine
    rw [text']
    simp only [mode, spaced.stpblk_eq blank, behind, funcname, Option.getD_some]
    rw [if_neg some', if_neg short, if_neg other]
    rfl
  rw [read]
  split at made
  · rename_i fails
    obtain ⟨e, failed⟩ := made
    rw [if_pos fails, failed]
    exact ⟨e, rfl⟩
  · rename_i reads
    obtain ⟨d, s', made, found⟩ := made
    rw [if_neg reads, made]
    exact ⟨d, s', rfl, found⟩

end UnixProgramming.Dbg
