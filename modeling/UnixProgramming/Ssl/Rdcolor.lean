import UnixProgramming.Dbg.Basic
import UnixProgramming.Ssl.Pointers

/-!
# The lines of the colour file

`rdcolor` of the socket library and its copy in the debugger, from the terminal's
entry on: each line is cut at its last character, and what is behind the tabs
becomes the definition of the colour. `none` stands for an access outside an
array; a line's array ends at its NUL.

- `decode`: what a definition means;
- `rdcolorLine_eq`: a line never leaves its arrays, and what it stores;
- `rdcolor_decodes`: which lines of known colours are decoded.
-/

namespace UnixProgramming.Ssl.Rdcolor

open Heap.Chars Cursor
open Dbg (text)

/-! ## The code -/

def LINESIZE : Nat := 80

/-- The names in `colors[]` of the socket library. -/
def sslColors : List (List Byte) :=
  ["BLACK", "RED", "GREEN", "YELLOW", "BLUE", "MAGENTA", "CYAN", "WHITE",
    "UBLACK", "URED", "UGREEN", "UYELLOW", "UBLUE", "UMAGENTA", "UCYAN", "UWHITE",
    "RVBLACK", "RVRED", "RVGREEN", "RVYELLOW", "RVBLUE", "RVMAGENTA", "RVCYAN", "RVWHITE",
    "BOLD", "NRML", "PYELLOW", "PRED", "PCYAN", "PBLACK", "CLEAR"].map text

/-- The names in `colors[]` of the debugger. -/
def dbgColors : List (List Byte) :=
  ["BLACK", "RED", "GREEN", "YELLOW", "BLUE", "MAGENTA", "CYAN", "WHITE",
    "UBLACK", "URED", "UGREEN", "UYELLOW", "UBLUE", "UMAGENTA", "UCYAN", "UWHITE",
    "RVBLACK", "RVRED", "RVGREEN", "RVYELLOW", "RVBLUE", "RVMAGENTA", "RVCYAN", "RVWHITE",
    "ITBLACK", "ITRED", "ITGREEN", "ITYELLOW", "ITBLUE", "ITMAGENTA", "ITCYAN", "ITWHITE",
    "BOLDBLACK", "BOLDRED", "BOLDGREEN", "BOLDYELLOW", "BOLDBLUE", "BOLDMAGENTA", "BOLDCYAN",
    "BOLDWHITE", "BOLD", "NRML", "PYELLOW", "PRED", "PCYAN", "PBLACK", "CLEAR"].map text

/-- The character that the `switch` stores for the one behind a backslash. -/
def unescape (c : Byte) : Byte :=
  if c = 101 then 27                                -- e
  else if c = 102 then 12                           -- f
  else if c = 104 then 8                            -- h
  else if c = 110 then 10                           -- n
  else if c = 116 then 9                            -- t
  else if 65 ≤ c ∧ c ≤ 90 then c - 64 else c        -- A-Z and other

/-- `for(new= newdef; *cmd; ++cmd,++new)`, and the NUL behind it. -/
def copyDef (chars newdef : List Byte) (cmd new : Nat) : Option (List Byte) :=
  if h : cmd < chars.length then
    if chars[cmd] = 0 then blit newdef new [0]
    else if chars[cmd] = 92 then do
      let c ← chars[cmd + 1]?
      let newdef ← blit newdef new [unescape c]
      copyDef chars newdef (cmd + 1 + 1) (new + 1)
    else do
      let newdef ← blit newdef new [chars[cmd]]
      copyDef chars newdef (cmd + 1) (new + 1)
  else none
termination_by chars.length - cmd

/-- The two arrays that stay from line to line. -/
structure Arrays where
  color : List Byte
  newdef : List Byte

/-- What comes of a line: it is blank or a comment, it ends the terminal's
definition, its colour is unknown, or a colour gets its definition, which is in
memory of its own. -/
inductive Outcome where
  | skipped
  | finished
  | unknown (color : List Byte)
  | defined (icolor : Nat) (color : List Byte)

/-- `calloc` and `strcpy`. -/
def allocDef (newdef : List Byte) : Option (List Byte) := do
  let s ← str 0 newdef 0
  if newdef[0]? ≠ some 0 then strcpyAt 0 (List.replicate (s.length + 1) 0) 0 s else pure [0]

/-- From the colour's name at `cmd` on. -/
def rdcolorCmd (names : List (List Byte)) (chars : List Byte) (cmd : Nat) (m : Arrays) :
    Option (Outcome × Arrays) := do
  let s ← str 0 chars cmd
  let color ← strcpyAt 0 m.color 0 (s.takeWhile (!isspace ·))       -- sscanf(cmd,"%s",color)
  let cmd ← skip (nonNul (!isspace ·)) chars cmd
  let s ← str 0 chars cmd
  -- without a character left, `cmd[-1]` is the last one of the name
  let chars ← blit chars (cmd + s.length - 1) [0]
  let cmd ← skip (· == 9) chars cmd
  let name ← str 0 color 0
  match names.findIdx? (· == name) with
  | none => pure (.unknown name, { m with color := color })
  | some icolor => do
    let newdef ← copyDef chars m.newdef cmd 0
    let stored ← allocDef newdef
    pure (.defined icolor stored, ⟨color, newdef⟩)

/-- A turn of `while(fgets(line,LINESIZE,fp))`; `chars` is `line` as far as its NUL. -/
def rdcolorLine (names : List (List Byte)) (chars : List Byte) (m : Arrays) :
    Option (Outcome × Arrays) := do
  let cmd ← skip (nonNul isspace) chars 0
  let c ← chars[cmd]?
  if c = 0 then pure (.skipped, m)
  else if cmd = 0 then pure (.finished, m)
  else if c = 35 then pure (.skipped, m)
  else rdcolorCmd names chars cmd m

/-- The lines one after the other, with the definitions so far. -/
def readColors (names : List (List Byte)) :
    List (List Byte) → Arrays → List (List Byte) → Option (List (List Byte))
  | [], _, colors => some colors
  | s :: lines, m, colors => do
    let (outcome, m) ← rdcolorLine names (withNul s) m
    match outcome with
    | .finished => pure colors
    | .defined icolor color => readColors names lines m (colors.set icolor color)
    | _ => readColors names lines m colors

/-- What `rdcolor` of the socket library makes of the file from the terminal's
entry on: before, each colour is the empty string. -/
def rdcolor (file : List Byte) (m : Arrays) : Option (List (List Byte)) :=
  readColors sslColors (fgetsAll LINESIZE file.length file) m (sslColors.map fun _ => [0])

/-- The copy in the debugger. -/
def dbgRdcolor (file : List Byte) (m : Arrays) : Option (List (List Byte)) :=
  readColors dbgColors (fgetsAll LINESIZE file.length file) m (dbgColors.map fun _ => [0])

/-! ## What a line means -/

/-- The text of a definition, decoded. A backslash with nothing behind it is a
character like any other. -/
def decode : List Byte → List Byte
  | [] => []
  | [c] => [c]
  | c :: d :: t => if c = 92 then unescape d :: decode t else c :: decode (d :: t)

/-- The last character is a backslash, and no other backslash escapes it. -/
def Dangling : List Byte → Bool
  | [] => false
  | [c] => c == 92
  | c :: d :: t => if c = 92 then Dangling t else Dangling (d :: t)

/-- The name of the colour. -/
def word (u : List Byte) : List Byte := (stpblk u).takeWhile (!isspace ·)

def behind (u : List Byte) : List Byte := (stpblk u).dropWhile (!isspace ·)

/-- The text behind the name and the tabs, without the newline. -/
def definition (u : List Byte) : List Byte :=
  (if u.getLast? = some 10 then (behind u).dropLast else behind u).dropWhile (· == 9)

/-- The text that the code goes by: the last character is taken for the newline. -/
def kept (u : List Byte) : List Byte := (behind u).dropLast.dropWhile (· == 9)

/-- The text as the loop copies it: a last backslash is gone. -/
def copied : List Byte → List Byte
  | [] => []
  | [c] => if c = 92 then [] else [c]
  | c :: d :: t => if c = 92 then unescape d :: copied t else c :: copied (d :: t)

/-- What comes of a line. -/
def outcome (names : List (List Byte)) (u : List Byte) : Outcome :=
  if stpblk u = [] then .skipped
  else if u.takeWhile isspace = [] then .finished
  else if (stpblk u).head? = some 35 then .skipped
  else match names.findIdx? (· == word u) with
    | none => .unknown (word u)
    | some icolor => .defined icolor (withNul (copied (kept u)))

/-! ## Copying -/

/-- What the loop stores, the NUL at the end with it. -/
def stores (t : List Byte) : List Byte := copied t ++ if Dangling t then [0, 0] else [0]

theorem unescape_ne_nul {c : Byte} (h : c ≠ 0) : unescape c ≠ 0 := by
  unfold unescape
  split_ifs with e f h' n t letter
  all_goals first | decide | skip
  · have lo : 65 ≤ c.toNat := UInt8.le_iff_toNat_le.1 letter.1
    intro nul
    have := congrArg UInt8.toNat nul
    rw [UInt8.toNat_sub_of_le _ _ (UInt8.le_iff_toNat_le.2 (by simp; omega))] at this
    simp at this
    omega
  · exact h

theorem copied_clean {t : List Byte} (h : 0 ∉ t) : 0 ∉ copied t := by
  fun_induction copied t with
  | case1 => exact h
  | case2 => simp
  | case3 => exact h
  | case4 d t ih =>
    simp only [List.mem_cons, not_or] at h ih ⊢
    exact ⟨(unescape_ne_nul (Ne.symm h.2.1)).symm, ih h.2.2⟩
  | case5 c d t other ih =>
    simp only [List.mem_cons, not_or] at h ih ⊢
    exact ⟨h.1, ih h.2⟩

theorem copied_length (t : List Byte) : (copied t).length ≤ t.length := by
  fun_induction copied t <;> simp_all; omega

variable {chars newdef r : List Byte} {cmd new : Nat}

theorem copyDef_step {c : Byte} (here : chars[cmd]? = some c) :
    copyDef chars newdef cmd new =
      if c = 0 then blit newdef new [0]
      else if c = 92 then (do
        let c ← chars[cmd + 1]?
        let newdef ← blit newdef new [unescape c]
        copyDef chars newdef (cmd + 1 + 1) (new + 1))
      else (do
        let newdef ← blit newdef new [c]
        copyDef chars newdef (cmd + 1) (new + 1)) := by
  obtain ⟨within, rfl⟩ := List.getElem?_eq_some_iff.1 here
  rw [copyDef, dif_pos within]

theorem stores_escape (d : Byte) (t : List Byte) :
    stores (92 :: d :: t) = unescape d :: stores t := rfl

theorem stores_plain {c : Byte} (other : c ≠ 92) (d : Byte) (t : List Byte) :
    stores (c :: d :: t) = c :: stores (d :: t) := by
  rw [stores, copied, Dangling, if_neg other, if_neg other, List.cons_append]
  rfl

/-- Behind a backslash at the end the loop takes the NUL for a character, and
ends at the place behind it if there is a NUL there too. -/
theorem copyDef_eq (h : str 0 chars cmd = some r)
    (second : Dangling r → chars[cmd + r.length + 1]? = some 0) :
    copyDef chars newdef cmd new = blit newdef new (stores r) := by
  have here := str_get h
  have clean := (str_eq_some.1 h).1
  induction r using copied.induct generalizing cmd new newdef with
  | case1 =>
    rw [copyDef_step here, List.headD_nil, if_pos rfl]
    rfl
  | case2 =>
    have ended : chars[cmd + 1]? = some 0 := getElem?_end h
    rw [copyDef_step here, List.headD_cons, if_neg (by decide), if_pos rfl, bind_of ended]
    refine (Option.bind_congr fun a _ => ?_).trans (blit_cons newdef new 0 [0])
    have ended' : chars[cmd + 1 + 1]? = some 0 := second rfl
    rw [copyDef_step ended', if_pos rfl]
  | case3 c other =>
    have unit : c ≠ 0 := fun e => clean (by simp [e])
    have ended : chars[cmd + 1]? = some 0 := getElem?_end h
    have plain : stores [c] = [c, 0] := by simp [stores, copied, Dangling, other]
    rw [copyDef_step here, List.headD_cons, if_neg unit, if_neg other, plain]
    refine (Option.bind_congr fun a _ => ?_).trans (blit_cons newdef new c [0])
    rw [copyDef_step ended, if_pos rfl]
  | case4 d t ih =>
    have next : str 0 chars (cmd + 1) = some (d :: t) := str_behind (s := []) h
    have later : str 0 chars (cmd + 1 + 1) = some t := str_behind (s := []) next
    rw [copyDef_step here, List.headD_cons, if_neg (by decide), if_pos rfl,
      bind_of (str_get next), List.headD_cons, stores_escape]
    refine (Option.bind_congr fun a _ => ?_).trans (blit_cons newdef new _ _)
    refine ih later (fun dangling => ?_) (str_get later) (str_eq_some.1 later).1
    have last : cmd + 1 + 1 + t.length + 1 = cmd + (92 :: d :: t).length + 1 := by
      simp only [List.length_cons]
      omega
    rw [last]
    exact second dangling
  | case5 c d t other ih =>
    have unit : c ≠ 0 := fun e => clean (by simp [e])
    have next : str 0 chars (cmd + 1) = some (d :: t) := str_behind (s := []) h
    rw [copyDef_step here, List.headD_cons, if_neg unit, if_neg other,
      stores_plain other]
    refine (Option.bind_congr fun a _ => ?_).trans (blit_cons newdef new _ _)
    refine ih next (fun dangling => ?_) (str_get next) (str_eq_some.1 next).1
    have dangling' : Dangling (c :: d :: t) := by rwa [Dangling, if_neg other]
    have last : cmd + 1 + (d :: t).length + 1 = cmd + (c :: d :: t).length + 1 := by
      simp only [List.length_cons]
      omega
    rw [last]
    exact second dangling'

/-! ## A line -/

/-- The last character behind the name goes. Where there is none, it is the
name that is cut in `line`. -/
theorem cut_line {s : List Byte} (h : str 0 chars cmd = some s) (later : 0 < cmd) :
    Inside (blit chars (cmd + s.length - 1) [0]) fun chars' =>
      str 0 chars' cmd = some s.dropLast ∧
        (s.dropLast ≠ [] → chars'[cmd + s.dropLast.length + 1]? = some 0) := by
  have inside := str_length_lt h
  refine ⟨_, blit_one (by omega) 0, ?_⟩
  rcases List.eq_nil_or_concat s with rfl | ⟨t, c, rfl⟩
  · refine ⟨?_, fun some' => absurd rfl some'⟩
    have same : (chars.set (cmd - 1) 0).drop cmd = chars.drop cmd := by
      rw [List.drop_set, if_pos (by omega)]
    rw [List.length_nil, Nat.add_zero, List.dropLast_nil, ← h, str, str, same]
  · have ended := getElem?_end h
    rw [List.concat_eq_append, List.length_append, List.length_singleton] at ended ⊢
    rw [← Nat.add_assoc, Nat.add_sub_cancel, List.dropLast_concat]
    refine ⟨cut_str (t := [c]) (by rw [h, List.concat_eq_append]), fun _ => ?_⟩
    rw [List.getElem?_set_ne (by omega), Nat.add_assoc, ended]

/-- A definition that is stored is the string in memory of its own. -/
theorem allocDef_eq {s : List Byte} (h : str 0 newdef 0 = some s) :
    allocDef newdef = some (withNul s) := by
  rw [allocDef, bind_of h, str_get h]
  cases s with
  | nil => rfl
  | cons c s =>
    have clean := (str_eq_some.1 h).1
    have unit : c ≠ 0 := fun e => clean (by simp [e])
    rw [List.headD_cons, if_pos (by simpa using unit), strcpyAt, blit, if_pos (by simp)]
    simp [withNul]

/-- Both arrays have the size that the source gives them. -/
def Arrays.Sized (m : Arrays) : Prop :=
  m.color.length = LINESIZE ∧ m.newdef.length = LINESIZE + LINESIZE

theorem behind_length (u : List Byte) : (behind u).length ≤ u.length :=
  (List.dropWhile_suffix _).length_le.trans (stpblk_suffix u).length_le

theorem stores_length (t : List Byte) : (stores t).length ≤ t.length + 2 := by
  have := copied_length t
  rw [stores, List.length_append]
  split <;> simp <;> omega

variable {names : List (List Byte)} {u : List Byte} {m : Arrays}

/-- Where the definition is copied to. -/
theorem copyDef_stored (h : str 0 chars cmd = some r)
    (second : Dangling r → chars[cmd + r.length + 1]? = some 0)
    (room : r.length + 2 ≤ newdef.length) :
    Inside (copyDef chars newdef cmd 0) fun newdef' =>
      str 0 newdef' 0 = some (copied r) ∧ newdef'.length = newdef.length := by
  have fits : 0 + (stores r).length ≤ newdef.length := by
    have := stores_length r
    omega
  obtain ⟨newdef', stored⟩ := Option.isSome_iff_exists.1 (blit_isSome.2 fits)
  refine ⟨newdef', (copyDef_eq h second).trans stored, ?_, blit_length stored⟩
  have clean := copied_clean (str_eq_some.1 h).1
  have reads := blit_drop stored
  refine str_eq_some.2 ⟨clean, ?_⟩
  rw [reads, stores, List.append_assoc]
  split
  · exact ⟨_, rfl⟩
  · exact ⟨_, rfl⟩

/-- From the name on, with the word and the text that `outcome` goes by. -/
theorem rdcolorCmd_eq (h : str 0 chars cmd = some (stpblk u)) (later : 0 < cmd)
    (short : u.length < LINESIZE) (sized : m.Sized) :
    Inside (rdcolorCmd names chars cmd m) fun r =>
      r.1 = (match names.findIdx? (· == word u) with
        | none => .unknown (word u)
        | some icolor => .defined icolor (withNul (copied (kept u)))) ∧ r.2.Sized := by
  have clean := (str_eq_some.1 h).1
  have word_length : (word u).length ≤ u.length :=
    (List.takeWhile_prefix _).length_le.trans (stpblk_suffix u).length_le
  have word_clean : 0 ∉ word u := fun mem => clean ((List.takeWhile_prefix _).subset mem)
  obtain ⟨color, stored, length⟩ := strcpyAt_some (a := m.color) (i := 0) (s := word u) 0
    (by rw [sized.1]; omega)
  have name := strcpyAt_str stored word_clean
  have rest := str_skip (nonNul (!isspace ·)) h
  rw [dropWhile_nonNul _ clean] at rest
  change str 0 chars _ = some (behind u) at rest
  obtain ⟨chars', cut, text, second⟩ := cut_line rest (Nat.add_pos_left later _)
  have tabs := str_skip (· == 9) text
  refine .next h (.next stored (.next (skip_str rfl h) (.next rest (.next cut
    (.next (skip_str (by decide) text) (.next name ?_))))))
  cases names.findIdx? (· == word u) with
  | none => exact .pure ⟨rfl, length.trans sized.1, sized.2⟩
  | some icolor =>
    have kept_length : (kept u).length ≤ (behind u).dropLast.length :=
      (List.dropWhile_suffix _).length_le
    refine (copyDef_stored tabs (fun dangling => ?_) ?_).bind fun newdef' h => ?_
    · have some' : (behind u).dropLast ≠ [] := by
        intro empty
        rw [empty] at dangling
        exact absurd dangling (by decide)
      have whole := congrArg List.length
        (List.takeWhile_append_dropWhile (p := (· == 9)) (l := (behind u).dropLast))
      rw [List.length_append] at whole
      rw [← second some', ← whole, ← Nat.add_assoc]
    · have := behind_length u
      change (kept u).length + 2 ≤ _
      rw [List.length_dropLast] at kept_length
      rw [sized.2]
      omega
    · exact .next (allocDef_eq h.1) (.pure ⟨rfl, length.trans sized.1, h.2.trans sized.2⟩)

/-- **No line leaves its arrays**, and what comes of it depends on its text alone. -/
theorem rdcolorLine_eq (names : List (List Byte)) (clean : 0 ∉ u) (short : u.length < LINESIZE)
    (sized : m.Sized) :
    Inside (rdcolorLine names (withNul u) m) fun r => r.1 = outcome names u ∧ r.2.Sized := by
  have start : str 0 (withNul u) 0 = some u := (At.start clean).str
  have blanks := str_skip (nonNul isspace) start
  rw [dropWhile_nonNul _ clean, takeWhile_nonNul _ clean] at blanks
  change str 0 _ _ = some (stpblk u) at blanks
  have margin : skip (nonNul isspace) (withNul u) 0 = some (0 + (u.takeWhile isspace).length) := by
    rw [← takeWhile_nonNul _ clean]
    exact skip_str rfl start
  refine .next margin (.next (str_get blanks) ?_)
  rw [Nat.zero_add] at blanks ⊢
  rw [outcome]
  cases first : stpblk u with
  | nil => exact .pure ⟨rfl, sized⟩
  | cons c rest =>
    rw [first] at blanks
    have unit : c ≠ 0 := fun e => (str_eq_some.1 blanks).1 (by simp [e])
    rw [List.headD_cons, if_neg unit, if_neg (List.cons_ne_nil c rest)]
    by_cases flush : u.takeWhile isspace = []
    · rw [flush, List.length_nil, if_pos rfl, if_pos rfl]
      exact .pure ⟨rfl, sized⟩
    · rw [if_neg (by simpa using flush), if_neg flush, List.head?_cons]
      by_cases comment : c = 35
      · subst comment
        exact .pure ⟨rfl, sized⟩
      · rw [if_neg comment, if_neg (by simpa using comment)]
        rw [← first] at blanks
        exact rdcolorCmd_eq blanks (List.length_pos_of_ne_nil flush) short sized

/-! ## Which definitions are decoded -/

theorem decode_dangling (t : List Byte) :
    decode t = copied t ++ if Dangling t then [92] else [] := by
  fun_induction decode t with
  | case1 => rfl
  | case2 c => by_cases e : c = 92 <;> simp [copied, Dangling, e]
  | case3 d t ih => rw [copied, Dangling, if_pos rfl, if_pos rfl, ih, List.cons_append]
  | case4 c d t other ih => rw [copied, Dangling, if_neg other, if_neg other, ih, List.cons_append]

/-- The last character of a text is always decoded to one more. -/
theorem decode_concat (t : List Byte) (c : Byte) :
    (decode (t ++ [c])).length = (copied t).length + 1 := by
  fun_induction copied t with
  | case1 => rfl
  | case2 => rfl
  | case3 d other => simp [decode, other]
  | case4 d t ih => simpa [decode] using ih
  | case5 d e t other ih => simpa [decode, other] using ih

theorem dropWhile_dropLast (test : Byte → Bool) : ∀ t : List Byte,
    t.dropLast.dropWhile test = (t.dropWhile test).dropLast
  | [] => rfl
  | [c] => by
    rw [List.dropWhile_cons]
    split <;> rfl
  | c :: d :: t => by
    rw [List.dropLast_cons_cons, List.dropWhile_cons, List.dropWhile_cons]
    split
    · exact dropWhile_dropLast test (d :: t)
    · rfl

/-- The line defines the colour with this index. -/
structure Known (names : List (List Byte)) (u : List Byte) (icolor : Nat) : Prop where
  some' : stpblk u ≠ []
  indented : u.takeWhile isspace ≠ []
  no_comment : (stpblk u).head? ≠ some 35
  name : names.findIdx? (· == word u) = some icolor

theorem Known.outcome_eq {icolor : Nat} (h : Known names u icolor) :
    outcome names u = .defined icolor (withNul (copied (kept u))) := by
  rw [outcome, if_neg h.some', if_neg h.indented, if_neg h.no_comment, h.name]

/-- What is copied is the decoded definition for a line with its newline, if no
backslash is left over. -/
theorem copied_kept_iff (u : List Byte) : copied (kept u) = decode (definition u) ↔
    definition u = [] ∨ u.getLast? = some 10 ∧ Dangling (definition u) = false := by
  by_cases newline : u.getLast? = some 10
  · have same : kept u = definition u := by rw [kept, definition, if_pos newline]
    rw [same, decode_dangling, newline]
    cases dangling : Dangling (definition u) with
    | false => simp
    | true =>
      have some' : definition u ≠ [] := by
        intro empty
        rw [empty] at dangling
        cases dangling
      simp [some']
  · have short : kept u = (definition u).dropLast := by
      rw [kept, definition, if_neg newline, dropWhile_dropLast]
    rw [short]
    rcases List.eq_nil_or_concat (definition u) with empty | ⟨t, c, last⟩
    · rw [empty]
      simp [copied, decode]
    · rw [last, List.concat_eq_append, List.dropLast_concat]
      refine iff_of_false (fun same => ?_) (by simp [newline])
      have := congrArg List.length same
      rw [decode_concat] at this
      omega

theorem delivered_short (file : List Byte) :
    (cstr (fgets (LINESIZE - 1) file).1).length < LINESIZE :=
  Nat.lt_of_le_of_lt ((List.takeWhile_prefix _).length_le.trans (fgets_length _ _)) (by decide)

/-- **Every line that defines a colour stays inside its arrays**, and its
definition is decoded exactly if the newline is there, and no backslash just
before it that is not escaped, or if there is no text. -/
theorem rdcolor_decodes (names : List (List Byte)) (file : List Byte) {u : List Byte}
    (delivered : u = cstr (fgets (LINESIZE - 1) file).1) {icolor : Nat}
    (known : Known names u icolor) {m : Arrays} (sized : m.Sized) :
    ∃ color m', rdcolorLine names (withNul u) m = some (.defined icolor color, m') ∧
      (color = withNul (decode (definition u)) ↔
        definition u = [] ∨ u.getLast? = some 10 ∧ Dangling (definition u) = false) := by
  have clean : 0 ∉ u := delivered ▸ cstr_noNul _
  obtain ⟨⟨o, m'⟩, e, result, -⟩ :=
    rdcolorLine_eq names clean (delivered ▸ delivered_short file) sized
  refine ⟨withNul (copied (kept u)), m', ?_, ?_⟩
  · rw [e, ← known.outcome_eq, ← result]
  · rw [← copied_kept_iff, withNul, withNul, List.append_left_inj]

/-- The two arrays before the first line. -/
def Arrays.start : Arrays := ⟨List.replicate LINESIZE 0, List.replicate (LINESIZE + LINESIZE) 0⟩

theorem Arrays.start_sized : Arrays.start.Sized := ⟨by simp [start], by simp [start]⟩

/-- `" RED\t\\e[m\n"` -/
def redLine : List Byte := [32, 82, 69, 68, 9, 92, 101, 91, 109, 10]

theorem rdcolor_decodes_red : ∃ color m', rdcolorLine sslColors (withNul redLine) .start =
      some (.defined 1 color, m') ∧
    (color = withNul (decode (definition redLine)) ↔
      definition redLine = [] ∨
        redLine.getLast? = some 10 ∧ Dangling (definition redLine) = false) :=
  rdcolor_decodes sslColors redLine (by decide) ⟨by decide, by decide, by decide, by decide⟩
    Arrays.start_sized

/-- `" RED\tab"` -/
def lastLine : List Byte := [32, 82, 69, 68, 9, 97, 98]

/-- Where a file ends with this line, without a newline, the colour is `"a"`. -/
theorem rdcolor_cuts : lastLine = cstr (fgets (LINESIZE - 1) lastLine).1 ∧
    decode (definition lastLine) = [97, 98] ∧
    ∃ m', rdcolorLine sslColors (withNul lastLine) .start =
      some (.defined 1 (withNul [97]), m') := by
  refine ⟨by decide, by decide, ?_⟩
  obtain ⟨⟨o, m'⟩, e, result, -⟩ := rdcolorLine_eq sslColors (u := lastLine) (by decide)
    (by decide) Arrays.start_sized
  exact ⟨m', by rw [e, show o = _ from result]; rfl⟩

/-! ## The file -/

theorem readColors_inside (names : List (List Byte)) {lines : List (List Byte)}
    (delivered : ∀ u ∈ lines, 0 ∉ u ∧ u.length < LINESIZE) (sized : m.Sized)
    (colors : List (List Byte)) :
    Inside (readColors names lines m colors) fun r => r.length = colors.length := by
  induction lines generalizing m colors with
  | nil => exact .pure rfl
  | cons u lines ih =>
    obtain ⟨⟨clean, short⟩, later⟩ := List.forall_mem_cons.1 delivered
    refine (rdcolorLine_eq names clean short sized).bind ?_
    rintro ⟨o, m'⟩ ⟨-, sized'⟩
    cases o with
    | finished => exact .pure rfl
    | defined icolor color =>
      exact (ih later sized' _).mono fun r length => length.trans List.length_set
    | skipped => exact ih later sized' colors
    | unknown name => exact ih later sized' colors

theorem fgetsAll_delivered {turns : Nat} {file u : List Byte}
    (h : u ∈ fgetsAll LINESIZE turns file) : 0 ∉ u ∧ u.length < LINESIZE := by
  induction turns generalizing file with
  | zero => cases h
  | succ turns ih =>
    rw [fgetsAll] at h
    split at h
    · cases h
    · rcases List.mem_cons.1 h with rfl | later
      · exact ⟨cstr_noNul _, delivered_short file⟩
      · exact ih later

/-- **No file takes either copy outside its arrays.** -/
theorem rdcolor_inside (file : List Byte) (sized : m.Sized) :
    (∃ colors, rdcolor file m = some colors ∧ colors.length = sslColors.length) ∧
      ∃ colors, dbgRdcolor file m = some colors ∧ colors.length = dbgColors.length := by
  constructor
  · obtain ⟨colors, e, length⟩ := readColors_inside sslColors
      (fun u h => fgetsAll_delivered h) sized (sslColors.map fun _ => [0])
    exact ⟨colors, e, length.trans (by simp)⟩
  · obtain ⟨colors, e, length⟩ := readColors_inside dbgColors
      (fun u h => fgetsAll_delivered h) sized (dbgColors.map fun _ => [0])
    exact ⟨colors, e, length.trans (by simp)⟩

end UnixProgramming.Ssl.Rdcolor
