import UnixProgramming.Dbg.Lines

/-!
# What a line says

The command that a line asks for, with a default for each part that is not
there, against the command that is made of it.

* `initdbg3_reads`: the lines that are read as they are written;
* `initdbg3_stores`: the lists of prerequisites that are stored as written.
-/

namespace UnixProgramming.Dbg

open Ssl (Byte isspace isdigit)
open Heap (DList)

/-! ## What is asked for -/

def Mark.select : Mark → Byte
  | plain => 32
  | bang => 33
  | plus => 43

/-- The selector and the name, of at most 65 characters. -/
def Token.preq (t : Token) : DBGPREQ := ⟨t.name.chars.take (FUNCBUF - 1), t.mark.select⟩

def CmdLine.numbers (l : CmdLine) : List Digits :=
  l.detail.toList ++ ((l.dtsts.map Prod.fst).toList ++ (l.dtsts.bind Prod.snd).toList)

/-- The command is what the line says; `dfl` stands where there is no `:nodfl`. -/
structure Means (l : CmdLine) (dfl : Bool) (g : Globals) (d : DBGCMD) : Prop where
  status : d.status = l.mode.status
  inherit : d.inherit = !l.star
  detail : d.detail = (l.detail.map fun n => (n.value : Int)).getD 0
  dbgdfl : d.dbgdfl = (!l.nodfl && dfl)
  dtst1 : d.dtst1 = ((l.dtsts.map Prod.fst).map fun n => (n.value : Int)).getD DBG_DTSTOFF
  dtst2 : d.dtst2 = ((l.dtsts.bind Prod.snd).map fun n => (n.value : Int)).getD DBG_DTSTOFF
  preqs : d.preqs.vals = l.preqs.map Token.preq
  npreq : d.npreq = l.preqs.length
  output : outputOf g d.dbgout = l.file.map fun f => some f.chars

/-- The list of the command is the one written. -/
structure Stores (l : CmdLine) (d : DBGCMD) : Prop where
  preqs : d.preqs.vals = l.preqs.map Token.preq
  npreq : d.npreq = d.preqs.vals.length

/-- When `initdbg3` comes to the current function, the database has a command
for the line of which this holds. -/
def ReadAs (l : CmdLine) (u : Unset) (buf : List Byte) (s : State)
    (Q : Globals → DBGCMD → Prop) : Prop :=
  ∃ d s', readLine u buf s = .ok (some d, s') ∧ findCmd s'.g.cmds l.name = some d ∧ Q s'.g d

theorem readAs_iff {l : CmdLine} {buf : List Byte} (written : l.Written buf) (u : Unset)
    {s : State} (linked : Linked s.g) {Q : Globals → DBGCMD → Prop} {C : Prop}
    (level : C → ¬ l.detailInt < 0) (fits : C → l.Inside)
    (made : ¬ l.detailInt < 0 → l.Inside →
      ∀ g d, Made l (inheritedDfl s.g.cmds.vals l.name) g d → (Q g d ↔ C)) :
    ReadAs l u buf s Q ↔ C := by
  have read := readLine_line written u linked
  split at read
  · rename_i fails
    obtain ⟨e, failed⟩ := read
    refine iff_of_false ?_ fun c => fails.elim (level c) fun outside => outside (fits c)
    rintro ⟨d, s', read, -⟩
    rw [failed] at read
    cases read
  · rename_i reads
    obtain ⟨notNegative, inside⟩ := not_or.1 reads
    replace inside := not_not.1 inside
    obtain ⟨d, s', read, found, is⟩ := read
    constructor
    · rintro ⟨d', s'', read', -, holds⟩
      rw [read] at read'
      cases read'
      exact (made notNegative inside _ _ is).1 holds
    · exact fun c => ⟨d, s', read, found, (made notNegative inside _ _ is).2 c⟩

/-! ## Prerequisites -/

/-- A `!` in front, or a letter. -/
def Token.Kept (t : Token) : Prop :=
  t.mark = .bang ∨ t.mark = .plain ∧ isalpha (t.name.chars.headD 0)

instance (t : Token) : Decidable t.Kept := inferInstanceAs (Decidable (_ ∨ _))

theorem preqOf_token (t : Token) : preqOf t.chars = some t.preq ↔ t.Kept := by
  obtain ⟨mark, name⟩ := t
  have first := name.first
  cases mark with
  | bang => exact iff_of_true rfl (.inl rfl)
  | plus =>
    -- the character behind the `+` is tested instead of the `+`
    have other : name.chars.headD 0 ≠ 43 := by
      intro plus
      rw [plus] at first
      exact absurd first (by decide)
    have none' : preqOf (Token.chars ⟨.plus, name⟩) = none := by
      change preqOf (43 :: name.chars) = none
      simpa [preqOf, isalpha] using other
    rw [none']
    simp [Token.Kept]
  | plain =>
    change preqOf name.chars = _ ↔ _
    rw [preqOf, if_neg (by simp only [Bool.and_eq_true, Bool.not_eq_true']; grind)]
    by_cases letter : isalpha (name.chars.headD 0)
    · rw [if_pos letter]
      exact iff_of_true rfl (.inr ⟨rfl, letter⟩)
    · have unkept : ¬ Token.Kept ⟨.plain, name⟩ := fun kept =>
        letter (kept.resolve_left (by simp)).2
      rw [if_neg letter]
      refine iff_of_false ?_ unkept
      intro same
      have select := congrArg DBGPREQ.select (Option.some.inj same)
      change name.chars.headD 0 = 32 at select
      rw [select] at first
      exact absurd first (by decide)

/-- Nothing is left over in front of the prerequisites, and each of them is kept. -/
structure CmdLine.Clean (l : CmdLine) : Prop where
  nodfl : l.nodfl = false
  star : l.star → l.behindStar ≠ []
  detail : l.mode = .keep → l.detail = none
  kept : ∀ t ∈ l.preqs, t.Kept

theorem CmdLine.clean_iff {l : CmdLine} : l.Clean ↔ l.left = [] ∧ ∀ t ∈ l.preqs, t.Kept := by
  rw [left_eq_nil]
  constructor
  · rintro ⟨nodfl, star, detail, kept⟩
    refine ⟨⟨?_, ?_, by simp [nodfl]⟩, kept⟩
    · simpa [bare] using star
    · rintro ⟨keep, written⟩
      rw [detail keep] at written
      cases written
  · rintro ⟨⟨bare, unasked, nodfl⟩, kept⟩
    exact ⟨by simpa using nodfl, by simpa [CmdLine.bare] using bare,
      by simpa using unasked, kept⟩

/-- With nothing left over it is the names that have to fit. -/
theorem CmdLine.Clean.inside {l : CmdLine} (clean : l.Clean) (fits : l.Fits) : l.Inside := by
  refine ⟨fits, fun w hw => ?_⟩
  rw [(CmdLine.clean_iff.1 clean).1] at hw
  cases hw

/-- The list is right in length only if nothing is left over. -/
theorem Made.stored {l : CmdLine} {dfl : Bool} {g : Globals} {d : DBGCMD} (made : Made l dfl g d) :
    d.preqs.vals = l.preqs.map Token.preq ∧ d.npreq = l.preqs.length ↔ l.Clean := by
  have length : (l.left ++ l.preqWords).length = l.preqs.length ↔ l.left = [] := by
    rw [List.length_append, CmdLine.preqWords, List.length_map, ← List.length_eq_zero_iff]
    omega
  rw [made.npreq, made.preqs, length, CmdLine.clean_iff, and_comm]
  refine and_congr_right fun clean => ?_
  rw [clean, List.nil_append, CmdLine.preqWords, List.filterMap_map,
    List.filterMap_eq_map_iff_forall_eq_some]
  exact forall₂_congr fun t _ => preqOf_token t

/-! ## Options -/

theorem Digits.dtst_eq_iff (n : Digits) : n.dtst = n.value ↔ n.value < 2 ^ 31 := by
  rw [← n.int_eq_iff, dtst]
  split
  · refine iff_of_false ?_ ?_
    · rw [DBG_DTSTOFF]
      omega
    · omega
  · rfl

theorem dtst_getD_iff (n : Option Digits) : (n.map Digits.dtst).getD DBG_DTSTOFF =
    (n.map fun n => (n.value : Int)).getD DBG_DTSTOFF ↔ ∀ m ∈ n, m.value < 2 ^ 31 := by
  cases n with
  | none => simp
  | some n => simpa using n.dtst_eq_iff

/-- The default level is 0 only at the end of a line, unless for a `keep`. -/
theorem CmdLine.detailInt_eq_iff {l : CmdLine} (clean : l.left = []) :
    l.detailInt = (l.detail.map fun n => (n.value : Int)).getD 0 ↔
      (l.mode ≠ .keep → l.detail = none → l.behindDetail = []) ∧
        ∀ n ∈ l.detail, n.value < 2 ^ 31 := by
  obtain ⟨bare, unasked, -⟩ := left_eq_nil.1 clean
  unfold detailInt
  by_cases keep : l.mode = .keep
  · have none' : l.detail = none := by simpa [keep] using unasked
    simp [keep, none']
  · rw [if_neg keep]
    cases l.detail with
    | some n => simpa [keep] using n.int_eq_iff
    | none => simp [keep, bare]

theorem Made.means {l : CmdLine} {dfl : Bool} {g : Globals} {d : DBGCMD} (made : Made l dfl g d) :
    Means l dfl g d ↔ l.Clean ∧ (l.mode ≠ .keep → l.detail = none → l.behindDetail = []) ∧
      ∀ n ∈ l.numbers, n.value < 2 ^ 31 := by
  have numbers : (∀ n ∈ l.numbers, n.value < 2 ^ 31) ↔ (∀ n ∈ l.detail, n.value < 2 ^ 31) ∧
      (∀ n ∈ l.dtsts.map Prod.fst, n.value < 2 ^ 31) ∧
      ∀ n ∈ l.dtsts.bind Prod.snd, n.value < 2 ^ 31 := by
    simp only [CmdLine.numbers, List.mem_append, Option.mem_toList, Option.mem_def, or_imp,
      forall_and]
  rw [numbers]
  constructor
  · intro is
    have clean := made.stored.1 ⟨is.preqs, is.npreq⟩
    have nothing := (CmdLine.clean_iff.1 clean).1
    obtain ⟨-, dtst1, dtst2⟩ := made.colons nothing
    obtain ⟨level, small⟩ :=
      (CmdLine.detailInt_eq_iff nothing).1 (made.detail.symm.trans is.detail)
    exact ⟨clean, level, small, (dtst_getD_iff _).1 (dtst1.symm.trans is.dtst1),
      (dtst_getD_iff _).1 (dtst2.symm.trans is.dtst2)⟩
  · rintro ⟨clean, level, small, small1, small2⟩
    have nothing := (CmdLine.clean_iff.1 clean).1
    obtain ⟨dfl', dtst1, dtst2⟩ := made.colons nothing
    obtain ⟨preqs, npreq⟩ := made.stored.2 clean
    have inherit : d.inherit = !l.star := by
      rw [made.inherit]
      have bare := (CmdLine.left_eq_nil.1 nothing).1
      simp [bare]
    exact
      { status := made.status
        inherit, preqs, npreq
        detail := made.detail.trans ((CmdLine.detailInt_eq_iff nothing).2 ⟨level, small⟩)
        dbgdfl := by rw [dfl', clean.nodfl]; rfl
        dtst1 := dtst1.trans ((dtst_getD_iff _).2 small1)
        dtst2 := dtst2.trans ((dtst_getD_iff _).2 small2)
        output := made.output }

/-! ## Lines that are read as written -/

/-- **The lines that `initdbg3` reads as they are written**: with names that fit into
its buffers, without `:nodfl`, with something behind a `*`, a detail level just
where one is read, `!` names and names that begin with a letter, and no number
that an `int` does not hold. -/
theorem initdbg3_reads {l : CmdLine} {buf : List Byte} (written : l.Written buf) (env : Env)
    (u : Unset) {s : State} (linked : Linked s.g) :
    (initdbg3 env u buf s = (readLine u buf s).bind fun (d, s) => refresh env d s) ∧
    (ReadAs l u buf s (Means l (inheritedDfl s.g.cmds.vals l.name)) ↔
      l.Fits ∧ l.Clean ∧ (l.mode ≠ .keep → l.detail = none → l.behindDetail = []) ∧
        ∀ n ∈ l.numbers, n.value < 2 ^ 31) := by
  refine ⟨initdbg3_eq .., readAs_iff written u linked ?_ (fun c => c.2.1.inside c.1)
    fun _ inside g d made => made.means.trans (and_iff_right inside.1).symm⟩
  rintro ⟨-, clean, level, small⟩
  have nothing := (CmdLine.clean_iff.1 clean).1
  have detail : ∀ n ∈ l.detail, n.value < 2 ^ 31 := fun n hn =>
    small n (List.mem_append_left _ (Option.mem_toList.2 hn))
  rw [(CmdLine.detailInt_eq_iff nothing).2 ⟨level, detail⟩]
  cases l.detail <;> simp

/-- `on f * 2 :3 main !g >out` -/
def fullLine : CmdLine where
  mode := .on
  funcname := ⟨text "f", by decide, by decide⟩
  star := true
  detail := some ⟨text "2", by decide, by decide⟩
  nodfl := false
  dtsts := some (⟨text "3", by decide, by decide⟩, none)
  preqs := [⟨.plain, text "main", by decide, by decide⟩, ⟨.bang, text "g", by decide, by decide⟩]
  file := some ⟨text "out", by decide, by decide⟩

theorem initdbg3_reads_full :
    ReadAs fullLine .zero (List.intercalate [32] fullLine.words) (.initial .stdout)
      (Means fullLine true) := by
  have read := initdbg3_reads fullLine.written .zero .zero (linked_initial .stdout)
  exact read.2.2 ⟨by decide, ⟨rfl, by decide, nofun, by decide⟩, nofun, by decide⟩

/-- `on f 1 :nodfl` -/
def nodflLine : CmdLine where
  mode := .on
  funcname := ⟨text "f", by decide, by decide⟩
  star := false
  detail := some ⟨text "1", by decide, by decide⟩
  nodfl := true
  dtsts := none
  preqs := []
  file := none

/-- `fl` is taken for a prerequisite. -/
theorem nodfl_unread : nodflLine.Written (text "on f 1 :nodfl") ∧
    ¬ ReadAs nodflLine .zero (text "on f 1 :nodfl") (.initial .stdout) (Means nodflLine true) := by
  refine ⟨nodflLine.written, ?_⟩
  rintro ⟨d, s', read, -, means⟩
  cases read
  exact absurd means.npreq (by decide)

/-- **The lists of prerequisites that are stored as written**: those of `!` names and
names that begin with a letter, where the options leave nothing over and all
names fit into the buffers. -/
theorem initdbg3_stores {l : CmdLine} {buf : List Byte} (written : l.Written buf) (env : Env)
    (u : Unset) {s : State} (linked : Linked s.g) :
    (initdbg3 env u buf s = (readLine u buf s).bind fun (d, s) => refresh env d s) ∧
    (ReadAs l u buf s (fun _ => Stores l) ↔
      l.Fits ∧ l.Clean ∧ ∀ n ∈ l.detail, 0 ≤ n.int) := by
  have level (clean : l.Clean) : ¬ l.detailInt < 0 ↔ ∀ n ∈ l.detail, 0 ≤ n.int := by
    unfold CmdLine.detailInt
    by_cases keep : l.mode = .keep
    · simp [keep, clean.detail keep]
    · rw [if_neg keep]
      cases l.detail with
      | some n => simp
      | none =>
        have fallback : ¬ (if !l.bare && l.behindDetail.isEmpty then (0 : Int) else 1) < 0 := by
          split <;> decide
        simpa using fallback
  refine ⟨initdbg3_eq .., readAs_iff written u linked ?_ (fun c => c.2.1.inside c.1)
    fun notNegative inside g d made => ?_⟩
  · rintro ⟨-, clean, small⟩
    exact (level clean).2 small
  · constructor
    · rintro ⟨preqs, npreq⟩
      have clean := made.stored.1 ⟨preqs, by rw [npreq, preqs, List.length_map]⟩
      exact ⟨inside.1, clean, (level clean).1 notNegative⟩
    · rintro ⟨-, clean, -⟩
      obtain ⟨preqs, npreq⟩ := made.stored.2 clean
      exact ⟨preqs, by rw [npreq, preqs, List.length_map]⟩

theorem initdbg3_stores_full :
    ReadAs fullLine .zero (List.intercalate [32] fullLine.words) (.initial .stdout)
      (fun _ => Stores fullLine) := by
  have stored := initdbg3_stores fullLine.written .zero .zero (linked_initial .stdout)
  exact stored.2.2 ⟨by decide, ⟨rfl, by decide, nofun, by decide⟩, by decide⟩

/-- `on f 1 +g _h` -/
def markedLine : CmdLine where
  mode := .on
  funcname := ⟨text "f", by decide, by decide⟩
  star := false
  detail := some ⟨text "1", by decide, by decide⟩
  nodfl := false
  dtsts := none
  preqs := [⟨.plus, text "g", by decide, by decide⟩, ⟨.plain, text "_h", by decide, by decide⟩]
  file := none

/-- `+g` is counted but refused, and `_h` is stored as `h` with the selector `_`. -/
theorem marked_unstored : markedLine.Written (text "on f 1 +g _h") ∧
    ¬ ReadAs markedLine .zero (text "on f 1 +g _h") (.initial .stdout)
      (fun _ => Stores markedLine) := by
  refine ⟨markedLine.written, ?_⟩
  rintro ⟨d, s', read, -, stored⟩
  cases read
  exact absurd stored.npreq (by decide)

end UnixProgramming.Dbg
