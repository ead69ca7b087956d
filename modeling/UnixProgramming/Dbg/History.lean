import UnixProgramming.Dbg.Lines
import UnixProgramming.Dbg.Redirect
import UnixProgramming.Heap.Keyed

/-!
# The history of the command database

What the database holds for a function after any number of lines, against the
last of them that is about it.

* `readCommand_akin`: a line is read in the same way in every state;
* `step_keyed`: what a line does to the database as a map from names;
* `run_history`: so what the database holds.
-/

namespace UnixProgramming.Dbg

open Runs
open Ssl (Byte stpblk stpnxt isspace)
open Heap (DList Keyed lookup)

/-! ## Commands that say the same -/

/-- Two commands that say the same, wherever their lists are, but for the output
and the flag that is inherited from the command before. -/
structure Akin (d d' : DBGCMD) : Prop where
  funcname : d'.funcname = d.funcname
  status : d'.status = d.status
  inherit : d'.inherit = d.inherit
  detail : d'.detail = d.detail
  dtst1 : d'.dtst1 = d.dtst1
  dtst2 : d'.dtst2 = d.dtst2
  preqs : ∃ cells cells', d.preqs.Is cells ∧ d'.preqs.Is cells' ∧
    cells'.map Prod.snd = cells.map Prod.snd

section
variable {d d' : DBGCMD}

theorem Akin.vals (h : Akin d d') : d'.preqs.vals = d.preqs.vals := by
  obtain ⟨cells, cells', linked, linked', same⟩ := h.preqs
  rw [Heap.DList.vals_eq linked, Heap.DList.vals_eq linked', same]

theorem skipStar_akin (akin : Akin d d') (b : List Byte) :
    (skipStar d' b).2 = (skipStar d b).2 ∧ Akin (skipStar d b).1 (skipStar d' b).1 := by
  unfold skipStar
  split
  · exact ⟨rfl, { akin with inherit := rfl }⟩
  · exact ⟨rfl, akin⟩

theorem readDetail_akin (akin : Akin d d') {b rest : List Byte} {e : DBGCMD}
    (h : readDetail d b = .ok (e, rest)) :
    ∃ e', readDetail d' b = .ok (e', rest) ∧ Akin e e' := by
  unfold readDetail at h ⊢
  rw [akin.status]
  split at h
  · rename_i active
    rw [if_pos active]
    extract_lets at h ⊢
    split at h
    · cases h
    · rename_i natural
      cases h
      rw [if_neg natural]
      exact ⟨_, rfl, { akin with status := rfl, detail := rfl }⟩
  · rename_i inactive
    cases h
    rw [if_neg inactive]
    exact ⟨d', rfl, akin⟩

theorem parseDetail_akin (akin : Akin d d') {buf b : List Byte} {e : DBGCMD}
    (h : parseDetail buf d = .ok (e, b)) :
    ∃ e', parseDetail buf d' = .ok (e', b) ∧ Akin e e' := by
  rw [parseDetail_eq] at h ⊢
  dsimp only at h ⊢
  rw [akin.status]
  split at h
  · rename_i on
    obtain ⟨rest, star⟩ := skipStar_akin akin ((stpnxt buf fmtSSB).getD [])
    rw [if_pos on, rest]
    exact readDetail_akin star h
  · rename_i off
    cases h
    rw [if_neg off]
    refine ⟨_, rfl, ?_⟩
    split
    · exact { akin with status := rfl }
    · exact akin

theorem readDtsts_akin (akin : Akin d d') (b : List Byte) :
    (readDtsts d' b).2 = (readDtsts d b).2 ∧ Akin (readDtsts d b).1 (readDtsts d' b).1 := by
  unfold readDtsts
  rw [akin.dtst1, akin.dtst2]
  split
  · dsimp only
    split
    · exact ⟨rfl, { akin with dtst1 := rfl, dtst2 := rfl }⟩
    · exact ⟨rfl, { akin with dtst1 := rfl, dtst2 := rfl }⟩
  · exact ⟨rfl, akin⟩

theorem parseColons_akin (akin : Akin d d') (b : List Byte) :
    (parseColons d' b).2 = (parseColons d b).2 ∧ Akin (parseColons d b).1 (parseColons d' b).1 := by
  rw [parseColons_eq, parseColons_eq]
  split
  · have akin : Akin { d with dbgdfl := false } { d' with dbgdfl := false } :=
      { akin with funcname := akin.funcname }
    exact readDtsts_akin akin _
  · exact readDtsts_akin akin b

theorem parsePreqs_akin {turns : Nat} (akin : Akin d d') (npreq : d'.npreq = d.npreq)
    {b modebuf rest last : List Byte} {e : DBGCMD} {s s' t : State}
    (h : parsePreqs turns d b modebuf s = .ok (e, rest, last, t)) :
    ∃ e' t', parsePreqs turns d' b modebuf s' = .ok (e', rest, last, t') ∧ Akin e e' ∧
      e'.npreq = e.npreq := by
  induction turns generalizing d d' b modebuf s s' with
  | zero =>
    cases h
    exact ⟨d', s', rfl, akin, npreq⟩
  | succ turns ih =>
    rw [parsePreqs_succ] at h ⊢
    split at h
    · rename_i ended
      cases h
      rw [if_pos ended]
      exact ⟨d', s', rfl, akin, npreq⟩
    rename_i more
    rw [if_neg more]
    dsimp only at h ⊢
    split at h
    · cases h
    rename_i short
    rw [if_neg short]
    cases preq : preqOf ((sscanfS b).getD modebuf) with
    | none =>
      simp only [preq] at h ⊢
      have akin : Akin { d with npreq := d.npreq + 1 } { d' with npreq := d'.npreq + 1 } :=
        { akin with funcname := akin.funcname }
      exact ih akin (congrArg (· + 1) npreq) h
    | some p =>
      simp only [preq] at h ⊢
      obtain ⟨cells, cells', linked, linked', same⟩ := akin.preqs
      have akin : Akin { d with npreq := d.npreq + 1, preqs := d.preqs.append p }
          { d' with npreq := d'.npreq + 1, preqs := d'.preqs.append p } := by
        refine { akin with preqs := ⟨_, _, Heap.DList.append_is linked p,
          Heap.DList.append_is linked' p, ?_⟩ }
        rw [List.map_append, List.map_append, same]
        rfl
      exact ih akin (congrArg (· + 1) npreq) h

/-- Reading the prerequisites only warns. -/
theorem parsePreqs_outs {turns : Nat} {b modebuf rest last : List Byte} {s t : State}
    (h : parsePreqs turns d b modebuf s = .ok (d', rest, last, t)) :
    t.g.outs = s.g.outs ∧ t.thrd = s.thrd := by
  induction turns generalizing d b modebuf s with
  | zero =>
    cases h
    exact ⟨rfl, rfl⟩
  | succ turns ih =>
    rw [parsePreqs_succ] at h
    split at h
    · cases h
      exact ⟨rfl, rfl⟩
    · dsimp only at h
      split at h
      · cases h
      · split at h
        · have warned := ih h
          exact warned
        · exact ih h

end

/-! ## Output files -/

/-- All outputs are at addresses that have been given away. -/
def Allocated (outs : DList DBGOUT) : Prop := ∀ a, (outs.val? a).isSome → a < outs.brk

/-- Each output is still for the file that it was for. -/
def NamesKept (outs outs' : DList DBGOUT) : Prop :=
  ∀ a fname, (outs.val? a).map DBGOUT.filename = some fname →
    (outs'.val? a).map DBGOUT.filename = some fname

/-- Outputs are added and opened only. -/
structure Grows (outs outs' : DList DBGOUT) : Prop where
  allocated : Allocated outs'
  names : NamesKept outs outs'

theorem Grows.refl {outs : DList DBGOUT} (allocated : Allocated outs) : Grows outs outs :=
  ⟨allocated, fun _ _ => id⟩

theorem Grows.trans {outs outs' outs'' : DList DBGOUT} (h : Grows outs outs')
    (h' : Grows outs' outs'') : Grows outs outs'' :=
  ⟨h'.allocated, fun a fname there => h'.names a fname (h.names a fname there)⟩

theorem Grows.append {outs : DList DBGOUT} (allocated : Allocated outs) (o : DBGOUT) :
    Grows outs (outs.append o) := by
  have other {a : Nat} (old : a ≠ outs.brk) :
      (outs.append o).val? a = outs.val? a := by
    rw [DList.val?, DList.val?, DList.append]
    simp only [if_neg old]
    split
    · rw [DList.setNxt]
      dsimp only
      split
      · rw [Option.map_map]
        rfl
      · rfl
    · rfl
  constructor
  · intro a there
    by_cases new : a = outs.brk
    · rw [new]
      exact Nat.lt_succ_self _
    · rw [other new] at there
      exact Nat.lt_succ_of_lt (allocated a there)
  · intro a fname there
    have old : a ≠ outs.brk := by
      rintro rfl
      obtain ⟨o', there', -⟩ := Option.map_eq_some_iff.1 there
      exact Nat.lt_irrefl _ (allocated _ (by rw [there']; rfl))
    rwa [other old]

/-- The file that a command is for, where the line is behind its prerequisites. -/
def fileNamed (b modebuf : List Byte) : Option (Option (List Byte)) :=
  if b.head? = some 62 then some (some ((sscanfS b.tail).getD modebuf)) else none

theorem outputOf_grows {g g' : Globals} (grows : Grows g.outs g'.outs) {b modebuf : List Byte}
    {dbgout : Option Nat} (h : outputOf g dbgout = fileNamed b modebuf) :
    outputOf g' dbgout = fileNamed b modebuf := by
  rw [← h]
  unfold fileNamed at h
  split at h
  · obtain ⟨a, rfl, there⟩ := Option.map_eq_some_iff.1 h
    rw [outputOf, outputOf, Option.map_some, Option.map_some, there, grows.names a _ there]
  · rw [outputOf, Option.map_eq_none_iff] at h
    rw [h]
    rfl

/-- What reading an output changes, and that it is read in every state. -/
theorem parseOut_reads {d e : DBGCMD} {b modebuf : List Byte} {s t : State}
    (h : parseOut d b modebuf s = .ok (e, t)) (allocated : Allocated s.g.outs) :
    e = { d with dbgout := e.dbgout } ∧ outputOf t.g e.dbgout = fileNamed b modebuf ∧
      Grows s.g.outs t.g.outs ∧ t.thrd = s.thrd ∧
      ∀ d' s', ∃ e' t', parseOut d' b modebuf s' = .ok (e', t') := by
  unfold parseOut at h
  unfold fileNamed
  dsimp only at h
  split at h
  · rename_i file
    rw [if_pos file]
    split at h
    · cases h
    rename_i short
    have every : ∀ d' s', ∃ e' t', parseOut d' b modebuf s' = .ok (e', t') := by
      intro d' s'
      unfold parseOut
      dsimp only
      rw [if_pos file, if_neg short]
      split <;> exact ⟨_, _, rfl⟩
    split at h
    · rename_i a o found
      cases h
      obtain ⟨there, same⟩ := Heap.DList.find_some found
      refine ⟨rfl, ?_, .refl allocated, rfl, ?_⟩
      · rw [outputOf, Option.map_some, there]
        simpa using same
      · exact every
    · cases h
      refine ⟨rfl, ?_, .append allocated _, rfl, ?_⟩
      · rw [outputOf, Option.map_some]
        exact congrArg (fun o => some (Option.map DBGOUT.filename o)) (Heap.DList.append_val? ..)
      · exact every
  · rename_i nowhere
    cases h
    rw [if_neg nowhere]
    exact ⟨rfl, rfl, .refl allocated, rfl, fun d' s' => ⟨_, s', if_neg nowhere⟩⟩

/-! ## Reading a command -/

theorem modeStatus_eq {modebuf : List Byte} (noThrd : modebuf ≠ text "thrd") (a b : Status) :
    modeStatus modebuf a = modeStatus modebuf b := by
  unfold modeStatus
  rw [if_neg noThrd, if_neg noThrd]

theorem defaults_akin {d d' : DBGCMD} {modebuf : List Byte} (noThrd : modebuf ≠ text "thrd")
    (same : d'.funcname = d.funcname) (none' : d.preqs.Is []) (none'' : d'.preqs.Is [])
    (prv prv' : Option DBGCMD) : Akin (defaults modebuf prv d) (defaults modebuf prv' d') where
  funcname := same
  status := modeStatus_eq noThrd _ _
  inherit := rfl
  detail := rfl
  dtst1 := rfl
  dtst2 := rfl
  preqs := ⟨[], [], none', none'', rfl⟩

/-- **A command is read in the same way in every state.** -/
theorem readCommand_akin {u : Unset} {buf modebuf fnamebuf : List Byte} {s t : State} {d : DBGCMD}
    (noThrd : modebuf ≠ text "thrd") (linked : Linked s.g) (allocated : Allocated s.g.outs)
    (h : readCommand u buf modebuf fnamebuf s = .ok (d, t)) :
    ∃ b last, outputOf t.g d.dbgout = fileNamed b last ∧ Grows s.g.outs t.g.outs ∧
      t.thrd = s.thrd ∧ ∀ u' s', Linked s'.g → Allocated s'.g.outs → ∃ d' t',
        readCommand u' buf modebuf fnamebuf s' = .ok (d', t') ∧ Akin d d' ∧
        d'.npreq = d.npreq ∧ outputOf t'.g d'.dbgout = fileNamed b last := by
  obtain ⟨cells, db⟩ := linked
  obtain ⟨p, d₀, s₀, -, -, alloc, name, empty, -, outs₀, thrd₀, -, -⟩ := allocCmd_held db u fnamebuf
  obtain ⟨d₁, b₁, d₂, b₂, last, s₂, s₃, detail, preqs, out, rfl⟩ := readCommand_stages alloc h
  rw [if_neg noThrd] at preqs
  obtain ⟨outs₂, thrd₂⟩ := parsePreqs_outs preqs
  obtain ⟨made, output, grows, thrd₃, every⟩ := parseOut_reads out (by rwa [outs₂, outs₀])
  refine ⟨b₂, last, output, by rwa [outs₂, outs₀] at grows,
    thrd₃.trans (thrd₂.trans thrd₀), ?_⟩
  rintro u' s' ⟨cells', db'⟩ allocated'
  obtain ⟨p', d₀', s₀', -, -, alloc', name', empty', -, outs₀', -, -, -⟩ :=
    allocCmd_held db' u' fnamebuf
  unfold readCommand
  simp only [alloc', if_neg noThrd]
  have akin₀ := defaults_akin noThrd (name'.trans name.symm) empty empty'
    (prvCmd s₀.g.cmds p) (prvCmd s₀'.g.cmds p')
  obtain ⟨d₁', detail', akin₁⟩ := parseDetail_akin akin₀ detail
  obtain ⟨rest, akin₂⟩ := parseColons_akin akin₁ b₁
  have akin₂ : Akin { (parseColons d₁ b₁).1 with npreq := 0 }
      { (parseColons d₁' b₁).1 with npreq := 0 } :=
    { akin₂ with funcname := akin₂.funcname }
  obtain ⟨d₂', s₂', preqs', akin₃, npreq⟩ := parsePreqs_akin akin₂ rfl preqs
  obtain ⟨d₃', s₃', out'⟩ := every d₂' s₂'
  obtain ⟨made', output', -⟩ := parseOut_reads out'
    (by rwa [(parsePreqs_outs preqs').1, outs₀'])
  refine ⟨d₃', setCmds s₃' (s₃'.g.cmds.modify p' fun _ => d₃'), ?_, ?_, ?_, output'⟩
  · rw [detail', Except.bind]
    dsimp only
    rw [rest, preqs', Except.bind]
    dsimp only
    rw [out']
    rfl
  · rw [made, made']
    exact { akin₃ with funcname := akin₃.funcname }
  · rw [made, made']
    exact npreq

/-! ## The database as a map -/

theorem findCmd_lookup {cmds : DList DBGCMD} {cells : List (Nat × DBGCMD)}
    (keyed : Keyed DBGCMD.funcname cmds cells) (funcname : List Byte) :
    findCmd cmds funcname = lookup DBGCMD.funcname cells funcname := keyed.find funcname

/-- The cell that a line is about, among the others. -/
theorem allocCmd_keyed {s s' : State} {cells : List (Nat × DBGCMD)} {p : Nat} {d : DBGCMD}
    (keyed : Keyed DBGCMD.funcname s.g.cmds cells) {u : Unset} {funcname : List Byte}
    (h : allocCmd u funcname (s.g.cmds.find fun d => d.funcname == funcname) s = (p, d, s')) :
    ∃ l old r, Keyed DBGCMD.funcname s'.g.cmds (l ++ (p, old) :: r) ∧ old.funcname = funcname ∧
      ∀ f, funcname ≠ f → lookup DBGCMD.funcname (l ++ (p, old) :: r) f =
        lookup DBGCMD.funcname cells f := by
  have search : s.g.cmds.find (fun d => d.funcname == funcname) =
      cells.find? fun cell => cell.2.funcname == funcname := by
    rw [DList.find_eq, DList.toList_eq keyed.linked]
  rw [search] at h
  rcases found : cells.find? fun cell => cell.2.funcname == funcname with _ | ⟨q, old⟩
  · rw [found] at h
    cases h
    have new : lookup DBGCMD.funcname cells funcname = none := by rw [lookup, found]; rfl
    obtain ⟨keyed, looked⟩ := keyed.append
      (x := { u.cmd with funcname := funcname, preqs := DList.empty, dbgout := none }) new
    refine ⟨cells, _, [], keyed, rfl, fun f other => ?_⟩
    rw [looked, if_neg (by simpa using other)]
  · rw [found] at h
    cases h
    obtain ⟨name, l, r, rfl, -⟩ := List.find?_eq_some_iff_append.1 found
    exact ⟨l, old, r, keyed, eq_of_beq name, fun f _ => rfl⟩

/-- **A command is stored under its name**, and nothing else changes. -/
theorem readCommand_keyed {u : Unset} {buf modebuf fnamebuf : List Byte} {s t : State} {d : DBGCMD}
    {cells : List (Nat × DBGCMD)} (linked : Linked s.g)
    (keyed : Keyed DBGCMD.funcname s.g.cmds cells)
    (h : readCommand u buf modebuf fnamebuf s = .ok (d, t)) :
    ∃ cells', Keyed DBGCMD.funcname t.g.cmds cells' ∧
      ∀ f, lookup DBGCMD.funcname cells' f =
        if fnamebuf = f then some d else lookup DBGCMD.funcname cells f := by
  obtain ⟨cells₀, db⟩ := linked
  obtain ⟨p, d₀, s₀, -, -, alloc, name, -⟩ := allocCmd_held db u fnamebuf
  obtain ⟨l, old, r, keyed₀, named, others⟩ := allocCmd_keyed keyed alloc
  obtain ⟨same', cmds⟩ := readCommand_stored alloc h
  have same : d.funcname = fnamebuf := same'.trans name
  obtain ⟨keyed', looked⟩ := keyed₀.modify (x := d) (same.trans named.symm)
  refine ⟨_, cmds ▸ keyed', fun f => ?_⟩
  rw [looked, same]
  by_cases there : fnamebuf = f
  · rw [if_pos there, if_pos (by simpa using there)]
  · rw [if_neg there, if_neg (by simpa using there), others f there]

/-- **Deleting** takes out one name, or all of them. -/
theorem del_keyed {s : State} {cells : List (Nat × DBGCMD)}
    (keyed : Keyed DBGCMD.funcname s.g.cmds cells) (fnamebuf : List Byte) :
    ∃ cells', Keyed DBGCMD.funcname
        (del fnamebuf (s.g.cmds.find fun d => d.funcname == fnamebuf) s).g.cmds cells' ∧
      ∀ f, lookup DBGCMD.funcname cells' f =
        if fnamebuf = text "*" ∨ fnamebuf = f then none else lookup DBGCMD.funcname cells f := by
  have search : s.g.cmds.find (fun d => d.funcname == fnamebuf) =
      cells.find? fun cell => cell.2.funcname == fnamebuf := by
    rw [DList.find_eq, DList.toList_eq keyed.linked]
  unfold del
  rw [search]
  by_cases all : fnamebuf = text "*"
  · rw [if_pos all]
    refine ⟨[], ⟨deleteAll_is keyed.linked, List.nodup_nil⟩, fun f => ?_⟩
    rw [if_pos (.inl all)]
    rfl
  rw [if_neg all]
  rcases found : cells.find? fun cell => cell.2.funcname == fnamebuf with _ | ⟨p, d⟩
  · rw [found]
    refine ⟨cells, keyed, fun f => ?_⟩
    split
    · rename_i there
      rw [lookup, ← there.resolve_left all, found]
      rfl
    · rfl
  · rw [found]
    obtain ⟨name, l, r, rfl, -⟩ := List.find?_eq_some_iff_append.1 found
    obtain ⟨keyed', looked⟩ := keyed.delete
    refine ⟨l ++ r, keyed', fun f => ?_⟩
    rw [looked, eq_of_beq name]
    by_cases there : fnamebuf = f
    · rw [if_pos (by simpa using there), if_pos (.inr there)]
    · rw [if_neg (by simpa using there), if_neg fun gone => there (gone.resolve_left all)]

/-! ## Words that fit their arrays -/

/-- No word is too long for `modebuf` and `fnamebuf`. -/
def ShortWords (b : List Byte) : Prop := ∀ w, IsWord w → w <:+: b → w.length < DBGBUF

theorem ShortWords.behind {b rest : List Byte} (short : ShortWords b) (behind : rest <:+ b) :
    ShortWords rest := fun w word there => short w word (there.trans behind.isInfix)

theorem sscanfS_word {s w : List Byte} (h : sscanfS s = some w) : IsWord w ∧ w <:+: s := by
  unfold sscanfS at h
  dsimp only at h
  split at h
  · cases h
  · rename_i some'
    cases h
    refine ⟨⟨by simpa using some', fun c there => ?_⟩, ?_⟩
    · simpa using List.mem_takeWhile_imp there
    · exact (List.takeWhile_prefix _).isInfix.trans (Ssl.stpblk_suffix s).isInfix

theorem ShortWords.read {s : List Byte} (short : ShortWords s) {w : List Byte}
    (h : w.length < DBGBUF) : ((sscanfS s).getD w).length < DBGBUF := by
  cases read : sscanfS s with
  | none => exact h
  | some w' =>
    obtain ⟨word, there⟩ := sscanfS_word read
    exact short w' word there

theorem stpnxt_behind (s fmt : List Byte) : (stpnxt s fmt).getD [] <:+ s := by
  cases next : stpnxt s fmt with
  | none => exact List.nil_suffix
  | some t => exact Ssl.stpnxt_suffix next

theorem parseDetail_behind {buf b : List Byte} {d e : DBGCMD}
    (h : parseDetail buf d = .ok (e, b)) : b <:+ buf := by
  have first := stpnxt_behind buf fmtSSB
  have star (b : List Byte) : (skipStar d b).2 <:+ b := by
    unfold skipStar
    split
    · exact (Ssl.stpblk_suffix _).trans (List.drop_suffix 2 b)
    · exact List.suffix_refl b
  rw [parseDetail_eq] at h
  dsimp only at h
  split at h
  · refine List.IsSuffix.trans ?_ ((star _).trans first)
    unfold readDetail at h
    split at h
    · extract_lets detail at h
      split at h
      · cases h
      · cases h
        split
        · exact stpnxt_behind _ _
        · exact List.suffix_refl _
    · cases h
      exact List.suffix_refl _
  · cases h
    exact first

theorem parseColons_behind (d : DBGCMD) (b : List Byte) : (parseColons d b).2 <:+ b := by
  have dtst (b : List Byte) (n : Int) : (parseDtst b.tail n).2 <:+ b :=
    (stpnxt_behind _ _).trans ((Ssl.stpblk_suffix _).trans (List.tail_suffix b))
  have dtsts (d : DBGCMD) (b : List Byte) : (readDtsts d b).2 <:+ b := by
    unfold readDtsts
    split
    · dsimp only
      split
      · exact (dtst _ d.dtst2).trans (dtst b d.dtst1)
      · exact dtst b d.dtst1
    · exact List.suffix_refl b
  rw [parseColons_eq]
  split
  · refine (dtsts _ _).trans ((Ssl.stpblk_suffix _).trans ((List.drop_suffix _ _).trans ?_))
    exact (Ssl.stpblk_suffix _).trans (List.tail_suffix b)
  · exact dtsts d b

theorem parsePreqs_inside (turns : Nat) {d : DBGCMD} {b modebuf : List Byte} {s : State}
    (short : ShortWords b) (mode : modebuf.length < DBGBUF) :
    parsePreqs turns d b modebuf s ≠ .error .outside ∧
      ∀ e rest last t, parsePreqs turns d b modebuf s = .ok (e, rest, last, t) →
        rest <:+ b ∧ last.length < DBGBUF := by
  induction turns generalizing d b modebuf s with
  | zero =>
    refine ⟨nofun, ?_⟩
    rintro e rest last t ⟨⟩
    exact ⟨List.suffix_refl _, mode⟩
  | succ turns ih =>
    rw [parsePreqs_succ]
    split
    · refine ⟨nofun, ?_⟩
      rintro e rest last t ⟨⟩
      exact ⟨List.suffix_refl _, mode⟩
    have fits := short.read mode
    have next := stpnxt_behind b fmtSB
    dsimp only
    rw [if_neg (by omega)]
    cases preqOf ((sscanfS b).getD modebuf) with
    | none =>
      obtain ⟨inside, read⟩ := ih (d := { d with npreq := d.npreq + 1 })
        (s := s.warn (.badPrerequisite ((sscanfS b).getD modebuf))) (short.behind next) fits
      refine ⟨inside, fun e rest last t h => ?_⟩
      obtain ⟨behind, small⟩ := read e rest last t h
      exact ⟨behind.trans next, small⟩
    | some p =>
      have cut : (if isalpha (((sscanfS b).getD modebuf).headD 0) then
          ((sscanfS b).getD modebuf).take (FUNCBUF - 1)
          else ((sscanfS b).getD modebuf).take FUNCBUF).length < DBGBUF := by
        split
        · exact (List.length_take_le _ _).trans_lt (by decide)
        · exact (List.length_take_le _ _).trans_lt (by decide)
      obtain ⟨inside, read⟩ := ih (d := { d with npreq := d.npreq + 1, preqs := d.preqs.append p })
        (s := s) (short.behind next) cut
      refine ⟨inside, fun e rest last t h => ?_⟩
      obtain ⟨behind, small⟩ := read e rest last t h
      exact ⟨behind.trans next, small⟩

theorem parseOut_inside {d : DBGCMD} {b modebuf : List Byte} {s : State} (short : ShortWords b)
    (mode : modebuf.length < DBGBUF) : parseOut d b modebuf s ≠ .error .outside := by
  have fits := (short.behind (List.tail_suffix b)).read mode
  unfold parseOut
  dsimp only
  split
  · rw [if_neg (by omega)]
    split <;> nofun
  · nofun

theorem readCommand_inside (u : Unset) {buf modebuf : List Byte} (fnamebuf : List Byte) (s : State)
    (short : ShortWords buf) (mode : modebuf.length < DBGBUF) :
    readCommand u buf modebuf fnamebuf s ≠ .error .outside := by
  unfold readCommand
  dsimp only
  refine bind_ne ?_ fun ⟨d, b⟩ detail => ?_
  · rw [parseDetail_eq]
    dsimp only
    split
    · unfold readDetail
      split
      · extract_lets detail
        split <;> nofun
      · nofun
    · nofun
  have behind := (parseColons_behind d b).trans (parseDetail_behind detail)
  obtain ⟨inside, read⟩ := parsePreqs_inside ((parseColons d b).2.length + 1)
    (d := { (parseColons d b).1 with npreq := 0 }) (short.behind behind) mode
  refine bind_ne inside fun ⟨d', rest, last, t⟩ preqs => ?_
  obtain ⟨behind', small⟩ := read _ _ _ _ preqs
  exact map_ne (parseOut_inside (short.behind (behind'.trans behind)) small)

/-! ## Lines -/

/-- What is read of a line: no comment and no blanks at the end. -/
def stripped (buf : List Byte) : List Byte := srmtrblk (buf.takeWhile (· ≠ 35))

/-- The first two words of a line. -/
def heading (buf : List Byte) : Option (List Byte × List Byte) :=
  (sscanfS (stripped buf)).bind fun mode =>
    (sscanfS ((stpblk (stripped buf)).dropWhile (!isspace ·))).map fun fname => (mode, fname)

/-- The first two words of a line without a comment. -/
theorem Spaced.heading {w w' : List Byte} {ws : List (List Byte)} {buf : List Byte}
    (h : Spaced (w :: w' :: ws) buf) (uncommented : ∀ u ∈ w :: w' :: ws, (35 : Byte) ∉ u) :
    heading buf = some (w, w') := by
  have hash : ∀ c ∈ buf, c ≠ 35 := by
    refine h.forall_mem (fun c blank => ?_) fun u there c inner => ?_
    · rintro rfl
      exact absurd blank (by decide)
    · rintro rfl
      exact uncommented u there inner
  have uncut : stripped buf = buf := by
    have whole : buf.takeWhile (· ≠ 35) = buf :=
      List.takeWhile_eq_self_iff.2 fun c there => by simpa using hash c there
    have last : srmtrblk (buf ++ []) = buf := srmtrblk_append h.getLast?_not_blank nofun
    rw [List.append_nil] at last
    rw [stripped, whole, last]
  obtain ⟨gap, rest, blank, second, behind, -⟩ := h.rest_eq
  have first : sscanfS buf = some w := h.sscanfS_eq blanks_nil
  have start : stpblk buf = buf := h.stpblk_eq blanks_nil
  rw [Dbg.heading, uncut, first, start, behind, Option.bind_some, second.sscanfS_eq blank]
  rfl

/-- A line of at least two words that is no `thrd`. -/
structure DbgLine where
  buf : List Byte
  mode : List Byte
  fname : List Byte
  heading : heading buf = some (mode, fname)
  noThrd : mode ≠ text "thrd"

namespace DbgLine

variable (l : DbgLine)

/-- The function that the line is about. -/
def name : List Byte := l.fname.take (FUNCBUF - 1)

/-- All its words fit their arrays. -/
def Short : Prop := ShortWords (stripped l.buf)

theorem words : sscanfS (stripped l.buf) = some l.mode ∧
    sscanfS ((stpblk (stripped l.buf)).dropWhile (!isspace ·)) = some l.fname := by
  obtain ⟨mode, first, h⟩ := Option.bind_eq_some_iff.1 l.heading
  obtain ⟨fname, second, pair⟩ := Option.map_eq_some_iff.1 h
  cases pair
  exact ⟨first, second⟩

theorem readLine_eq (u : Unset) (s : State) : readLine u l.buf s =
    if max l.mode.length l.fname.length ≥ DBGBUF then .error .outside
    else if l.mode = text "del" then
      .ok (none, del l.name (s.g.cmds.find fun d => d.funcname == l.name) s)
    else (readCommand u (stripped l.buf) l.mode l.name s).map fun (d, s) => (some d, s) := by
  obtain ⟨mode, fname⟩ := l.words
  have some' : stripped l.buf ≠ [] := by
    intro nothing
    rw [nothing] at mode
    cases mode
  unfold readLine
  dsimp only
  rw [← stripped, if_neg some', mode, fname]
  rfl

/-- **No line of short words goes outside an array.** -/
theorem readLine_inside (short : l.Short) (u : Unset) (s : State) :
    readLine u l.buf s ≠ .error .outside := by
  obtain ⟨mode, fname⟩ := l.words
  obtain ⟨word, there⟩ := sscanfS_word mode
  have modeFits := short l.mode word there
  obtain ⟨word, there⟩ := sscanfS_word fname
  have behind := (List.dropWhile_suffix (!isspace ·)).trans (Ssl.stpblk_suffix (stripped l.buf))
  have nameFits := short l.fname word (there.trans behind.isInfix)
  rw [l.readLine_eq, if_neg (by omega)]
  split
  · nofun
  · exact map_ne (readCommand_inside u l.name s short modeFits)

end DbgLine

/-- One more line, and the line that says what there is for a function. -/
def decides (f : List Byte) (found : Option DbgLine) (l : DbgLine) : Option DbgLine :=
  if l.mode = text "del" then
    if l.name = text "*" ∨ l.name = f then none else found
  else if l.name = f then some l else found

/-- The last line about a function, unless it is deleted. -/
def lastLine (f : List Byte) (lines : List DbgLine) : Option DbgLine := lines.foldl (decides f) none

/-- The command says what the line alone makes of a program that has just started. -/
def StoredAlone (env : Env) (l : DbgLine) (d : DBGCMD) (g : Globals) : Prop :=
  ∀ u dbgfp, ∃ t d₀, initdbg3 env u l.buf (.initial dbgfp) = .ok t ∧
    findCmd t.g.cmds l.name = some d₀ ∧ d.funcname = d₀.funcname ∧ d.status = d₀.status ∧
    d.inherit = d₀.inherit ∧ d.detail = d₀.detail ∧ d.dtst1 = d₀.dtst1 ∧ d.dtst2 = d₀.dtst2 ∧
    d.npreq = d₀.npreq ∧ d.preqs.vals = d₀.preqs.vals ∧
    outputOf g d.dbgout = outputOf t.g d₀.dbgout

/-- What the database is to be after these lines: a list of commands with their
lists, one for a function, each as its last line has it. -/
structure DatabaseRight (env : Env) (lines : List DbgLine) (s : State) : Prop where
  database : ∃ cells, Database s.g.cmds cells ∧ (cells.map fun cell => cell.2.funcname).Nodup
  deleted : ∀ f, lastLine f lines = none → findCmd s.g.cmds f = none
  found : ∀ f l, lastLine f lines = some l →
    ∃ d, findCmd s.g.cmds f = some d ∧ StoredAlone env l d s.g

/-! ## The invariant -/

/-- The command is what the line makes of every state. -/
def StoredBy (l : DbgLine) (d : DBGCMD) (g : Globals) : Prop :=
  l.mode ≠ text "del" ∧ max l.mode.length l.fname.length < DBGBUF ∧
    ∃ b last, outputOf g d.dbgout = fileNamed b last ∧
    ∀ u s, Linked s.g → Allocated s.g.outs → ∃ d' t,
      readCommand u (stripped l.buf) l.mode l.name s = .ok (d', t) ∧ Akin d d' ∧
      d'.npreq = d.npreq ∧ outputOf t.g d'.dbgout = fileNamed b last

structure Recorded (lines : List DbgLine) (s : State) : Prop where
  linked : Linked s.g
  keyed : ∃ cells, Keyed DBGCMD.funcname s.g.cmds cells
  allocated : Allocated s.g.outs
  deleted : ∀ f, lastLine f lines = none → findCmd s.g.cmds f = none
  found : ∀ f l, lastLine f lines = some l → ∃ d, findCmd s.g.cmds f = some d ∧ StoredBy l d s.g

theorem StoredBy.grows {l : DbgLine} {d : DBGCMD} {g g' : Globals} (h : StoredBy l d g)
    (grows : Grows g.outs g'.outs) : StoredBy l d g' := by
  obtain ⟨command, fits, b, last, output, reads⟩ := h
  exact ⟨command, fits, b, last, outputOf_grows grows output, reads⟩

theorem refresh_grows {env : Env} {d : Option DBGCMD} {s t : State} (h : refresh env d s = .ok t)
    (allocated : Allocated s.g.outs) : Grows s.g.outs t.g.outs := by
  unfold refresh at h
  split at h
  · rename_i dbgtl below stack
    split at h
    · rw [edbg2_eq stack] at h
      obtain ⟨u, redirected, rfl⟩ := map_ok h
      unfold redirectFiring at redirected
      split at redirected
      · cases redirected
        exact .refl allocated
      · cases redirect_redirects redirected with
        | nowhere => exact .refl allocated
        | again => exact .refl allocated
        | @opens a dbgout fp =>
          refine ⟨fun b there => allocated b ?_, fun b fname there => ?_⟩
          · have names := names_openAs s.g.outs a fp b
            have named := congrArg Option.isSome names
            rw [Option.isSome_map, Option.isSome_map] at named
            exact named ▸ there
          · exact (names_openAs s.g.outs a fp b).trans there
    · cases h
      exact .refl allocated
  · cases h
    exact .refl allocated

theorem Recorded.refresh {env : Env} {lines : List DbgLine} {d : Option DBGCMD} {s t : State}
    (recorded : Recorded lines s) (h : refresh env d s = .ok t) : Recorded lines t := by
  have cmds := refresh_cmds h
  have grows := refresh_grows h recorded.allocated
  obtain ⟨cells, db⟩ := recorded.linked
  refine ⟨⟨cells, cmds ▸ db⟩, cmds ▸ recorded.keyed, grows.allocated, ?_, ?_⟩
  · intro f none'
    rw [cmds]
    exact recorded.deleted f none'
  · intro f l some'
    obtain ⟨d, there, stored⟩ := recorded.found f l some'
    exact ⟨d, by rwa [cmds], stored.grows grows⟩

theorem lastLine_append (f : List Byte) (lines : List DbgLine) (l : DbgLine) :
    lastLine f (lines ++ [l]) = decides f (lastLine f lines) l := by
  rw [lastLine, List.foldl_append]
  rfl

theorem del_outs (fnamebuf : List Byte) (found : Option (Nat × DBGCMD)) (s : State) :
    (del fnamebuf found s).g.outs = s.g.outs := by
  unfold del
  split
  · rfl
  · split <;> rfl

/-- A line that deletes. -/
theorem Recorded.del {lines : List DbgLine} {l : DbgLine} {s : State} (recorded : Recorded lines s)
    (mode : l.mode = text "del") : Recorded (lines ++ [l])
      (del l.name (s.g.cmds.find fun d => d.funcname == l.name) s) := by
  obtain ⟨cells, keyed⟩ := recorded.keyed
  obtain ⟨cells', keyed', looked⟩ := del_keyed keyed l.name
  have outs := del_outs l.name (s.g.cmds.find fun d => d.funcname == l.name) s
  refine ⟨del_linked l.name recorded.linked, ⟨cells', keyed'⟩, outs ▸ recorded.allocated, ?_, ?_⟩
  · intro f none'
    rw [lastLine_append, decides, if_pos mode] at none'
    rw [findCmd_lookup keyed', looked]
    split at none'
    · rename_i gone
      rw [if_pos gone]
    · rename_i stays
      rw [if_neg stays, ← findCmd_lookup keyed]
      exact recorded.deleted f none'
  · intro f l' some'
    rw [lastLine_append, decides, if_pos mode] at some'
    split at some'
    · cases some'
    · rename_i stays
      obtain ⟨d, there, stored⟩ := recorded.found f l' some'
      have grows : Grows s.g.outs
          (Dbg.del l.name (s.g.cmds.find fun d => d.funcname == l.name) s).g.outs := by
        rw [outs]
        exact .refl recorded.allocated
      refine ⟨d, ?_, stored.grows grows⟩
      rw [findCmd_lookup keyed', looked, if_neg stays, ← findCmd_lookup keyed]
      exact there

/-- A line that makes a command. -/
theorem Recorded.command {lines : List DbgLine} {l : DbgLine} {u : Unset} {s t : State} {d : DBGCMD}
    (recorded : Recorded lines s) (mode : l.mode ≠ text "del")
    (fits : max l.mode.length l.fname.length < DBGBUF)
    (h : readCommand u (stripped l.buf) l.mode l.name s = .ok (d, t)) :
    Recorded (lines ++ [l]) t := by
  obtain ⟨cells, keyed⟩ := recorded.keyed
  obtain ⟨cells', keyed', looked⟩ := readCommand_keyed recorded.linked keyed h
  obtain ⟨b, last, output, grows, -, reads⟩ :=
    readCommand_akin l.noThrd recorded.linked recorded.allocated h
  refine ⟨readCommand_linked h recorded.linked, ⟨cells', keyed'⟩, grows.allocated, ?_, ?_⟩
  · intro f none'
    rw [lastLine_append, decides, if_neg mode] at none'
    split at none'
    · cases none'
    · rename_i other
      rw [findCmd_lookup keyed', looked, if_neg other, ← findCmd_lookup keyed]
      exact recorded.deleted f none'
  · intro f l' some'
    rw [lastLine_append, decides, if_neg mode] at some'
    rw [findCmd_lookup keyed', looked]
    split at some'
    · rename_i same
      cases some'
      exact ⟨d, if_pos same, mode, fits, b, last, output, reads⟩
    · rename_i other
      obtain ⟨d', there, stored⟩ := recorded.found f l' some'
      refine ⟨d', ?_, stored.grows grows⟩
      rw [if_neg other, ← findCmd_lookup keyed]
      exact there

theorem Recorded.step {env : Env} {lines : List DbgLine} {l : DbgLine} {u : Unset} {s t : State}
    (recorded : Recorded lines s) (h : initdbg3 env u l.buf s = .ok t) :
    Recorded (lines ++ [l]) t := by
  rw [initdbg3_eq] at h
  obtain ⟨⟨d, t'⟩, read, h⟩ := bind_ok h
  refine Recorded.refresh ?_ h
  rw [l.readLine_eq] at read
  split at read
  · cases read
  rename_i fits
  split at read
  · rename_i mode
    cases read
    exact recorded.del mode
  · rename_i mode
    obtain ⟨⟨d', t''⟩, made, same⟩ := map_ok read
    cases same
    exact recorded.command mode (by omega) made

/-- The calls of `initdbg3` for these lines. -/
def lineCalls (lines : List (Unset × DbgLine)) : List Act :=
  lines.map fun line => .initdbg3 line.1 line.2.buf

theorem run_history {env : Env} {before : List DbgLine} {lines : List (Unset × DbgLine)}
    {s t : State}
    (recorded : Recorded before s) (h : run (step env) s (lineCalls lines) = some t) :
    Recorded (before ++ lines.map Prod.snd) t := by
  induction lines generalizing before s with
  | nil =>
    cases h
    rwa [List.map_nil, List.append_nil]
  | cons line lines ih =>
    obtain ⟨u, hu, h⟩ := run_cons_some h
    have next := recorded.step (toOption_some hu)
    rw [List.map_cons, List.append_cons]
    exact ih next h

/-! ## The database after any lines -/

theorem allocated_empty : Allocated DList.empty := by
  intro a there
  cases there

theorem StoredBy.alone {env : Env} {l : DbgLine} {d : DBGCMD} {g : Globals} (h : StoredBy l d g) :
    StoredAlone env l d g := by
  obtain ⟨mode, fits, b, last, output, reads⟩ := h
  intro u dbgfp
  have linked := linked_initial dbgfp
  obtain ⟨d₀, t, read, akin, npreq, output'⟩ := reads u (.initial dbgfp) linked allocated_empty
  have keyed : Keyed DBGCMD.funcname (State.initial dbgfp).g.cmds [] :=
    ⟨Heap.DList.empty_is, List.nodup_nil⟩
  obtain ⟨cells, keyed', looked⟩ := readCommand_keyed linked keyed read
  obtain ⟨-, -, -, -, thrd, -⟩ := readCommand_akin l.noThrd linked allocated_empty read
  refine ⟨t, d₀, ?_, ?_, akin.funcname.symm, akin.status.symm, akin.inherit.symm, akin.detail.symm,
    akin.dtst1.symm, akin.dtst2.symm, npreq.symm, akin.vals.symm, output.trans output'.symm⟩
  · rw [initdbg3_eq, l.readLine_eq, if_neg (by omega), if_neg mode, read]
    dsimp only [Except.map, Except.bind, refresh]
    rw [thrd]
    rfl
  · rw [findCmd_lookup keyed', looked, if_pos rfl]

theorem Recorded.right {env : Env} {lines : List DbgLine} {s : State} (recorded : Recorded lines s) :
    DatabaseRight env lines s := by
  refine ⟨?_, recorded.deleted, ?_⟩
  · obtain ⟨cells, db⟩ := recorded.linked
    obtain ⟨cells', keyed⟩ := recorded.keyed
    have same : cells' = cells := by
      rw [← DList.toList_eq keyed.linked, DList.toList_eq db.linked]
    exact ⟨cells, db, same ▸ keyed.distinct⟩
  · intro f l some'
    obtain ⟨d, there, stored⟩ := recorded.found f l some'
    exact ⟨d, there, stored.alone⟩

/-- **The database after any lines** of short words, from a program on that has
none: it is as the lines say in every state that is reached, the next line is
read within the arrays, and if it deletes one function it leaves the others. -/
theorem database_history {env : Env} {s₀ : State}
    (start : s₀.g.cmds = DList.empty ∧ s₀.g.outs = DList.empty) {lines : List (Unset × DbgLine)}
    (short : ∀ line ∈ lines, line.2.Short) {pre post : List (Unset × DbgLine)}
    (split' : lines = pre ++ post) {s : State}
    (h : run (step env) s₀ (lineCalls pre) = some s) :
    DatabaseRight env (pre.map Prod.snd) s ∧ ∀ line ∈ post.head?,
      readLine line.1 line.2.buf s ≠ .error .outside ∧
      ∀ t, initdbg3 env line.1 line.2.buf s = .ok t → line.2.mode = text "del" →
        line.2.name ≠ text "*" → ∀ f, f ≠ line.2.name → findCmd t.g.cmds f = findCmd s.g.cmds f := by
  have recorded : Recorded [] s₀ := by
    obtain ⟨cmds, outs⟩ := start
    have keyed : Keyed DBGCMD.funcname s₀.g.cmds [] := by
      rw [cmds]
      exact ⟨Heap.DList.empty_is, List.nodup_nil⟩
    refine ⟨⟨[], keyed.linked, fun _ there => nomatch there⟩, ⟨[], keyed⟩, outs ▸ allocated_empty,
      ?_, fun _ _ there => nomatch there⟩
    intro f _
    rw [findCmd_lookup keyed]
    rfl
  have recorded := run_history recorded h
  refine ⟨recorded.right, fun line next => ⟨?_, fun t ok mode one f other => ?_⟩⟩
  · refine line.2.readLine_inside (short line ?_) line.1 s
    rw [split']
    exact List.mem_append_right _ (List.mem_of_mem_head? next)
  · obtain ⟨cells, keyed⟩ := recorded.keyed
    obtain ⟨cells', keyed', looked⟩ := del_keyed keyed line.2.name
    rw [initdbg3_eq, line.2.readLine_eq, if_pos mode] at ok
    split at ok
    · cases ok
    cases ok
    rw [findCmd_lookup keyed', looked, if_neg (not_or.2 ⟨one, other.symm⟩), findCmd_lookup keyed]

/-- `on` and a name of 2048 letters. -/
def longLine : DbgLine where
  buf := List.intercalate [32] [text "on", List.replicate DBGBUF 97]
  mode := text "on"
  fname := List.replicate DBGBUF 97
  heading := by
    have letter : ∀ c ∈ List.replicate DBGBUF (97 : Byte), c = 97 := fun c =>
      List.eq_of_mem_replicate
    refine (Spaced.intercalate fun w there => ?_).heading fun w there => ?_
    · obtain rfl | there := List.mem_cons.1 there
      · refine ⟨by decide, List.forall_mem_cons.2 ⟨by decide, ?_⟩⟩
        exact List.forall_mem_singleton.2 (by decide)
      · rw [List.mem_singleton.1 there]
        refine ⟨List.ne_nil_of_length_pos (by rw [List.length_replicate]; decide), fun c inner => ?_⟩
        rw [letter c inner]
        decide
    · obtain rfl | there := List.mem_cons.1 there
      · decide
      · rw [List.mem_singleton.1 there]
        exact fun inner => absurd (letter 35 inner) (by decide)
  noThrd := by decide

/-- Reading it goes outside `fnamebuf`. -/
theorem longLine_outside :
    initdbg3 .zero .zero longLine.buf (.initial .stdout) = .error .outside := by
  have long : max longLine.mode.length longLine.fname.length ≥ DBGBUF := by
    simp only [longLine, List.length_replicate]
    omega
  rw [initdbg3_eq, longLine.readLine_eq, if_pos long]
  rfl

theorem database_history_deleted : ∃ lines s,
    run (step .zero) (.initial .stdout) (lineCalls lines) = some s ∧ lines.length = 3 ∧
    DatabaseRight .zero (lines.map Prod.snd) s := by
  let on : DbgLine := ⟨text "on f 1 :7 g >out", text "on", text "f", by decide, by decide⟩
  let del : DbgLine := ⟨text "del f", text "del", text "f", by decide, by decide⟩
  let off : DbgLine := ⟨text "off f", text "off", text "f", by decide, by decide⟩
  have short (l : DbgLine) (small : (stripped l.buf).length < DBGBUF) : l.Short :=
    fun w _ there => there.length_le.trans_lt small
  have ran : ∃ s, run (step .zero) (.initial .stdout) [.initdbg3 .zero (text "on f 1 :7 g >out"),
      .initdbg3 .zero (text "del f"), .initdbg3 .zero (text "off f")] = some s := ⟨_, rfl⟩
  obtain ⟨s, ran⟩ := ran
  refine ⟨[(.zero, on), (.zero, del), (.zero, off)], s, ran, rfl, ?_⟩
  refine (@database_history _ _ ⟨rfl, rfl⟩ [(.zero, on), (.zero, del), (.zero, off)] ?_ _ []
    (List.append_nil _).symm _ ran).1
  simp only [List.mem_cons, List.not_mem_nil, or_false]
  rintro line (rfl | rfl | rfl)
  · exact short on (by decide)
  · exact short del (by decide)
  · exact short off (by decide)

end UnixProgramming.Dbg
