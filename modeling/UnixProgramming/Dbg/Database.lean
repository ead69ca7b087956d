import UnixProgramming.Dbg.Prerequisites

/-!
# The command database

A line of the command language finds its command in the database or adds it at
the end, and what has been read becomes the value of that cell.

* `allocCmd_held`: the cell, and the command before it;
* `readLine`: `initdbg3` up to where the current function may change;
* `run_linked`: in all states that can be reached, the database is a list of
  commands with their lists.
-/

namespace UnixProgramming.Dbg

open Runs
open Ssl (Byte stpblk stpnxt isspace isdigit sscanfD fmtDB)
open Heap (DList)

/-- A list of commands, as `initdbg3` makes them. -/
structure Database (cmds : DList DBGCMD) (cells : List (Nat × DBGCMD)) : Prop where
  linked : cmds.Is cells
  listed : ∀ cell ∈ cells, Listed cell.2

def Linked (g : Globals) : Prop := ∃ cells, Database g.cmds cells

theorem linked_initial (dbgfp : Stream) : Linked (State.initial dbgfp).g :=
  ⟨[], Heap.DList.empty_is, fun _ no => nomatch no⟩

/-- Every command that a call finds is well formed. -/
theorem Linked.listed {g : Globals} (linked : Linked g) {funcname : List Byte} {d : DBGCMD}
    (found : findCmd g.cmds funcname = some d) : Listed d := by
  obtain ⟨cells, db⟩ := linked
  obtain ⟨cell, hit, rfl⟩ := Option.map_eq_some_iff.1 found
  rw [Heap.DList.find_eq, Heap.DList.toList_eq db.linked] at hit
  exact db.listed cell (List.mem_of_find?_eq_some hit)

/-- Deleting the cells from the head on leaves none. -/
theorem deleteAll_is {α : Type} {d : DList α} {as : List (Nat × α)} (h : d.Is as) :
    (deleteAll d).Is [] := by
  rw [deleteAll, Heap.DList.toList_eq h]
  induction as generalizing d with
  | nil => exact h
  | cons a as ih =>
    have unlinked : (d.unlink a.1).Is as := Heap.DList.unlink_is (l := []) h
    have apart := (Heap.DList.Is.apart (l := []) h).2
    exact ih (Heap.DList.free_is unlinked apart)

/-! ## The command that a line is about -/

/-- The cell at `p` is the first with this name, and these are before it. -/
structure Held (cmds : DList DBGCMD) (p : Nat) (funcname : List Byte)
    (before after : List (Nat × DBGCMD)) : Prop where
  linked : ∃ old, cmds.Is (before ++ (p, old) :: after)
  first : ∀ cell ∈ before, cell.2.funcname ≠ funcname
  listed : ∀ cell ∈ before ++ after, Listed cell.2

theorem Held.prvCmd {cmds : DList DBGCMD} {p : Nat} {funcname : List Byte}
    {before after : List (Nat × DBGCMD)} (h : Held cmds p funcname before after) :
    prvCmd cmds p = before.getLast?.map Prod.snd := by
  obtain ⟨old, linked⟩ := h.linked
  rw [Dbg.prvCmd, linked.links before (p, old) after rfl]
  rcases last : before.getLast? with _ | cell
  · rfl
  · exact linked.val? (List.mem_append_left _ (List.mem_of_getLast? last))

/-- What is stored in the cell is what a search for the name finds. -/
theorem Held.store {cmds : DList DBGCMD} {p : Nat} {funcname : List Byte}
    {before after : List (Nat × DBGCMD)} (h : Held cmds p funcname before after) {d : DBGCMD}
    (name : d.funcname = funcname) :
    findCmd (cmds.modify p fun _ => d) funcname = some d ∧
      (Listed d → Database (cmds.modify p fun _ => d) (before ++ (p, d) :: after)) := by
  obtain ⟨old, linked⟩ := h.linked
  have stored := Heap.DList.modify_is linked fun _ => d
  refine ⟨?_, fun listed => ⟨stored, fun cell hcell => ?_⟩⟩
  · rw [findCmd, Heap.DList.find_eq, Heap.DList.toList_eq stored, List.find?_append,
      List.find?_eq_none.2 fun cell hcell => by simpa using h.first cell hcell]
    simp [name]
  · simp only [List.mem_append, List.mem_cons] at hcell
    obtain hcell | rfl | hcell := hcell
    · exact h.listed cell (by simp [hcell])
    · exact listed
    · exact h.listed cell (by simp [hcell])

/-- The flag that a command starts with: that of the command before it, where
there is one. -/
def inheritedDfl (cmds : List DBGCMD) (funcname : List Byte) : Bool :=
  ((cmds.takeWhile fun d => d.funcname ≠ funcname).getLast?.map DBGCMD.dbgdfl).getD true

/-- **The command that a line is about**, with no prerequisites and no output. -/
theorem allocCmd_held {s : State} {cells : List (Nat × DBGCMD)} (db : Database s.g.cmds cells)
    (u : Unset) (funcname : List Byte) : ∃ p d s' before after,
      allocCmd u funcname (s.g.cmds.find fun d => d.funcname == funcname) s = (p, d, s') ∧
      d.funcname = funcname ∧ d.preqs.Is [] ∧ d.dbgout = none ∧
      s'.g.outs = s.g.outs ∧ s'.thrd = s.thrd ∧ Held s'.g.cmds p funcname before after ∧
      ((prvCmd s'.g.cmds p).map DBGCMD.dbgdfl).getD true =
        inheritedDfl s.g.cmds.vals funcname := by
  have vals := Heap.DList.vals_eq db.linked
  -- the flag is that of the last command of `before`
  have inherits {before after : List (Nat × DBGCMD)} {p : Nat} {cmds : DList DBGCMD}
      (held : Held cmds p funcname before after)
      (front : (cells.map Prod.snd).takeWhile (fun d => d.funcname ≠ funcname) =
        before.map Prod.snd) :
      ((prvCmd cmds p).map DBGCMD.dbgdfl).getD true = inheritedDfl s.g.cmds.vals funcname := by
    rw [held.prvCmd, inheritedDfl, vals, front, List.getLast?_map]
  have search : s.g.cmds.find (fun d => d.funcname == funcname) =
      cells.find? fun cell => cell.2.funcname == funcname := by
    rw [Heap.DList.find_eq, Heap.DList.toList_eq db.linked]
  rw [search]
  rcases found : cells.find? fun cell => cell.2.funcname == funcname with _ | ⟨p, d⟩
  · -- a new cell at the end
    have other : ∀ cell ∈ cells, cell.2.funcname ≠ funcname := by
      simpa using List.find?_eq_none.1 found
    let d := { u.cmd with funcname := funcname, preqs := DList.empty, dbgout := none }
    have held : Held (s.g.cmds.append d) s.g.cmds.brk funcname cells [] :=
      ⟨⟨d, Heap.DList.append_is db.linked d⟩, other, by simpa using db.listed⟩
    refine ⟨_, d, setCmds s (s.g.cmds.append d), cells, [], by rw [found]; rfl, rfl,
      Heap.DList.empty_is, rfl, rfl, rfl, held, ?_⟩
    refine inherits held (List.takeWhile_eq_self_iff.2 fun d hd => ?_)
    obtain ⟨cell, hcell, rfl⟩ := List.mem_map.1 hd
    exact decide_eq_true (other cell hcell)
  · -- the first cell with the name
    obtain ⟨name, before, after, rfl, first⟩ := List.find?_eq_some_iff_append.1 found
    have name : d.funcname = funcname := by simpa using name
    have first : ∀ cell ∈ before, cell.2.funcname ≠ funcname := by simpa using first
    obtain ⟨⟨preqs, linked⟩, -⟩ := db.listed (p, d) (by simp)
    have held : Held s.g.cmds p funcname before after := by
      refine ⟨⟨d, db.linked⟩, first, fun cell hcell => db.listed cell ?_⟩
      simp only [List.mem_append, List.mem_cons] at hcell ⊢
      tauto
    refine ⟨p, { d with preqs := deleteAll d.preqs, dbgout := none }, s, before, after,
      by rw [found]; rfl, name, deleteAll_is linked, rfl, rfl, rfl, held, inherits held ?_⟩
    have pos : ∀ d ∈ before.map Prod.snd, decide (d.funcname ≠ funcname) = true := by
      intro d hd
      obtain ⟨cell, hcell, rfl⟩ := List.mem_map.1 hd
      exact decide_eq_true (first cell hcell)
    rw [List.map_append, List.takeWhile_append_of_pos pos, List.map_cons,
      List.takeWhile_cons_of_neg (by simp [name]), List.append_nil]

/-! ## Reading without effect on the current function -/

/-- `command` without its last lines: the command, and the state behind it. -/
def readCommand (u : Unset) (buf modebuf fnamebuf : List Byte) (s : State) :
    Result (DBGCMD × State) :=
  let (p, d, s) := allocCmd u fnamebuf (s.g.cmds.find fun d => d.funcname == fnamebuf) s
  let d := defaults modebuf (prvCmd s.g.cmds p) d
  let s := if modebuf = text "thrd" then
    { s with g := { s.g with showthrdid := !s.g.showthrdid } } else s
  (parseDetail buf d).bind fun (d, b) =>
    let (d, b) := parseColons d b
    (parsePreqs (b.length + 1) { d with npreq := 0 } b modebuf s).bind fun (d, b, modebuf, s) =>
      (parseOut d b modebuf s).map fun (d, s) => (d, setCmds s (s.g.cmds.modify p fun _ => d))

/-- `initdbg3` without the last lines of `command`; there is no command for a
blank line or a `del`. -/
def readLine (u : Unset) (buf : List Byte) (s : State) : Result (Option DBGCMD × State) :=
  let buf := srmtrblk (buf.takeWhile (· ≠ 35))
  if buf = [] then .ok (none, s)
  else
    let modebuf := (sscanfS buf).getD u.modebuf
    let fnamebuf := (sscanfS ((stpblk buf).dropWhile (!isspace ·))).getD u.fnamebuf
    if max modebuf.length fnamebuf.length ≥ DBGBUF then .error .outside
    else
      let fnamebuf := fnamebuf.take (FUNCBUF - 1)
      if modebuf = text "del" then
        .ok (none, del fnamebuf (s.g.cmds.find fun d => d.funcname == fnamebuf) s)
      else (readCommand u buf modebuf fnamebuf s).map fun (d, s) => (some d, s)

/-- The last lines: the current function may be the one that the command is for. -/
def refresh (env : Env) (d : Option DBGCMD) (s : State) : Result State :=
  match d, s.thrd.stack with
  | some d, dbgtl :: _ => if d.funcname = dbgtl.funcname then edbg2 env (some d) s else .ok s
  | _, _ => .ok s

theorem command_eq (env : Env) (u : Unset) (buf modebuf fnamebuf : List Byte) (s : State) :
    command env u buf modebuf fnamebuf s =
      (readCommand u buf modebuf fnamebuf s).bind fun (d, s) => refresh env (some d) s := by
  unfold command readCommand
  rcases allocCmd u fnamebuf (s.g.cmds.find fun d => d.funcname == fnamebuf) s with ⟨p, d, s⟩
  dsimp only
  rcases parseDetail buf (defaults modebuf (prvCmd s.g.cmds p) d) with e | ⟨d, b⟩
  · rfl
  dsimp only [Except.bind]
  rcases parsePreqs _ _ (parseColons d b).2 modebuf _ with e | ⟨d, b, modebuf, s⟩
  · rfl
  dsimp only [Except.bind]
  rcases parseOut d b modebuf s with e | ⟨d, s⟩
  · rfl
  dsimp only [Except.map, refresh]
  cases (setCmds s (s.g.cmds.modify p fun _ => d)).thrd.stack <;> rfl

theorem initdbg3_eq (env : Env) (u : Unset) (buf : List Byte) (s : State) :
    initdbg3 env u buf s = (readLine u buf s).bind fun (d, s) => refresh env d s := by
  unfold initdbg3 readLine
  dsimp only
  split
  · rfl
  split
  · rfl
  split
  · rfl
  · rw [command_eq]
    rcases readCommand u _ _ _ s with e | ⟨d, s⟩ <;> rfl

/-! ## The options -/

/-- `*` -/
def skipStar (d : DBGCMD) (b : List Byte) : DBGCMD × List Byte :=
  if b.head? = some 42 ∧ isspace (b.tail.headD 0) then
    ({ d with inherit := false }, stpblk (b.drop 2))
  else (d, b)

/-- The detail level. -/
def readDetail (d : DBGCMD) (b : List Byte) : Result (DBGCMD × List Byte) :=
  if b ≠ [] ∧ (d.status = .on ∨ d.status = .ondis) then
    let detail := if isdigit (b.headD 0) then (sscanfD b).getD 0 else 1
    if detail < 0 then .error (.negativeDetail d.funcname detail)
    else .ok ({ d with detail := detail },
      if isdigit (b.headD 0) then (stpnxt b fmtDB).getD [] else b)
  else .ok (d, b)

theorem parseDetail_eq (buf : List Byte) (d : DBGCMD) : parseDetail buf d =
    let b := (stpnxt buf fmtSSB).getD []
    if d.status ≠ .off then readDetail (skipStar d b).1 (skipStar d b).2
    else .ok (if b ≠ [] then { d with status := .ondis } else d, b) := by
  unfold parseDetail readDetail skipStar
  dsimp only
  split
  · split <;> rfl
  · rfl

/-- The numbers behind `:`. -/
def readDtsts (d : DBGCMD) (b : List Byte) : DBGCMD × List Byte :=
  if b.head? = some 58 then
    let dtst1 := parseDtst b.tail d.dtst1
    let d := { d with dtst1 := dtst1.1 }
    if dtst1.2.head? = some 58 then
      let dtst2 := parseDtst dtst1.2.tail d.dtst2
      ({ d with dtst2 := dtst2.1 }, dtst2.2)
    else (d, dtst1.2)
  else (d, b)

theorem parseColons_eq (d : DBGCMD) (b : List Byte) : parseColons d b =
    if b.head? = some 58 ∧ (text "nodfl").isPrefixOf (stpblk b.tail) then
      readDtsts { d with dbgdfl := false } (stpblk ((stpblk b.tail).drop 3))
    else readDtsts d b := by
  unfold parseColons readDtsts
  dsimp only
  split <;> rfl

/-! ## All states that can be reached -/

theorem parseDetail_kept {buf b : List Byte} {d d' : DBGCMD}
    (h : parseDetail buf d = .ok (d', b)) :
    d'.funcname = d.funcname ∧ d'.preqs = d.preqs := by
  have star (b : List Byte) : (skipStar d b).1.funcname = d.funcname ∧
      (skipStar d b).1.preqs = d.preqs := by
    unfold skipStar
    split <;> exact ⟨rfl, rfl⟩
  rw [parseDetail_eq] at h
  dsimp only at h
  split at h
  · obtain ⟨funcname, preqs⟩ := star ((stpnxt buf fmtSSB).getD [])
    rw [← funcname, ← preqs]
    unfold readDetail at h
    split at h
    · extract_lets detail at h
      split at h
      · cases h
      · cases h
        exact ⟨rfl, rfl⟩
    · cases h
      exact ⟨rfl, rfl⟩
  · cases h
    split <;> exact ⟨rfl, rfl⟩

theorem parseColons_kept (d : DBGCMD) (b : List Byte) :
    (parseColons d b).1.funcname = d.funcname ∧ (parseColons d b).1.preqs = d.preqs := by
  unfold parseColons
  dsimp only
  repeat' split
  all_goals exact ⟨rfl, rfl⟩

theorem parsePreqs_kept (turns : Nat) {d d' : DBGCMD} {b b' modebuf modebuf' : List Byte}
    {s s' : State} (h : parsePreqs turns d b modebuf s = .ok (d', b', modebuf', s')) :
    d'.funcname = d.funcname ∧ s'.g.cmds = s.g.cmds := by
  induction turns generalizing d b modebuf s with
  | zero =>
    cases h
    exact ⟨rfl, rfl⟩
  | succ turns ih =>
    rw [parsePreqs_succ] at h
    split at h
    · cases h
      exact ⟨rfl, rfl⟩
    · dsimp only at h
      split at h
      · cases h
      · split at h
        · have kept := ih h
          exact kept
        · have kept := ih h
          exact kept

theorem parseOut_kept {d d' : DBGCMD} {b modebuf : List Byte} {s s' : State}
    (h : parseOut d b modebuf s = .ok (d', s')) :
    d'.funcname = d.funcname ∧ d'.preqs = d.preqs ∧ d'.npreq = d.npreq ∧
      s'.g.cmds = s.g.cmds := by
  unfold parseOut at h
  dsimp only at h
  split at h
  · split at h
    · cases h
    · split at h
      · cases h
        exact ⟨rfl, rfl, rfl, rfl⟩
      · cases h
        exact ⟨rfl, rfl, rfl, rfl⟩
  · cases h
    exact ⟨rfl, rfl, rfl, rfl⟩

section
variable {u : Unset} {buf modebuf fnamebuf : List Byte} {s s₀ t : State} {p : Nat} {d d₀ : DBGCMD}

/-- The parts of a line that have been read in turn, from the command that
`allocCmd` has found or made. -/
theorem readCommand_stages
    (alloc : allocCmd u fnamebuf (s.g.cmds.find fun d => d.funcname == fnamebuf) s = (p, d₀, s₀))
    (h : readCommand u buf modebuf fnamebuf s = .ok (d, t)) :
    ∃ d₁ b₁ d₂ b₂ last s₂ s₃,
      parseDetail buf (defaults modebuf (prvCmd s₀.g.cmds p) d₀) = .ok (d₁, b₁) ∧
      parsePreqs ((parseColons d₁ b₁).2.length + 1) { (parseColons d₁ b₁).1 with npreq := 0 }
        (parseColons d₁ b₁).2 modebuf (if modebuf = text "thrd" then
          { s₀ with g := { s₀.g with showthrdid := !s₀.g.showthrdid } } else s₀) =
        .ok (d₂, b₂, last, s₂) ∧
      parseOut d₂ b₂ last s₂ = .ok (d, s₃) ∧ t = setCmds s₃ (s₃.g.cmds.modify p fun _ => d) := by
  unfold readCommand at h
  rw [alloc] at h
  obtain ⟨⟨d₁, b₁⟩, detail, h⟩ := bind_ok h
  obtain ⟨⟨d₂, b₂, last, s₂⟩, preqs, h⟩ := bind_ok h
  obtain ⟨⟨d₃, s₃⟩, out, h⟩ := map_ok h
  cases h
  exact ⟨d₁, b₁, d₂, b₂, last, s₂, s₃, detail, preqs, out, rfl⟩

/-- The command is stored in its cell, under the name it had there. -/
theorem readCommand_stored
    (alloc : allocCmd u fnamebuf (s.g.cmds.find fun d => d.funcname == fnamebuf) s = (p, d₀, s₀))
    (h : readCommand u buf modebuf fnamebuf s = .ok (d, t)) :
    d.funcname = d₀.funcname ∧ t.g.cmds = s₀.g.cmds.modify p fun _ => d := by
  obtain ⟨d₁, b₁, d₂, b₂, last, s₂, s₃, detail, preqs, out, rfl⟩ := readCommand_stages alloc h
  have kept₁ := parseDetail_kept detail
  have kept₂ := parseColons_kept d₁ b₁
  have kept₃ := parsePreqs_kept _ preqs
  have kept₄ := parseOut_kept out
  have cmds : s₃.g.cmds = s₀.g.cmds := by
    rw [kept₄.2.2.2, kept₃.2]
    split <;> rfl
  refine ⟨?_, congrArg (fun cmds => cmds.modify p fun _ => d) cmds⟩
  rw [kept₄.1, kept₃.1]
  exact kept₂.1.trans kept₁.1

/-- Its prerequisites have been read into an empty list. -/
theorem readCommand_listed
    (alloc : allocCmd u fnamebuf (s.g.cmds.find fun d => d.funcname == fnamebuf) s = (p, d₀, s₀))
    (empty : d₀.preqs.Is []) (h : readCommand u buf modebuf fnamebuf s = .ok (d, t)) :
    Listed d := by
  obtain ⟨d₁, b₁, d₂, b₂, last, s₂, s₃, detail, preqs, out, -⟩ := readCommand_stages alloc h
  have none' : (parseColons d₁ b₁).1.preqs.Is [] := by
    rw [(parseColons_kept d₁ b₁).2, (parseDetail_kept detail).2]
    exact empty
  have counted : (parseColons d₁ b₁).1.preqs.vals.length ≤ 0 :=
    (congrArg List.length (Heap.DList.vals_eq none')).le
  have listed : Listed d₂ := parsePreqs_listed _ preqs ⟨⟨[], none'⟩, counted⟩
  have kept := parseOut_kept out
  obtain ⟨cells, counted'⟩ := listed
  exact ⟨by rwa [kept.2.1], by rwa [kept.2.1, kept.2.2.1]⟩

end

theorem readCommand_linked {u : Unset} {buf modebuf fnamebuf : List Byte} {s s' : State}
    {d : DBGCMD} (h : readCommand u buf modebuf fnamebuf s = .ok (d, s')) (linked : Linked s.g) :
    Linked s'.g := by
  obtain ⟨cells, db⟩ := linked
  obtain ⟨p, d₀, s₀, before, after, alloc, name, empty, -, -, -, held, -⟩ :=
    allocCmd_held db u fnamebuf
  obtain ⟨same, cmds⟩ := readCommand_stored alloc h
  have stored := (held.store (same.trans name)).2 (readCommand_listed alloc empty h)
  exact ⟨_, cmds ▸ stored⟩

theorem del_linked (fnamebuf : List Byte) {s : State} (linked : Linked s.g) :
    Linked (del fnamebuf (s.g.cmds.find fun d => d.funcname == fnamebuf) s).g := by
  obtain ⟨cells, db⟩ := linked
  unfold del
  split
  · exact ⟨[], deleteAll_is db.linked, fun _ no => nomatch no⟩
  split
  · exact ⟨cells, db⟩
  · rename_i p d found
    rw [Heap.DList.find_eq, Heap.DList.toList_eq db.linked] at found
    obtain ⟨-, before, after, rfl, -⟩ := List.find?_eq_some_iff_append.1 found
    have apart := db.linked.apart
    refine ⟨before ++ after, Heap.DList.free_is (Heap.DList.unlink_is db.linked) ?_, ?_⟩
    · intro cell hcell
      obtain hcell | hcell := List.mem_append.1 hcell
      · exact apart.1 cell hcell
      · exact apart.2 cell hcell
    · intro cell hcell
      refine db.listed cell ?_
      simp only [List.mem_append, List.mem_cons] at hcell ⊢
      tauto

theorem edbg2_cmds {env : Env} {d : Option DBGCMD} {s s' : State}
    (h : edbg2 env d s = .ok s') : s'.g.cmds = s.g.cmds := by
  obtain ⟨dbgtl, below, fp, outs, ws, -, rfl⟩ := edbg2_ok h
  rfl

theorem refresh_cmds {env : Env} {d : Option DBGCMD} {s s' : State}
    (h : refresh env d s = .ok s') : s'.g.cmds = s.g.cmds := by
  unfold refresh at h
  split at h
  · split at h
    · exact edbg2_cmds h
    · cases h
      rfl
  · cases h
    rfl

/-- **A line leaves the database well linked.** -/
theorem initdbg3_linked {env : Env} {u : Unset} {buf : List Byte} {s s' : State}
    (h : initdbg3 env u buf s = .ok s') (linked : Linked s.g) : Linked s'.g := by
  rw [initdbg3_eq] at h
  obtain ⟨⟨d, t⟩, read, h⟩ := bind_ok h
  have linked : Linked t.g := by
    unfold readLine at read
    dsimp only at read
    split at read
    · cases read
      exact linked
    split at read
    · cases read
    split at read
    · cases read
      exact del_linked _ linked
    · obtain ⟨⟨d', t'⟩, made, same⟩ := map_ok read
      cases same
      exact readCommand_linked made linked
  obtain ⟨cells, db⟩ := linked
  exact ⟨cells, by rwa [refresh_cmds h]⟩

theorem unwind_cmds (target : Option Nat) (stack : List DBG) (s : State) :
    (unwind target stack s).g.cmds = s.g.cmds := by
  induction stack generalizing s with
  | nil => rfl
  | cons dbg below ih =>
    unfold unwind
    split
    · rfl
    · rw [ih]
      split <;> rfl

/-- The other calls leave the commands alone, or the last return removes them. -/
theorem call_cmds {env : Env} {s s' : State} {a : Act} (h : call env s a = .ok s')
    (other : ∀ u buf, a ≠ .initdbg3 u buf) :
    s'.g.cmds = s.g.cmds ∨ s'.g.cmds = { DList.empty with brk := s.g.cmds.brk } := by
  cases a with
  | edbg c =>
    obtain ⟨funcname, top, -, enters⟩ := edbg_enters h
    exact .inl enters.cmds
  | rdbg c =>
    change rdbg c s = .ok s' at h
    unfold rdbg at h
    dsimp only at h
    split at h
    · cases h
    obtain ⟨t, left', h⟩ := bind_ok h
    obtain ⟨name, -, h⟩ := bind_ok h
    split at h
    · cases h
    obtain ⟨u, restored, h⟩ := map_ok h
    obtain ⟨fp, rfl, -⟩ := restoreFp_ok restored
    have cmds : t.g.cmds = s.g.cmds := by
      rw [leave_ok left']
      split <;> rfl
    split at h
    · cases h
      rw [← cmds]
      exact .inr rfl
    · cases h
      exact .inl cmds
  | dprintf detail c =>
    obtain ⟨r, printed, rfl⟩ := map_ok h
    exact .inl (dprintf_ok printed).2.1
  | dbgswitch on =>
    obtain ⟨r, switched, rfl⟩ := map_ok h
    unfold dbgswitch at switched
    split at switched
    · cases switched
    · cases switched
      dsimp only
      repeat' split
      all_goals exact .inl rfl
  | initdbg3 u buf => exact absurd rfl (other u buf)
  | dsetjmp jb =>
    cases h
    unfold dsetjmp
    dsimp only
    split <;> exact .inl rfl
  | dlongjmp jb c =>
    change dlongjmp jb c s = .ok s' at h
    unfold dlongjmp at h
    dsimp only at h
    split at h
    · cases h
      exact .inl rfl
    split at h
    · cases h
    split at h
    · cases h
    split at h
    · split at h
      · cases h
        exact .inl rfl
      · cases h
        exact .inl (unwind_cmds ..)
    · cases h
      exact .inl (unwind_cmds ..)

theorem step_linked {env : Env} {s s' : State} {a : Act} (linked : Linked s.g)
    (h : step env s a = some s') : Linked s'.g := by
  replace h := toOption_some h
  by_cases line : ∃ u buf, a = .initdbg3 u buf
  · obtain ⟨u, buf, rfl⟩ := line
    exact initdbg3_linked h linked
  · obtain ⟨cells, db⟩ := linked
    obtain same | none' := call_cmds h fun u buf e => line ⟨u, buf, e⟩
    · exact ⟨cells, by rwa [same]⟩
    · refine ⟨[], ?_, fun _ no => nomatch no⟩
      rw [none']
      exact ⟨rfl, rfl, by simp, by simp, by simp⟩

/-- **In every state of every run** the database is well linked. -/
theorem run_linked {env : Env} {dbgfp : Stream} {s : State} {acts : List Act}
    (h : run (step env) (.initial dbgfp) acts = some s) : Linked s.g :=
  run_induction (A := fun _ => True) (I := fun s => Linked s.g)
    (fun _ _ _ _ linked next => step_linked linked next) (fun _ _ => trivial) h
    (linked_initial dbgfp)

end UnixProgramming.Dbg
