import UnixProgramming.Dbg.Calls

/-!
# The debugger's commands

`initdbg3`: one line of the command language changes the command database, and
the current function if the line is about it.
-/

namespace UnixProgramming.Dbg

open Ssl (Byte stpblk stpnxt isspace isdigit sscanfD fmtDB)
open Heap (DList)

/-- `srmtrblk` -/
def srmtrblk (s : List Byte) : List Byte := s.rdropWhile fun c => isspace c && c != 12

def isalpha (c : Byte) : Bool := (65 ≤ c && c ≤ 90) || (97 ≤ c && c ≤ 122)

/-- What `sscanf(s,"%s",word)` stores, if it stores. -/
def sscanfS (s : List Byte) : Option (List Byte) :=
  let word := (stpblk s).takeWhile (!isspace ·)
  if word.isEmpty then none else some word

def fmtSB : List Byte := text "%s%b"
def fmtSSB : List Byte := text "%s %s%b"

/-- What is in local variables and in new memory that nothing is stored in. -/
structure Unset where
  modebuf : List Byte
  fnamebuf : List Byte
  cmd : DBGCMD

/-- `delete_double_link` on every cell from the head on. -/
def deleteAll {α : Type} (d : DList α) : DList α :=
  d.toList.foldl (fun d cell => (d.unlink cell.1).free cell.1) d

/-- `modebuf` decides the status; `thrd` leaves it as it is. -/
def modeStatus (modebuf : List Byte) (status : Status) : Status :=
  if modebuf.head? = some 49 ∨ modebuf = text "on" then .on
  else if modebuf.head? = some 50 ∨ modebuf = text "ondis" then .ondis
  else if modebuf.head? = some 51 ∨ modebuf = text "keep" then .keep
  else if modebuf = text "thrd" then status
  else .off

/-! ## Options -/

/-- `*` and the detail level: the command and what is left of the line. -/
def parseDetail (buf : List Byte) (d : DBGCMD) : Result (DBGCMD × List Byte) :=
  let b := (stpnxt buf fmtSSB).getD []
  if d.status ≠ .off then
    let star := b.head? = some 42 ∧ isspace (b.tail.headD 0)
    let d := if star then { d with inherit := false } else d
    let b := if star then stpblk (b.drop 2) else b
    if b ≠ [] ∧ (d.status = .on ∨ d.status = .ondis) then
      let detail := if isdigit (b.headD 0) then (sscanfD b).getD 0 else 1
      let b := if isdigit (b.headD 0) then (stpnxt b fmtDB).getD [] else b
      if detail < 0 then .error (.negativeDetail d.funcname detail)
      else .ok ({ d with detail := detail }, b)
    else .ok (d, b)
  else .ok (if b ≠ [] then { d with status := .ondis } else d, b)

/-- A number behind a `:`; a negative one is none. -/
def parseDtst (b : List Byte) (dtst : Int) : Int × List Byte :=
  let b := stpblk b
  let dtst := (sscanfD b).getD dtst
  (if dtst < 0 then DBG_DTSTOFF else dtst, (stpnxt b fmtDB).getD [])

/-- `:nodfl` and the one or two numbers behind `:`. -/
def parseColons (d : DBGCMD) (b : List Byte) : DBGCMD × List Byte :=
  let bb := stpblk b.tail
  let nodfl := b.head? = some 58 ∧ (text "nodfl").isPrefixOf bb
  let d := if nodfl then { d with dbgdfl := false } else d
  let b := if nodfl then stpblk (bb.drop 3) else b
  if b.head? = some 58 then
    let (dtst1, b) := parseDtst b.tail d.dtst1
    let d := { d with dtst1 := dtst1 }
    if b.head? = some 58 then
      let (dtst2, b) := parseDtst b.tail d.dtst2
      ({ d with dtst2 := dtst2 }, b)
    else (d, b)
  else (d, b)

/-! ## Prerequisites -/

/-- The prerequisite in `modebuf`, if its name passes the check. -/
def preqOf (modebuf : List Byte) : Option DBGPREQ :=
  let c := modebuf.headD 0
  if !isalpha c && c != 95 && c != 36 && c != 33 && modebuf.tail.headD 0 != 43 then none
  else if isalpha c then some ⟨modebuf.take (FUNCBUF - 1), 32⟩
  else some ⟨(modebuf.take FUNCBUF).tail, c⟩

/-- `for(; *b && *b != '>'; b= stpnxt(b,"%s%b"))` -/
def parsePreqs : Nat → DBGCMD → List Byte → List Byte → State →
    Result (DBGCMD × List Byte × List Byte × State)
  | 0, d, b, modebuf, s => .ok (d, b, modebuf, s)
  | turns + 1, d, b, modebuf, s =>
    if b = [] ∨ b.head? = some 62 then .ok (d, b, modebuf, s)
    else
      let modebuf := (sscanfS b).getD modebuf
      let next := (stpnxt b fmtSB).getD []
      let d := { d with npreq := d.npreq + 1 }
      if modebuf.length ≥ DBGBUF then .error .outside
      else
        match preqOf modebuf with
        | none => parsePreqs turns d next modebuf (s.warn (.badPrerequisite modebuf))
        | some preq =>
          let modebuf := if isalpha (modebuf.headD 0) then modebuf.take (FUNCBUF - 1)
            else modebuf.take FUNCBUF
          parsePreqs turns { d with preqs := d.preqs.append preq } next modebuf s

theorem parsePreqs_succ (turns : Nat) (d : DBGCMD) (b modebuf : List Byte) (s : State) :
    parsePreqs (turns + 1) d b modebuf s =
      if b = [] ∨ b.head? = some 62 then .ok (d, b, modebuf, s)
      else
        let modebuf := (sscanfS b).getD modebuf
        let next := (stpnxt b fmtSB).getD []
        let d := { d with npreq := d.npreq + 1 }
        if modebuf.length ≥ DBGBUF then .error .outside
        else
          match preqOf modebuf with
          | none => parsePreqs turns d next modebuf (s.warn (.badPrerequisite modebuf))
          | some preq =>
            let modebuf := if isalpha (modebuf.headD 0) then modebuf.take (FUNCBUF - 1)
              else modebuf.take FUNCBUF
            parsePreqs turns { d with preqs := d.preqs.append preq } next modebuf s :=
  rfl

/-- `>file`: the `DBGOUT` of that name, which may be a new one. -/
def parseOut (d : DBGCMD) (b modebuf : List Byte) (s : State) : Result (DBGCMD × State) :=
  if b.head? = some 62 then
    let filename := (sscanfS b.tail).getD modebuf
    if filename.length ≥ DBGBUF then .error .outside
    else
      match s.g.outs.find fun o => o.filename == filename with
      | some (a, _) => .ok ({ d with dbgout := some a }, s)
      | none =>
        .ok ({ d with dbgout := some s.g.outs.brk }, s.setOuts (s.g.outs.append ⟨filename, none⟩))
  else .ok ({ d with dbgout := none }, s)

/-! ## initdbg3 -/

def setCmds (s : State) (cmds : DList DBGCMD) : State := { s with g := { s.g with cmds := cmds } }

/-- `del` of a function, or of all of them. -/
def del (fnamebuf : List Byte) (found : Option (Nat × DBGCMD)) (s : State) : State :=
  if fnamebuf = text "*" then setCmds s (deleteAll s.g.cmds)
  else
    match found with
    | none => s.warn (.notInDatabase fnamebuf)
    | some (p, _) => setCmds s ((s.g.cmds.unlink p).free p)

/-- The command for this function, new or with what is over deleted. -/
def allocCmd (u : Unset) (fnamebuf : List Byte) (found : Option (Nat × DBGCMD)) (s : State) :
    Nat × DBGCMD × State :=
  match found with
  | none =>
    let d := { u.cmd with funcname := fnamebuf, preqs := DList.empty, dbgout := none }
    (s.g.cmds.brk, d, setCmds s (s.g.cmds.append d))
  | some (p, d) => (p, { d with preqs := deleteAll d.preqs, dbgout := none }, s)

/-- The defaults, before the rest of the line is read. -/
def defaults (modebuf : List Byte) (prv : Option DBGCMD) (d : DBGCMD) : DBGCMD :=
  { d with
    status := modeStatus modebuf d.status
    dtst1 := DBG_DTSTOFF
    dtst2 := DBG_DTSTOFF
    dbgdfl := (prv.map DBGCMD.dbgdfl).getD true
    inherit := true
    detail := 0 }

/-- The command that the cell before this one in the database holds. -/
def prvCmd (cmds : DList DBGCMD) (p : Nat) : Option DBGCMD :=
  ((cmds.cells p).bind Heap.Cell.prv).bind cmds.val?

/-- A line that does not delete. -/
def command (env : Env) (u : Unset) (buf modebuf fnamebuf : List Byte) (s : State) :
    Result State :=
  let (p, d, s) := allocCmd u fnamebuf (s.g.cmds.find fun d => d.funcname == fnamebuf) s
  let d := defaults modebuf (prvCmd s.g.cmds p) d
  let s := if modebuf = text "thrd" then
    { s with g := { s.g with showthrdid := !s.g.showthrdid } } else s
  (parseDetail buf d).bind fun (d, b) =>
    let (d, b) := parseColons d b
    (parsePreqs (b.length + 1) { d with npreq := 0 } b modebuf s).bind fun (d, b, modebuf, s) =>
      (parseOut d b modebuf s).bind fun (d, s) =>
        let s := setCmds s (s.g.cmds.modify p fun _ => d)
        match s.thrd.stack with
        | [] => .ok s
        | dbgtl :: _ => if d.funcname = dbgtl.funcname then edbg2 env (some d) s else .ok s

def initdbg3 (env : Env) (u : Unset) (buf : List Byte) (s : State) : Result State :=
  let buf := srmtrblk (buf.takeWhile (· ≠ 35))
  if buf = [] then .ok s
  else
    let modebuf := (sscanfS buf).getD u.modebuf
    let fnamebuf := (sscanfS ((stpblk buf).dropWhile (!isspace ·))).getD u.fnamebuf
    if max modebuf.length fnamebuf.length ≥ DBGBUF then .error .outside
    else
      let fnamebuf := fnamebuf.take (FUNCBUF - 1)
      if modebuf = text "del" then
        .ok (del fnamebuf (s.g.cmds.find fun d => d.funcname == fnamebuf) s)
      else command env u buf modebuf fnamebuf s

end UnixProgramming.Dbg
