import Mathlib.Data.List.DropRight
import UnixProgramming.Dbg.Basic

/-!
# The debugger's calls

`edbg`, `rdbg`, `dprintf`, `dbgswitch`, `dsetjmp` and `dlongjmp` on the data of
one thread and on what all threads share.
-/

namespace UnixProgramming.Dbg

open Ssl (Byte stpblk)
open Heap (DList)

/-! ## edbg -/

/-- The prerequisites from this one on: whether one of them rejects the command,
and the number of `+` names that are not on the stack. -/
def preqLoop (onStack : List Byte → Bool) : List DBGPREQ → Nat → Bool × Nat
  | [], rejectcnt => (false, rejectcnt)
  | preq :: preqs, rejectcnt =>
    if preq.select = 33 then
      if onStack preq.funcname then (true, rejectcnt) else preqLoop onStack preqs rejectcnt
    else if preq.select = 43 then
      if onStack preq.funcname then (false, rejectcnt) else preqLoop onStack preqs (rejectcnt + 1)
    else if onStack preq.funcname then preqLoop onStack preqs rejectcnt
    else (true, rejectcnt)

/-- `reject` of `edbg2`, for the functions on the stack. -/
def rejects (d : DBGCMD) (chain : List (List Byte)) : Bool :=
  if d.preqs.hd.isSome then
    let r := preqLoop chain.contains d.preqs.vals 0
    r.1 || r.2 == d.npreq
  else false

/-- The current function as its command wants it; `prv` is the calling one. -/
def fired (d : DBGCMD) (prv : Option DBG) (dbgtl : DBG) : DBG :=
  { dbgtl with
    dbgout := if d.dbgout.isSome then d.dbgout else prv.bind DBG.dbgout
    status := if d.status = .keep then (prv.map DBG.status).getD d.status else d.status
    detail :=
      if d.status = .on then d.detail
      else if d.status = .ondis then d.detail
      else if d.status = .keep then (prv.map DBG.detail).getD 0 else 0
    inherit := if d.status ≠ .keep then d.inherit else (prv.map DBG.inherit).getD false
    dtst1 := if d.dtst1 > DBG_DTSTOFF then d.dtst1 else (prv.map DBG.dtst1).getD DBG_DTSTOFF
    dtst2 := if d.dtst2 > DBG_DTSTOFF then d.dtst2 else (prv.map DBG.dtst2).getD DBG_DTSTOFF
    dbgdfl := d.dbgdfl }

def rejected (prv : Option DBG) (dbgtl : DBG) : DBG :=
  { dbgtl with
    status := .off
    inherit := false
    dtst1 := DBG_DTSTOFF
    dtst2 := DBG_DTSTOFF
    dbgout := prv.bind DBG.dbgout
    dbgdfl := (prv.map DBG.dbgdfl).getD false }

/-- The current function without a command. -/
def inherited (prv : Option DBG) (dbgtl : DBG) : DBG :=
  match prv with
  | some prv =>
    if prv.inherit then
      { dbgtl with
        status := if prv.status = .ondis then .off else prv.status
        detail := prv.detail
        inherit := prv.inherit
        dtst1 := prv.dtst1
        dtst2 := prv.dtst2
        dbgout := prv.dbgout
        dbgdfl := prv.dbgdfl }
    else { rejected (some prv) dbgtl with dbgdfl := false }
  | none => { rejected none dbgtl with dbgdfl := false }

/-- The name under which the output file is opened: a final character is
replaced by the thread's number where there is a `%`. -/
def outName (id : Nat) (filename : List Byte) : List Byte :=
  if filename.contains 37 then filename.dropLast ++ decimal id else filename

/-- The output of a command becomes that of the thread, and is opened. -/
def redirect (env : Env) (d : DBGCMD) (s : State) : Result State :=
  match d.dbgout with
  | none => .ok s
  | some a =>
    match s.g.outs.val? a with
    | none => .error .outside
    | some dbgout =>
      match dbgout.fp with
      | some fp => .ok (s.setFp fp)
      | none =>
        let fname := outName s.thrd.id dbgout.filename
        if max dbgout.filename.length fname.length ≥ FUNCBUF then .error .outside
        else if env.fopen a fname then
          .ok ((s.setOuts (s.g.outs.modify a fun o => { o with fp := some (.file a fname) })).setFp
            (.file a fname))
        else
          .ok (((s.warn (.unableToOpen fname)).setOuts
            (s.g.outs.modify a fun o => { o with fp := some .stdout })).setFp .stdout)

/-- `edbg2`, with the prerequisites checked against the whole stack. -/
def edbg2 (env : Env) (d : Option DBGCMD) (s : State) : Result State :=
  match s.thrd.stack with
  | [] => .error .outside
  | dbgtl :: below =>
    match d with
    | none => .ok (s.setStack (inherited below.head? dbgtl :: below))
    | some d =>
      if rejects d ((dbgtl :: below).map DBG.funcname) then
        .ok (s.setStack (rejected below.head? dbgtl :: below))
      else
        (redirect env d s).map fun s => s.setStack (fired d below.head? dbgtl :: below)

/-- The function name in an `edbg`: the first argument of `"%s..."`, else what
stands before the parenthesis. -/
def edbgName (c : Call) : Result (List Byte) :=
  if [37, 115].isPrefixOf c.fmt then
    if c.name.length ≥ FUNCBUF then .error .outside else .ok c.name
  else .ok ((dstptok c.fmt DBGBUF (text "(")).1.take (FUNCBUF - 1))

/-- The current function's entry line: kept for `dbgswitch`, and printed if
debugging is on. -/
def enter (c : Call) (s : State) : Result State :=
  match s.thrd.stack with
  | [] => .error .outside
  | dbgtl :: below =>
    let s := s.setDtst dbgtl.dtst1 dbgtl.dtst2
    if dbgtl.status = .on ∨ dbgtl.status = .ondis then
      let dbgbuf := c.chars.take (DBGBUF - 1) ++ text "\x7b\n"
      if dbgbuf.length ≥ DBGBUF then .error .outside
      else
        let s := s.setStack ({ dbgtl with dbgswbuf := some dbgbuf } :: below)
        if dbgtl.status = .on then
          .ok ((s.print (.entry dbgtl.addr) (s.thrdid ++ s.nest ++ c.chars ++ text "\x7b\n")).setLvl
            (s.thrd.dbglvl + 1))
        else .ok s
    else .ok (s.setStack ({ dbgtl with dbgswbuf := none } :: below))

/-- A new frame on the stack; its other fields are what `malloc` has left there. -/
def push (env : Env) (funcname : List Byte) (s : State) : State :=
  { s with thrd := { s.thrd with
      dbgnestmode := true
      stack := { env.junk s.thrd.mallocs with
        addr := s.thrd.mallocs, funcname := funcname, dbgswbuf := none } :: s.thrd.stack
      mallocs := s.thrd.mallocs + 1 } }

def findCmd (cmds : DList DBGCMD) (funcname : List Byte) : Option DBGCMD :=
  (cmds.find fun d => d.funcname == funcname).map Prod.snd

def edbg (env : Env) (c : Call) (s : State) : Result State :=
  (edbgName c).bind fun funcname =>
    if funcname.any (· ≥ 128) then .error (.illegalName funcname)
    else (edbg2 env (findCmd s.g.cmds funcname) (push env funcname s)).bind (enter c)

/-! ## rdbg -/

def printReturn (c : Call) (dbgtl : DBG) (s : State) : State :=
  let line :=
    if s.g.drcdbgline > 0 then text " \x7d~" ++ decimal s.g.drcdbgline.toNat ++ text "\n"
    else text " \x7d\n"
  (s.print (.leave dbgtl.addr) (s.thrdid ++ s.nest ++ text "return " ++ c.chars ++ line)).setLvl
    (if s.thrd.dbglvl > 0 then s.thrd.dbglvl - 1 else s.thrd.dbglvl)

/-- The return line of the current function, if its status asks for one. -/
def leave (c : Call) (dbgtl : DBG) (s : State) : Result State :=
  match dbgtl.status with
  | .ondis => if dbgtl.dbgswbuf.isSome then .ok s else .ok (printReturn c dbgtl s)
  | .on => .ok (printReturn c dbgtl s)
  | .keep => .ok s
  | .off => .ok s
  | .unknown => .error .unknownStatus

def rdbgName (c : Call) : Result (List Byte) :=
  if [37, 115].isPrefixOf c.fmt then
    if c.name.length ≥ DBGBUF then .error .outside else .ok c.name
  else .ok (dstptok (stpblk c.fmt) DBGBUF (text " \t(")).1

/-- The output of the calling function becomes that of the thread. -/
def restoreFp (dbgtl : DBG) (dbgprv : Option DBG) (s : State) : Result State :=
  match dbgprv with
  | none => .ok (s.setFp .stdout)
  | some dbgprv =>
    if dbgtl.dbgout ≠ dbgprv.dbgout then
      match dbgprv.dbgout with
      | none => .ok (s.setFp .stdout)
      | some a =>
        match s.g.outs.val? a with
        | none => .error .outside
        | some dbgout => .ok (s.setFp (dbgout.fp.getD .stdout))
    else .ok s

/-- The outermost function returns: no commands and no output files any more. -/
def cleanUp (s : State) : State :=
  { g := { s.g with
      cmds := { DList.empty with brk := s.g.cmds.brk }
      outs := { DList.empty with brk := s.g.outs.brk }
      log := s.g.log ++ (s.g.outs.vals.filterMap DBGOUT.fp).map .fclose }
    thrd := { s.thrd with dbgfp := .stderr } }

/-- `while(thrd->dbgjmptl)`: the jump entries at the tail that refer to a frame
that is popped. -/
def popJmps (addr : Nat) (jmps : List DBGJMPBUF) : List DBGJMPBUF :=
  jmps.rdropWhile fun jb => jb.dbg = some addr

def rdbg (c : Call) (s : State) : Result State :=
  let s := s.setNestmode true
  match s.thrd.stack with
  | [] => .error .rdbgBeforeInitdbg
  | dbgtl :: below =>
    (leave c dbgtl s).bind fun s =>
    (rdbgName c).bind fun name =>
    if name ≠ dbgtl.funcname then .error (.mismatch dbgtl.funcname name)
    else
      (restoreFp dbgtl below.head? s).map fun s =>
        let s := s.setDtst ((below.head?.map DBG.dtst1).getD DBG_DTSTOFF)
          ((below.head?.map DBG.dtst2).getD DBG_DTSTOFF)
        if below.isEmpty then cleanUp s
        else { s with thrd := { s.thrd with
          stack := below, jmps := popJmps dbgtl.addr s.thrd.jmps } }

/-! ## dprintf and dbgswitch -/

def dbgtst (detail : Int) (s : State) : Bool :=
  match s.thrd.stack with
  | [] => false
  | dbgtl :: _ => dbgtl.status = .on && dbgtl.detail ≥ detail

def prt_traceback (s : State) : State :=
  s.print .other ((List.replicate (3 - (decimal s.thrd.id).length) 32 ++ decimal s.thrd.id) ++
    List.intercalate (text " | ") (s.thrd.stack.reverse.map DBG.funcname) ++ text "\n")

/-- The line of a `dprintf` behind the newlines at the start of its format. -/
def dprintfLine (detail : Int) (c : Call) (dbgtl : DBG) (s : State) : Result State :=
  let lead :=
    if s.thrd.dbgnestmode then
      (if detail ≥ 0 then s.thrdid ++ s.nest else []) ++
        if s.g.dbg_Nflag then dbgtl.funcname ++ text ": " else []
    else []
  let dbgbuf := c.chars.take (DBGBUF - 1)
  if dbgbuf.isEmpty then .error .outside
  else
    let line :=
      if dbgbuf.getLast? = some 10 ∧ dbgtl.dbgdfl then
        dbgbuf.dropLast ++
          if s.g.drcdbgline > 0 then text "~" ++ decimal s.g.drcdbgline.toNat ++ text "\n"
          else text "\n"
      else dbgbuf
    .ok ((s.print .other (lead ++ line)).setNestmode
      (c.fmt.head? = some 10 || dbgbuf.getLast? = some 10))

/-- `dprintf` returns whether it has printed, as a detail level. -/
def dprintf (detail : Int) (c : Call) (s : State) : Result (Int × State) :=
  match s.thrd.stack with
  | [] => .ok (0, prt_traceback (s.warn (.dprintfBeforeEdbg c.fmt)))
  | dbgtl :: _ =>
    if dbgtl.status = .on ∧
        (detail < 0 ∧ dbgtl.detail = -detail ∨ detail ≥ 0 ∧ dbgtl.detail ≥ detail) then
      let newlines := c.fmt.takeWhile (· = 10)
      let s := s.print .other newlines
      if newlines.length = c.fmt.length then .ok (dbgtl.detail, s.setNestmode true)
      else (dprintfLine detail c dbgtl s).map fun s => (dbgtl.detail, s)
    else .ok (0, s)

def dbgswitch (on : Int) (s : State) : Result (Bool × State) :=
  match s.thrd.stack with
  | [] => .error .outside
  | dbgtl :: below =>
    let s :=
      if on ≠ 0 then
        if dbgtl.status = .ondis then
          let detail := if on > 0 then on else dbgtl.detail
          let dbgtl := { dbgtl with status := .on, detail := detail }
          match dbgtl.dbgswbuf with
          | some chars =>
            ((s.print (.entry dbgtl.addr) (s.thrdid ++ s.nest ++ chars)).setLvl
              (s.thrd.dbglvl + 1)).setStack ({ dbgtl with dbgswbuf := none } :: below)
          | none => s.setStack (dbgtl :: below)
        else if dbgtl.status = .on then s.setStack ({ dbgtl with detail := on } :: below)
        else if dbgtl.status = .off then s.warn (.debuggingOff dbgtl.funcname)
        else s
      else if dbgtl.status = .on then s.setStack ({ dbgtl with status := .ondis } :: below)
      else s
    .ok (dbgtst on s, s)

/-! ## dsetjmp and dlongjmp -/

def dsetjmp (env : Nat) (s : State) : State :=
  let s := if s.thrd.stack.isEmpty then s.warn .dsetjmpBeforeEdbg else s
  { s with thrd := { s.thrd with
      jmps := s.thrd.jmps.eraseP (fun jb => jb.env == env) ++
        [⟨env, s.thrd.stack.head?.map DBG.addr⟩] } }

/-- `for(dbg= thrd->dbgtl; dbg; dbg= dbgprv)`: pop the frames above the target. -/
def unwind (target : Option Nat) : List DBG → State → State
  | [], s => s.setStack []
  | dbg :: below, s =>
    if target = some dbg.addr then s.setStack (dbg :: below)
    else
      let s :=
        if dbg.status = .on then
          s.print (.leave dbg.addr) (s.thrdid ++ s.nest ++ text "longjmp return " ++ dbg.funcname ++
            text ": skipped\x7d\n")
        else s
      unwind target below (s.setLvl (s.thrd.dbglvl - 1))

def dlongjmp (env : Nat) (c : Call) (s : State) : Result State :=
  let s := s.setNestmode true
  match s.thrd.stack with
  | [] => .ok (s.warn .dlongjmpBeforeEdbg)
  | dbgtl :: below =>
    let name := (dstptok (stpblk c.fmt) DBGBUF (text " \t(")).1
    if c.fmt ≠ [] ∧ name ≠ dbgtl.funcname then .error (.mismatch dbgtl.funcname name)
    else
      match s.thrd.jmps.find? fun jb => jb.env == env with
      | none => .error (.noTarget dbgtl.funcname)
      | some jb =>
        let reason := if c.fmt ≠ [] then text " : " ++ c.chars else []
        if dbgtl.status = .on then
          if jb.dbg = some dbgtl.addr then
            .ok (s.print .other (s.thrdid ++ s.nest ++ text "longjmp within " ++ dbgtl.funcname ++
              reason ++ text "\x7d\n"))
          else
            let s := s.print (.leave dbgtl.addr) (s.thrdid ++ s.nest ++ text "longjmp return " ++
              dbgtl.funcname ++ reason ++ text "\x7d\n")
            .ok (unwind jb.dbg below (s.setLvl (s.thrd.dbglvl - 1)))
        else .ok (unwind jb.dbg (dbgtl :: below) s)

end UnixProgramming.Dbg
