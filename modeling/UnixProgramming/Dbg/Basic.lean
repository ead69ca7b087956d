import UnixProgramming.Heap.DList
import UnixProgramming.Ssl.Scan

/-!
# The debugger's data

The structures of `dbg.c`: the call stack of a thread, the command database with
its prerequisites and output files, and what has been printed. Frames are
numbered in the order in which their thread allocates them.
-/

namespace UnixProgramming.Dbg

open Ssl (Byte stpblk)
open Heap (DList)

/-- The characters of a string constant. -/
def text (s : String) : List Byte := s.toList.map fun c => UInt8.ofNat c.toNat

def decimal (n : Nat) : List Byte := (Nat.toDigits 10 n).map fun c => UInt8.ofNat c.toNat

def DBG_DTSTOFF : Int := -10000
def FUNCBUF : Nat := 66
def DBGBUF : Nat := 2048

inductive Status where
  | off
  | ondis
  | on
  | keep
  | unknown
  deriving DecidableEq

/-- The file that was opened for the `DBGOUT` at an address is none of the
files opened for others, also if their names are the same. -/
inductive Stream where
  | stdout
  | stderr
  | file (dbgout : Nat) (fname : List Byte)
  deriving DecidableEq

structure DBG where
  addr : Nat
  funcname : List Byte
  dbgswbuf : Option (List Byte)
  status : Status
  detail : Int
  inherit : Bool
  dbgdfl : Bool
  dtst1 : Int
  dtst2 : Int
  dbgout : Option Nat

structure DBGPREQ where
  funcname : List Byte
  select : Byte

structure DBGCMD where
  funcname : List Byte
  dtst1 : Int
  dtst2 : Int
  dbgdfl : Bool
  inherit : Bool
  npreq : Nat
  status : Status
  detail : Int
  dbgout : Option Nat
  preqs : DList DBGPREQ

structure DBGOUT where
  filename : List Byte
  fp : Option Stream

structure DBGJMPBUF where
  env : Nat
  dbg : Option Nat

/-! ## Output -/

/-- Calls of `error` with `XTDIO_WARNING`. -/
inductive Warning where
  | unableToOpen (fname : List Byte)
  | debuggingOff (funcname : List Byte)
  | dprintfBeforeEdbg (fmt : List Byte)
  | notInDatabase (funcname : List Byte)
  | badPrerequisite (name : List Byte)
  | dsetjmpBeforeEdbg
  | dlongjmpBeforeEdbg

/-- Whether a print is the entry line of a frame, its return line or neither. -/
inductive Line where
  | entry (dbg : Nat)
  | leave (dbg : Nat)
  | other
  deriving DecidableEq

inductive Out where
  | print (fp : Stream) (line : Line) (chars : List Byte)
  | warning (w : Warning)
  | fclose (fp : Stream)

/-- Where the program ends: calls of `error` with `XTDIO_ERROR`, and accesses
outside an array or through a null or dangling pointer. -/
inductive Failure where
  | outside
  | illegalName (funcname : List Byte)
  | rdbgBeforeInitdbg
  | mismatch (edbg rdbg : List Byte)
  | unknownStatus
  | noTarget (funcname : List Byte)
  | negativeDetail (funcname : List Byte) (detail : Int)

abbrev Result := Except Failure

/-! ## State -/

/-- The variables that all threads share. -/
structure Globals where
  showthrdid : Bool
  drcdbgline : Int
  dbg_Nflag : Bool
  dtst1 : Int
  dtst2 : Int
  cmds : DList DBGCMD
  outs : DList DBGOUT
  log : List Out

/-- A thread's own variables. The top of the stack comes first, the head of the
jump list too; `mallocs` counts the frames that it has allocated. -/
structure DBGTHREAD where
  self : Nat
  id : Nat
  dbgnestmode : Bool
  dbglvl : Int
  stack : List DBG
  jmps : List DBGJMPBUF
  dbgfp : Stream
  mallocs : Nat

structure State where
  g : Globals
  thrd : DBGTHREAD

/-- What the C library decides: which files can be opened, and what is in the
memory that `malloc` returns for a frame. -/
structure Env where
  fopen : Nat → List Byte → Bool
  junk : Nat → DBG

namespace State

def print (s : State) (line : Line) (chars : List Byte) : State :=
  { s with g := { s.g with log := s.g.log ++ [.print s.thrd.dbgfp line chars] } }

def warn (s : State) (w : Warning) : State :=
  { s with g := { s.g with log := s.g.log ++ [.warning w] } }

def setStack (s : State) (stack : List DBG) : State :=
  { s with thrd := { s.thrd with stack := stack } }

def setLvl (s : State) (dbglvl : Int) : State :=
  { s with thrd := { s.thrd with dbglvl := dbglvl } }

def setFp (s : State) (fp : Stream) : State := { s with thrd := { s.thrd with dbgfp := fp } }

def setNestmode (s : State) (mode : Bool) : State :=
  { s with thrd := { s.thrd with dbgnestmode := mode } }

def setDtst (s : State) (dtst1 dtst2 : Int) : State :=
  { s with g := { s.g with dtst1 := dtst1, dtst2 := dtst2 } }

def setOuts (s : State) (outs : DList DBGOUT) : State := { s with g := { s.g with outs := outs } }

/-- `fprintf(thrd->dbgfp,"%3d",thrd->id)` if it is asked for. -/
def thrdid (s : State) : List Byte :=
  if s.g.showthrdid then
    List.replicate (3 - (decimal s.thrd.id).length) 32 ++ decimal s.thrd.id
  else []

/-- `NEST` -/
def nest (s : State) : List Byte := List.replicate s.thrd.dbglvl.toNat 124

end State

/-- A format, its first argument where that is a string, and what `printf`
makes of the format and all the arguments. -/
structure Call where
  fmt : List Byte
  name : List Byte
  chars : List Byte

/-- `dstptok` up to the first token: the token, and what is left behind it. -/
def dstptok (s : List Byte) (toklen : Nat) (brk : List Byte) : List Byte × Option (List Byte) :=
  match s.dropWhile brk.contains with
  | [] => ([], none)
  | s =>
    let tok := (s.take (toklen - 1)).takeWhile (!brk.contains ·)
    (tok, some (s.drop tok.length))

end UnixProgramming.Dbg
