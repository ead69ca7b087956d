import Mathlib.Data.UInt
import UnixProgramming.Calls.Prog
import UnixProgramming.Heap.File
import UnixProgramming.Ssl.Formats

/-!
# The database library

`db.c`: an index file of hash chains over a data file, with record locks. A
function of the library is a program over system calls, with the handle as its
state. That a file cannot be written or locked is left out.

An index file begins with the pointer to the free list and the table of the
hash chains. A record is a pointer to the next on its chain, the length of its
text, and the text: key, and offset and length of the data.
-/

namespace UnixProgramming.Db

open Calls (Prog)
open Ssl (Byte digitsText minus strtol)

def IDXLEN_SZ : Nat := 4
def SEP : Byte := 58
def SPACE : Byte := 32
def NEWLINE : Byte := 10
def PTR_SZ : Nat := 7
def PTR_MAX : Int := 9999999
def NHASH_DEF : Nat := 137
def FREE_OFF : Nat := 0
def HASH_OFF : Nat := PTR_SZ
def IDXLEN_MIN : Nat := 6
def IDXLEN_MAX : Nat := 1024
def DATLEN_MIN : Nat := 2
def DATLEN_MAX : Nat := 1024

/-! ## System calls -/

inductive File where
  | idx
  | dat
  deriving DecidableEq, Repr

/-- Why a process ends: `err_dump`, `err_quit` with the pointer it prints, a
store behind the end of `idxbuf`. `killed` is the doing of others, and a loop that
is given up the model's own. -/
inductive Stop where
  | dump (msg : String)
  | quit (msg : String) (ptr : Int)
  | overrun
  | killed
  | givenUp
  deriving DecidableEq, Repr

/-- `size` is `lseek` to the end, or `fstat`. The offset of a descriptor is kept
in the handle. -/
inductive Sys where
  | openf (f : File) (creat trunc : Bool)
  | size (f : File)
  | read (f : File) (off n : Nat)
  | write (f : File) (off : Nat) (bs : List Byte)
  | lock (f : File) (write : Bool) (off len : Nat)
  | unlock (f : File) (off len : Nat)
  | stop (why : Stop)
  deriving DecidableEq, Repr

abbrev Answer : Sys → Type
  | .openf .. => Bool
  | .size _ => Nat
  | .read .. => List Byte
  | .write .. => Unit
  | .lock .. => Unit
  | .unlock .. => Unit
  | .stop _ => Empty

/-! ## The handle -/

inductive Errno where
  | EINVAL
  | ENOENT
  deriving DecidableEq, Repr

/-- The counters of a handle. -/
structure Counts where
  delok : Nat := 0
  delerr : Nat := 0
  fetchok : Nat := 0
  fetcherr : Nat := 0
  nextrec : Nat := 0
  stor1 : Nat := 0
  stor2 : Nat := 0
  stor3 : Nat := 0
  stor4 : Nat := 0
  storerr : Nat := 0
  deriving DecidableEq, Repr

/-- `DB`. `idxbuf` and `datbuf` are the strings in the buffers. The table has its
default size. -/
structure DB where
  idxbuf : List Byte := []
  datbuf : List Byte := []
  idxoff : Int := 0
  idxlen : Nat := 0
  datoff : Int := 0
  datlen : Nat := 0
  ptrval : Int := 0
  ptroff : Int := 0
  chainoff : Nat := 0
  cnt : Counts := {}

/-- A handle with the offsets of its descriptors, and `errno`. -/
structure Handle where
  db : DB := {}
  pos : File → Nat := fun _ => 0
  errno : Option Errno := none

namespace Handle

def seek (h : Handle) (f : File) (o : Nat) : Handle :=
  { h with pos := Function.update h.pos f o }

def on (h : Handle) (f : DB → DB) : Handle := { h with db := f h.db }

def fail (h : Handle) (e : Errno) : Handle := { h with errno := some e }

section
variable (h : Handle) (f : File) (o : Nat) (g : DB → DB) (e : Errno)

@[simp] theorem seek_db : (h.seek f o).db = h.db := rfl
@[simp] theorem seek_pos : (h.seek f o).pos f = o := Function.update_self ..
@[simp] theorem seek_seek (o' : Nat) : (h.seek f o).seek f o' = h.seek f o' :=
  congrArg (Handle.mk h.db · h.errno) (Function.update_idem ..)
@[simp] theorem on_db : (h.on g).db = g h.db := rfl
@[simp] theorem on_pos : (h.on g).pos = h.pos := rfl
@[simp] theorem on_seek : (h.on g).seek f o = (h.seek f o).on g := rfl
@[simp] theorem fail_db : (h.fail e).db = h.db := rfl

end

end Handle

abbrev Action := StateT Handle (Prog Answer)

def sys (c : Sys) : Action (Answer c) := StateT.lift (Prog.ask c)

def stop {α : Type} (why : Stop) : Action α := fun _ => .call (.stop why) fun e => e.elim

def err_dump {α : Type} (msg : String) : Action α := stop (.dump msg)

def getDB : Action DB := return (← get).db

def setDB (f : DB → DB) : Action Unit := modify fun h => h.on f

inductive Whence where
  | SEEK_SET
  | SEEK_END
  deriving DecidableEq, Repr

/-- `lseek`, and `msg` for what it refuses. -/
def lseek (f : File) (offset : Int) (whence : Whence) (msg : String) : Action Nat := do
  let base ← match whence with
    | .SEEK_SET => pure 0
    | .SEEK_END => sys (.size f)
  if base + offset < 0 then err_dump msg
  else
    modify fun h => h.seek f (base + offset).toNat
    return (base + offset).toNat

/-- `read` and `readv` -/
def read (f : File) (n : Nat) : Action (List Byte) := do
  let at' := (← get).pos f
  let bs ← sys (.read f at' n)
  modify fun h => h.seek f (at' + bs.length)
  return bs

/-- `write` and `writev` -/
def write (f : File) (bs : List Byte) : Action Unit := do
  let at' := (← get).pos f
  sys (.write f at' bs)
  modify fun h => h.seek f (at' + bs.length)

/-! ## Numbers -/

def atol (s : List Byte) : Int := (strtol s).getD 0
def atoi (s : List Byte) : Int := (atol s).bmod (2 ^ 32)

/-- `%lld` -/
def decimal (n : Int) : List Byte := minus (n < 0) ++ digitsText 10 n.natAbs

/-- `%*lld` -/
def padded (width : Nat) (n : Int) : List Byte :=
  List.replicate (width - (decimal n).length) SPACE ++ decimal n

/-- `strchr`, as what is before the character and what is behind it. -/
def strchr (s : List Byte) (c : Byte) : Option (List Byte × List Byte) :=
  if c ∈ s then some (s.takeWhile (· ≠ c), (s.dropWhile (· ≠ c)).tail) else none

/-! ## Pointers and records -/

/-- `hval += c * i`, with `i` the index of the first character. -/
def hashFrom (hval : UInt64) (i : Nat) : List Byte → UInt64
  | [] => hval
  | c :: key => hashFrom (hval + UInt64.ofInt (c.toInt8.toInt * i)) (i + 1) key

def hash (key : List Byte) : Nat := (hashFrom 0 1 key).toNat % NHASH_DEF

def readptr (offset : Int) : Action Int := do
  let _ ← lseek .idx offset .SEEK_SET "_db_readptr: lseek error to ptr field"
  let asciiptr ← read .idx PTR_SZ
  if asciiptr.length ≠ PTR_SZ then err_dump "_db_readptr: read error of ptr field"
  else return atol asciiptr

/-- The text of an index record, without the newline: key, offset, length. -/
def separate (text : List Byte) : Action Unit :=
  match strchr text SEP with
  | none => err_dump "_db_readidx: missing first separator"
  | some (key, text) =>
    match strchr text SEP with
    | none => err_dump "_db_readidx: missing second separator"
    | some (ptr1, ptr2) =>
      if SEP ∈ ptr2 then err_dump "_db_readidx: too many separators"
      else if atol ptr1 < 0 then err_dump "_db_readidx: starting offset < 0"
      else
        let datlen := (atol ptr2 % 2 ^ 64).toNat
        if datlen = 0 ∨ datlen > DATLEN_MAX then err_dump "_db_readidx: invalid length"
        else setDB fun db => { db with idxbuf := key, datoff := atol ptr1, datlen }

/-- `_db_readidx` behind its `lseek`. At the end of the file it hands over -1 if
that may be. -/
def readhere (mayEnd : Bool) : Action Int := do
  let head ← read .idx (PTR_SZ + IDXLEN_SZ)
  if head.length ≠ PTR_SZ + IDXLEN_SZ then
    if head.length = 0 ∧ mayEnd then return -1
    else err_dump "_db_readidx: readv error of index record"
  else
    let ptrval := atol (head.take PTR_SZ)
    let idxlen := (atoi (head.drop PTR_SZ) % 2 ^ 64).toNat
    setDB fun db => { db with ptrval, idxlen }
    if idxlen < IDXLEN_MIN ∨ idxlen > IDXLEN_MAX then err_dump "_db_readidx: invalid length"
    else
      let body ← read .idx idxlen
      if body.length ≠ idxlen then err_dump "_db_readidx: read error of index record"
      else if body.getLast? ≠ some NEWLINE then err_dump "_db_readidx: missing newline"
      else
        separate (body.dropLast.takeWhile (· ≠ 0))
        return ptrval

/-- With offset 0, from the current offset on. -/
def readidx (offset : Int) : Action Int := do
  if offset = 0 then
    let idxoff := (← get).pos .idx
    setDB fun db => { db with idxoff }
    readhere true
  else
    let idxoff ← lseek .idx offset .SEEK_SET "_db_readidx: lseek error"
    setDB fun db => { db with idxoff }
    readhere false

def readdat : Action (List Byte) := do
  let db ← getDB
  let _ ← lseek .dat db.datoff .SEEK_SET "_db_readdat: lseek error"
  let bs ← read .dat db.datlen
  if bs.length ≠ db.datlen then err_dump "_db_readdat: read error"
  else if bs.getLast? ≠ some NEWLINE then err_dump "_db_readdat: missing newline"
  else
    setDB fun db => { db with datbuf := bs.dropLast.takeWhile (· ≠ 0) }
    return bs.dropLast.takeWhile (· ≠ 0)

def writedat (data : List Byte) (offset : Int) (whence : Whence) : Action Unit := do
  if whence = .SEEK_END then sys (.lock .dat true 0 0)
  let datoff ← lseek .dat offset whence "_db_writedat: lseek error"
  setDB fun db => { db with datoff, datlen := data.length + 1 }
  write .dat (data ++ [NEWLINE])
  if whence = .SEEK_END then sys (.unlock .dat 0 0)

/-- The text of an index record. -/
def entry (key : List Byte) (datoff : Int) (datlen : Nat) : List Byte :=
  key ++ SEP :: (decimal datoff ++ SEP :: (decimal datlen ++ [NEWLINE]))

/-- `sprintf` stores into `idxbuf` before the length is looked at. When `key` is
`idxbuf` itself, the key stays where it is. -/
def writeidx (key : List Byte) (offset : Int) (whence : Whence) (ptrval : Int) : Action Unit := do
  setDB fun db => { db with ptrval }
  if ptrval < 0 ∨ ptrval > PTR_MAX then stop (.quit "_db_writeidx: invalid ptr: %d" ptrval)
  else
    let db ← getDB
    let text := entry key db.datoff db.datlen
    if text.length ≥ IDXLEN_MAX + 2 then stop .overrun
    else
      setDB fun db => { db with idxbuf := text }
      if text.length < IDXLEN_MIN ∨ text.length > IDXLEN_MAX then
        err_dump "_db_writeidx: invalid length"
      else
        if whence = .SEEK_END then sys (.lock .idx true ((NHASH_DEF + 1) * PTR_SZ + 1) 0)
        let idxoff ← lseek .idx offset whence "_db_writeidx: lseek error"
        setDB fun db => { db with idxoff }
        write .idx (padded PTR_SZ ptrval ++ padded IDXLEN_SZ text.length ++ text)
        if whence = .SEEK_END then sys (.unlock .idx ((NHASH_DEF + 1) * PTR_SZ + 1) 0)

def writeptr (offset ptrval : Int) : Action Unit := do
  if ptrval < 0 ∨ ptrval > PTR_MAX then stop (.quit "_db_writeptr: invalid ptr: %d" ptrval)
  else
    let _ ← lseek .idx offset .SEEK_SET "_db_writeptr: lseek error to ptr field"
    write .idx (padded PTR_SZ ptrval)

end UnixProgramming.Db
