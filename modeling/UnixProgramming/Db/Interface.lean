import UnixProgramming.Db.Basic

/-!
# The functions of the database library

`apue_db.h` and what its functions share. A loop over a chain or over the index
file is given up after `turns` turns; how many are enough is for the theorems
to say.
-/

namespace UnixProgramming.Db

open Calls (Prog)
open Ssl (Byte)

/-- `writew_lock` and `readw_lock` of one byte of the index file. -/
def lockByte (write : Bool) (off : Nat) : Action Unit := sys (.lock .idx write off 1)

def un_lockByte (off : Nat) : Action Unit := sys (.unlock .idx off 1)

/-! ## Deleting -/

/-- Delete the record that the handle holds. -/
def dodelete : Action Unit := do
  setDB fun db => { db with
    datbuf := List.replicate (db.datlen - 1) SPACE
    idxbuf := List.replicate db.idxbuf.length SPACE }
  lockByte true FREE_OFF
  let db ← getDB
  writedat db.datbuf db.datoff .SEEK_SET
  let freeptr ← readptr FREE_OFF
  let saveptr := (← getDB).ptrval
  let db ← getDB
  writeidx db.idxbuf db.idxoff .SEEK_SET freeptr
  let db ← getDB
  writeptr FREE_OFF db.idxoff
  writeptr db.ptroff saveptr
  un_lockByte FREE_OFF

/-! ## Searching -/

/-- The loop over a hash chain. -/
def findFrom (key : List Byte) : Nat → Int → Action Bool
  | 0, _ => stop .givenUp
  | turns + 1, offset => do
    if offset = 0 then return false
    else
      let nextoffset ← readidx offset
      if (← getDB).idxbuf = key then return true
      else
        setDB fun db => { db with ptroff := offset }
        findFrom key turns nextoffset

/-- Whether there is a record with this key. Its chain is locked. -/
def find_and_lock (turns : Nat) (key : List Byte) (writelock : Bool) : Action Bool := do
  let chainoff := hash key * PTR_SZ + HASH_OFF
  setDB fun db => { db with chainoff, ptroff := chainoff }
  lockByte writelock chainoff
  let offset ← readptr chainoff
  findFrom key turns offset

/-- The loop over the free list: the offset of the link to a record that fits. -/
def freeFrom (keylen datlen : Nat) : Nat → Int → Int → Action (Option Int)
  | 0, _, _ => stop .givenUp
  | turns + 1, saveoffset, offset => do
    if offset = 0 then return none
    else
      let nextoffset ← readidx offset
      let db ← getDB
      if db.idxbuf.length = keylen ∧ db.datlen = datlen then return some saveoffset
      else freeFrom keylen datlen turns offset nextoffset

/-- Whether there is a free record of these sizes. It is free no more. -/
def findfree (turns keylen datlen : Nat) : Action Bool := do
  lockByte true FREE_OFF
  let offset ← readptr FREE_OFF
  let found ← freeFrom keylen datlen turns FREE_OFF offset
  match found with
  | none =>
    un_lockByte FREE_OFF
    return false
  | some saveoffset =>
    writeptr saveoffset (← getDB).ptrval
    un_lockByte FREE_OFF
    return true

/-! ## The interface -/

def count (f : Counts → Counts) : Action Unit := setDB fun db => { db with cnt := f db.cnt }

def setErrno (e : Errno) : Action Unit := modify fun h => h.fail e

def db_fetch (turns : Nat) (key : List Byte) : Action (Option (List Byte)) := do
  let found ← find_and_lock turns key false
  if found then
    let data ← readdat
    count fun cnt => { cnt with fetchok := cnt.fetchok + 1 }
    un_lockByte (← getDB).chainoff
    return some data
  else
    count fun cnt => { cnt with fetcherr := cnt.fetcherr + 1 }
    un_lockByte (← getDB).chainoff
    return none

def db_delete (turns : Nat) (key : List Byte) : Action Int := do
  let found ← find_and_lock turns key true
  if found then
    dodelete
    count fun cnt => { cnt with delok := cnt.delok + 1 }
    un_lockByte (← getDB).chainoff
    return 0
  else
    count fun cnt => { cnt with delerr := cnt.delerr + 1 }
    un_lockByte (← getDB).chainoff
    return -1

def DB_INSERT : Int := 1
def DB_REPLACE : Int := 2
def DB_STORE : Int := 3

/-- A new record at the ends of both files, first on its chain. -/
def append (key data : List Byte) (ptrval : Int) : Action Unit := do
  writedat data 0 .SEEK_END
  writeidx key 0 .SEEK_END ptrval
  let db ← getDB
  writeptr db.chainoff db.idxoff

/-- A free record used again, first on its chain. -/
def reuse (key data : List Byte) (ptrval : Int) : Action Unit := do
  writedat data (← getDB).datoff .SEEK_SET
  writeidx key (← getDB).idxoff .SEEK_SET ptrval
  let db ← getDB
  writeptr db.chainoff db.idxoff

/-- `db_store` where there is no record with the key. -/
def storeNew (turns : Nat) (key data : List Byte) (flag : Int) : Action Int := do
  if flag = DB_REPLACE then
    count fun cnt => { cnt with storerr := cnt.storerr + 1 }
    setErrno .ENOENT
    return -1
  else
    let ptrval ← readptr (← getDB).chainoff
    let found ← findfree turns key.length (data.length + 1)
    if found then
      reuse key data ptrval
      count fun cnt => { cnt with stor2 := cnt.stor2 + 1 }
    else
      append key data ptrval
      count fun cnt => { cnt with stor1 := cnt.stor1 + 1 }
    return 0

/-- The data of a store: a string of the caller's own, or what `db_fetch` and
`db_nextrec` hand over, which is in `datbuf`. -/
inductive Source where
  | own (data : List Byte)
  | datbuf

def Source.text : Source → DB → List Byte
  | own data, _ => data
  | datbuf, db => db.datbuf

/-- `db_store` where there is one. By the time the data are appended `dodelete` has
made `datbuf` blank. -/
def storeOld (key : List Byte) (src : Source) (flag : Int) : Action Int := do
  if flag = DB_INSERT then
    count fun cnt => { cnt with storerr := cnt.storerr + 1 }
    return 1
  else
    let db ← getDB
    if (src.text db).length + 1 ≠ db.datlen then
      dodelete
      let ptrval ← readptr db.chainoff
      append key (src.text (← getDB)) ptrval
      count fun cnt => { cnt with stor3 := cnt.stor3 + 1 }
    else
      writedat (src.text db) db.datoff .SEEK_SET
      count fun cnt => { cnt with stor4 := cnt.stor4 + 1 }
    return 0

def db_store (turns : Nat) (key : List Byte) (src : Source) (flag : Int) : Action Int := do
  let data := src.text (← getDB)
  if flag ≠ DB_INSERT ∧ flag ≠ DB_REPLACE ∧ flag ≠ DB_STORE then
    setErrno .EINVAL
    return -1
  else if data.length + 1 < DATLEN_MIN ∨ data.length + 1 > DATLEN_MAX then
    err_dump "db_store: invalid data length"
  else
    let found ← find_and_lock turns key true
    let rc ← if found then storeOld key src flag else storeNew turns key data flag
    un_lockByte (← getDB).chainoff
    return rc

/-! ## Opening, and all records in turn -/

def db_rewind : Action Unit := do
  let idxoff ← lseek .idx ((NHASH_DEF + 1) * PTR_SZ + 1 : Nat) .SEEK_SET "db_rewind: lseek error"
  setDB fun db => { db with idxoff }

/-- The table and the free list of an empty database. -/
def emptyTable : List Byte :=
  (List.replicate (NHASH_DEF + 1) (padded PTR_SZ 0)).flatten ++ [NEWLINE]

/-- Whether there is a handle: `open` with `O_CREAT`, `O_TRUNC`. -/
def db_open (creat trunc : Bool) : Action Bool := do
  let idxfd ← sys (.openf .idx creat trunc)
  let datfd ← sys (.openf .dat creat trunc)
  if idxfd = false ∨ datfd = false then return false
  else
    if creat ∧ trunc then
      sys (.lock .idx true 0 0)
      let st_size ← sys (.size .idx)
      if st_size = 0 then write .idx emptyTable
      sys (.unlock .idx 0 0)
    db_rewind
    return true

/-- The loop of `db_nextrec`: whether there is a record with a key that is not all blank. -/
def nextFrom : Nat → Action Bool
  | 0 => stop .givenUp
  | turns + 1 => do
    let ptr ← readidx 0
    if ptr < 0 then return false
    else if (← getDB).idxbuf.all (· == SPACE) then nextFrom turns
    else return true

/-- The next record, with its key. -/
def db_nextrec (turns : Nat) : Action (Option (List Byte × List Byte)) := do
  lockByte false FREE_OFF
  let found ← nextFrom turns
  if found then
    let key := (← getDB).idxbuf
    let data ← readdat
    count fun cnt => { cnt with nextrec := cnt.nextrec + 1 }
    un_lockByte FREE_OFF
    return some (key, data)
  else
    un_lockByte FREE_OFF
    return none

/-! ## What the calls do to the files -/

/-- The two files, and whether they are there. -/
structure Files where
  content : File → List Byte
  exists' : File → Bool

/-- What a system call hands over, and leaves of the files. A process alone
waits for no lock. -/
def Sys.answer : (c : Sys) → Files → Option (Answer c × Files)
  | .openf f creat trunc, fs =>
    if fs.exists' f || creat then
      some (true,
        { content := Function.update fs.content f
            (if trunc || !fs.exists' f then [] else fs.content f)
          exists' := Function.update fs.exists' f true })
    else some (false, fs)
  | .size f, fs => some ((fs.content f).length, fs)
  | .read f off n, fs => some (Heap.pread (fs.content f) off n, fs)
  | .write f off bs, fs => some ((),
      { fs with content := Function.update fs.content f (Heap.pwrite 0 (fs.content f) off bs) })
  | .lock .., fs => some ((), fs)
  | .unlock .., fs => some ((), fs)
  | .stop _, _ => none

/-- A process alone. -/
def alone {α : Type} (m : Action α) (h : Handle) (fs : Files) : Option (α × Handle) × Files :=
  (StateT.run m h).exec Sys.answer fs

end UnixProgramming.Db
