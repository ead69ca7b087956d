import Mathlib.Algebra.Group.Int.Defs
import Mathlib.Algebra.Group.Nat.Defs
import Mathlib.Data.Fintype.Card
import UnixProgramming.Calls.Prog

/-!
# Objects in a hash table, with counts of references

`mutex2.c` and `mutex3.c`. A function is a program over accesses to memory and
operations on mutexes, each of which is one step. In `mutex2.c` the mutex of an
object guards its count; in `mutex3.c` that of the table does.
-/

namespace UnixProgramming.Counted

open Calls (Prog)

def NHASH : Nat := 29

/-- A list of the table. -/
abbrev Bucket := Fin NHASH

def HASH (id : Int) : Bucket := ⟨(id % 2 ^ 64).toNat % NHASH, Nat.mod_lt _ (by decide)⟩

abbrev Addr := Fin (2 ^ 64)

/-- `struct foo`. Of the mutex, whether it has been initialized. -/
structure Foo where
  f_count : Int
  f_lock : Bool
  f_id : Int
  f_next : Option Addr
  deriving DecidableEq, Repr

inductive Mutex where
  | hashlock
  | f_lock (fp : Addr)
  deriving DecidableEq, Repr

/-- A pointer that is null is followed, or the model gives up a loop. -/
inductive Stop where
  | null
  | givenUp
  deriving DecidableEq, Repr

inductive Op where
  | malloc
  | free (fp : Addr)
  | init (fp : Addr)
  | destroy (fp : Addr)
  | lock (m : Mutex)
  | unlock (m : Mutex)
  | head (b : Bucket)
  | setHead (b : Bucket) (p : Option Addr)
  | count (fp : Addr)
  | setCount (fp : Addr) (n : Int)
  | id (fp : Addr)
  | setId (fp : Addr) (n : Int)
  | next (fp : Addr)
  | setNext (fp : Addr) (p : Option Addr)
  | stop (why : Stop)
  deriving DecidableEq, Repr

/-- What an operation hands over. `init` says whether it has worked. -/
abbrev Answer : Op → Type
  | .malloc => Option Addr
  | .init _ => Bool
  | .head _ => Option Addr
  | .count _ => Int
  | .id _ => Int
  | .next _ => Option Addr
  | .stop _ => Empty
  | _ => Unit

abbrev Action := Prog Answer

def op (c : Op) : Action (Answer c) := Prog.ask c

def stop {α : Type} (why : Stop) : Action α := .call (.stop why) fun e => e.elim

/-! ## What both files have -/

/-- What is left of a number in an `int`. -/
def int (n : Int) : Int := n.bmod (2 ^ 32)

theorem int_of_lt {n : Int} (low : 0 ≤ n) (high : n < 2 ^ 31) : int n = n :=
  Int.bmod_eq_of_le (by omega) (by omega)

/-- `fp->f_count += n` -/
def addCount (fp : Addr) (n : Int) : Action Unit := do
  let f_count ← op (.count fp)
  op (.setCount fp (int (f_count + n)))

def foo_alloc (id : Int) : Action (Option Addr) := do
  match ← op .malloc with
  | none => return none
  | some fp =>
    op (.setCount fp 1)
    op (.setId fp id)
    if ← op (.init fp) then
      let idx := HASH id
      op (.lock .hashlock)
      let head ← op (.head idx)
      op (.setNext fp head)
      op (.setHead idx (some fp))
      op (.lock (.f_lock fp))
      op (.unlock .hashlock)
      op (.unlock (.f_lock fp))
      return some fp
    else
      op (.free fp)
      return none

/-- The loop of `foo_find`, with what it does to what it finds. -/
def findFrom (found : Addr → Action Unit) (id : Int) : Nat → Option Addr → Action (Option Addr)
  | 0, _ => stop .givenUp
  | _ + 1, none => return none
  | turns + 1, some fp => do
    if (← op (.id fp)) = id then
      found fp
      return some fp
    else
      let f_next ← op (.next fp)
      findFrom found id turns f_next

def findWith (found : Addr → Action Unit) (turns : Nat) (id : Int) : Action (Option Addr) := do
  op (.lock .hashlock)
  let head ← op (.head (HASH id))
  let fp ← findFrom found id turns head
  op (.unlock .hashlock)
  return fp

/-- The loop of `foo_rele` along a list, up to the link to `fp`. -/
def unlinkFrom (fp : Addr) : Nat → Option Addr → Action Unit
  | 0, _ => stop .givenUp
  | _ + 1, none => stop .null
  | turns + 1, some tfp => do
    if (← op (.next tfp)) ≠ some fp then
      let f_next ← op (.next tfp)
      unlinkFrom fp turns f_next
    else
      let f_next ← op (.next fp)
      op (.setNext tfp f_next)

/-- Remove from list. -/
def unlink (turns : Nat) (fp : Addr) : Action Unit := do
  let idx := HASH (← op (.id fp))
  let tfp ← op (.head idx)
  if tfp = some fp then
    let f_next ← op (.next fp)
    op (.setHead idx f_next)
  else unlinkFrom fp turns tfp

/-! ## `mutex2.c` -/

namespace Mutex2

def foo_hold (fp : Addr) : Action Unit := do
  op (.lock (.f_lock fp))
  addCount fp 1
  op (.unlock (.f_lock fp))

def foo_find : Nat → Int → Action (Option Addr) := findWith foo_hold

def foo_rele (turns : Nat) (fp : Addr) : Action Unit := do
  op (.lock (.f_lock fp))
  if (← op (.count fp)) = 1 then
    op (.unlock (.f_lock fp))
    op (.lock .hashlock)
    op (.lock (.f_lock fp))
    if (← op (.count fp)) ≠ 1 then
      addCount fp (-1)
      op (.unlock (.f_lock fp))
      op (.unlock .hashlock)
    else
      unlink turns fp
      op (.unlock .hashlock)
      op (.unlock (.f_lock fp))
      op (.destroy fp)
      op (.free fp)
  else
    addCount fp (-1)
    op (.unlock (.f_lock fp))

end Mutex2

/-! ## `mutex3.c` -/

namespace Mutex3

def foo_hold (fp : Addr) : Action Unit := do
  op (.lock .hashlock)
  addCount fp 1
  op (.unlock .hashlock)

def foo_find : Nat → Int → Action (Option Addr) := findWith fun fp => addCount fp 1

def foo_rele (turns : Nat) (fp : Addr) : Action Unit := do
  op (.lock .hashlock)
  let f_count := int ((← op (.count fp)) - 1)
  op (.setCount fp f_count)
  if f_count = 0 then
    unlink turns fp
    op (.unlock .hashlock)
    op (.destroy fp)
    op (.free fp)
  else op (.unlock .hashlock)

end Mutex3

end UnixProgramming.Counted
