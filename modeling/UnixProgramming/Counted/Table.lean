import Mathlib.Data.Multiset.AddSub
import UnixProgramming.Calls.Pool
import UnixProgramming.Counted.Basic

/-!
# What the objects are for

The objects as their users see them: each is in the table as long as some
thread has a reference to it. The functions hand out references and take them
back at once.

* `Table`, `spec`: the objects and what the calls do to them;
* `Careful`: a client that uses only references it has;
* `World`, `sem`, `semFits`: memory and mutexes, and what the operations do to
  them.
-/

namespace UnixProgramming.Counted

open Calls (Prog Pool Sem)

/-! ## References -/

inductive Req where
  | alloc (id : Int)
  | hold (fp : Addr)
  | find (id : Int)
  | rele (fp : Addr)
  deriving DecidableEq, Repr

abbrev Reply : Req → Type
  | .alloc _ => Option Addr
  | .hold _ => Unit
  | .find _ => Option Addr
  | .rele _ => Unit

/-- The objects, the last one first, and the threads that have references to
them, each as many times as it has. -/
structure Table (ι : Type) where
  objects : List Addr
  id : Addr → Int
  holders : Addr → Multiset ι

namespace Table

variable {ι : Type} [DecidableEq ι]

def empty : Table ι := ⟨[], fun _ => 0, fun _ => 0⟩

def alloc (t : Table ι) (i : ι) (fp : Addr) (id : Int) : Table ι where
  objects := fp :: t.objects
  id := Function.update t.id fp id
  holders := Function.update t.holders fp {i}

def setHolders (t : Table ι) (fp : Addr) (holders : Multiset ι) : Table ι :=
  { t with holders := Function.update t.holders fp holders }

def hold (t : Table ι) (i : ι) (fp : Addr) : Table ι := t.setHolders fp (i ::ₘ t.holders fp)

/-- The last object with this id. -/
def find (t : Table ι) (id : Int) : Option Addr := t.objects.find? fun fp => t.id fp = id

/-- An object without references is there no more. -/
def remove (t : Table ι) (fp : Addr) : Table ι :=
  { t with objects := t.objects.filter (· ≠ fp) }

def rele (t : Table ι) (i : ι) (fp : Addr) : Table ι :=
  let left := t.setHolders fp ((t.holders fp).erase i)
  if left.holders fp = 0 then left.remove fp else left

section
variable {t : Table ι} {fp fp' : Addr} {h : Multiset ι}

omit [DecidableEq ι]

@[simp] theorem setHolders_objects : (t.setHolders fp h).objects = t.objects := rfl
@[simp] theorem setHolders_id : (t.setHolders fp h).id = t.id := rfl
@[simp] theorem setHolders_holders : (t.setHolders fp h).holders fp = h := Function.update_self ..
theorem setHolders_holders_ne (other : fp' ≠ fp) :
    (t.setHolders fp h).holders fp' = t.holders fp' :=
  Function.update_of_ne other ..

@[simp] theorem remove_id : (t.remove fp).id = t.id := rfl
@[simp] theorem remove_holders : (t.remove fp).holders = t.holders := rfl
@[simp] theorem mem_remove : fp' ∈ (t.remove fp).objects ↔ fp' ∈ t.objects ∧ fp' ≠ fp := by
  simp [remove]

end

end Table

variable {ι β : Type} [DecidableEq ι]

/-- Each call at once. There may be no memory for a new object; if there is, it
is none that an object has. -/
inductive Spec (i : ι) (t : Table ι) : (c : Req) → Reply c → Table ι → Prop
  | alloc {fp : Addr} (id : Int) (fresh : fp ∉ t.objects) :
    Spec i t (.alloc id) (some fp) (t.alloc i fp id)
  | no_memory (id : Int) : Spec i t (.alloc id) none t
  | hold (fp : Addr) : Spec i t (.hold fp) () (t.hold i fp)
  | find {id : Int} {fp : Addr} (found : t.find id = some fp) :
    Spec i t (.find id) (some fp) (t.hold i fp)
  | missing {id : Int} (missing : t.find id = none) : Spec i t (.find id) none t
  | rele (fp : Addr) : Spec i t (.rele fp) () (t.rele i fp)

def spec (ι : Type) [DecidableEq ι] : Sem ι (Table ι) Reply := fun i c t r t' => Spec i t c r t'

/-! ## Clients -/

abbrev Client (β : Type) := Prog Reply β

/-- How many references a thread has to each object. -/
abbrev Refs := Addr → Nat

/-- One more, if there is an object. -/
def Refs.gain (n : Refs) : Option Addr → Refs
  | none => n
  | some fp => Function.update n fp (n fp + 1)

def Refs.drop (n : Refs) (fp : Addr) : Refs := Function.update n fp (n fp - 1)

/-- A reference is used only while the client has it. -/
def Careful : Client β → Refs → Prop
  | .ret _, _ => True
  | .call (.alloc _) k, n => ∀ r, Careful (k r) (n.gain r)
  | .call (.hold fp) k, n => 0 < n fp ∧ Careful (k ()) (n.gain (some fp))
  | .call (.find _) k, n => ∀ r, Careful (k r) (n.gain r)
  | .call (.rele fp) k, n => 0 < n fp ∧ Careful (k ()) (n.drop fp)

/-- The two files. -/
inductive Version where
  | mutex2
  | mutex3
  deriving DecidableEq, Repr

/-- The mutex that guards the count of an object. -/
def Version.guard : Version → Addr → Mutex
  | .mutex2, fp => .f_lock fp
  | .mutex3, _ => .hashlock

def Req.action (turns : Nat) : Version → (c : Req) → Action (Reply c)
  | _, .alloc id => foo_alloc id
  | .mutex2, .hold fp => Mutex2.foo_hold fp
  | .mutex2, .find id => Mutex2.foo_find turns id
  | .mutex2, .rele fp => Mutex2.foo_rele turns fp
  | .mutex3, .hold fp => Mutex3.foo_hold fp
  | .mutex3, .find id => Mutex3.foo_find turns id
  | .mutex3, .rele fp => Mutex3.foo_rele turns fp

def Client.code (v : Version) (turns : Nat) (client : Client β) : Prog Answer β :=
  client.via (fun c (_ : Unit) => Req.action turns v c >>= fun r => .ret (r, ())) ()

/-! ## Memory and mutexes -/

structure World (ι : Type) where
  fh : Bucket → Option Addr
  mem : Addr → Option Foo
  locks : Mutex → Option ι

namespace World

variable (w : World ι)

/-- A change to one object. A store into memory that is not allocated is lost. -/
def on (fp : Addr) (f : Foo → Foo) : World ι :=
  { w with mem := Function.update w.mem fp ((w.mem fp).map f) }

def setMem (fp : Addr) (foo : Option Foo) : World ι :=
  { w with mem := Function.update w.mem fp foo }

def setHead (b : Bucket) (p : Option Addr) : World ι := { w with fh := Function.update w.fh b p }

def setLock (m : Mutex) (i : Option ι) : World ι := { w with locks := Function.update w.locks m i }

end World

/-- What an operation of thread `i` does. It waits for a mutex, and comes back from
no stop. New memory has any contents, and so has memory that is not allocated. -/
def sem (i : ι) (c : Op) (w : World ι) (r : Answer c) (w' : World ι) : Prop :=
  match c, r with
  | .malloc, none => w' = w
  | .malloc, some fp => w.mem fp = none ∧ ∃ foo : Foo, foo.f_lock = false ∧ w' = w.setMem fp foo
  | .free fp, _ => w' = w.setMem fp none
  | .init fp, r => w' = if r then w.on fp fun foo => { foo with f_lock := true } else w
  | .destroy fp, _ => w' = w.on fp fun foo => { foo with f_lock := false }
  | .lock m, _ => w.locks m = none ∧ w' = w.setLock m (some i)
  | .unlock m, _ => w' = w.setLock m none
  | .head b, r => r = w.fh b ∧ w' = w
  | .setHead b p, _ => w' = w.setHead b p
  | .count fp, r => (∀ foo ∈ w.mem fp, r = foo.f_count) ∧ w' = w
  | .setCount fp n, _ => w' = w.on fp fun foo => { foo with f_count := n }
  | .id fp, r => (∀ foo ∈ w.mem fp, r = foo.f_id) ∧ w' = w
  | .setId fp n, _ => w' = w.on fp fun foo => { foo with f_id := n }
  | .next fp, r => (∀ foo ∈ w.mem fp, r = foo.f_next) ∧ w' = w
  | .setNext fp p, _ => w' = w.on fp fun foo => { foo with f_next := p }
  | .stop _, _ => False

/-- A count that is written is not negative. -/
def Op.Fits : Op → Prop
  | .setCount _ n => 0 ≤ n
  | _ => True

instance : DecidablePred Op.Fits
  | .setCount _ n => inferInstanceAs (Decidable (0 ≤ n))
  | .malloc | .free _ | .init _ | .destroy _ | .lock _ | .unlock _ | .head _ | .setHead _ _ => isTrue trivial
  | .count _ | .id _ | .setId _ _ | .next _ | .setNext _ _ | .stop _ => isTrue trivial

/-- What happens as long as there are not too many references for a count. -/
def semFits : Sem ι (World ι) Answer := fun i c w r w' => sem i c w r w' ∧ c.Fits

/-- What an operation does of all it may do, when new memory is at `new` and a
mutex can be made. -/
def World.answer (i : ι) (new : Addr) : (c : Op) → World ι → Option (Answer c × World ι)
  | .malloc, w =>
    if w.mem new = none then some (some new, w.setMem new (some ⟨0, false, 0, none⟩)) else none
  | .free fp, w => some ((), w.setMem fp none)
  | .init fp, w => some (true, w.on fp fun foo => { foo with f_lock := true })
  | .destroy fp, w => some ((), w.on fp fun foo => { foo with f_lock := false })
  | .lock m, w => if w.locks m = none then some ((), w.setLock m (some i)) else none
  | .unlock m, w => some ((), w.setLock m none)
  | .head b, w => some (w.fh b, w)
  | .setHead b p, w => some ((), w.setHead b p)
  | .count fp, w => (w.mem fp).map fun foo => (foo.f_count, w)
  | .setCount fp n, w =>
    if 0 ≤ n then some ((), w.on fp fun foo => { foo with f_count := n }) else none
  | .id fp, w => (w.mem fp).map fun foo => (foo.f_id, w)
  | .setId fp n, w => some ((), w.on fp fun foo => { foo with f_id := n })
  | .next fp, w => (w.mem fp).map fun foo => (foo.f_next, w)
  | .setNext fp p, w => some ((), w.on fp fun foo => { foo with f_next := p })
  | .stop _, _ => none

omit [DecidableEq ι] in
theorem World.answer_sem {i : ι} (new : Addr) (c : Op) (w : World ι) (x : Answer c × World ι)
    (_ : True) (answered : World.answer i new c w = some x) : semFits i c w x.1 x.2 ∧ True := by
  refine ⟨?_, trivial⟩
  cases c with
  | malloc =>
    obtain ⟨is_free, same⟩ := Option.ite_none_right_eq_some.1 answered
    cases same
    exact ⟨⟨is_free, _, rfl, rfl⟩, trivial⟩
  | lock m =>
    obtain ⟨is_free, same⟩ := Option.ite_none_right_eq_some.1 answered
    cases same
    exact ⟨⟨is_free, rfl⟩, trivial⟩
  | setCount fp n =>
    obtain ⟨fits, same⟩ := Option.ite_none_right_eq_some.1 answered
    cases same
    exact ⟨rfl, fits⟩
  | count fp | id fp | next fp =>
    obtain ⟨foo, here, same⟩ := Option.map_eq_some_iff.1 answered
    cases same
    refine ⟨⟨fun foo' here' => ?_, rfl⟩, trivial⟩
    rw [here] at here'
    cases here'
    rfl
  | head =>
    cases answered
    exact ⟨⟨rfl, rfl⟩, trivial⟩
  | free | init | destroy | unlock | setHead | setId | setNext =>
    cases answered
    exact ⟨rfl, trivial⟩
  | stop => cases answered

end UnixProgramming.Counted
