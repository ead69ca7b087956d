import UnixProgramming.Db.Image
import UnixProgramming.Db.Table
import UnixProgramming.Heap.Chain
import Mathlib.Tactic.Simps.Basic

/-!
# What processes count on

Each record belongs to a hash chain, to the free list, or to one process. Who
holds the lock of a chain or of the free list can count on all that belongs to
it, and with a write lock may change it.

* `Inv`: what the files are like at any time;
* `Same`, `Mine`, `Sees`: places, who may change them and who counts on them;
* `terms`: the terms on which all processes work.
-/

namespace UnixProgramming.Db

open Calls (Prog Pool Sem Terms)
open Heap (Chain pread)
open Heap.Layout (flat find)
open Ssl (Byte)

/-- A hash chain. -/
abbrev Bucket := Fin NHASH_DEF

def headOff (b : Bucket) : Nat := b * PTR_SZ + HASH_OFF

def bucket (key : List Byte) : Bucket := ⟨hash key, Nat.mod_lt _ (by decide)⟩

/-- Where the lock for new index records begins, and the records. -/
def TAIL : Nat := (NHASH_DEF + 1) * PTR_SZ + 1

/-- What a record belongs to. It is lost when its process has been killed. -/
inductive Owner (ι : Type) where
  | bucket (b : Bucket)
  | free
  | proc (i : ι)
  | lost

/-- What the files mean: the things in the index file, what they belong to, the
chains and the free list in order, the chains from which a record is being
taken, data without a record, and what the processes would have seen if each
call was done at once. -/
structure Ghost (ι β : Type) where
  img : List Item
  own : Nat → Option (Owner ι)
  chain : Bucket → List Nat
  free : List Nat
  torn : Bucket → Option ι
  room : ι → Option (Nat × List Byte)
  pool : Pool Reply.On ι Table β

namespace Ghost

variable {ι β : Type} [DecidableEq ι] (g : Ghost ι β)

/-- Data of process `i` that have no record yet. -/
@[simps] def reserve (i : ι) (room : Nat × List Byte) : Ghost ι β :=
  { g with room := Function.update g.room i (some room) }

/-- A record for the data of process `i`. -/
@[simps] def add (i : ι) (o : Nat) (t : Slot) : Ghost ι β :=
  { g with
    img := g.img ++ [.slot t]
    own := Function.update g.own o (some (.proc i))
    room := Function.update g.room i none }

/-- Another thing in the index file. -/
@[simps] def put (o : Nat) (it : Item) : Ghost ι β :=
  { g with img := Heap.Layout.put Item.enc g.img o it }

/-- A record that belongs to another owner. -/
@[simps] def give (o : Nat) (w : Owner ι) : Ghost ι β :=
  { g with own := Function.update g.own o (some w) }

@[simps] def setFree (xs : List Nat) : Ghost ι β := { g with free := xs }

@[simps] def setChain (b : Bucket) (xs : List Nat) (torn : Option ι) : Ghost ι β :=
  { g with
    chain := Function.update g.chain b xs
    torn := Function.update g.torn b torn }

/-- A call of process `i` is done. -/
@[simps] def commit (i : ι) (m : Table) (client : Client β) : Ghost ι β :=
  { g with pool := ⟨m, Function.update g.pool.prog i client⟩ }

end Ghost

/-- A state and what it means. -/
abbrev State (ι β : Type) := World ι × Ghost ι β

variable {ι β : Type}

namespace State

variable (s : State ι β)

abbrev at' (o : Nat) : Option Item := find Item.enc s.2.img o
abbrev map : Table := s.2.pool.state

/-- The data of a record. -/
def data (t : Slot) : List Byte := pread (s.1.files.content .dat) t.datoff t.datlen

/-- Where there are data: those of the record at an offset, or of a process that
has no record for them yet. -/
def extent : Nat ⊕ ι → Option (Nat × Nat)
  | .inl o => match s.at' o with
    | some (.slot t) => some (t.datoff, t.datlen)
    | _ => none
  | .inr j => (s.2.room j).map fun room => (room.1, room.2.length)

end State

/-- A call takes a record off a chain of the table, or puts another in its place. -/
def Req.Tears (b : Bucket) (m : Table) : Req → Prop
  | .fetch _ => False
  | .delete key => bucket key.text = b ∧ (m key).isSome
  | .store key data flag => bucket key.text = b ∧ flag ≠ .insert ∧
      ∃ old, m key = some old ∧ old.text.length ≠ data.text.length

theorem Req.Tears.congr {b : Bucket} {m m' : Table} {req : Req} (h : req.Tears b m)
    (same : ∀ key : Key, bucket key.text = b → m' key = m key) : req.Tears b m' := by
  cases req with
  | fetch key => exact h
  | delete key => exact ⟨h.1, by rw [same key h.1]; exact h.2⟩
  | store key data flag =>
    obtain ⟨hash, replaces, old, value, other⟩ := h
    exact ⟨hash, replaces, old, (same key hash).trans value, other⟩

/-! ## What the files are like -/

/-- The links of a hash chain. -/
structure Links (b : Bucket) (xs : List Nat) (s : State ι β) : Prop where
  chain : Chain 0 (cell s.2.img) (headOff b) xs
  distinct : xs.Nodup

/-- The record at an offset is that for this key and these data. -/
structure Holds' (o : Nat) (key : Key) (data : Data) (s : State ι β) (t : Slot) : Prop where
  here : s.at' o = some (.slot t)
  key : t.key = key.text
  data : s.data t = data.text ++ [NEWLINE]

/-- The records of a hash chain are those for the keys of the table with this hash. -/
structure Entries (b : Bucket) (xs : List Nat) (m : Table) (s : State ι β) : Prop where
  owns : ∀ o, s.2.own o = some (.bucket b) ↔ o ∈ xs
  holds : ∀ o ∈ xs, ∃ t key data, Holds' o key data s t ∧ bucket key.text = b ∧ m key = some data
  only : ∀ o ∈ xs, ∀ o' ∈ xs, ∀ t t', s.at' o = some (.slot t) → s.at' o' = some (.slot t') →
    t.key = t'.key → o = o'
  all : ∀ key data, bucket key.text = b → m key = some data → ∃ o ∈ xs, ∃ t, Holds' o key data s t

/-- The free list, with keys that are all blank. -/
structure Free (s : State ι β) : Prop where
  chain : Chain 0 (cell s.2.img) FREE_OFF s.2.free
  distinct : s.2.free.Nodup
  owns : ∀ o, s.2.own o = some .free ↔ o ∈ s.2.free
  blank : ∀ o ∈ s.2.free, ∃ t, s.at' o = some (.slot t) ∧ ∀ c ∈ t.key, c = SPACE

/-- What the two files are like, apart from the chains. -/
structure Laid (s : State ι β) : Prop where
  layout : s.1.files.content .idx = flat Item.enc s.2.img
  ok : ∀ it ∈ s.2.img, it.Ok
  heads : ∀ k ≤ NHASH_DEF, ∃ p, s.at' (k * PTR_SZ) = some (.head p)
  slots : ∀ o it, s.at' o = some it → (TAIL ≤ o ↔ ∃ t, it = .slot t)
  gap : s.at' ((NHASH_DEF + 1) * PTR_SZ) = some .newline
  owned : ∀ o, (s.2.own o).isSome ↔ ∃ t, s.at' o = some (.slot t)
  inside : ∀ e off len, s.extent e = some (off, len) → off + len ≤ (s.1.files.content .dat).length
  apart : ∀ e e', e ≠ e' → ∀ off len off' len', s.extent e = some (off, len) →
    s.extent e' = some (off', len') → off + len ≤ off' ∨ off' + len' ≤ off
  room : ∀ j off bs, s.2.room j = some (off, bs) → pread (s.1.files.content .dat) off bs.length = bs

/-- What the files are like at any time. A chain from which a record is being
taken is only what the process that takes it knows of it. -/
structure Inv (s : State ι β) : Prop where
  small : s.1.Small
  laid : Laid s
  free : Free s
  excl : ∀ i j f n, s.1.locks i f n = some true → j ≠ i → s.1.locks j f n = none
  links : ∀ b, s.2.torn b = none → Links b (s.2.chain b) s
  entries : ∀ b, s.2.torn b = none → Entries b (s.2.chain b) s.map s
  tears : ∀ b i, s.2.torn b = some i → s.1.locks i .idx (headOff b) = some true
  doing : ∀ b i, s.2.torn b = some i →
    ∃ c k, s.2.pool.prog i = .call c k ∧ c.2.Tears b s.map

/-! ## Places -/

inductive Loc (ι : Type) where
  | bucket (b : Bucket)
  | free
  | slot (o : Nat)
  | room (j : ι)
  | ends (f : File)

/-- Nothing changes at a place. -/
def Same : Loc ι → State ι β → State ι β → Prop
  | .bucket b, s, s' => s'.at' (headOff b) = s.at' (headOff b) ∧ s'.2.chain b = s.2.chain b ∧
      s'.2.torn b = s.2.torn b ∧ ∀ key : Key, bucket key.text = b → s'.map key = s.map key
  | .free, s, s' => s'.at' FREE_OFF = s.at' FREE_OFF ∧ s'.2.free = s.2.free
  | .slot o, s, s' => ∀ w, s.2.own o = some w → s'.2.own o = some w ∧ s'.at' o = s.at' o ∧
      ∀ t, s.at' o = some (.slot t) → s'.data t = s.data t
  | .room j, s, s' => s'.2.room j = s.2.room j
  | .ends f, s, s' => (s'.1.files.content f).length = (s.1.files.content f).length

/-- The byte of the lock on what belongs to a chain or to the free list. -/
def lockOff : Owner ι → Option Nat
  | .bucket b => some (headOff b)
  | .free => some FREE_OFF
  | .proc _ => none
  | .lost => none

/-- Process `i` may change what belongs to this. -/
def Holds (i : ι) (s : World ι) : Owner ι → Prop
  | .proc j => j = i
  | w => ∃ n ∈ lockOff w, s.locks i .idx n = some true

/-- Process `i` counts on what belongs to this. -/
def Reads (i : ι) (s : World ι) : Owner ι → Prop
  | .proc j => j = i
  | w => ∃ n ∈ lockOff w, (s.locks i .idx n).isSome

/-- The byte of the lock on the end of a file. -/
def endOff : File → Nat
  | .idx => TAIL
  | .dat => 0

def Mine (i : ι) (s : State ι β) : Loc ι → Prop
  | .bucket b => Holds i s.1 (.bucket b)
  | .free => Holds i s.1 .free
  | .slot o => ∃ w, s.2.own o = some w ∧ Holds i s.1 w
  | .room j => j = i
  | .ends f => s.1.locks i f (endOff f) = some true

def Sees (i : ι) (s : State ι β) : Loc ι → Prop
  | .bucket b => Reads i s.1 (.bucket b)
  | .free => Reads i s.1 .free
  | .slot o => ∃ w, s.2.own o = some w ∧ Reads i s.1 w
  | .room j => j = i
  | .ends f => (s.1.locks i f (endOff f)).isSome

section
variable {i j : ι} {s s' s'' : State ι β} {l : Loc ι} {w : Owner ι}

theorem Same.refl (l : Loc ι) (s : State ι β) : Same l s s := by
  cases l with
  | bucket b => exact ⟨rfl, rfl, rfl, fun _ _ => rfl⟩
  | free => exact ⟨rfl, rfl⟩
  | slot o => exact fun w own => ⟨own, rfl, fun _ _ => rfl⟩
  | room j => exact rfl
  | ends f => exact rfl

theorem Same.trans (h : Same l s s') (h' : Same l s' s'') : Same l s s'' := by
  cases l with
  | bucket b =>
    exact ⟨h'.1.trans h.1, h'.2.1.trans h.2.1, h'.2.2.1.trans h.2.2.1,
      fun key hb => (h'.2.2.2 key hb).trans (h.2.2.2 key hb)⟩
  | free => exact ⟨h'.1.trans h.1, h'.2.trans h.2⟩
  | slot o =>
    intro w own
    obtain ⟨own', at', data⟩ := h w own
    obtain ⟨own'', at'', data'⟩ := h' w own'
    exact ⟨own'', at''.trans at', fun t here => (data' t (at'.trans here)).trans (data t here)⟩
  | room j => exact Eq.trans h' h
  | ends f => exact Eq.trans h' h

/-- What one process may change no other counts on. -/
theorem Inv.holds_reads (inv : Inv s) (other : i ≠ j) (mine : Holds i s.1 w) :
    ¬ Reads j s.1 w := by
  have excl {n : Nat} (h : s.1.locks i .idx n = some true) : ¬ (s.1.locks j .idx n).isSome := by
    rw [inv.excl i j .idx n h other.symm]
    simp
  intro reads
  cases w with
  | bucket b =>
    obtain ⟨n, at', h⟩ := mine
    obtain ⟨n', at'', h'⟩ := reads
    obtain rfl := Option.mem_unique at' at''
    exact excl h h'
  | free =>
    obtain ⟨n, at', h⟩ := mine
    obtain ⟨n', at'', h'⟩ := reads
    obtain rfl := Option.mem_unique at' at''
    exact excl h h'
  | proc k => exact other (Eq.trans (Eq.symm mine) reads)
  | lost =>
    obtain ⟨n, at', -⟩ := mine
    cases at'

theorem Inv.mine_sees (inv : Inv s) (other : i ≠ j) (sees : Sees j s l) : ¬ Mine i s l := by
  intro mine
  cases l with
  | bucket b => exact inv.holds_reads (w := .bucket b) other mine sees
  | free => exact inv.holds_reads (w := .free) other mine sees
  | slot o =>
    obtain ⟨w, own, reads⟩ := sees
    obtain ⟨w', own', holds⟩ := mine
    obtain rfl := Option.some.inj (own.symm.trans own')
    exact inv.holds_reads other holds reads
  | room k => exact other (Eq.trans (Eq.symm mine) sees)
  | ends f =>
    rw [Sees, inv.excl i j f _ mine other.symm] at sees
    cases sees

theorem Reads.congr (same : s'.1.locks i = s.1.locks i) (h : Reads i s.1 w) : Reads i s'.1 w := by
  cases w <;> simpa only [Reads, same] using h

theorem Sees.congr (same : s'.1.locks i = s.1.locks i) (at' : Same l s s') (h : Sees i s l) :
    Sees i s' l := by
  cases l with
  | bucket b => exact Reads.congr (w := .bucket b) same h
  | free => exact Reads.congr (w := .free) same h
  | slot o =>
    obtain ⟨w, own, reads⟩ := h
    exact ⟨w, (at' w own).1, Reads.congr same reads⟩
  | room j => exact h
  | ends f => simpa only [Sees, same] using h

end

/-! ## The terms -/

/-- What process `i` counts on when the others step in. -/
structure Rely' (i : ι) (s s' : State ι β) : Prop where
  inv : Inv s'
  locks : s'.1.locks i = s.1.locks i
  same : ∀ l, Sees i s l → Same l s s'
  own : ∀ o w, s'.2.own o = some w → Reads i s.1 w → s.2.own o = some w
  torn : ∀ b, s'.2.torn b = some i → s.2.torn b = some i
  prog : s'.2.pool.prog i = s.2.pool.prog i

def Rely (i : ι) (s s' : State ι β) : Prop := Inv s → Rely' i s s'

theorem Rely.trans {i : ι} {s s' s'' : State ι β} (h : Rely i s s') (h' : Rely i s' s'') :
    Rely i s s'' := by
  intro inv
  have a := h inv
  have b := h' a.inv
  refine ⟨b.inv, b.locks.trans a.locks, ?_, ?_, fun k torn => a.torn k (b.torn k torn),
    b.prog.trans a.prog⟩
  · intro l sees
    have first := a.same l sees
    exact first.trans (b.same l (sees.congr a.locks first))
  · intro o w own reads
    exact a.own o w (b.own o w own (reads.congr a.locks)) reads

theorem Rely.refl (i : ι) (s : State ι β) : Rely i s s := fun inv =>
  ⟨inv, rfl, fun l _ => Same.refl l s, fun _ _ own _ => own, fun _ torn => torn, rfl⟩

section
variable [DecidableEq ι]

/-- What process `i` keeps to. At most one of its calls is done. -/
structure Guar (i : ι) (s s' : State ι β) : Prop where
  inv : Inv s'
  locks : ∀ j, j ≠ i → s'.1.locks j = s.1.locks j
  same : ∀ l, ¬ Mine i s l → Same l s s'
  own : ∀ o w, s'.2.own o = some w → s.2.own o = some w ∨ Holds i s.1 w
  torn : ∀ b j, s'.2.torn b = some j → s.2.torn b = some j ∨ j = i
  pool : s'.2.pool = s.2.pool ∨ Pool.Step (spec ι) i s.2.pool s'.2.pool

theorem Guar.prog {i j : ι} {s s' : State ι β} (h : Guar i s s') (other : j ≠ i) :
    s'.2.pool.prog j = s.2.pool.prog j := by
  rcases h.pool with same | step
  · rw [same]
  · exact step.prog_other other

theorem Guar.rely {i j : ι} {s s' : State ι β} (other : i ≠ j) (h : Guar i s s') : Rely j s s' := by
  intro inv
  refine ⟨h.inv, h.locks j other.symm, fun l sees => h.same l (inv.mine_sees other sees), ?_, ?_,
    h.prog other.symm⟩
  · intro o w own reads
    exact (h.own o w own).resolve_right fun mine => inv.holds_reads other mine reads
  · intro b torn
    exact (h.torn b j torn).resolve_right other.symm

/-- The terms on which all processes work: no process ends in the library. -/
def terms (ι β : Type) [DecidableEq ι] : Terms Answer ι (World ι) (Ghost ι β) where
  rely := Rely
  guar := Guar
  may _ c _ := ∀ why, c ≠ .stop why
  rely_refl := Rely.refl
  rely_trans _ _ _ _ := Rely.trans
  kept _ _ _ _ := Guar.rely

end

end UnixProgramming.Db
