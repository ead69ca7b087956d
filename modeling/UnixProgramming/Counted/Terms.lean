import UnixProgramming.Counted.Table
import UnixProgramming.Heap.Chain

/-!
# What threads count on

An object is private to a thread before it is in the table and when it is in it
no more. In between the mutex of the table guards its place, and the mutex of
the version its count.

* `Inv`: what memory is like at any time;
* `Allowed`: which operations a thread may come to;
* `terms`: the terms on which all threads work.
-/

namespace UnixProgramming.Counted

open Calls (Prog Pool Terms)
open Heap (Chain)

/-- Who has a private object, the object whose count is already 0 while it is
still in the table, and what the threads would have seen if each call was done
at once. -/
structure Ghost (ι β : Type) where
  priv : Addr → Option ι
  dying : Option Addr
  pool : Pool Reply ι (Table ι) β

/-- A state and what it means. -/
abbrev State (ι β : Type) := World ι × Ghost ι β

variable {ι β : Type}

@[simp] abbrev State.table (s : State ι β) : Table ι := s.2.pool.state

/-- The link behind an object, and the first one of a list. -/
def World.link (w : World ι) (b : Bucket) : Option Addr → Option Addr
  | none => w.fh b
  | some fp => (w.mem fp).bind Foo.f_next

/-- The objects of a list. -/
def Table.list (t : Table ι) (b : Bucket) : List Addr :=
  t.objects.filter fun fp => HASH (t.id fp) = b

/-! ## What memory is like -/

/-- An object of the table, as it is in memory. -/
structure Kept (t : Table ι) (dying : Option Addr) (fp : Addr) (foo : Foo) : Prop where
  lock : foo.f_lock = true
  id : foo.f_id = t.id fp
  count : foo.f_count + (if dying = some fp then 1 else 0) = (t.holders fp).card
  few : (t.holders fp).card < 2 ^ 31

structure Inv (v : Version) (s : State ι β) : Prop where
  alive : ∀ fp, (s.1.mem fp).isSome ↔ fp ∈ s.table.objects ∨ (s.2.priv fp).isSome
  apart : ∀ fp ∈ s.table.objects, s.2.priv fp = none
  distinct : s.table.objects.Nodup
  held : ∀ fp, fp ∈ s.table.objects ↔ s.table.holders fp ≠ 0
  kept : ∀ fp ∈ s.table.objects, ∀ foo ∈ s.1.mem fp, Kept s.table s.2.dying fp foo
  list : ∀ b, Chain none (s.1.link b) none ((s.table.list b).map some)
  lock : ∀ fp i, s.1.locks (.f_lock fp) = some i →
    (fp ∈ s.table.objects ∧ (v = .mutex3 → i ∈ s.table.holders fp)) ∨ s.2.priv fp = some i
  dying : ∀ fp, s.2.dying = some fp →
    v = .mutex3 ∧ ∃ i, s.table.holders fp = {i} ∧ s.1.locks .hashlock = some i

/-- Which operations thread `i` may come to. -/
def Allowed (v : Version) (i : ι) (s : State ι β) : Op → Prop
  | .malloc => True
  | .free fp => s.2.priv fp = some i ∧ ∀ foo ∈ s.1.mem fp, foo.f_lock = false
  | .init fp => s.2.priv fp = some i ∧ ∀ foo ∈ s.1.mem fp, foo.f_lock = false
  | .destroy fp => s.2.priv fp = some i ∧ (∀ foo ∈ s.1.mem fp, foo.f_lock = true) ∧
      s.1.locks (.f_lock fp) = none
  | .lock m => s.1.locks m ≠ some i ∧ ∀ fp, m = .f_lock fp → fp ∈ s.table.objects ∧
      (i ∈ s.table.holders fp ∨ s.1.locks .hashlock = some i)
  | .unlock m => s.1.locks m = some i
  | .head _ | .setHead _ _ => s.1.locks .hashlock = some i
  | .count fp | .setCount fp _ =>
    s.2.priv fp = some i ∨ fp ∈ s.table.objects ∧ s.1.locks (v.guard fp) = some i
  | .id fp | .next fp | .setNext fp _ =>
    s.2.priv fp = some i ∨ fp ∈ s.table.objects ∧ s.1.locks .hashlock = some i
  | .setId fp _ => s.2.priv fp = some i
  | .stop _ => False

/-! ## The terms -/

/-- What nobody changes but who has the mutex of the table. -/
structure Frozen (s s' : State ι β) : Prop where
  fh : s'.1.fh = s.1.fh
  objects : s'.table.objects = s.table.objects
  id : s'.table.id = s.table.id
  dying : s'.2.dying = s.2.dying
  next : ∀ fp ∈ s.table.objects, (s'.1.mem fp).bind Foo.f_next = (s.1.mem fp).bind Foo.f_next

theorem Frozen.of {w w' : World ι} (g : Ghost ι β) (fh : w'.fh = w.fh)
    (mem : ∀ fp ∈ g.pool.state.objects, (w'.mem fp).bind Foo.f_next = (w.mem fp).bind Foo.f_next) :
    Frozen (w, g) (w', g) :=
  ⟨fh, rfl, rfl, rfl, mem⟩

theorem Frozen.refl (s : State ι β) : Frozen s s := .of s.2 rfl fun _ _ => rfl

theorem Frozen.trans {s s' s'' : State ι β} (h : Frozen s s') (h' : Frozen s' s'') :
    Frozen s s'' where
  fh := h'.fh.trans h.fh
  objects := h'.objects.trans h.objects
  id := h'.id.trans h.id
  dying := h'.dying.trans h.dying
  next fp mem := (h'.next fp (h.objects ▸ mem)).trans (h.next fp mem)

section
variable [DecidableEq ι] {v : Version} {i j : ι} {s s' s'' : State ι β}

/-- What thread `i` counts on when the others step in. -/
structure Rely' (v : Version) (i : ι) (s s' : State ι β) : Prop where
  inv : Inv v s'
  locks : ∀ m, s'.1.locks m = some i ↔ s.1.locks m = some i
  priv : ∀ fp, s'.2.priv fp = some i ↔ s.2.priv fp = some i
  mem : ∀ fp, s.2.priv fp = some i → s'.1.mem fp = s.1.mem fp
  refs : ∀ fp, (s'.table.holders fp).count i = (s.table.holders fp).count i
  hash : s.1.locks .hashlock = some i → Frozen s s'
  guard : ∀ fp ∈ s.table.objects, s.1.locks (v.guard fp) = some i →
    fp ∈ s'.table.objects ∧ s'.table.holders fp = s.table.holders fp
  prog : s'.2.pool.prog i = s.2.pool.prog i

def Rely (v : Version) (i : ι) (s s' : State ι β) : Prop := Inv v s → Rely' v i s s'

theorem Rely'.refl (inv : Inv v s) : Rely' v i s s :=
  ⟨inv, fun _ => Iff.rfl, fun _ => Iff.rfl, fun _ _ => rfl, fun _ => rfl, fun _ => Frozen.refl s,
    fun _ mem _ => ⟨mem, rfl⟩, rfl⟩

theorem Rely'.trans (h : Rely' v i s s') (h' : Rely' v i s' s'') : Rely' v i s s'' where
  inv := h'.inv
  locks m := (h'.locks m).trans (h.locks m)
  priv fp := (h'.priv fp).trans (h.priv fp)
  mem fp mine := (h'.mem fp ((h.priv fp).2 mine)).trans (h.mem fp mine)
  refs fp := (h'.refs fp).trans (h.refs fp)
  hash lock := (h.hash lock).trans (h'.hash ((h.locks _).2 lock))
  guard fp mem lock := by
    obtain ⟨mem', same⟩ := h.guard fp mem lock
    obtain ⟨mem'', same'⟩ := h'.guard fp mem' ((h.locks _).2 lock)
    exact ⟨mem'', same'.trans same⟩
  prog := h'.prog.trans h.prog

/-- What thread `i` keeps to. At most one of its calls is done. -/
structure Guar (v : Version) (i : ι) (s s' : State ι β) : Prop where
  inv : Inv v s'
  locks : ∀ m j, j ≠ i → (s'.1.locks m = some j ↔ s.1.locks m = some j)
  priv : ∀ fp j, j ≠ i → (s'.2.priv fp = some j ↔ s.2.priv fp = some j)
  mem : ∀ fp j, j ≠ i → s.2.priv fp = some j → s'.1.mem fp = s.1.mem fp
  refs : ∀ fp j, j ≠ i → (s'.table.holders fp).count j = (s.table.holders fp).count j
  hash : s.1.locks .hashlock ≠ some i → Frozen s s'
  guard : ∀ fp ∈ s.table.objects, s.1.locks (v.guard fp) ≠ some i →
    fp ∈ s'.table.objects ∧ s'.table.holders fp = s.table.holders fp
  pool : s'.2.pool = s.2.pool ∨ Pool.Step (spec ι) i s.2.pool s'.2.pool

theorem Guar.refl (inv : Inv v s) : Guar v i s s :=
  ⟨inv, fun _ _ _ => Iff.rfl, fun _ _ _ => Iff.rfl, fun _ _ _ _ => rfl, fun _ _ _ => rfl,
    fun _ => Frozen.refl s, fun _ mem _ => ⟨mem, rfl⟩, .inl rfl⟩

theorem Guar.rely (other : i ≠ j) (h : Guar v i s s') : Rely' v j s s' := by
  have mine {m : Mutex} (lock : s.1.locks m = some j) : s.1.locks m ≠ some i := by
    rw [lock]
    exact fun e => other (Option.some.inj e).symm
  refine ⟨h.inv, fun m => h.locks m j other.symm, fun fp => h.priv fp j other.symm,
    fun fp => h.mem fp j other.symm, fun fp => h.refs fp j other.symm,
    fun lock => h.hash (mine lock), fun fp mem lock => h.guard fp mem (mine lock), ?_⟩
  rcases h.pool with same | step
  · rw [same]
  · exact step.prog_other other.symm

/-- The terms on which all threads work. -/
def terms (v : Version) (ι β : Type) [DecidableEq ι] : Terms Answer ι (World ι) (Ghost ι β) where
  rely := Rely v
  guar := Guar v
  may i c s := Allowed v i s c
  rely_refl _ _ := Rely'.refl
  rely_trans _ _ _ _ h h' inv := (h inv).trans (h' (h inv).inv)
  kept _ _ _ _ other guar _ := guar.rely other

end

end UnixProgramming.Counted
