import UnixProgramming.Counted.Steps

/-!
# What a thread knows

* `Thread`: references, mutexes and the private object of a thread;
* `InHash`: what it knows while it has the mutex of the table;
* `AtObject`: what it knows while it has the mutex that guards a count;
* `does_op`, `does_lock`, `does_unlock`: operations.
-/

namespace UnixProgramming.Counted

open Calls (Prog Pool Terms)
open Heap (Chain)

variable {ι β α γ : Type} {v : Version} {i j : ι} {s s' : State ι β} {w : World ι} {g : Ghost ι β}
  {m : Mutex} {fp fp' : Addr} {b : Bucket} {p : Option Addr} {f : Foo → Foo} {foo : Foo}
  {c : Client β} {n n' : Refs} {held : List Mutex} {mine : Option Addr} {os : List Addr}
  {ids : Addr → Int} {d : Option Addr} {h : Multiset ι}

section
variable [DecidableEq ι] {P P' : State ι β → Prop} {Q : γ → State ι β → Prop}

/-- What holds on until the thread changes it. -/
structure Stable (v : Version) (i : ι) (P : State ι β → Prop) : Prop where
  inv : ∀ s, P s → Inv v s
  rely : ∀ s s', P s → Rely' v i s s' → P s'

theorem Stable.next (stable : Stable v i P) (hP : P s) (others : Rely v i s s') : P s' :=
  stable.rely s s' hP (others (stable.inv s hP))

theorem Stable.and (stable : Stable v i P) (rely : ∀ s s', P s → P' s → Rely' v i s s' → P' s') :
    Stable v i fun s => P s ∧ P' s where
  inv s both := stable.inv s both.1
  rely s s' both others := ⟨stable.rely s s' both.1 others, rely s s' both.1 both.2 others⟩

/-- What thread `i` brings about. -/
abbrev Does (v : Version) (i : ι) (m : Action γ) (Q : γ → State ι β → Prop) (s : State ι β) :
    Prop :=
  (terms v ι β).wp semFits i m Q s

theorem does_ret {a : γ} (stable : Stable v i P) (hP : P s) (imp : ∀ s, P s → Q a s) :
    Does v i (.ret a) Q s :=
  fun s' others => imp s' (stable.next hP others)

theorem does_then {m : Action α} {k : α → Action γ} {Q' : α → State ι β → Prop}
    (first : Does v i m Q' s) (rest : ∀ a s, Q' a s → Does v i (k a) Q s) :
    Does v i (m >>= k) Q s :=
  Terms.wp_bind.2 (Terms.wp.mono first rest)

/-- One operation, which may make a count too large. -/
theorem does_fits {c : Op} {k : Answer c → Action γ} (stable : Stable v i P) (hP : P s)
    (allowed : ∀ s, P s → Allowed v i s c)
    (step : ∀ s r w, P s → c.Fits → sem i c s.1 r w →
      ∃ g, Guar v i s (w, g) ∧ Does v i (k r) Q (w, g)) :
    Does v i (op c >>= k) Q s := by
  intro s' others
  have here := stable.next hP others
  exact ⟨allowed s' here, fun r w does => step s' r w here does.2 does.1⟩

/-- One operation. -/
theorem does_op {c : Op} {k : Answer c → Action γ} (stable : Stable v i P) (hP : P s)
    (allowed : ∀ s, P s → Allowed v i s c)
    (step : ∀ s r w, P s → sem i c s.1 r w → ∃ g, Guar v i s (w, g) ∧ Does v i (k r) Q (w, g)) :
    Does v i (op c >>= k) Q s :=
  does_fits stable hP allowed fun s r w here _ => step s r w here

/-- An operation that only hands over a value. -/
theorem does_read {c : Op} {k : Answer c → Action γ} {R : Answer c → Prop} (stable : Stable v i P)
    (hP : P s) (allowed : ∀ s, P s → Allowed v i s c)
    (reads : ∀ s r w, P s → sem i c s.1 r w → w = s.1 ∧ R r)
    (rest : ∀ r s, R r → P s → Does v i (k r) Q s) : Does v i (op c >>= k) Q s := by
  refine does_op stable hP allowed fun s r w here does => ?_
  obtain ⟨rfl, value⟩ := reads s r w here does
  exact ⟨s.2, Guar.refl (stable.inv s here), rest r s value here⟩

end

/-! ## Threads -/

variable [DecidableEq ι]

/-- A thread that has still to do `c`, with its references, mutexes and private object. -/
structure Thread (v : Version) (i : ι) (c : Client β) (n : Refs) (held : List Mutex)
    (mine : Option Addr) (s : State ι β) : Prop where
  inv : Inv v s
  prog : s.2.pool.prog i = c
  refs : ∀ fp, (s.table.holders fp).count i = n fp
  locks : ∀ m, s.1.locks m = some i ↔ m ∈ held
  priv : ∀ fp, s.2.priv fp = some i ↔ mine = some fp

namespace Thread

theorem rely (thread : Thread v i c n held mine s) (others : Rely' v i s s') :
    Thread v i c n held mine s' where
  inv := others.inv
  prog := others.prog.trans thread.prog
  refs fp := (others.refs fp).trans (thread.refs fp)
  locks m := (others.locks m).trans (thread.locks m)
  priv fp := (others.priv fp).trans (thread.priv fp)

theorem stable : Stable (β := β) v i (Thread v i c n held mine) :=
  ⟨fun _ thread => thread.inv, fun _ _ => rely⟩

theorem of_held {held' : List Mutex} (thread : Thread v i c n held mine s) (same : held = held') :
    Thread v i c n held' mine s :=
  same ▸ thread

theorem holder (thread : Thread v i c n held mine s) (has : 0 < n fp) :
    i ∈ s.table.holders fp := by
  rw [← Multiset.count_pos, thread.refs]
  exact has

theorem object (thread : Thread v i c n held mine s) (has : 0 < n fp) : fp ∈ s.table.objects :=
  thread.inv.object_of_holder (thread.holder has)

theorem lock (thread : Thread v i c n held mine s) (inv : Inv v (s.1.setLock m (some i), s.2)) :
    Thread v i c n (m :: held) mine (s.1.setLock m (some i), s.2) where
  inv := inv
  prog := thread.prog
  refs := thread.refs
  priv := thread.priv
  locks m' := by
    by_cases same : m' = m
    · subst same
      simp
    · simp [World.setLock_locks_ne same, thread.locks, same]

theorem unlock (thread : Thread v i c n held mine s) (inv : Inv v (s.1.setLock m none, s.2)) :
    Thread v i c n (held.filter (· ≠ m)) mine (s.1.setLock m none, s.2) where
  inv := inv
  prog := thread.prog
  refs := thread.refs
  priv := thread.priv
  locks m' := by
    by_cases same : m' = m
    · subst same
      simp
    · simp [World.setLock_locks_ne same, thread.locks, same]

end Thread

/-- A thread that has the mutex of the table. -/
structure InHash (v : Version) (i : ι) (c : Client β) (n : Refs) (held : List Mutex)
    (mine : Option Addr) (os : List Addr) (ids : Addr → Int) (d : Option Addr) (s : State ι β) :
    Prop extends Thread v i c n held mine s where
  hash : .hashlock ∈ held
  objects : s.table.objects = os
  ids : s.table.id = ids
  dying : s.2.dying = d

/-- A thread that has the mutex that guards the count of an object. -/
structure AtObject (v : Version) (i : ι) (c : Client β) (n : Refs) (held : List Mutex)
    (mine : Option Addr) (fp : Addr) (h : Multiset ι) (s : State ι β) : Prop
    extends Thread v i c n held mine s where
  guard : v.guard fp ∈ held
  object' : fp ∈ s.table.objects
  holders : s.table.holders fp = h

/-- A thread with a private object. -/
structure Private (v : Version) (i : ι) (c : Client β) (n : Refs) (held : List Mutex) (fp : Addr)
    (foo : Foo) (s : State ι β) : Prop extends Thread v i c n held (some fp) s where
  here : s.1.mem fp = some foo

namespace Private

theorem is_mine (own : Private v i c n held fp foo s) : s.2.priv fp = some i := (own.priv fp).2 rfl

/-- There is nothing else at its address. -/
theorem only (own : Private v i c n held fp foo s) {R : Foo → Prop} (hR : R foo) :
    ∀ foo' ∈ s.1.mem fp, R foo' := by
  intro foo' here
  rw [own.here] at here
  cases here
  exact hR

theorem rely (own : Private v i c n held fp foo s) (others : Rely' v i s s') :
    Private v i c n held fp foo s' :=
  ⟨own.toThread.rely others, (others.mem fp own.is_mine).trans own.here⟩

theorem stable : Stable (β := β) v i (Private v i c n held fp foo) :=
  ⟨fun _ own => own.inv, fun _ _ => rely⟩

theorem on (own : Private v i c n held fp foo s) (inv : Inv v (s.1.on fp f, s.2)) :
    Private v i c n held fp (f foo) (s.1.on fp f, s.2) where
  inv := inv
  prog := own.prog
  refs := own.refs
  locks := own.locks
  priv := own.priv
  here := by simp [own.here]

end Private

namespace InHash

/-- The links of a list, as they are in memory. -/
theorem list (here : InHash v i c n held mine os ids d s) (b : Bucket) :
    Chain none (s.1.link b) none ((os.filter fun fp => HASH (ids fp) = b).map some) := by
  have := here.inv.list b
  simpa only [State.table, Table.list, here.objects, here.ids] using this

theorem fh (here : InHash v i c n held mine os ids d s) (b : Bucket) :
    s.1.fh b = (os.filter fun fp => HASH (ids fp) = b).head? := by
  have := (here.list b).head
  rw [World.link] at this
  rw [this]
  cases os.filter fun fp => HASH (ids fp) = b <;> rfl

theorem rely (here : InHash v i c n held mine os ids d s) (others : Rely' v i s s') :
    InHash v i c n held mine os ids d s' := by
  have frozen := others.hash ((here.locks _).2 here.hash)
  exact ⟨here.toThread.rely others, here.hash, frozen.objects.trans here.objects,
    frozen.id.trans here.ids, frozen.dying.trans here.dying⟩

theorem stable : Stable (β := β) v i (InHash v i c n held mine os ids d) :=
  ⟨fun _ here => here.inv, fun _ _ => rely⟩

end InHash

namespace AtObject

theorem rely (here : AtObject v i c n held mine fp h s) (others : Rely' v i s s') :
    AtObject v i c n held mine fp h s' := by
  obtain ⟨object, same⟩ := others.guard fp here.object' ((here.locks _).2 here.guard)
  exact ⟨here.toThread.rely others, here.guard, object, same.trans here.holders⟩

theorem stable : Stable (β := β) v i (AtObject v i c n held mine fp h) :=
  ⟨fun _ here => here.inv, fun _ _ => rely⟩

end AtObject

/-! ## Mutexes -/

variable {P : State ι β → Prop} {Q : γ → State ι β → Prop} {k : Unit → Action γ}

theorem does_lock (stable : Stable v i P) (thread : ∀ s, P s → Thread v i c n held mine s)
    (hP : P s) (new : m ∉ held)
    (object : ∀ s, P s → ∀ fp, m = .f_lock fp → fp ∈ s.table.objects ∧
      (i ∈ s.table.holders fp ∨ v = .mutex2 ∧ .hashlock ∈ held))
    (rest : ∀ s, P s → s.1.locks m = none →
      Thread v i c n (m :: held) mine (s.1.setLock m (some i), s.2) →
      Does v i (k ()) Q (s.1.setLock m (some i), s.2)) :
    Does v i (op (.lock m) >>= k) Q s := by
  refine does_op stable hP ?_ ?_
  · intro s here
    refine ⟨fun lock => new (((thread s here).locks m).1 lock), fun fp e => ?_⟩
    obtain ⟨mem, holds⟩ := object s here fp e
    exact ⟨mem, holds.imp_right fun both => ((thread s here).locks _).2 both.2⟩
  · rintro s r w here ⟨is_free, rfl⟩
    have guar : Guar v i s (s.1.setLock m (some i), s.2) := by
      refine Guar.lock (stable.inv s here) is_free fun fp e => ?_
      obtain ⟨mem, holds⟩ := object s here fp e
      refine ⟨mem, fun three => holds.resolve_right fun both => ?_⟩
      rw [three] at both
      cases both.1
    exact ⟨s.2, guar, rest s here is_free ((thread s here).lock guar.inv)⟩

theorem does_unlock (stable : Stable v i P) (thread : ∀ s, P s → Thread v i c n held mine s)
    (hP : P s) (has : m ∈ held) (whole : ∀ s, P s → m = .hashlock → s.2.dying = none)
    (rest : ∀ s, P s → Thread v i c n (held.filter (· ≠ m)) mine (s.1.setLock m none, s.2) →
      Does v i (k ()) Q (s.1.setLock m none, s.2)) :
    Does v i (op (.unlock m) >>= k) Q s := by
  refine does_op stable hP (fun s here => ((thread s here).locks m).2 has) ?_
  rintro s r w here rfl
  have lock := ((thread s here).locks m).2 has
  have guar := Guar.unlock (stable.inv s here) lock (whole s here)
  exact ⟨s.2, guar, rest s here ((thread s here).unlock guar.inv)⟩

/-- A change to a private object. -/
theorem does_private {c' : Op} {k : Answer c' → Action γ} (stable : Stable v i P)
    (own : ∀ s, P s → Private v i c n held fp foo s) (hP : P s)
    (allowed : ∀ s, P s → Allowed v i s c')
    (does : ∀ s r w, P s → sem i c' s.1 r w → w = s.1.on fp f)
    (rest : ∀ r s, P s → Private v i c n held fp (f foo) (s.1.on fp f, s.2) →
      Does v i (k r) Q (s.1.on fp f, s.2)) : Does v i (op c' >>= k) Q s := by
  refine does_op stable hP allowed fun s r w here step => ?_
  obtain rfl := does s r w here step
  have guar := Guar.on (stable.inv s here) (own s here).is_mine f
  exact ⟨s.2, guar, rest r s here ((own s here).on guar.inv)⟩

/-- In the mutex of the table. -/
theorem does_lock_hash (stable : Stable v i P)
    (thread : ∀ s, P s → Thread v i c n held mine s) (hP : P s) (new : .hashlock ∉ held)
    (rest : ∀ s os ids, P s →
      InHash v i c n (.hashlock :: held) mine os ids none (s.1.setLock .hashlock (some i), s.2) →
      Does v i (k ()) Q (s.1.setLock .hashlock (some i), s.2)) :
    Does v i (op (.lock .hashlock) >>= k) Q s := by
  refine does_lock stable thread hP new (by simp) fun s here is_free thread' => ?_
  refine rest s s.table.objects s.table.id here ⟨thread', by simp, rfl, rfl, ?_⟩
  cases dies : s.2.dying with
  | none => rfl
  | some fp =>
    obtain ⟨-, j, -, lock⟩ := (stable.inv s here).dying fp dies
    rw [is_free] at lock
    cases lock

/-- Out of the mutex of the table. -/
theorem does_unlock_hash (here : InHash v i c n held mine os ids none s)
    (rest : ∀ s, Thread v i c n (held.filter (· ≠ .hashlock)) mine s → Does v i (k ()) Q s) :
    Does v i (op (.unlock .hashlock) >>= k) Q s :=
  does_unlock InHash.stable (fun _ here => here.toThread) here here.hash
    (fun _ here _ => here.dying) fun _ _ thread => rest _ thread

theorem does_unlock_f_lock (thread : Thread v i c n held mine s) (has : .f_lock fp ∈ held)
    (rest : ∀ s, Thread v i c n (held.filter (· ≠ .f_lock fp)) mine s → Does v i (k ()) Q s) :
    Does v i (op (.unlock (.f_lock fp)) >>= k) Q s :=
  does_unlock Thread.stable (fun _ thread => thread) thread has (fun _ _ e => by cases e)
    fun _ _ thread => rest _ thread

end UnixProgramming.Counted
