import UnixProgramming.Counted.Threads

/-!
# Making an object

* `does_alloc`: what `foo_alloc` brings about.
-/

namespace UnixProgramming.Counted

open Calls (Prog Pool)
open Heap (Chain)

variable {ι β γ : Type} [DecidableEq ι] {v : Version} {i j : ι} {s s' : State ι β}
  {m : Mutex} {fp fp' : Addr} {b : Bucket} {foo : Foo} {c : Client β} {n n' : Refs}
  {held : List Mutex} {mine : Option Addr}

/-- A call that leaves the table as it is. -/
theorem Guar.commit {req : Req} {k : Reply req → Client β} {r : Reply req} {w : World ι}
    {priv : Addr → Option ι} {dying : Option Addr}
    (guar : Guar v i s (w, ⟨priv, dying, s.2.pool⟩)) (next : s.2.pool.prog i = .call req k)
    (does : Spec i s.table req r s.table) :
    Guar v i s (w, ⟨priv, dying, ⟨s.table, Function.update s.2.pool.prog i (k r)⟩⟩) :=
  ⟨{ guar.inv with }, guar.locks, guar.priv, guar.mem, guar.refs,
    fun lock => { guar.hash lock with }, guar.guard,
    .inr (.call next does)⟩

theorem Thread.commit {req : Req} {k : Reply req → Client β} {r : Reply req} {w : World ι}
    {priv : Addr → Option ι} {dying : Option Addr}
    (thread : Thread v i (.call req k) n held mine s)
    (inv : Inv v (w, ⟨priv, dying, ⟨s.table, Function.update s.2.pool.prog i (k r)⟩⟩))
    (locks : w.locks = s.1.locks) (mine' : ∀ fp, priv fp = some i ↔ mine = some fp) :
    Thread v i (k r) n held mine
      (w, ⟨priv, dying, ⟨s.table, Function.update s.2.pool.prog i (k r)⟩⟩) where
  inv := inv
  prog := Function.update_self ..
  refs := thread.refs
  locks m := by rw [← thread.locks m, ← locks]
  priv := mine'

/-- An object that is not in the table has no references. -/
theorem Thread.no_refs (thread : Thread v i c n held mine s) (out : fp ∉ s.table.objects) :
    n fp = 0 := by
  by_contra has
  exact out (thread.object (Nat.pos_of_ne_zero has))

section
variable {id : Int} {k : Option Addr → Client β} {os : List Addr} {ids : Addr → Int}

theorem Thread.malloc (thread : Thread v i c n held none s) (is_free : s.1.mem fp = none)
    (inv : Inv v (s.1.setMem fp (some foo),
      { s.2 with priv := Function.update s.2.priv fp (some i) })) :
    Private v i c n held fp foo (s.1.setMem fp (some foo),
      { s.2 with priv := Function.update s.2.priv fp (some i) }) where
  inv := inv
  prog := thread.prog
  refs := thread.refs
  locks := thread.locks
  priv fp' := by
    by_cases same : fp' = fp
    · subst same
      simp
    · simpa [same, Ne.symm same] using thread.priv fp'
  here := by simp

theorem Private.free (own : Private v i c n held fp foo s)
    (inv : Inv v (s.1.setMem fp none, { s.2 with priv := Function.update s.2.priv fp none })) :
    Thread v i c n held none
      (s.1.setMem fp none, { s.2 with priv := Function.update s.2.priv fp none }) where
  inv := inv
  prog := own.prog
  refs := own.refs
  locks := own.locks
  priv fp' := by
    by_cases same : fp' = fp
    · subst same
      simp
    · simpa [same, Ne.symm same] using own.priv fp'

/-- The object becomes one of the table. -/
theorem Private.publish (own : Private v i (.call (.alloc id) k) n held fp
      ⟨1, true, id, s.1.fh (HASH id)⟩ s)
    (inv : Inv v (s.1.setHead (HASH id) (some fp),
      { s.2 with
        priv := Function.update s.2.priv fp none
        pool := ⟨s.table.alloc i fp id, Function.update s.2.pool.prog i (k (some fp))⟩ })) :
    Thread v i (k (some fp)) (n.gain (some fp)) held none (s.1.setHead (HASH id) (some fp),
      { s.2 with
        priv := Function.update s.2.priv fp none
        pool := ⟨s.table.alloc i fp id, Function.update s.2.pool.prog i (k (some fp))⟩ }) := by
  refine ⟨inv, Function.update_self .., ?_, own.locks, ?_⟩
  · intro fp'
    by_cases same : fp' = fp
    · subst same
      simp [Table.alloc, Refs.gain, own.no_refs (own.inv.not_object own.is_mine)]
    · simpa [Table.alloc, Refs.gain, same] using own.refs fp'
  · intro fp'
    by_cases same : fp' = fp
    · subst same
      simp
    · simpa [same, Ne.symm same] using own.priv fp'

theorem does_publish {f_next : Option Addr}
    (own : Private v i (.call (.alloc id) k) n [] fp ⟨1, true, id, f_next⟩ s) :
    Does v i (do
      op (.lock .hashlock)
      let head ← op (.head (HASH id))
      op (.setNext fp head)
      op (.setHead (HASH id) (some fp))
      op (.lock (.f_lock fp))
      op (.unlock .hashlock)
      op (.unlock (.f_lock fp))
      return some fp)
      (fun r s => Thread v i (k r) (n.gain r) [] none s) s := by
  refine does_lock_hash Private.stable (fun _ own => own.toThread) own (by simp) ?_
  intro s os ids own here
  have stable (foo : Foo) : Stable (β := β) v i fun s =>
      Private v i (.call (.alloc id) k) n [.hashlock] fp foo s ∧
        InHash v i (.call (.alloc id) k) n [.hashlock] (some fp) os ids none s :=
    Private.stable.and fun _ _ _ here others => here.rely others
  have both : Private v i (.call (.alloc id) k) n [.hashlock] fp ⟨1, true, id, f_next⟩ _ ∧ _ :=
    ⟨⟨here.toThread, own.here⟩, here⟩
  -- the new link is that of the list
  refine does_read (stable _) both (fun s both => (both.2.locks _).2 both.2.hash)
    (R := fun r => r = (os.filter fun fp => HASH (ids fp) = HASH id).head?) ?_ ?_
  · rintro s r w ⟨-, here⟩ ⟨rfl, rfl⟩
    exact ⟨rfl, here.fh _⟩
  intro head s first both
  refine does_private (stable _) (fun s both => both.1) both (fun s both => .inl both.1.is_mine)
    (fun s r w _ does => does) fun _ s both own => ?_
  have here : InHash v i (.call (.alloc id) k) n [.hashlock] (some fp) os ids none
      (s.1.on fp fun foo => { foo with f_next := head }, s.2) :=
    ⟨own.toThread, both.2.hash, both.2.objects, both.2.ids, both.2.dying⟩
  refine does_op (stable ⟨1, true, id, head⟩) ⟨own, here⟩
    (fun s both => (both.2.locks _).2 both.2.hash) ?_
  rintro s r w ⟨own, here⟩ rfl
  have head_eq : head = s.1.fh (HASH id) := first.trans (here.fh _).symm
  rw [head_eq] at own
  have guar := Guar.publish (P := ⟨s.table.alloc i fp id,
    Function.update s.2.pool.prog i (k (some fp))⟩) own.inv ((own.locks _).2 (by simp))
    own.is_mine own.here (.call own.prog (.alloc id (own.inv.not_object own.is_mine))) rfl
  refine ⟨_, guar, ?_⟩
  have thread := own.publish guar.inv
  have here' : InHash v i (k (some fp)) (n.gain (some fp)) [.hashlock] none _ _ none _ :=
    ⟨thread, by simp, rfl, rfl, here.dying⟩
  refine does_lock InHash.stable (fun _ here => here.toThread) here' (by simp) ?_ ?_
  · rintro s here fp' ⟨⟩
    have has : 0 < n.gain (some fp) fp := by simp [Refs.gain]
    exact ⟨here.object has, .inl (here.holder has)⟩
  intro s here _ thread
  have here' :
      InHash v i (k (some fp)) (n.gain (some fp)) [.f_lock fp, .hashlock] none _ _ none _ :=
    ⟨thread, by simp, here.objects, here.ids, here.dying⟩
  refine does_unlock_hash here' fun s thread => ?_
  refine does_unlock_f_lock (by simpa using thread) (by simp) fun s thread => ?_
  exact does_ret Thread.stable (by simpa using thread) fun _ done => done

theorem does_alloc (thread : Thread v i (.call (.alloc id) k) n [] none s) :
    Does v i (foo_alloc id) (fun r s => Thread v i (k r) (n.gain r) [] none s) s := by
  refine does_op Thread.stable thread (fun _ _ => trivial) ?_
  intro s r w thread does
  cases r with
  | none =>
    obtain rfl : w = s.1 := does
    have guar := Guar.commit (Guar.refl thread.inv) thread.prog (.no_memory id)
    refine ⟨_, guar, does_ret Thread.stable ?_ fun _ done => done⟩
    exact thread.commit guar.inv rfl thread.priv
  | some fp =>
    obtain ⟨is_free, foo, clear, rfl⟩ := does
    have guar : Guar v i s (s.1.setMem fp (some foo), _) := Guar.malloc thread.inv is_free
    refine ⟨_, guar, ?_⟩
    refine does_private Private.stable (fun _ own => own) (thread.malloc is_free guar.inv)
      (fun s own => .inl own.is_mine) (fun s r w _ does => does) fun _ s _ own => ?_
    refine does_private Private.stable (fun _ own => own) own
      (fun s own => own.is_mine) (fun s r w _ does => does) fun _ s _ own => ?_
    refine does_op Private.stable own (fun s own => ⟨own.is_mine, own.only clear⟩) ?_
    intro s ready w own does
    cases ready with
    | true =>
      obtain rfl := does
      have guar := Guar.on own.inv own.is_mine fun foo => { foo with f_lock := true }
      exact ⟨_, guar, does_publish (own.on guar.inv)⟩
    | false =>
      obtain rfl := does
      have guar := Guar.commit (Guar.refl own.inv) own.prog (.no_memory id)
      refine ⟨_, guar, ?_⟩
      have own' : Private v i (k none) n [] fp
          ({ foo with f_count := 1, f_id := id }) _ :=
        ⟨own.toThread.commit guar.inv rfl own.priv, own.here⟩
      refine does_op Private.stable own' (fun s own => ⟨own.is_mine, own.only clear⟩) ?_
      rintro s r w own rfl
      have guar := Guar.free own.inv own.is_mine fun lock => by simpa using (own.locks _).1 lock
      refine ⟨_, guar, does_ret Thread.stable ?_ fun _ done => done⟩
      exact own.free guar.inv

end

end UnixProgramming.Counted
