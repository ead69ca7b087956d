import UnixProgramming.Counted.Hold

/-!
# Giving a reference back

* `does_drop`: a count goes down, and others still have references;
* `does_unlink`: the last reference;
* `does_rele`: what `foo_rele` brings about.
-/

namespace UnixProgramming.Counted

open Calls (Prog Pool)
open Heap (Chain)

variable {ι β γ : Type} [DecidableEq ι] {v : Version} {i j : ι} {s s' t : State ι β}
  {m : Mutex} {fp q : Addr} {b : Bucket} {p : Option Addr} {n n' : Refs} {held : List Mutex}
  {mine d : Option Addr} {os as bs : List Addr} {ids : Addr → Int} {h h' : Multiset ι}
  {P : State ι β → Prop} {Q : γ → State ι β → Prop} {k : Unit → Action γ} {kc : Unit → Client β}

/-! ## One less -/

/-- One reference less, when there are others. -/
theorem does_drop (stable : Stable v i P)
    (at' : ∀ s, P s → AtObject v i (.call (.rele fp) kc) n held mine fp h s)
    (whole : ∀ s, P s → s.2.dying ≠ some fp) (hP : P s) (has : i ∈ h) (more : h.card ≠ 1)
    (out : v = .mutex3 → .f_lock fp ∉ held)
    (rest : ∀ s t, P s → Thread v i (kc ()) (n.drop fp) held mine t →
      t.table = s.table.setHolders fp (h.erase i) → t.2.dying = s.2.dying →
      Does v i (k ()) Q t) :
    Does v i (op (.setCount fp (int ((h.card : Int) - 1))) >>= k) Q s := by
  have pos : 0 < h.card := Multiset.card_pos_iff_exists_mem.2 ⟨i, has⟩
  have card : ((h.erase i).card : Int) = h.card - 1 := by
    rw [Multiset.card_erase_of_mem has, Nat.pred_eq_sub_one]
    omega
  have left : h.erase i ≠ 0 := by
    intro none'
    rw [none', Multiset.card_zero] at card
    omega
  have count : n fp = h.count i := by rw [← (at' s hP).refs fp, (at' s hP).holders]
  rw [← card]
  refine does_setCount stable at' whole hP left (by omega) ?_ ?_ ?_ ?_ rest
  · exact fun j other => Multiset.count_erase_of_ne other h
  · intro fp'
    by_cases same : fp' = fp
    · subst same
      simp [Refs.drop, count]
    · simp [Refs.drop, same]
  · intro three s here j mem locked
    refine (Multiset.mem_erase_of_ne ?_).2 mem
    rintro rfl
    exact out three (((at' s here).locks _).1 locked)
  · intro s here
    have same : s.table.rele i fp = s.table.setHolders fp ((s.table.holders fp).erase i) :=
      Table.rele_more (by rwa [(at' s here).holders])
    rw [(at' s here).holders] at same
    exact same ▸ .rele fp

/-! ## The last one -/

/-- The object is out of the table. -/
def Cut (v : Version) (i : ι) (kc : Unit → Client β) (n : Refs) (held : List Mutex) (fp : Addr)
    (ids : Addr → Int) (s : State ι β) : Prop :=
  ∃ foo os, foo.f_lock = true ∧ Private v i (kc ()) (n.drop fp) held fp foo s ∧
    InHash v i (kc ()) (n.drop fp) held (some fp) os ids none s

theorem Cut.stable : Stable (β := β) v i (Cut v i kc n held fp ids) where
  inv := by
    rintro s ⟨foo, os, -, own, -⟩
    exact own.inv
  rely := by
    rintro s s' ⟨foo, os, ready, own, here⟩ others
    exact ⟨foo, os, ready, own.rely others, here.rely others⟩

/-- A thread that has counted down the last reference. -/
structure Last (v : Version) (i : ι) (kc : Unit → Client β) (n : Refs) (held : List Mutex)
    (fp : Addr) (os : List Addr) (ids : Addr → Int) (d : Option Addr) (s : State ι β) : Prop
    extends InHash v i (.call (.rele fp) kc) n held none os ids d s where
  guard : v.guard fp ∈ held
  mem : fp ∈ os
  holders : s.table.holders fp = {i}
  whole : d = none ∨ d = some fp

theorem Last.stable : Stable (β := β) v i (Last v i kc n held fp os ids d) where
  inv _ last := last.inv
  rely s s' last others := by
    have guard := others.guard fp (last.objects ▸ last.mem) ((last.locks _).2 last.guard)
    exact ⟨last.toInHash.rely others, last.guard, last.mem, guard.2.trans last.holders, last.whole⟩

theorem Last.list (last : Last v i kc n held fp os ids d s) :
    ∃ as bs, os.filter (fun q => HASH (ids q) = HASH (ids fp)) = as ++ fp :: bs := by
  have mem : fp ∈ os.filter fun q => HASH (ids q) = HASH (ids fp) := by simp [last.mem]
  exact List.append_of_mem mem

/-- The write that takes the object out of its list. -/
theorem does_cut {c : Op} {k : Answer c → Action γ}
    (list : os.filter (fun q => HASH (ids q) = HASH (ids fp)) = as ++ fp :: bs)
    (last : Last v i kc n held fp os ids d s)
    (allowed : ∀ s, Last v i kc n held fp os ids d s → Allowed v i s c)
    (does : ∀ s r w, Last v i kc n held fp os ids d s → sem i c s.1 r w →
      w = s.1.setLink (HASH (ids fp)) as.getLast? bs.head?)
    (rest : ∀ r s, Cut v i kc n held fp ids s → Does v i (k r) Q s) :
    Does v i (op c >>= k) Q s := by
  refine does_op Last.stable last allowed fun s r w last step => ?_
  obtain rfl := does s r w last step
  have here : s.table.list (HASH (s.table.id fp)) = as ++ fp :: bs := by
    simpa only [State.table, Table.list, last.objects, last.ids] using list
  obtain ⟨foo, found, kept⟩ := last.inv.at_object (last.objects ▸ last.mem)
  have next : foo.f_next = bs.head? := by
    obtain ⟨foo', found', -, next⟩ := last.toInHash.next list
    rw [found] at found'
    cases found'
    exact next
  have guar := Guar.unlink (P := ⟨s.table.rele i fp, Function.update s.2.pool.prog i (kc ())⟩)
    last.inv ((last.locks _).2 last.hash) ((last.locks _).2 last.guard) last.holders
    (last.dying ▸ last.whole) here (.call last.prog (.rele fp)) rfl
  rw [found, Option.bind_some, next, last.ids] at guar
  refine ⟨_, guar, rest r _ ?_⟩
  have table := Table.rele_last last.holders
  have thread : Thread v i (kc ()) (n.drop fp) held (some fp)
      (s.1.setLink (HASH (ids fp)) as.getLast? bs.head?,
        { priv := Function.update s.2.priv fp (some i), dying := none,
          pool := ⟨s.table.rele i fp, Function.update s.2.pool.prog i (kc ())⟩ }) := by
    refine ⟨guar.inv, Function.update_self .., ?_, ?_, ?_⟩
    · intro q
      have refs := last.refs q
      rw [State.table, table, Table.remove_holders, Refs.drop]
      by_cases same : q = fp
      · subst same
        rw [last.holders, Multiset.count_singleton_self] at refs
        simp [← refs]
      · rw [Table.setHolders_holders_ne same, Function.update_of_ne same]
        exact refs
    · simpa using last.locks
    · intro q
      by_cases same : q = fp
      · subst same
        simp
      · simpa [same, Ne.symm same] using last.priv q
  have ready : ∃ foo', foo'.f_lock = true ∧
      (s.1.setLink (HASH (ids fp)) as.getLast? bs.head?).mem fp = some foo' := by
    obtain ⟨foo', there⟩ := Option.isSome_iff_exists.1
      (World.setLink_isSome.trans (by rw [found]; rfl : (s.1.mem fp).isSome = true))
    obtain ⟨foo'', found', same⟩ := World.setLink_found there
    rw [found] at found'
    cases found'
    exact ⟨foo', same ▸ kept.lock, there⟩
  obtain ⟨foo', lock, there⟩ := ready
  exact ⟨foo', _, lock, ⟨thread, there⟩, thread, last.hash, rfl,
    (congrArg Table.id table).trans last.ids, rfl⟩

/-- A link that is read in the list. -/
theorem does_next {k : Option Addr → Action γ}
    (list : os.filter (fun q => HASH (ids q) = b) = as ++ q :: bs)
    (last : Last v i kc n held fp os ids d s)
    (rest : ∀ s, Last v i kc n held fp os ids d s → Does v i (k bs.head?) Q s) :
    Does v i (op (.next q) >>= k) Q s := by
  refine does_read Last.stable last (fun s last => last.allowed (mem_of_list list))
    (R := fun r => r = bs.head?) ?_ ?_
  · rintro s r w last ⟨value, rfl⟩
    obtain ⟨foo, there, -, f_next⟩ := last.toInHash.next list
    exact ⟨rfl, (value foo there).trans f_next⟩
  · rintro r s rfl last
    exact rest s last

theorem does_unlinkFrom {turns : Nat} (many : bs.length < turns) {cs : List Addr}
    (list : os.filter (fun q => HASH (ids q) = HASH (ids fp)) = as ++ q :: (bs ++ fp :: cs))
    (last : Last v i kc n held fp os ids d s) :
    Does v i (unlinkFrom fp turns (some q)) (fun _ s => Cut v i kc n held fp ids s) s := by
  induction turns generalizing as bs q s with
  | zero => exact absurd many (Nat.not_lt_zero _)
  | succ turns ih =>
    refine does_next list last fun s last => ?_
    cases bs with
    | nil =>
      rw [List.nil_append, List.head?_cons, if_neg (by simp)]
      have list' : os.filter (fun q => HASH (ids q) = HASH (ids fp)) = (as ++ [q]) ++ fp :: cs :=
        list.trans (by simp)
      refine does_next list' last fun s last => ?_
      rw [← bind_pure (op (.setNext q cs.head?))]
      refine does_cut list' last (fun s last => last.allowed (mem_of_list list)) ?_ fun _ s cut => ?_
      · rintro s r w last rfl
        rw [List.getLast?_concat]
        rfl
      · exact does_ret Cut.stable cut fun _ done => done
    | cons q' bs =>
      have other : some q' ≠ some fp := by
        have distinct : (as ++ q :: (q' :: bs ++ fp :: cs)).Nodup := by
          rw [← list]
          exact (last.objects ▸ last.inv.distinct).filter _
        rintro ⟨⟩
        simp [List.nodup_append] at distinct
      rw [List.cons_append, List.head?_cons, if_pos other]
      refine does_next list last fun s last => ?_
      exact ih (Nat.lt_of_succ_lt_succ many) (list.trans (by simp) :
        _ = (as ++ [q]) ++ q' :: (bs ++ fp :: cs)) last

theorem does_unlink {turns : Nat} (many : 2 ^ 64 < turns)
    (last : Last v i kc n held fp os ids d s) :
    Does v i (unlink turns fp) (fun _ s => Cut v i kc n held fp ids s) s := by
  obtain ⟨as, bs, list⟩ := last.list
  refine does_read Last.stable last (fun s last => last.allowed last.mem)
    (R := fun r => r = ids fp) ?_ ?_
  · rintro s r w last ⟨value, rfl⟩
    obtain ⟨foo, there, f_id, -⟩ := last.toInHash.next list
    exact ⟨rfl, (value foo there).trans f_id⟩
  rintro r s rfl last
  refine does_read Last.stable last (fun s last => (last.locks _).2 last.hash)
    (R := fun r => r = (as ++ fp :: bs).head?) ?_ ?_
  · rintro s r w last ⟨rfl, rfl⟩
    exact ⟨rfl, (last.fh _).trans (by rw [list])⟩
  rintro r s rfl last
  have long := last.length_lt many fun q => HASH (ids q) = HASH (ids fp)
  rw [list] at long
  cases as with
  | nil =>
    rw [List.nil_append, List.head?_cons, if_pos rfl]
    refine does_next list last fun s last => ?_
    rw [← bind_pure (op (.setHead _ bs.head?))]
    refine does_cut list last (fun s last => (last.locks _).2 last.hash) ?_ fun _ s cut => ?_
    · rintro s r w last rfl
      rfl
    · exact does_ret Cut.stable cut fun _ done => done
  | cons q as =>
    have other : some q ≠ some fp := by
      have distinct : (q :: as ++ fp :: bs).Nodup := by
        rw [← list]
        exact (last.objects ▸ last.inv.distinct).filter _
      rintro ⟨⟩
      simp at distinct
    rw [List.cons_append, List.head?_cons, if_neg other]
    have list' : os.filter (fun q => HASH (ids q) = HASH (ids fp)) =
        [] ++ q :: (as ++ fp :: bs) := list
    refine does_unlinkFrom ?_ list' last
    simp only [List.cons_append, List.length_cons, List.length_append] at long
    omega

/-- Out of the mutex of the table. -/
theorem does_unlock_cut (cut : Cut v i kc n held fp ids s) (has : .hashlock ∈ held)
    (rest : ∀ foo s, foo.f_lock = true →
      Private v i (kc ()) (n.drop fp) (held.filter (· ≠ .hashlock)) fp foo s →
      Does v i (k ()) Q s) :
    Does v i (op (.unlock .hashlock) >>= k) Q s := by
  obtain ⟨foo, os, ready, own, here⟩ := cut
  have stable : Stable v i fun s => Private v i (kc ()) (n.drop fp) held fp foo s ∧
      InHash v i (kc ()) (n.drop fp) held (some fp) os ids none s :=
    Private.stable.and fun _ _ _ here others => here.rely others
  refine does_unlock stable (fun _ both => both.1.toThread) ⟨own, here⟩ has
    (fun _ both _ => both.2.dying) fun s both thread => ?_
  exact rest foo _ ready ⟨thread, both.1.here⟩

/-- The end of an object. -/
theorem does_destroy {c : Client β} {foo : Foo} (own : Private v i c n [] fp foo s)
    (ready : foo.f_lock = true) :
    Does v i (do op (.destroy fp); op (.free fp)) (fun _ s => Thread v i c n [] none s) s := by
  have unlocked {foo : Foo} {s : State ι β} (own : Private v i c n [] fp foo s) :
      s.1.locks (.f_lock fp) ≠ some i := fun lock => by simpa using (own.locks _).1 lock
  refine does_private Private.stable (fun _ own => own) own
    (fun s own => ⟨own.is_mine, own.only ready, ?_⟩) (fun s r w _ does => does) fun _ s _ own => ?_
  · cases locked : s.1.locks (.f_lock fp) with
    | none => rfl
    | some j =>
      obtain rfl := own.inv.lock_priv own.is_mine locked
      exact absurd locked (unlocked own)
  · rw [← bind_pure (op (.free fp))]
    refine does_op Private.stable own (fun s own => ⟨own.is_mine, own.only rfl⟩) ?_
    rintro s r w own rfl
    have guar := Guar.free own.inv own.is_mine (unlocked own)
    exact ⟨_, guar, does_ret Thread.stable (own.free guar.inv) fun _ done => done⟩

/-! ## `foo_rele` -/

omit [DecidableEq ι] in
/-- The only reference is that of the thread. -/
theorem last_of_card (has : i ∈ h) (one : (h.card : Int) = 1) : h = {i} := by
  obtain ⟨j, rfl⟩ := Multiset.card_eq_one.1 (by omega : h.card = 1)
  rw [Multiset.mem_singleton.1 has]

theorem does_rele3 {turns : Nat} (many : 2 ^ 64 < turns)
    (thread : Thread .mutex3 i (.call (.rele fp) kc) n [] none s) (has : 0 < n fp) :
    Does .mutex3 i (Mutex3.foo_rele turns fp)
      (fun _ s => Thread .mutex3 i (kc ()) (n.drop fp) [] none s) s := by
  refine does_lock_hash Thread.stable (fun _ thread => thread) thread (by simp) ?_
  intro s os ids thread here
  obtain ⟨h, holders⟩ : ∃ h, s.table.holders fp = h := ⟨_, rfl⟩
  have mem : i ∈ h := holders ▸ thread.holder has
  have counting : Counting .mutex3 i (.call (.rele fp) kc) n [.hashlock] none os ids fp h _ :=
    ⟨here, by simp [Version.guard], here.mem has, holders⟩
  refine does_count Counting.stable (fun _ here => here.atObject) (fun _ here => here.whole) counting
    fun s counting => ?_
  by_cases one : (h.card : Int) = 1
  · obtain rfl := last_of_card mem one
    rw [Multiset.card_singleton, Nat.cast_one, sub_self, int_of_lt (Int.le_refl 0) (by decide)]
    refine does_op Counting.stable counting (fun s here => here.atObject.allowed) ?_
    rintro s r w here rfl
    rw [if_pos rfl]
    have guar := Guar.dies here.inv ((here.locks _).2 here.hash) here.holders here.dying
    refine ⟨_, guar, ?_⟩
    have last : Last .mutex3 i kc n [.hashlock] fp os ids (some fp) (_, _) :=
      ⟨⟨⟨guar.inv, here.prog, here.refs, here.locks, here.priv⟩, here.hash, here.objects, here.ids,
        rfl⟩, here.guard, here.mem, here.holders, .inr rfl⟩
    refine does_then (does_unlink many last) fun _ s cut => ?_
    refine does_unlock_cut cut (by simp) fun foo s ready own => ?_
    exact does_destroy ⟨by simpa using own.toThread, own.here⟩ ready
  · have pos : 0 < h.card := Multiset.card_pos_iff_exists_mem.2 ⟨i, mem⟩
    have few := counting.atObject.few
    have more : ¬ int ((h.card : Int) - 1) = 0 := by
      rw [int_of_lt (by omega) (by omega)]
      omega
    dsimp only
    rw [if_neg more]
    refine does_drop Counting.stable (fun _ here => here.atObject) (fun _ here => here.whole)
      counting mem (by omega) (by simp) fun s t here thread table dying => ?_
    rw [← bind_pure (op (.unlock .hashlock))]
    refine does_unlock_hash (here.recount thread table dying) fun s thread => ?_
    exact does_ret Thread.stable (by simpa using thread) fun _ done => done

/-- `foo_rele` of `mutex2.c` from where it has both mutexes. -/
theorem does_again {turns : Nat} (many : 2 ^ 64 < turns) (has : 0 < n fp)
    (here : InHash .mutex2 i (.call (.rele fp) kc) n [.f_lock fp, .hashlock] none os ids none s) :
    Does .mutex2 i (do
      if (← op (.count fp)) ≠ 1 then
        addCount fp (-1)
        op (.unlock (.f_lock fp))
        op (.unlock .hashlock)
      else
        unlink turns fp
        op (.unlock .hashlock)
        op (.unlock (.f_lock fp))
        op (.destroy fp)
        op (.free fp)) (fun _ s => Thread .mutex2 i (kc ()) (n.drop fp) [] none s) s := by
  obtain ⟨h, holders⟩ : ∃ h, s.table.holders fp = h := ⟨_, rfl⟩
  have mem : i ∈ h := holders ▸ here.holder has
  have counting : Counting .mutex2 i (.call (.rele fp) kc) n [.f_lock fp, .hashlock] none os ids
      fp h s :=
    ⟨here, by simp [Version.guard], here.mem has, holders⟩
  refine does_count Counting.stable (fun _ here => here.atObject) (fun _ here => here.whole) counting
    fun s counting => ?_
  split
  · rename_i more
    refine does_count Counting.stable (fun _ here => here.atObject) (fun _ here => here.whole)
      counting fun s counting => ?_
    refine does_drop Counting.stable (fun _ here => here.atObject) (fun _ here => here.whole)
      counting mem (fun e => more (by rw [e]; rfl)) (by simp) fun s t here thread table dying => ?_
    refine does_unlock InHash.stable (fun _ here => here.toThread)
      (here.recount thread table dying) (by simp) (fun _ _ e => by cases e) fun s here thread => ?_
    rw [← bind_pure (op (.unlock .hashlock))]
    have here' : InHash .mutex2 i (kc ()) (n.drop fp) [.hashlock] none os ids none
        (s.1.setLock (.f_lock fp) none, s.2) :=
      ⟨by simpa using thread, by simp, here.objects, here.ids, here.dying⟩
    refine does_unlock_hash here' fun s thread => ?_
    exact does_ret Thread.stable (by simpa using thread) fun _ done => done
  · rename_i one
    obtain rfl := last_of_card mem (not_not.1 one)
    have last : Last .mutex2 i kc n [.f_lock fp, .hashlock] fp os ids none s :=
      ⟨counting.toInHash, counting.guard, counting.mem, counting.holders, .inl rfl⟩
    refine does_then (does_unlink many last) fun _ s cut => ?_
    refine does_unlock_cut cut (by simp) fun foo s ready own => ?_
    refine does_unlock Private.stable (fun _ own => own.toThread) own (by simp)
      (fun _ _ e => by cases e) fun s own thread => ?_
    exact does_destroy ⟨by simpa using thread, own.here⟩ ready

theorem does_rele2 {turns : Nat} (many : 2 ^ 64 < turns)
    (thread : Thread .mutex2 i (.call (.rele fp) kc) n [] none s) (has : 0 < n fp) :
    Does .mutex2 i (Mutex2.foo_rele turns fp)
      (fun _ s => Thread .mutex2 i (kc ()) (n.drop fp) [] none s) s := by
  have stable (h : Multiset ι) : Stable (β := β) .mutex2 i
      (AtObject .mutex2 i (.call (.rele fp) kc) n [.f_lock fp] none fp h) := AtObject.stable
  refine does_lock Thread.stable (fun _ thread => thread) thread (by simp) ?_ ?_
  · rintro s thread fp' ⟨⟩
    exact ⟨thread.object has, .inl (thread.holder has)⟩
  intro s before _ thread
  obtain ⟨h, holders⟩ : ∃ h, s.table.holders fp = h := ⟨_, rfl⟩
  have mem : i ∈ h := holders ▸ before.holder has
  have at' : AtObject .mutex2 i (.call (.rele fp) kc) n [.f_lock fp] none fp h _ :=
    ⟨thread, by simp [Version.guard], thread.object has, holders⟩
  refine does_count (stable h) (fun _ at' => at') (fun _ at' => by simp [at'.inv.dying_mutex2]) at'
    fun s at' => ?_
  split
  · -- others may have found it before the mutex of the table is taken
    refine does_unlock_f_lock at'.toThread (by simp) fun s thread => ?_
    replace thread : Thread .mutex2 i (.call (.rele fp) kc) n [] none s := by simpa using thread
    refine does_lock_hash Thread.stable (fun _ thread => thread) thread (by simp) ?_
    intro s os ids _ here
    refine does_lock InHash.stable (fun _ here => here.toThread) here (by simp) ?_ ?_
    · rintro s here fp' ⟨⟩
      exact ⟨here.object has, .inl (here.holder has)⟩
    intro s before _ thread
    exact does_again many has ⟨thread, by simp, before.objects, before.ids, before.dying⟩
  · rename_i more
    rw [← bind_pure (op (.unlock (.f_lock fp)))]
    refine does_count (stable h) (fun _ at' => at') (fun _ at' => by simp [at'.inv.dying_mutex2]) at'
      fun s at' => ?_
    refine does_drop (stable h) (fun _ at' => at') (fun _ at' => by simp [at'.inv.dying_mutex2]) at'
      mem (fun e => more (by rw [e]; rfl)) (by simp) fun s t _ thread _ _ => ?_
    refine does_unlock_f_lock thread (by simp) fun s thread => ?_
    exact does_ret Thread.stable (by simpa using thread) fun _ done => done

theorem does_rele {turns : Nat} (many : 2 ^ 64 < turns)
    (thread : Thread v i (.call (.rele fp) kc) n [] none s) (has : 0 < n fp) :
    Does v i (Req.action turns v (.rele fp))
      (fun _ s => Thread v i (kc ()) (n.drop fp) [] none s) s := by
  cases v with
  | mutex2 => exact does_rele2 many thread has
  | mutex3 => exact does_rele3 many thread has

end UnixProgramming.Counted
