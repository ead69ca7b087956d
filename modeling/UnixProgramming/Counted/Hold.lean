import UnixProgramming.Counted.Alloc

/-!
# Taking and finding an object

* `does_addCount`: a count under its mutex;
* `does_hold`: what `foo_hold` brings about;
* `does_find`: what `foo_find` brings about.
-/

namespace UnixProgramming.Counted

open Calls (Prog Pool)
open Heap (Chain)

variable {ι β γ : Type} [DecidableEq ι] {v : Version} {i j : ι} {s s' : State ι β}
  {m : Mutex} {fp fp' : Addr} {b : Bucket} {c : Client β} {n n' : Refs} {held : List Mutex}
  {mine d : Option Addr} {os : List Addr} {ids : Addr → Int} {h h' : Multiset ι}
  {P : State ι β → Prop} {Q : γ → State ι β → Prop} {k : Unit → Action γ}
  {req : Req} {kc : Reply req → Client β} {r : Reply req}

/-! ## Counts -/

theorem AtObject.kept (here : AtObject v i c n held mine fp h s) (whole : s.2.dying ≠ some fp) :
    ∃ foo, s.1.mem fp = some foo ∧ foo.f_count = h.card := by
  obtain ⟨foo, found, kept⟩ := here.inv.at_object here.object'
  refine ⟨foo, found, ?_⟩
  simpa [whole, ← here.holders] using kept.count

theorem AtObject.few (here : AtObject v i c n held mine fp h s) : h.card < 2 ^ 31 := by
  obtain ⟨foo, -, kept⟩ := here.inv.at_object here.object'
  exact here.holders ▸ kept.few

theorem AtObject.allowed (here : AtObject v i c n held mine fp h s) :
    s.2.priv fp = some i ∨ fp ∈ s.table.objects ∧ s.1.locks (v.guard fp) = some i :=
  .inr ⟨here.object', (here.locks _).2 here.guard⟩

/-- Reading a count. -/
theorem does_count {k : Int → Action γ} (stable : Stable v i P)
    (at' : ∀ s, P s → AtObject v i c n held mine fp h s) (whole : ∀ s, P s → s.2.dying ≠ some fp)
    (hP : P s) (rest : ∀ s, P s → Does v i (k h.card) Q s) :
    Does v i (op (.count fp) >>= k) Q s := by
  refine does_read stable hP (fun s here => (at' s here).allowed) (R := fun r => r = h.card) ?_ ?_
  · rintro s r w here ⟨value, rfl⟩
    obtain ⟨foo, found, count⟩ := (at' s here).kept (whole s here)
    exact ⟨rfl, (value foo found).trans count⟩
  · rintro r s rfl here
    exact rest s here

/-- A change of a count does a call. -/
theorem does_setCount (stable : Stable v i P)
    (at' : ∀ s, P s → AtObject v i (.call req kc) n held mine fp h s)
    (whole : ∀ s, P s → s.2.dying ≠ some fp) (hP : P s) (left : h' ≠ 0)
    (more : h'.card ≤ h.card + 1) (others : ∀ j, j ≠ i → h'.count j = h.count j)
    (own : ∀ fp', n' fp' = if fp' = fp then h'.count i else n fp')
    (lock : v = .mutex3 → ∀ s, P s → ∀ j ∈ h, s.1.locks (.f_lock fp) = some j → j ∈ h')
    (does : ∀ s, P s → Spec i s.table req r (s.table.setHolders fp h'))
    (rest : ∀ s t, P s → Thread v i (kc r) n' held mine t → t.table = s.table.setHolders fp h' →
      t.2.dying = s.2.dying → Does v i (k ()) Q t) :
    Does v i (op (.setCount fp (int h'.card)) >>= k) Q s := by
  refine does_fits stable hP (fun s here => (at' s here).allowed) ?_
  rintro s x w here fits rfl
  have obj := at' s here
  have few : h'.card < 2 ^ 31 := by
    have before := obj.few
    replace fits : 0 ≤ int h'.card := fits
    by_contra many
    have most : h'.card = 2 ^ 31 := by omega
    rw [most] at fits
    exact absurd fits (by decide)
  rw [int_of_lt (by omega) (by exact_mod_cast few)]
  have guar : Guar v i s (s.1.on fp fun foo => { foo with f_count := h'.card },
      { s.2 with pool := ⟨s.table.setHolders fp h', Function.update s.2.pool.prog i (kc r)⟩ }) := by
    refine Guar.recount obj.inv obj.object' ((obj.locks _).2 obj.guard) (whole s here) left few ?_ ?_
      (.call obj.prog (does s here)) rfl
    · rw [obj.holders]
      exact others
    · intro three j locked
      refine lock three s here j ?_ locked
      rcases obj.inv.lock fp j locked with ⟨-, holds⟩ | theirs
      · rw [← obj.holders]
        exact holds three
      · exact absurd obj.object' (obj.inv.not_object theirs)
  refine ⟨_, guar, rest s _ here ?_ rfl rfl⟩
  refine ⟨guar.inv, Function.update_self .., ?_, obj.locks, obj.priv⟩
  intro fp'
  rw [own]
  by_cases same : fp' = fp
  · subst same
    simp
  · simpa [same, Table.setHolders_holders_ne same] using obj.refs fp'

theorem does_addCount {x : Int} (stable : Stable v i P)
    (at' : ∀ s, P s → AtObject v i (.call req kc) n held mine fp h s)
    (whole : ∀ s, P s → s.2.dying ≠ some fp) (hP : P s) (card : (h'.card : Int) = h.card + x)
    (one : x ≤ 1) (left : h' ≠ 0) (others : ∀ j, j ≠ i → h'.count j = h.count j)
    (own : ∀ fp', n' fp' = if fp' = fp then h'.count i else n fp')
    (lock : v = .mutex3 → ∀ s, P s → ∀ j ∈ h, s.1.locks (.f_lock fp) = some j → j ∈ h')
    (does : ∀ s, P s → Spec i s.table req r (s.table.setHolders fp h'))
    (rest : ∀ s t, P s → Thread v i (kc r) n' held mine t → t.table = s.table.setHolders fp h' →
      t.2.dying = s.2.dying → Does v i (k ()) Q t) :
    Does v i (addCount fp x >>= k) Q s := by
  refine does_count stable at' whole hP fun s here => ?_
  rw [← card]
  exact does_setCount stable at' whole here left (by omega) others own lock does rest

/-- One more reference. -/
theorem does_gain (stable : Stable v i P)
    (at' : ∀ s, P s → AtObject v i (.call req kc) n held mine fp h s)
    (whole : ∀ s, P s → s.2.dying ≠ some fp) (hP : P s)
    (does : ∀ s, P s → Spec i s.table req r (s.table.hold i fp))
    (rest : ∀ s t, P s → Thread v i (kc r) (n.gain (some fp)) held mine t →
      t.table = s.table.hold i fp → t.2.dying = s.2.dying → Does v i (k ()) Q t) :
    Does v i (addCount fp 1 >>= k) Q s := by
  have same {s : State ι β} (here : P s) : s.table.hold i fp = s.table.setHolders fp (i ::ₘ h) := by
    rw [Table.hold, (at' s here).holders]
  have count : n fp = h.count i := by rw [← (at' s hP).refs fp, (at' s hP).holders]
  refine does_addCount stable at' whole hP (Multiset.card_cons i h ▸ by simp) (Int.le_refl 1)
    Multiset.cons_ne_zero ?_ ?_ ?_ (fun s here => same here ▸ does s here)
    fun s t here thread table => rest s t here thread (table.trans (same here).symm)
  · exact fun j other => Multiset.count_cons_of_ne other h
  · intro fp'
    by_cases other : fp' = fp
    · subst other
      simp [Refs.gain, count]
    · simp [Refs.gain, other]
  · exact fun _ _ _ j mem _ => Multiset.mem_cons_of_mem mem

/-- The table is the same but for the holders of an object. -/
theorem InHash.recount {t : State ι β} {c' : Client β} {n' : Refs}
    (here : InHash v i c n held mine os ids d s) (thread : Thread v i c' n' held mine t)
    (table : t.table = s.table.setHolders fp h) (dying : t.2.dying = s.2.dying) :
    InHash v i c' n' held mine os ids d t :=
  ⟨thread, here.hash, (congrArg Table.objects table).trans here.objects,
    (congrArg Table.id table).trans here.ids, dying.trans here.dying⟩

/-- A thread that has the mutex of the table and that of a count. -/
structure Counting (v : Version) (i : ι) (c : Client β) (n : Refs) (held : List Mutex)
    (mine : Option Addr) (os : List Addr) (ids : Addr → Int) (fp : Addr) (h : Multiset ι)
    (s : State ι β) : Prop extends InHash v i c n held mine os ids none s where
  guard : v.guard fp ∈ held
  mem : fp ∈ os
  holders : s.table.holders fp = h

namespace Counting

theorem atObject (here : Counting v i c n held mine os ids fp h s) :
    AtObject v i c n held mine fp h s :=
  ⟨here.toThread, here.guard, here.objects ▸ here.mem, here.holders⟩

theorem stable : Stable (β := β) v i (Counting v i c n held mine os ids fp h) where
  inv _ here := here.inv
  rely _ _ here others :=
    ⟨here.toInHash.rely others, here.guard, here.mem, (here.atObject.rely others).holders⟩

theorem whole (here : Counting v i c n held mine os ids fp h s) : s.2.dying ≠ some fp := by
  rw [here.dying]
  exact nofun

end Counting

/-- A thread has found what it has a reference to. -/
theorem InHash.mem (here : InHash v i c n held mine os ids d s) (has : 0 < n fp) : fp ∈ os :=
  here.objects ▸ here.toThread.object has

/-! ## Holding -/

/-- What a thread knows of the table if it has its mutex. -/
structure Knows (v : Version) (i : ι) (c : Client β) (n : Refs) (held : List Mutex)
    (mine : Option Addr) (os : List Addr) (ids : Addr → Int) (d : Option Addr) (s : State ι β) :
    Prop extends Thread v i c n held mine s where
  inHash : .hashlock ∈ held → InHash v i c n held mine os ids d s

theorem Knows.stable : Stable (β := β) v i (Knows v i c n held mine os ids d) where
  inv _ here := here.inv
  rely _ _ here others := ⟨here.toThread.rely others, fun hash => (here.inHash hash).rely others⟩

/-- An object with a reference, or in the table with its mutex. -/
def Reachable (n : Refs) (held : List Mutex) (os : List Addr) (fp : Addr) : Prop :=
  0 < n fp ∨ .hashlock ∈ held ∧ fp ∈ os

theorem Knows.object (here : Knows v i c n held mine os ids d s) (reach : Reachable n held os fp) :
    fp ∈ s.table.objects := by
  rcases reach with has | ⟨hash, mem⟩
  · exact here.toThread.object has
  · exact (here.inHash hash).objects ▸ mem

omit [DecidableEq ι] in
theorem Inv.dying_mutex2 (inv : Inv .mutex2 s) : s.2.dying = none := by
  cases dies : s.2.dying with
  | none => rfl
  | some fp => exact absurd (inv.dying fp dies).1 (by simp)

/-- `foo_hold` of `mutex2.c`, for whatever call it does. -/
theorem does_hold2 (here : Knows .mutex2 i (.call req kc) n held mine os ids d s)
    (reach : Reachable n held os fp) (new : .f_lock fp ∉ held)
    (does : ∀ s, Knows .mutex2 i (.call req kc) n (.f_lock fp :: held) mine os ids d s →
      Spec i s.table req r (s.table.hold i fp))
    (rest : ∀ s, Knows .mutex2 i (kc r) (n.gain (some fp)) held mine os ids d s →
      Does .mutex2 i (k ()) Q s) :
    Does .mutex2 i (Mutex2.foo_hold fp >>= k) Q s := by
  have code : Mutex2.foo_hold fp >>= k = op (.lock (.f_lock fp)) >>= fun _ =>
      addCount fp 1 >>= fun _ => op (.unlock (.f_lock fp)) >>= k := rfl
  rw [code]
  refine does_lock Knows.stable (fun _ here => here.toThread) here new ?_ ?_
  · intro s here fp' e
    obtain rfl := Mutex.f_lock.inj e
    refine ⟨here.object reach, ?_⟩
    rcases reach with has | ⟨hash, -⟩
    · exact .inl (here.holder has)
    · exact .inr ⟨rfl, hash⟩
  intro s here _ thread
  obtain ⟨h, holders⟩ : ∃ h, s.table.holders fp = h := ⟨_, rfl⟩
  have stable : Stable .mutex2 i fun s =>
      Knows .mutex2 i (.call req kc) n (.f_lock fp :: held) mine os ids d s ∧
        AtObject .mutex2 i (.call req kc) n (.f_lock fp :: held) mine fp h s :=
    Knows.stable.and fun _ _ _ there others => there.rely others
  refine does_gain stable (fun _ both => both.2) ?_ ?_ (fun _ both => does _ both.1) ?_
  · intro _ both
    simp [both.1.inv.dying_mutex2]
  · refine ⟨⟨thread, fun hash => ?_⟩, thread, by simp [Version.guard], here.object reach, holders⟩
    have := here.inHash (by simpa using hash)
    exact ⟨thread, hash, this.objects, this.ids, this.dying⟩
  intro s t both thread table dying
  have knows : Knows .mutex2 i (kc r) (n.gain (some fp)) (.f_lock fp :: held) mine os ids d t :=
    ⟨thread, fun hash => (both.1.inHash hash).recount thread table dying⟩
  have out : (Mutex.f_lock fp :: held).filter (· ≠ .f_lock fp) = held := by
    rw [List.filter_cons_of_neg (by simp)]
    refine List.filter_eq_self.2 fun m mem => ?_
    simp only [ne_eq, decide_not, Bool.not_eq_true', decide_eq_false_iff_not]
    rintro rfl
    exact new mem
  refine does_unlock Knows.stable (fun _ here => here.toThread) knows (by simp)
    (fun _ _ e => by cases e) fun s here thread => ?_
  rw [out] at thread
  refine rest _ ⟨thread, fun hash => ?_⟩
  have inHash := here.inHash (List.mem_cons_of_mem _ hash)
  exact ⟨thread, hash, inHash.objects, inHash.ids, inHash.dying⟩

theorem does_hold {k : Unit → Client β} (turns : Nat)
    (thread : Thread v i (.call (.hold fp) k) n [] none s) (has : 0 < n fp) :
    Does v i (Req.action turns v (.hold fp))
      (fun _ s => Thread v i (k ()) (n.gain (some fp)) [] none s) s := by
  cases v with
  | mutex2 =>
    rw [Req.action, ← bind_pure (Mutex2.foo_hold fp)]
    have here : Knows .mutex2 i (.call (.hold fp) k) n [] none [] (fun _ => 0) none s :=
      ⟨thread, by simp⟩
    refine does_hold2 here (.inl has) (by simp) (fun _ _ => .hold fp) fun s here => ?_
    exact does_ret Thread.stable here.toThread fun _ done => done
  | mutex3 =>
    refine does_lock_hash Thread.stable (fun _ thread => thread) thread (by simp) ?_
    intro s os ids thread here
    have counting : Counting .mutex3 i (.call (.hold fp) k) n [.hashlock] none os ids fp
        (s.table.holders fp) _ :=
      ⟨here, by simp [Version.guard], here.mem has, rfl⟩
    refine does_gain Counting.stable (fun _ here => here.atObject) (fun _ here => here.whole)
      counting (fun _ _ => .hold fp) ?_
    intro s t here thread table dying
    refine does_unlock_hash (here.recount thread table dying) fun s thread => ?_
    exact does_ret Thread.stable (by simpa using thread) fun _ done => done

/-! ## Finding -/

/-- What a search has found. -/
def Looked (v : Version) (i : ι) (id : Int) (kc : Option Addr → Client β) (n : Refs)
    (os : List Addr) (ids : Addr → Int) : Option Addr → State ι β → Prop
  | none, s => InHash v i (.call (.find id) kc) n [.hashlock] none os ids none s ∧
      os.find? (fun fp => ids fp = id) = none
  | some fp, s => InHash v i (kc (some fp)) (n.gain (some fp)) [.hashlock] none os ids none s

theorem find_list (os : List Addr) (ids : Addr → Int) (id : Int) :
    (os.filter fun fp => HASH (ids fp) = HASH id).find? (fun fp => ids fp = id) =
      os.find? fun fp => ids fp = id := by
  rw [List.find?_filter]
  congr 1
  funext fp
  by_cases same : ids fp = id <;> simp [same]

omit [DecidableEq ι] in
theorem mem_of_list {as bs : List Addr}
    (list : os.filter (fun fp => HASH (ids fp) = b) = as ++ fp :: bs) : fp ∈ os := by
  have mem : fp ∈ os.filter fun fp => HASH (ids fp) = b := by simp [list]
  exact (List.mem_filter.1 mem).1

section
variable {id : Int} {kc : Option Addr → Client β} {found : Addr → Action Unit}

theorem InHash.next (here : InHash v i c n held mine os ids d s) {as bs : List Addr}
    (list : os.filter (fun fp => HASH (ids fp) = b) = as ++ fp :: bs) :
    ∃ foo, s.1.mem fp = some foo ∧ foo.f_id = ids fp ∧ foo.f_next = bs.head? := by
  have mem : fp ∈ s.table.objects := here.objects ▸ mem_of_list list
  obtain ⟨foo, found, kept⟩ := here.inv.at_object mem
  refine ⟨foo, found, kept.id.trans (by rw [here.ids]), ?_⟩
  have chain := here.list b
  rw [list] at chain
  simp only [List.map_append, List.map_cons] at chain
  have next := chain.at_last.2.head
  simp only [World.link, found, Option.bind_some] at next
  rw [next]
  cases bs <;> rfl

theorem InHash.allowed (here : InHash v i c n held mine os ids d s) (mem : fp ∈ os) :
    s.2.priv fp = some i ∨ fp ∈ s.table.objects ∧ s.1.locks .hashlock = some i :=
  .inr ⟨here.objects ▸ mem, (here.locks _).2 here.hash⟩

theorem does_findFrom {as bs : List Addr} {turns : Nat} (many : bs.length < turns)
    (list : os.filter (fun fp => HASH (ids fp) = HASH id) = as ++ bs)
    (past : ∀ fp ∈ as, ids fp ≠ id)
    (does_found : ∀ fp s, os.find? (fun fp => ids fp = id) = some fp →
      InHash v i (.call (.find id) kc) n [.hashlock] none os ids none s →
      Does v i (found fp) (fun _ s => Looked v i id kc n os ids (some fp) s) s)
    (here : InHash v i (.call (.find id) kc) n [.hashlock] none os ids none s) :
    Does v i (findFrom found id turns bs.head?) (fun r s => Looked v i id kc n os ids r s) s := by
  have past' : as.find? (fun fp => ids fp = id) = none :=
    List.find?_eq_none.2 fun fp mem => by simpa using past fp mem
  induction turns generalizing as bs s with
  | zero => exact absurd many (Nat.not_lt_zero _)
  | succ turns ih =>
    cases bs with
    | nil =>
      refine does_ret InHash.stable here fun s here => ⟨here, ?_⟩
      rw [← find_list, list, List.append_nil, past']
    | cons fp bs =>
      have mem : fp ∈ os := mem_of_list list
      refine does_read InHash.stable here (fun s here => here.allowed mem)
        (R := fun r => r = ids fp) ?_ ?_
      · rintro s r w here ⟨value, rfl⟩
        obtain ⟨foo, there, f_id, -⟩ := here.next list
        exact ⟨rfl, (value foo there).trans f_id⟩
      rintro r s rfl here
      split
      · rename_i same
        refine does_then (does_found fp s ?_ here) fun _ s looked => ?_
        · rw [← find_list, list, List.find?_append, past',
            List.find?_cons_of_pos (by simpa using same)]
          rfl
        · exact does_ret InHash.stable looked fun _ done => done
      · rename_i other
        refine does_read InHash.stable here (fun s here => here.allowed mem)
          (R := fun r => r = bs.head?) ?_ ?_
        · rintro s r w here ⟨value, rfl⟩
          obtain ⟨foo, there, -, f_next⟩ := here.next list
          exact ⟨rfl, (value foo there).trans f_next⟩
        rintro r s rfl here
        have past'' : ∀ fp' ∈ as ++ [fp], ids fp' ≠ id := by
          simpa [or_imp, forall_and] using And.intro past other
        refine ih (Nat.lt_of_succ_lt_succ many) (list.trans (by simp)) past'' here ?_
        exact List.find?_eq_none.2 fun fp mem => by simpa using past'' fp mem

/-- There are not too many objects for the loops. -/
theorem InHash.length_lt (here : InHash v i c n held mine os ids d s) {turns : Nat}
    (many : 2 ^ 64 < turns) (q : Addr → Bool) : (os.filter q).length < turns := by
  have distinct : (os.filter q).Nodup := (here.objects ▸ here.inv.distinct).filter _
  have := distinct.length_le_card
  rw [Fintype.card_fin] at this
  omega

theorem does_findWith {turns : Nat} (many : 2 ^ 64 < turns)
    (does_found : ∀ os ids fp s, os.find? (fun fp => ids fp = id) = some fp →
      InHash v i (.call (.find id) kc) n [.hashlock] none os ids none s →
      Does v i (found fp) (fun _ s => Looked v i id kc n os ids (some fp) s) s)
    (thread : Thread v i (.call (.find id) kc) n [] none s) :
    Does v i (findWith found turns id) (fun r s => Thread v i (kc r) (n.gain r) [] none s) s := by
  refine does_lock_hash Thread.stable (fun _ thread => thread) thread (by simp) ?_
  intro s os ids thread here
  refine does_read InHash.stable here (fun s here => (here.locks _).2 here.hash)
    (R := fun r => r = (os.filter fun fp => HASH (ids fp) = HASH id).head?) ?_ ?_
  · rintro s r w here ⟨rfl, rfl⟩
    exact ⟨rfl, here.fh _⟩
  rintro r s rfl here
  have list : os.filter (fun fp => HASH (ids fp) = HASH id) =
      [] ++ os.filter fun fp => HASH (ids fp) = HASH id := rfl
  refine does_then (does_findFrom (here.length_lt many _) list (by simp) (does_found os ids) here)
    fun r s looked => ?_
  cases r with
  | some fp =>
    refine does_unlock_hash looked fun s thread => ?_
    exact does_ret Thread.stable (by simpa using thread) fun _ done => done
  | none =>
    obtain ⟨here, missing⟩ := looked
    refine does_op InHash.stable here (fun s here => (here.locks _).2 here.hash) ?_
    rintro s r w here rfl
    have none' : s.table.find id = none := by rw [Table.find, here.objects, here.ids, missing]
    have guar := Guar.commit
      (Guar.unlock here.inv ((here.locks _).2 here.hash) fun _ => here.dying)
      here.prog (.missing none')
    refine ⟨_, guar, does_ret Thread.stable ?_ fun _ done => done⟩
    have unlocked := here.toThread.unlock (m := .hashlock)
      (Guar.unlock here.inv ((here.locks _).2 here.hash) fun _ => here.dying).inv
    exact (unlocked.commit guar.inv rfl unlocked.priv).of_held (by simp)

theorem does_find {turns : Nat} (many : 2 ^ 64 < turns)
    (thread : Thread v i (.call (.find id) kc) n [] none s) :
    Does v i (Req.action turns v (.find id))
      (fun r s => Thread v i (kc r) (n.gain r) [] none s) s := by
  have here {s : State ι β} {os : List Addr} {ids : Addr → Int} {fp : Addr} {held : List Mutex}
      (found : os.find? (fun fp => ids fp = id) = some fp)
      (here : InHash v i (.call (.find id) kc) n held none os ids none s) :
      Spec i s.table (.find id) (some fp) (s.table.hold i fp) := by
    apply Spec.find
    rw [Table.find, here.objects, here.ids, found]
  cases v with
  | mutex2 =>
    refine does_findWith many (fun os ids fp s found inHash => ?_) thread
    rw [← bind_pure (Mutex2.foo_hold fp)]
    have knows : Knows .mutex2 i (.call (.find id) kc) n [.hashlock] none os ids none s :=
      ⟨inHash.toThread, fun _ => inHash⟩
    refine does_hold2 (r := some fp) knows (.inr ⟨by simp, List.mem_of_find?_eq_some found⟩)
      (by simp) ?_ fun s knows => ?_
    · exact fun s knows => here found (knows.inHash (by simp))
    · exact does_ret Knows.stable knows fun s knows => knows.inHash (by simp)
  | mutex3 =>
    refine does_findWith many (fun os ids fp s found inHash => ?_) thread
    have counting : Counting .mutex3 i (.call (.find id) kc) n [.hashlock] none os ids fp
        (s.table.holders fp) s :=
      ⟨inHash, by simp [Version.guard], List.mem_of_find?_eq_some found, rfl⟩
    rw [← bind_pure (addCount fp 1)]
    refine does_gain Counting.stable (fun _ here => here.atObject) (fun _ here => here.whole)
      counting (fun s counting => here found counting.toInHash) ?_
    intro s t counting thread table dying
    exact does_ret InHash.stable (counting.recount thread table dying) fun _ done => done

end

end UnixProgramming.Counted
