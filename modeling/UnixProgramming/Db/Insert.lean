import UnixProgramming.Db.Remove

/-!
# Storing

A record for new data is one from the free list of the same sizes, or a new one
at the ends of the files. It belongs to the process until it is linked to its
chain, which is all that others can see of it.

* `Writing.frame`: a step that leaves the chain alone;
* `does_findfree`, `does_append`, `does_reuse`: a record for the data;
* `Ripe.link`: the record is put on its chain;
* `does_store`: a store.
-/

namespace UnixProgramming.Db

open Calls (Prog Pool)
open Heap (Chain pread pwrite)
open Heap.Layout (flat find put)
open Ssl (Byte)

variable {ι β : Type} {i j : ι} {s s' : State ι β} {o o' v n l off : Nat} {t t' : Slot} {b : Bucket}
  {xs as bs fs : List Nat} {c : Client β} {key : Key} {data : Data} {was now : Option Data}
  {m : Table} {w w' : Owner ι} {g : Ghost ι β} {f : File}

/-! ## A record for the data -/

/-- A step of the process itself that leaves its chain alone. -/
theorem Writing.frame (writing : Writing i c key was now xs s) (inv : Inv s')
    (pool : s'.2.pool = s.2.pool) (chain : s'.2.chain = s.2.chain) (torn : s'.2.torn = s.2.torn)
    (lock : s'.1.locks i .idx (headOff (bucket key.text)) = some true)
    (head : s'.at' (headOff (bucket key.text)) = s.at' (headOff (bucket key.text)))
    (slots : ∀ o ∈ xs, Same (.slot o) s s')
    (own : ∀ o, s'.2.own o = some (.bucket (bucket key.text)) →
      s.2.own o = some (.bucket (bucket key.text))) : Writing i c key was now xs s' where
  inv := inv
  prog := by rw [pool, writing.prog]
  torn := by rw [torn]; exact writing.torn
  lock := lock
  chain := by rw [chain, writing.chain]
  value := (congrFun (congrArg Pool.state pool) key).trans writing.value
  links := writing.links.frame head fun o ho => (slots o ho _ ((writing.entries.owns o).2 ho)).2.1
  entries := writing.entries.frame slots own fun _ _ => by rw [State.map, pool]

/-- A record of the process. -/
structure Held (i : ι) (c : Client β) (key : Key) (was : Option Data) (xs : List Nat) (o : Nat)
    (t : Slot) (s : State ι β) : Prop extends Writing i c key was none xs s where
  room : s.2.room i = none
  own : ∀ o', s.2.own o' = some (.proc i) ↔ o' = o
  here : s.at' o = some (.slot t)

/-- It is the one for the data, and only has to be linked to the chain. -/
structure Ripe (i : ι) (c : Client β) (key : Key) (data : Data) (was : Option Data)
    (xs : List Nat) (o : Nat) (t : Slot) (s : State ι β) : Prop
    extends Held i c key was xs o t s where
  same : t.key = key.text
  ptr : t.ptr = xs.headD 0
  data : s.data t = data.text ++ [NEWLINE]

/-- Data without a record. -/
structure Roomy (i : ι) (c : Client β) (key : Key) (data : Data) (was : Option Data)
    (xs : List Nat) (off : Nat) (s : State ι β) : Prop extends Writing i c key was none xs s where
  room : s.2.room i = some (off, data.text ++ [NEWLINE])
  own : ∀ o, s.2.own o ≠ some (.proc i)

theorem Held.rely (held : Held i c key was xs o t s) (others : Rely' i s s') :
    Held i c key was xs o t s' := by
  obtain ⟨own, here, -⟩ := others.slot ((held.own o).2 rfl) rfl
  exact
    { held.toWriting.rely others with
      room := Eq.trans (others.same (.room i) rfl) held.room
      own := fun o' => ⟨fun mine => (held.own o').1 (others.own o' _ mine rfl),
        by rintro rfl; exact own⟩
      here := here.trans held.here }

theorem Held.stable : Stable i (Held (β := β) i c key was xs o t) :=
  ⟨fun _ held => held.inv, fun _ _ => Held.rely⟩

theorem Held.stable_free : Stable i fun s : State ι β =>
    Held i c key was xs o t s ∧ FreeLock i fs s :=
  Held.stable.and fun _ _ => FreeLock.rely

theorem Ripe.stable : Stable i (Ripe (β := β) i c key data was xs o t) where
  inv _ ripe := ripe.inv
  rely _ _ ripe others :=
    { ripe.toHeld.rely others with
      same := ripe.same
      ptr := ripe.ptr
      data := ((others.slot ((ripe.own o).2 rfl) rfl).2.2 t ripe.here).trans ripe.data }

theorem Roomy.stable : Stable i (Roomy (β := β) i c key data was xs off) where
  inv _ roomy := roomy.inv
  rely _ _ roomy others :=
    { roomy.toWriting.rely others with
      room := Eq.trans (others.same (.room i) rfl) roomy.room
      own := fun o own => roomy.own o (others.own o _ own rfl) }

/-- The end of a file is locked. -/
structure Ending (i : ι) (f : File) (n : Nat) (s : State ι β) : Prop where
  endLock : s.1.locks i f (endOff f) = some true
  length : (s.1.files.content f).length = n

theorem Ending.rely (ending : Ending i f n s) (others : Rely' i s s') : Ending i f n s' where
  endLock := by rw [others.locks, ending.endLock]
  length := Eq.trans (others.same (.ends f) (by rw [Sees, ending.endLock]; rfl)) ending.length

/-! ## From the free list -/

/-- The free list without the record at `o`. The link at `l` led to it. -/
def State.pop (s : State ι β) (i : ι) (l : Nat) (it : Item) (as : List Nat) (o : Nat)
    (bs : List Nat) : State ι β :=
  (s.1.write .idx l (padded PTR_SZ (bs.headD 0 : Nat)),
    ((s.2.put l (it.setPtr (bs.headD 0))).give o (.proc i)).setFree (as ++ bs))

theorem pop_own {it : Item} : (s.pop i l it as o bs).2.own o' = some w ↔
    o' = o ∧ .proc i = w ∨ o' ≠ o ∧ s.2.own o' = some w := give_own

section
variable (inv : Inv s) (list : s.2.free = as ++ o :: bs)
include inv list

theorem pop_link : ∃ it, s.at' (as.getLastD FREE_OFF) = some it ∧ it ≠ .newline ∧
    (as.getLastD FREE_OFF = FREE_OFF ∧ s.2.own (as.getLastD FREE_OFF) = none ∨
      s.2.own (as.getLastD FREE_OFF) = some .free ∧ TAIL ≤ as.getLastD FREE_OFF) :=
  last_link inv.laid (inv.laid.heads 0 (Nat.zero_le _)) fun y hy =>
    (inv.free.owns y).2 (list ▸ List.mem_append_left _ hy)

theorem pop_fits : bs.headD 0 ≤ 9999999 := by
  cases bs with
  | nil => exact Nat.zero_le _
  | cons y bs =>
    obtain ⟨t, there, -⟩ := inv.free.blank y (by simp [list])
    exact inv.fits there

theorem pop_distinct : (FREE_OFF :: (as ++ o :: bs)).Nodup := by
  refine List.nodup_cons.2 ⟨fun there => ?_, list ▸ inv.free.distinct⟩
  obtain ⟨t, there, -⟩ := inv.free.blank FREE_OFF (list ▸ there)
  exact absurd (inv.laid.slot_pos there) (by decide)

variable {it : Item} (there : s.at' l = some it)
include there

theorem pop_long : (it.setPtr (bs.headD 0)).enc.length = it.enc.length :=
  enc_setPtr_length (inv.laid.ok _ (Heap.Layout.find_mem there)) (pop_fits inv list)

theorem pop_other (other : o' ≠ l) : (s.pop i l it as o bs).at' o' = s.at' o' :=
  at_put_other there (pop_long inv list there) rfl other

/-- The free list is one shorter. -/
theorem Free.pop (last : as.getLastD FREE_OFF = l) (some' : it ≠ .newline) :
    Free (s.pop i l it as o bs) := by
  have distinct := pop_distinct inv list
  have chain := inv.free.chain
  rw [list] at chain
  have notHere : o ∉ as ++ bs := (List.nodup_middle.1 distinct.of_cons).notMem
  refine ⟨chain.skip distinct ?_ fun y _ other => ?_,
    (List.nodup_middle.1 distinct.of_cons).of_cons, fun o' => ?_, fun y hy => ?_⟩
  · rw [last, chain.at_last.2.head]
    exact (cell_eq (at_put there rfl)).trans (setPtr_ptr some')
  · exact cell_congr (pop_other inv list there (last ▸ other))
  · rw [pop_own, inv.free.owns, list]
    constructor
    · rintro (⟨-, e⟩ | ⟨other, mem⟩)
      · cases e
      · exact (List.mem_append.1 mem).elim (List.mem_append_left _)
          fun mem => List.mem_append_right _ ((List.mem_cons.1 mem).resolve_left other)
    · refine fun mem => .inr ⟨fun e => notHere (e ▸ mem), ?_⟩
      exact (List.mem_append.1 mem).elim (List.mem_append_left _)
        fun mem => List.mem_append_right _ (List.mem_cons_of_mem _ mem)
  · obtain ⟨t, here, blank⟩ := inv.free.blank y (by
      rw [list]
      exact (List.mem_append.1 hy).elim (List.mem_append_left _)
        fun mem => List.mem_append_right _ (List.mem_cons_of_mem _ mem))
    by_cases self : y = l
    · subst self
      rw [here] at there
      cases there
      exact ⟨_, at_put here rfl, blank⟩
    · exact ⟨t, (pop_other inv list there self).trans here, blank⟩

variable [DecidableEq ι] (holds : Holds i s.1 .free) (last : as.getLastD FREE_OFF = l)
  (some' : it ≠ .newline) (place : l = FREE_OFF ∧ s.2.own l = none ∨
    s.2.own l = some .free ∧ TAIL ≤ l)
include holds last some' place

theorem Guar.pop (small : (s.pop i l it as o bs).1.Small) : Guar i s (s.pop i l it as o bs) := by
  have mine : s.2.own o = some .free := (inv.free.owns o).2 (by simp [list])
  have notHead (b : Bucket) : l ≠ headOff b := by
    rcases place with ⟨rfl, -⟩ | ⟨-, behind⟩
    · exact (headOff_ne_free b).symm
    · have := headOff_lt b
      omega
  have own_other {o' : Nat} {b : Bucket} : (s.pop i l it as o bs).2.own o' = some (.bucket b) ↔
      s.2.own o' = some (.bucket b) := by
    rw [pop_own]
    constructor
    · rintro (⟨-, e⟩ | ⟨-, theirs⟩)
      · cases e
      · exact theirs
    · refine fun theirs => .inr ⟨?_, theirs⟩
      rintro rfl
      rw [mine] at theirs
      cases theirs
  have turn : Turn i s (s.pop i l it as o bs).2 :=
    { Turn.refl i inv with
      free := fun other => absurd holds other
      slot := fun o' w theirs other => pop_own.2 <| .inr ⟨by
        rintro rfl
        obtain rfl := Option.some.inj (theirs.symm.trans mine)
        exact other holds, theirs⟩
      own := fun o' w theirs => by
        rcases pop_own.1 theirs with ⟨-, rfl⟩ | ⟨-, theirs⟩
        · exact .inr rfl
        · exact .inl theirs }
  exact Guar.relink inv there some' (pop_fits inv list) rfl small
    { turn
      owned := fun o' => give_isSome (by rw [Ghost.put_own, mine]; rfl)
      room := rfl
      head := fun b e => absurd e (notHead b)
      freeHead := fun _ => holds
      slot := fun w theirs => by
        rcases place with ⟨-, bare⟩ | ⟨free, -⟩
        · rw [bare] at theirs
          cases theirs
        · obtain rfl := Option.some.inj (theirs.symm.trans free)
          exact holds
      free := fun _ => Free.pop inv list there last some'
      chains := fun b _ whole => put_chain (w := (s.pop i l it as o bs).1)
        (g := (s.pop i l it as o bs).2) inv there (pop_long inv list there) rfl rfl (notHead b)
        (by rcases place with ⟨-, bare⟩ | ⟨free, -⟩ <;> simp_all) (fun o' => own_other) rfl whole
        whole fun _ _ => rfl }

end

section
variable [DecidableEq ι] {h : Handle} {keylen datlen : Nat}

/-- A record off the free list belongs to the process. -/
theorem Settled.pop (settled : Settled i c key was none xs s) (free : FreeLock i (as ++ o :: bs) s)
    (here : s.at' o = some (.slot t)) (last : as.getLastD FREE_OFF = l)
    (small : (s.1.write .idx l (padded PTR_SZ (bs.headD 0 : Nat))).Small) :
    ∃ g, Guar i s (s.1.write .idx l (padded PTR_SZ (bs.headD 0 : Nat)), g) ∧
      Held i c key was xs o t (s.1.write .idx l (padded PTR_SZ (bs.headD 0 : Nat)), g) ∧
      FreeLock i (as ++ bs) (s.1.write .idx l (padded PTR_SZ (bs.headD 0 : Nat)), g) := by
  have inv := settled.inv
  obtain ⟨it, there, some', place⟩ := pop_link inv free.list
  rw [last] at there place
  have guar := Guar.pop inv free.list there free.holds last some' place small
  have other : o ≠ l := by
    have distinct := pop_distinct inv free.list
    rw [← List.cons_append, List.nodup_middle, List.nodup_cons] at distinct
    rintro rfl
    exact distinct.1 (last ▸ List.mem_append_left _ (List.getLastD_mem_cons ..))
  have mine : s.2.own o = some .free := (inv.free.owns o).2 (by simp [free.list])
  have own_other {o' : Nat} {b : Bucket} (theirs : s.2.own o' = some (.bucket b)) :
      o' ≠ o ∧ o' ≠ l := by
    refine ⟨?_, ?_⟩
    · rintro rfl
      rw [mine] at theirs
      cases theirs
    · rintro rfl
      rcases place with ⟨-, bare⟩ | ⟨free, -⟩ <;> simp_all
  refine ⟨_, guar, { settled.toWriting.frame guar.inv rfl rfl rfl settled.lock
      (pop_other inv free.list there ?_) (fun o' ho' w theirs => ?_) (fun o' theirs => ?_) with
    room := settled.room
    own := fun o' => ?_
    here := (pop_other inv free.list there other).trans here }, free.freeLock, rfl⟩
  · rcases place with ⟨rfl, -⟩ | ⟨-, behind⟩
    · exact headOff_ne_free _
    · have := headOff_lt (bucket key.text)
      omega
  · obtain ⟨other, other'⟩ := own_other ((settled.entries.owns o').2 ho')
    exact ⟨pop_own.2 (.inr ⟨other, theirs⟩), pop_other inv free.list there other', fun _ _ => rfl⟩
  · exact ((pop_own.1 theirs).resolve_left (by simp)).2
  · refine pop_own.trans ⟨?_, ?_⟩
    · rintro (⟨rfl, -⟩ | ⟨-, mine⟩)
      · rfl
      · exact absurd mine (settled.own o')
    · rintro rfl
      exact .inl ⟨rfl, rfl⟩

omit [DecidableEq ι] in
/-- The link of a free record. -/
theorem Free.next_link (free : Free s) (list : s.2.free = as ++ o :: bs)
    (here : s.at' o = some (.slot t)) : t.ptr = bs.headD 0 := by
  have chain := free.chain
  rw [list] at chain
  have next := chain.at_last.2.head
  rwa [cell_eq here] at next

/-- What the loop over the free list ends with. -/
def Chosen (i : ι) (c : Client β) (key : Key) (was : Option Data) (xs fs : List Nat)
    (keylen datlen : Nat) (r : Option Int) (h : Handle) (s : State ι β) : Prop :=
  (r = none ∧ Settled i c key was none xs s ∧ FreeLock i fs s) ∨
  ∃ as o bs t, fs = as ++ o :: bs ∧ r = some ((as.getLastD FREE_OFF : Nat) : Int) ∧
    (Settled i c key was none xs s ∧ FreeLock i fs s ∧ s.at' o = some (.slot t)) ∧
    t.key.length = keylen ∧ t.datlen = datlen ∧ h.Has t ∧ h.db.idxoff = o

omit [DecidableEq ι] in
theorem Settled.stable_slot (mem : o ∈ fs) : Stable i fun s : State ι β =>
    Settled i c key was now xs s ∧ FreeLock i fs s ∧ s.at' o = some (.slot t) where
  inv _ all := all.1.inv
  rely s s' all others := by
    obtain ⟨settled, free, here⟩ := all
    have mine : s.2.own o = some .free := (settled.inv.free.owns o).2 (by rwa [free.list])
    exact ⟨settled.rely others, free.rely others,
      (others.slot mine free.holds.reads).2.1.trans here⟩

/-- The loop over the free list. -/
theorem does_freeFrom (turns : Nat) (settled : Settled i c key was none xs s)
    (free : FreeLock i (as ++ bs) s) (more : bs.length < turns) :
    Does i (freeFrom keylen datlen turns (as.getLastD FREE_OFF : Nat) (bs.headD 0 : Nat))
      (fun r h' s' => Chosen i c key was xs (as ++ bs) keylen datlen r h' s' ∧
        h'.db.chainoff = h.db.chainoff) h s := by
  induction bs generalizing turns as s h with
  | nil =>
    obtain ⟨turns, rfl⟩ := Nat.exists_eq_add_of_lt more
    rw [freeFrom, List.headD_nil, if_pos Nat.cast_zero]
    exact does_return Settled.stable_free ⟨settled, free⟩ fun s both =>
      ⟨.inl ⟨rfl, both.1, both.2⟩, rfl⟩
  | cons o bs ih =>
    obtain ⟨turns, rfl⟩ := Nat.exists_eq_add_of_lt more
    obtain ⟨t, here, -⟩ := settled.inv.free.blank o (by simp [free.list])
    have behind := settled.inv.laid.slot_pos here
    have some' : o ≠ 0 := by
      rintro rfl
      exact absurd behind (by decide)
    rw [freeFrom, List.headD_cons, if_neg (by exact_mod_cast some')]
    refine (does_readidx (Settled.stable_slot (by simp)) ⟨settled, free, here⟩ some'
      fun s all => all.2.2).then ?_
    rintro _ h' s' ⟨⟨settled, free, here⟩, rfl, has, off, -, chainoff⟩
    rw [does_getDB]
    by_cases fits : h'.db.idxbuf.length = keylen ∧ h'.db.datlen = datlen
    · rw [if_pos fits]
      refine does_return (Settled.stable_slot (by simp)) ⟨settled, free, here⟩ fun s all =>
        ⟨.inr ⟨as, o, bs, t, rfl, rfl, all, ?_, ?_, has, off⟩, chainoff⟩
      · rw [← has.idxbuf, fits.1]
      · rw [← fits.2, has.datlen]
    · rw [if_neg fits, settled.inv.free.next_link free.list here]
      have further : FreeLock i (as ++ [o] ++ bs) s' := by simpa using free
      have rest := ih (h := h') ((o :: bs).length + turns) settled further
        (by rw [List.length_cons]; omega)
      rw [List.getLastD_concat] at rest
      simpa [chainoff] using rest

theorem Held.setLock {off len : Nat} {mode : Option Bool} (held : Held i c key was xs o t s)
    (inv : Inv (s.1.setLock i f off len mode, s.2))
    (other : ¬ (f = .idx ∧ covers off len (headOff (bucket key.text)))) :
    Held i c key was xs o t (s.1.setLock i f off len mode, s.2) :=
  { held.toWriting.setLock inv other with
    room := held.room
    own := held.own
    here := held.here }

/-- A record of these sizes, if there is a free one. -/
theorem does_findfree {turns : Nat} (many : 9999999 < turns)
    (settled : Settled i c key was none xs s) :
    Does i (findfree turns keylen datlen) (fun r h' s' => h'.db.chainoff = h.db.chainoff ∧
      ((r = false ∧ Settled i c key was none xs s') ∨
        (r = true ∧ ∃ o t, Held i c key was xs o t s' ∧ t.key.length = keylen ∧
          t.datlen = datlen ∧ h'.db.idxoff = o ∧ h'.db.datoff = t.datoff))) h s := by
  have stable : Stable i fun s : State ι β =>
      ∃ fs, Settled i c key was none xs s ∧ FreeLock i fs s :=
    Stable.exists fun _ => Settled.stable_free
  rw [findfree, lockByte]
  refine (does_lock Settled.stable stable settled fun s settled grant => ?_).then ?_
  · have guar := Guar.lock settled.inv grant (.inl rfl)
    refine ⟨guar, s.2.free, settled.setLock guar.inv (free_notHead _), ?_, rfl⟩
    rw [setLock_byte, if_pos ⟨rfl, rfl⟩]
  rintro _ h' s' ⟨⟨fs, settled, free⟩, rfl⟩
  refine (does_readptr (o := FREE_OFF) (v := fs.headD 0) Settled.stable_free ⟨settled, free⟩
    fun s both => ?_).then ?_
  · rw [← both.2.list]
    exact both.1.inv.free.head_link both.1.inv.laid
  rintro _ h₁ s₁ ⟨⟨settled, free⟩, rfl, db₁⟩
  have short : fs.length < turns := by
    have := length_le settled.inv settled.inv.free.distinct fun o ho =>
      (settled.inv.free.blank o ho).imp fun t both => both.1
    rw [free.list] at this
    omega
  refine (does_freeFrom turns settled (show FreeLock i ([] ++ fs) _ from free) short).then ?_
  rintro r h₂ s₂ ⟨⟨rfl, settled, free⟩ | ⟨as, o, bs, t, rfl, rfl, ⟨settled, free, here⟩, long, len,
    has, off⟩, chainoff⟩
  · refine (does_unlock_free Settled.stable settled free fun s settled inv =>
      settled.setLock inv (free_notHead _)).then ?_
    rintro _ h₃ s₃ ⟨settled, rfl⟩
    exact does_return Settled.stable settled fun s settled =>
      ⟨by rw [chainoff, db₁], .inl ⟨rfl, settled⟩⟩
  · have free : FreeLock i (as ++ o :: bs) s₂ := free
    have fits : bs.headD 0 ≤ 9999999 := pop_fits settled.inv free.list
    dsimp only
    rw [does_getDB, has.ptrval, settled.inv.free.next_link free.list here]
    refine (does_writeptr fits (Settled.stable_slot (by simp)) Held.stable_free
      ⟨settled, free, here⟩ fun s all small => all.1.pop all.2.1 all.2.2 rfl small).then ?_
    rintro _ h₃ s₃ ⟨⟨held, free⟩, db₃⟩
    refine (does_unlock_free Held.stable held free fun s held inv =>
      held.setLock inv (free_notHead _)).then ?_
    rintro _ h₄ s₄ ⟨held, rfl⟩
    refine does_return Held.stable held fun s held =>
      ⟨by rw [db₃, chainoff, db₁], .inr ⟨rfl, o, t, held, long, len, ?_, ?_⟩⟩
    · rw [db₃, off]
    · rw [db₃, has.datoff]

/-! ## At the ends of the files -/

/-- `lseek` to the end of a file. -/
theorem does_lseek_end {P : State ι β → Prop} {msg : String} (stable : Stable i P) (hP : P s)
    (value : ∀ s, P s → (s.1.files.content f).length = n) :
    Does i (lseek f 0 .SEEK_END msg) (fun r h' s' => P s' ∧ r = n ∧ h' = h.seek f n) h s := by
  rw [lseek]
  refine does_sys.2 fun s' others => ⟨fun why => by simp, fun r w step => ?_⟩
  have hP' := stable.next hP others
  obtain ⟨⟨answer, locks⟩, -⟩ := step
  simp only [Sys.answer, Option.some.injEq, Prod.mk.injEq] at answer
  obtain ⟨rfl, files⟩ := answer
  obtain rfl : w = s'.1 := by
    cases w
    cases h₁ : s'.1
    simp_all
  refine ⟨s'.2, Guar.refl (stable.inv s' hP'), ?_⟩
  rw [value s' hP']
  beta_reduce
  rw [if_neg (by omega)]
  refine does_modify.2 (does_return stable hP' fun s hP => ⟨hP, ?_, ?_⟩)
  · omega
  · rw [show ((n : Int) + 0).toNat = n by omega]

theorem Roomy.setLock {off' len : Nat} {mode : Option Bool}
    (roomy : Roomy i c key data was xs off s) (inv : Inv (s.1.setLock i f off' len mode, s.2))
    (other : ¬ (f = .idx ∧ covers off' len (headOff (bucket key.text)))) :
    Roomy i c key data was xs off (s.1.setLock i f off' len mode, s.2) :=
  { roomy.toWriting.setLock inv other with
    room := roomy.room
    own := roomy.own }

theorem Ripe.setLock {off len : Nat} {mode : Option Bool} (ripe : Ripe i c key data was xs o t s)
    (inv : Inv (s.1.setLock i f off len mode, s.2))
    (other : ¬ (f = .idx ∧ covers off len (headOff (bucket key.text)))) :
    Ripe i c key data was xs o t (s.1.setLock i f off len mode, s.2) :=
  { ripe.toHeld.setLock inv other with
    same := ripe.same
    ptr := ripe.ptr
    data := ripe.data }

/-- The data are at the end of the data file. -/
theorem Settled.extend (settled : Settled i c key was none xs s) (ending : Ending i .dat n s)
    (small : (s.1.write .dat n (data.text ++ [NEWLINE])).Small) :
    Guar i s (s.1.write .dat n (data.text ++ [NEWLINE]),
      s.2.reserve i (n, data.text ++ [NEWLINE])) ∧
    Roomy i c key data was xs n (s.1.write .dat n (data.text ++ [NEWLINE]),
      s.2.reserve i (n, data.text ++ [NEWLINE])) := by
  obtain rfl := ending.length
  have guar := Guar.extend settled.inv ending.endLock settled.room small
  refine ⟨guar, { settled.toWriting.frame guar.inv rfl rfl rfl settled.lock rfl
    (fun o' _ w own => ⟨own, rfl, fun t there => data_extend settled.inv.laid there⟩)
    (fun _ own => own) with
    room := Function.update_self ..
    own := settled.own }⟩

/-- Data behind all others. -/
theorem does_writedat_end (settled : Settled i c key was none xs s) :
    Does i (writedat data.text 0 .SEEK_END) (fun _ h' s' => ∃ off,
      Roomy i c key data was xs off s' ∧
      h'.db = { h.db with datoff := off, datlen := data.text.length + 1 }) h s := by
  have stable (n : Nat) : Stable i fun s : State ι β =>
      Settled i c key was none xs s ∧ Ending i .dat n s :=
    Settled.stable.and fun _ _ => Ending.rely
  have stable' (n : Nat) : Stable i fun s : State ι β => Roomy i c key data was xs n s :=
    Roomy.stable
  have notHead (b : Bucket) : ¬ (File.dat = .idx ∧ covers 0 0 (headOff b)) := by simp
  rw [writedat, if_pos rfl, if_pos rfl]
  refine (does_lock Settled.stable (Stable.exists stable) settled fun s settled grant => ?_).then ?_
  · have guar := Guar.lock settled.inv grant (.inl rfl)
    refine ⟨guar, _, settled.setLock guar.inv (notHead _), ?_, rfl⟩
    exact (Locks.set_self _).trans (if_pos ⟨rfl, Nat.zero_le _, .inl rfl⟩)
  rintro _ h₁ s₁ ⟨⟨n, settled, ending⟩, rfl⟩
  refine (does_lseek_end (stable n) ⟨settled, ending⟩ fun s both => both.2.length).then ?_
  rintro n h₂ s₂ ⟨⟨settled, ending⟩, rfl, rfl⟩
  rw [does_setDB]
  refine (does_write (stable n) (stable' n) ⟨settled, ending⟩ fun s both small => ?_).then ?_
  · rw [Handle.on_pos, Handle.seek_pos] at small ⊢
    exact ⟨_, both.1.extend both.2 small⟩
  rintro _ h₃ s₃ ⟨roomy, db₃⟩
  refine (does_unlock Roomy.stable (stable' n) roomy fun s roomy => ?_).mono ?_
  · have guar := Guar.drop (i := i) roomy.inv fun b _ => notHead b
    exact ⟨_, guar, roomy.setLock guar.inv (notHead _)⟩
  · rintro _ h₄ s₄ ⟨roomy, rfl⟩
    exact ⟨n, roomy, db₃⟩

omit [DecidableEq ι] in
/-- The record for the data can be written. -/
theorem slot_ok (key : Key) (data : Data) (fits : v ≤ 9999999) (small : off < 10 ^ 18) :
    (Slot.mk v key.text off (data.text.length + 1)).Ok := by
  have short := key.short
  have some' := List.length_pos_of_ne_nil key.nonempty
  have data_ : data.text.length + 1 ≤ 1024 := data.short
  have digits := (decimal_length (n := off) (k := 18) (by decide)).2 small
  have digits' := (decimal_length (n := data.text.length + 1) (k := 4) (by decide)).2 (by omega)
  have pos := decimal_pos off
  have pos' := decimal_pos (data.text.length + 1)
  have length := entry_length key.text off (data.text.length + 1)
  refine ⟨fits, key.clean, key.noNul, ?_, Nat.succ_pos _, data.short, ?_, ?_⟩
  · show off < 2 ^ 63
    omega
  · show 6 ≤ (entry _ _ _).length
    push_cast at length digits' pos' ⊢
    omega
  · show (entry _ _ _).length ≤ 1024
    push_cast at length digits' pos' ⊢
    omega

omit [DecidableEq ι] in
theorem Roomy.small (roomy : Roomy i c key data was xs off s) : off < 10 ^ 18 := by
  have there : s.extent (.inr i) = some (off, (data.text ++ [NEWLINE]).length) := by
    rw [State.extent, roomy.room]
    rfl
  have inside := roomy.inv.laid.inside _ _ _ there
  have small := roomy.inv.small.2
  omega

/-- The record is at the end of the index file. -/
theorem Roomy.append (roomy : Roomy i c key data was xs t.datoff s) (ending : Ending i .idx n s)
    (ok : t.Ok) (same : t.key = key.text) (ptr : t.ptr = xs.headD 0)
    (len : t.datlen = data.text.length + 1)
    (small : (s.1.write .idx n (Item.slot t).enc).Small) :
    Guar i s (s.1.write .idx n (Item.slot t).enc, s.2.add i n t) ∧
    Ripe i c key data was xs n t (s.1.write .idx n (Item.slot t).enc, s.2.add i n t) := by
  obtain rfl := ending.length
  have laid := roomy.inv.laid
  have long : (data.text ++ [NEWLINE]).length = t.datlen := by simp [len]
  have guar := Guar.append roomy.inv ending.endLock ok roomy.room long small
  have at_ {o' : Nat} (other : o' ≠ (s.1.files.content .idx).length) :
      State.at' (s.1.write .idx (s.1.files.content .idx).length (Item.slot t).enc,
        s.2.add i (s.1.files.content .idx).length t) o' = s.at' o' := by
    rw [at_append laid rfl, if_neg other]
  have own {o' : Nat} {w : Owner ι} :
      (s.2.add i (s.1.files.content .idx).length t).own o' = some w ↔
        o' = (s.1.files.content .idx).length ∧ .proc i = w ∨
        o' ≠ (s.1.files.content .idx).length ∧ s.2.own o' = some w := by
    rw [Ghost.add_own, Function.update_apply]
    split <;> simp_all
  refine ⟨guar, { roomy.toWriting.frame guar.inv rfl rfl rfl roomy.lock
      (at_ (laid.before_end (find_headOff laid _).choose_spec)) (fun o' _ w theirs => ?_)
      (fun o' theirs => ((own.1 theirs).resolve_left (by simp)).2) with
    room := Function.update_self ..
    own := fun o' => own.trans ⟨?_, ?_⟩
    here := (at_append laid rfl _).trans (if_pos rfl)
    same
    ptr
    data := ?_ }⟩
  · have other := laid.owned_ne theirs
    exact ⟨own.2 (.inr ⟨other, theirs⟩), at_ other, fun _ _ => rfl⟩
  · rintro (⟨rfl, -⟩ | ⟨-, mine⟩)
    · rfl
    · exact absurd mine (roomy.own o')
  · rintro rfl
    exact .inl ⟨rfl, rfl⟩
  · rw [← laid.room i _ _ roomy.room, long]
    rfl

/-- A record behind all others. -/
theorem does_writeidx_end (roomy : Roomy i c key data was xs off s) (fits : xs.headD 0 ≤ 9999999)
    (datoff : h.db.datoff = off) (datlen : h.db.datlen = data.text.length + 1) :
    Does i (writeidx key.text 0 .SEEK_END (xs.headD 0 : Nat)) (fun _ h' s' => ∃ o t,
      Ripe i c key data was xs o t s' ∧ h'.db.idxoff = o ∧ h'.db.chainoff = h.db.chainoff) h s := by
  have stable (n : Nat) : Stable i fun s : State ι β =>
      Roomy i c key data was xs off s ∧ Ending i .idx n s :=
    Roomy.stable.and fun _ _ => Ending.rely
  have notHead (b : Bucket) : ¬ (File.idx = .idx ∧
      covers ((NHASH_DEF + 1) * PTR_SZ + 1) 0 (headOff b)) := fun both =>
    absurd (headOff_lt b) (Nat.not_lt.2 both.2.1)
  have ok := slot_ok key data fits roomy.small
  have text : Slot.text ⟨xs.headD 0, key.text, off, data.text.length + 1⟩ =
      entry key.text h.db.datoff h.db.datlen := by rw [datoff, datlen]; rfl
  generalize slot : Slot.mk (xs.headD 0) key.text off (data.text.length + 1) = t at ok text
  have stable' (n : Nat) : Stable i fun s : State ι β => Ripe i c key data was xs n t s :=
    Ripe.stable
  have small : ¬ (((xs.headD 0 : Nat) : Int) < 0 ∨ ((xs.headD 0 : Nat) : Int) > PTR_MAX) := by
    rw [PTR_MAX]
    omega
  have long := ok.long
  have short := ok.short
  rw [writeidx, does_setDB, if_neg small, does_getDB]
  simp only [Handle.on_db, ← text]
  rw [if_neg (by omega), does_setDB, if_neg (by omega), if_pos trivial, if_pos trivial]
  refine (does_lock Roomy.stable (Stable.exists stable) roomy fun s roomy grant => ?_).then ?_
  · have guar := Guar.lock roomy.inv grant (.inl rfl)
    refine ⟨guar, _, roomy.setLock guar.inv (notHead _), ?_, rfl⟩
    exact (Locks.set_self _).trans (if_pos ⟨rfl, Nat.le_refl _, .inl rfl⟩)
  rintro _ h₁ s₁ ⟨⟨n, roomy, ending⟩, rfl⟩
  refine (does_lseek_end (stable n) ⟨roomy, ending⟩ fun s both => both.2.length).then ?_
  rintro n h₂ s₂ ⟨⟨roomy, ending⟩, rfl, rfl⟩
  rw [does_setDB]
  refine (does_write (stable n) (stable' n) ⟨roomy, ending⟩ fun s both small => ?_).then ?_
  · have ptr : t.ptr = xs.headD 0 := by rw [← slot]
    have off_ : off = t.datoff := by rw [← slot]
    rw [Handle.on_pos, Handle.seek_pos, List.append_assoc, ← ptr] at small ⊢
    exact ⟨_, (off_ ▸ both.1).append both.2 ok (by rw [← slot]) ptr (by rw [← slot]) small⟩
  rintro _ h₃ s₃ ⟨ripe, db₃⟩
  refine (does_unlock Ripe.stable (stable' n) ripe fun s ripe => ?_).mono ?_
  · have guar := Guar.drop (i := i) ripe.inv fun b _ => notHead b
    exact ⟨_, guar, ripe.setLock guar.inv (notHead _)⟩
  · rintro _ h₄ s₄ ⟨ripe, rfl⟩
    exact ⟨n, t, ripe, by rw [db₃]; rfl, by rw [db₃]; rfl⟩

end

end UnixProgramming.Db
