import UnixProgramming.Db.Search

/-!
# Deleting

A record that is deleted is overwritten with blanks, put on the free list and
passed over on its chain, in this order. Its chain is locked all the time.

* `Busy`, `Writing`, `Settled`: a process with a write lock on the chain of a key;
* `does_dodelete`: a record is taken off its chain;
* `does_delete`: a deletion.
-/

namespace UnixProgramming.Db

open Calls (Prog Pool)
open Heap (Chain pread pwrite)
open Heap.Layout (flat find put)
open Ssl (Byte)

variable {ι β : Type} {i j : ι} {s s' : State ι β} {o o' v : Nat} {t t' : Slot} {b : Bucket}
  {xs as bs fs : List Nat} {c : Client β} {key : Key} {data : Data} {was now : Option Data}
  {m : Table} {w w' : Owner ι} {g : Ghost ι β}

/-! ## A chain locked for writing -/

/-- A process with a write lock on the chain of a key. `was` is what the table
has for the key. -/
structure Busy (i : ι) (c : Client β) (key : Key) (was : Option Data) (xs : List Nat)
    (s : State ι β) : Prop where
  inv : Inv s
  prog : s.2.pool.prog i = c
  torn : ∀ b, s.2.torn b = some i → b = bucket key.text
  lock : s.1.locks i .idx (headOff (bucket key.text)) = some true
  chain : s.2.chain (bucket key.text) = xs
  value : s.map key = was

/-- Its chain is whole, with `now` for the key. -/
structure Writing (i : ι) (c : Client β) (key : Key) (was now : Option Data) (xs : List Nat)
    (s : State ι β) : Prop extends Busy i c key was xs s where
  links : Links (bucket key.text) xs s
  entries : Entries (bucket key.text) xs (Function.update s.map key now) s

/-- It has no record or data of its own. -/
structure Settled (i : ι) (c : Client β) (key : Key) (was now : Option Data) (xs : List Nat)
    (s : State ι β) : Prop extends Writing i c key was now xs s where
  room : s.2.room i = none
  own : ∀ o, s.2.own o ≠ some (.proc i)

theorem update_map {m m' : Table} (same : ∀ key : Key, bucket key.text = b → m' key = m key)
    (key' : Key) (hash : bucket key'.text = b) :
    Function.update m' key now key' = Function.update m key now key' := by
  simp only [Function.update_apply]
  split
  · rfl
  · exact same key' hash

theorem Busy.holds (busy : Busy i c key was xs s) : Holds i s.1 (.bucket (bucket key.text)) :=
  holds_bucket busy.lock

theorem Busy.reads (busy : Busy i c key was xs s) : Reads i s.1 (.bucket (bucket key.text)) :=
  busy.holds.reads

theorem Busy.rely (busy : Busy i c key was xs s) (others : Rely' i s s') :
    Busy i c key was xs s' := by
  obtain ⟨-, chain, -, map⟩ := others.same (.bucket (bucket key.text)) busy.reads
  exact
    { inv := others.inv
      prog := others.prog.trans busy.prog
      torn := fun b torn => busy.torn b (others.torn b torn)
      lock := by rw [others.locks, busy.lock]
      chain := chain.trans busy.chain
      value := (map key rfl).trans busy.value }

theorem Writing.rely (writing : Writing i c key was now xs s) (others : Rely' i s s') :
    Writing i c key was now xs s' :=
  { writing.toBusy.rely others with
    links := others.links writing.reads
      (fun o ho => ⟨_, (writing.entries.owns o).2 ho, writing.reads⟩) writing.links
    entries := others.entries writing.reads writing.entries
      (update_map (others.same (.bucket _) writing.reads).2.2.2) }

theorem Settled.rely (settled : Settled i c key was now xs s) (others : Rely' i s s') :
    Settled i c key was now xs s' :=
  { settled.toWriting.rely others with
    room := Eq.trans (others.same (.room i) rfl) settled.room
    own := fun o own => settled.own o (others.own o _ own rfl) }

theorem Settled.stable : Stable i (Settled (β := β) i c key was now xs) :=
  ⟨fun _ settled => settled.inv, fun _ _ => Settled.rely⟩

/-- The table for the chain as it is now. -/
theorem Settled.ready {n : Nat} {req : Req} {k : Reply req → Client β} {r : Reply req}
    (settled : Settled i (.call (n, req) k) key was now xs s)
    (answer : req.answer s.map = (r, Function.update s.map key now)) :
    Ready i n req k (bucket key.text) true xs r (Function.update s.map key now) s :=
  { settled with
    links := settled.links
    entries := settled.entries
    answer
    outside := fun key' other => Function.update_of_ne (by rintro rfl; exact other rfl) _ _
    reader := by simp }

/-- Before anything has been changed. -/
theorem On.settled (on : On i c (bucket key.text) true xs s) (value : s.map key = was) :
    Settled i c key was was xs s :=
  { on with
    torn := fun b torn => absurd torn (on.torn b)
    value
    links := on.links
    entries := by
      rw [← value, Function.update_eq_self]
      exact on.entries }

/-! ## The records of a chain, with one less -/

theorem give_own : (g.give o w).own o' = some w' ↔
    o' = o ∧ w = w' ∨ o' ≠ o ∧ g.own o' = some w' := by
  rw [Ghost.give_own, Function.update_apply]
  split <;> simp_all

theorem give_isSome (some' : (g.own o).isSome) :
    ((g.give o w).own o').isSome ↔ (g.own o').isSome := by
  rw [Ghost.give_own, Function.update_apply]
  split
  · rename_i self
    simp [self, some']
  · rfl

theorem Entries.erase (entries : Entries b (as ++ o :: bs) m s) (distinct : (as ++ o :: bs).Nodup)
    (here : s.at' o = some (.slot t)) (same : t.key = key.text)
    (slots : ∀ o', o' ≠ o → s'.at' o' = s.at' o' ∧
      ∀ t, s.at' o' = some (.slot t) → s'.data t = s.data t)
    (own : ∀ o', s'.2.own o' = some (.bucket b) ↔ o' ≠ o ∧ s.2.own o' = some (.bucket b)) :
    Entries b (as ++ bs) (Function.update m key none) s' := by
  have mem (o' : Nat) : o' ∈ as ++ bs ↔ o' ≠ o ∧ o' ∈ as ++ o :: bs := by
    have fresh := (List.nodup_middle.1 distinct).notMem
    constructor
    · intro there
      refine ⟨fun e => fresh (e ▸ there), ?_⟩
      simp only [List.mem_append, List.mem_cons] at there ⊢
      tauto
    · rintro ⟨other, there⟩
      simp only [List.mem_append, List.mem_cons] at there ⊢
      tauto
  have kept {o' : Nat} {key' : Key} {data' : Data} {t' : Slot} (other : o' ≠ o)
      (holds : Holds' o' key' data' s t') : Holds' o' key' data' s' t' :=
    holds.frame (slots o' other).1 (slots o' other).2
  refine ⟨fun o' => ?_, ?_, ?_, ?_⟩
  · rw [own, mem, entries.owns]
  · intro o' ho'
    obtain ⟨other, there⟩ := (mem o').1 ho'
    obtain ⟨t', key', data', holds, hash, value⟩ := entries.holds o' there
    refine ⟨t', key', data', kept other holds, hash, ?_⟩
    rw [Function.update_of_ne, value]
    rintro rfl
    exact other (entries.only o' there o (by simp) t' t holds.here here (holds.key.trans same.symm))
  · intro o₁ h₁ o₂ h₂ t₁ t₂ here₁ here₂ equal
    obtain ⟨other₁, there₁⟩ := (mem o₁).1 h₁
    obtain ⟨other₂, there₂⟩ := (mem o₂).1 h₂
    rw [(slots o₁ other₁).1] at here₁
    rw [(slots o₂ other₂).1] at here₂
    exact entries.only o₁ there₁ o₂ there₂ t₁ t₂ here₁ here₂ equal
  · intro key' data' hash value
    rw [Function.update_apply] at value
    split at value
    · cases value
    · rename_i notKey
      obtain ⟨o', ho', t', holds⟩ := entries.all key' data' hash value
      have other : o' ≠ o := by
        rintro rfl
        have equal := holds.here.symm.trans here
        simp only [Option.some.injEq, Item.slot.injEq] at equal
        subst equal
        exact notKey (Key.ext (holds.key.symm.trans same))
      exact ⟨o', (mem o').2 ⟨other, ho'⟩, t', kept other holds⟩

/-! ## The steps of a deletion -/

/-- The free list is locked for writing. -/
structure FreeLock (i : ι) (fs : List Nat) (s : State ι β) : Prop where
  freeLock : s.1.locks i .idx FREE_OFF = some true
  list : s.2.free = fs

theorem FreeLock.holds (free : FreeLock i fs s) : Holds i s.1 .free := holds_free free.freeLock

theorem FreeLock.rely (free : FreeLock i fs s) (others : Rely' i s s') : FreeLock i fs s' where
  freeLock := by rw [others.locks, free.freeLock]
  list := (others.same .free free.holds.reads).2.trans free.list

/-- A record has been taken off the chain, which still has to be mended. -/
structure Cut (i : ι) (c : Client β) (key : Key) (was : Option Data) (as : List Nat) (o : Nat)
    (bs fs : List Nat) (s : State ι β) : Prop
    extends Busy i c key was (as ++ bs) s, FreeLock i fs s where
  room : s.2.room i = none
  torn' : s.2.torn (bucket key.text) = some i
  distinct : (headOff (bucket key.text) :: (as ++ o :: bs)).Nodup
  links : ∃ next, Chain 0 next (headOff (bucket key.text)) (as ++ o :: bs) ∧
    ∀ y ∈ headOff (bucket key.text) :: (as ++ bs), cell s.2.img y = next y
  entries : Entries (bucket key.text) (as ++ bs) (Function.update s.map key none) s

/-- The record belongs to the process. -/
structure Taken (i : ι) (c : Client β) (key : Key) (was : Option Data) (as : List Nat) (o : Nat)
    (bs fs : List Nat) (t : Slot) (s : State ι β) : Prop extends Cut i c key was as o bs fs s where
  own : ∀ o', s.2.own o' = some (.proc i) ↔ o' = o
  here : s.at' o = some (.slot t)

/-- The record is on the free list. -/
structure Passed (i : ι) (c : Client β) (key : Key) (was : Option Data) (as : List Nat) (o : Nat)
    (bs fs : List Nat) (s : State ι β) : Prop extends Cut i c key was as o bs fs s where
  own : ∀ o, s.2.own o ≠ some (.proc i)

theorem Cut.rely (cut : Cut i c key was as o bs fs s) (others : Rely' i s s') :
    Cut i c key was as o bs fs s' := by
  obtain ⟨head, -, torn, map⟩ := others.same (.bucket (bucket key.text)) cut.reads
  refine { cut.toBusy.rely others, cut.toFreeLock.rely others with
    room := Eq.trans (others.same (.room i) rfl) cut.room
    torn' := torn.trans cut.torn'
    distinct := cut.distinct
    links := ?_
    entries := others.entries cut.reads cut.entries (update_map map) }
  obtain ⟨next, chain, same⟩ := cut.links
  refine ⟨next, chain, fun y hy => Eq.trans (cell_congr ?_) (same y hy)⟩
  rcases List.mem_cons.1 hy with rfl | hy
  · exact head
  · exact (others.slot ((cut.entries.owns y).2 hy) cut.reads).2.1

theorem Cut.fits (cut : Cut i c key was as o bs fs s) : bs.headD 0 ≤ 9999999 := by
  cases bs with
  | nil => exact Nat.zero_le _
  | cons y bs =>
    obtain ⟨t, there⟩ := cut.entries.slot (o := y) (by simp)
    exact cut.inv.fits there

theorem Taken.stable : Stable i (Taken (β := β) i c key was as o bs fs t) where
  inv _ taken := taken.inv
  rely s s' taken others := by
    obtain ⟨own, here, -⟩ := others.slot ((taken.own o).2 rfl) rfl
    exact
      { taken.toCut.rely others with
        own := fun o' => ⟨fun mine => (taken.own o').1 (others.own o' _ mine rfl),
          by rintro rfl; exact own⟩
        here := here.trans taken.here }

theorem Passed.stable : Stable i (Passed (β := β) i c key was as o bs fs) where
  inv _ passed := passed.inv
  rely _ _ passed others :=
    { passed.toCut.rely others with
      own := fun o own => passed.own o (others.own o _ own rfl) }

/-- The record at `o` is first on the free list. -/
def State.push (s : State ι β) (o : Nat) : State ι β :=
  (s.1.write .idx FREE_OFF (padded PTR_SZ o),
    ((s.2.put FREE_OFF (.head o)).give o .free).setFree (o :: s.2.free))

theorem push_own : (s.push o).2.own o' = some w ↔
    o' = o ∧ .free = w ∨ o' ≠ o ∧ s.2.own o' = some w := give_own

section
variable (laid : Laid s) (fits : o ≤ 9999999)
include laid fits

/-- What is written is as long as what has been there. -/
theorem push_long : ∃ p, s.at' FREE_OFF = some (.head p) ∧
    (Item.head o).enc.length = (Item.head p).enc.length := by
  obtain ⟨p, head⟩ := laid.heads 0 (Nat.zero_le _)
  exact ⟨p, head, enc_setPtr_length (laid.ok (.head p) (Heap.Layout.find_mem head)) fits⟩

theorem push_head : (s.push o).at' FREE_OFF = some (.head o) := by
  obtain ⟨p, head, -⟩ := push_long laid fits
  exact at_put head rfl

theorem push_other (other : o' ≠ FREE_OFF) : (s.push o).at' o' = s.at' o' := by
  obtain ⟨p, head, long⟩ := push_long laid fits
  exact at_put_other head long rfl other

end

/-- A record of a process with a blank key and the right link can be put there. -/
theorem Free.push (free : Free s) (laid : Laid s) (mine : s.2.own o = some (.proc i))
    (here : s.at' o = some (.slot t)) (ptr : t.ptr = s.2.free.headD 0)
    (blank : ∀ c ∈ t.key, c = SPACE) (fits : o ≤ 9999999) : Free (s.push o) := by
  have slot_ne {o' : Nat} {t' : Slot} (there : s.at' o' = some (.slot t')) : o' ≠ FREE_OFF := by
    rintro rfl
    exact absurd (laid.slot_pos there) (by decide)
  have fresh : o ∉ s.2.free := fun there => by
    rw [← free.owns, mine] at there
    cases there
  refine ⟨?_, List.nodup_cons.2 ⟨fresh, free.distinct⟩, fun o' => ?_, ?_⟩
  · refine free.chain.push (slot_ne here) (cell_eq (push_head laid fits)) ?_ fun y hy => ?_
    · rw [free.chain.head, ← ptr]
      exact cell_eq ((push_other laid fits (slot_ne here)).trans here)
    · obtain ⟨t', there, -⟩ := free.blank y hy
      exact cell_congr (push_other laid fits (slot_ne there))
  · rw [push_own, free.owns]
    refine Iff.trans ?_ List.mem_cons.symm
    constructor
    · rintro (⟨rfl, -⟩ | ⟨-, there⟩)
      · exact .inl rfl
      · exact .inr there
    · rintro (rfl | there)
      · exact .inl ⟨rfl, rfl⟩
      · exact .inr ⟨fun e => fresh (e ▸ there), there⟩
  · intro o' there
    rcases List.mem_cons.1 there with rfl | there
    · exact ⟨t, (push_other laid fits (slot_ne here)).trans here, blank⟩
    · obtain ⟨t', there, blank'⟩ := free.blank o' there
      exact ⟨t', (push_other laid fits (slot_ne there)).trans there, blank'⟩

/-- Where the link to the first of the later records of a list is. -/
theorem last_cases (as : List Nat) (o : Nat) : as.getLastD o = o ∨ as.getLastD o ∈ as :=
  List.mem_cons.1 (List.getLastD_mem_cons ..)

theorem last_link {h : Nat} (laid : Laid s) (head : ∃ p, s.at' h = some (.head p))
    (owns : ∀ o ∈ as, s.2.own o = some w) : ∃ it, s.at' (as.getLastD h) = some it ∧
      it ≠ .newline ∧ (as.getLastD h = h ∧ s.2.own (as.getLastD h) = none ∨
        s.2.own (as.getLastD h) = some w ∧ TAIL ≤ as.getLastD h) := by
  rcases last_cases as h with first | mem
  · obtain ⟨p, there⟩ := head
    rw [first]
    exact ⟨.head p, there, by simp, .inl ⟨rfl, laid.bare there⟩⟩
  · have mine := owns _ mem
    obtain ⟨t, there⟩ := (laid.owned _).1 (by rw [mine]; rfl)
    exact ⟨.slot t, there, by simp, .inr ⟨mine, laid.slot_pos there⟩⟩

/-- The records of a chain may get other links. -/
theorem Entries.relink (entries : Entries b xs m s)
    (own : ∀ o, s'.2.own o = some (.bucket b) ↔ s.2.own o = some (.bucket b))
    (slots : ∀ o ∈ xs, ∀ t, s.at' o = some (.slot t) → ∃ v,
      s'.at' o = some (.slot { t with ptr := v }))
    (dat : s'.1.files.content .dat = s.1.files.content .dat) : Entries b xs m s' := by
  have data_ (t : Slot) (v : Nat) : s'.data { t with ptr := v } = s.data t := by
    rw [State.data, State.data, dat]
  have key_ {o : Nat} (ho : o ∈ xs) {t' : Slot} (there : s'.at' o = some (.slot t')) :
      ∃ t, s.at' o = some (.slot t) ∧ t'.key = t.key := by
    obtain ⟨t, here⟩ := entries.slot ho
    obtain ⟨v, there'⟩ := slots o ho t here
    rw [there] at there'
    simp only [Option.some.injEq, Item.slot.injEq] at there'
    exact ⟨t, here, by rw [there']⟩
  have holds_ {o : Nat} (ho : o ∈ xs) {t : Slot} {key : Key} {data : Data}
      (holds : Holds' o key data s t) : ∃ t', Holds' o key data s' t' := by
    obtain ⟨v, there⟩ := slots o ho t holds.here
    exact ⟨_, there, holds.key, (data_ t v).trans holds.data⟩
  refine ⟨fun o => (own o).trans (entries.owns o), ?_, ?_, ?_⟩
  · intro o ho
    obtain ⟨t, key, data, holds, hash, value⟩ := entries.holds o ho
    obtain ⟨t', holds'⟩ := holds_ ho holds
    exact ⟨t', key, data, holds', hash, value⟩
  · intro o₁ h₁ o₂ h₂ t₁ t₂ there₁ there₂ equal
    obtain ⟨t₁', here₁, key₁⟩ := key_ h₁ there₁
    obtain ⟨t₂', here₂, key₂⟩ := key_ h₂ there₂
    exact entries.only o₁ h₁ o₂ h₂ t₁' t₂' here₁ here₂ (key₁.symm.trans (equal.trans key₂))
  · intro key data hash value
    obtain ⟨o, ho, t, holds⟩ := entries.all key data hash value
    exact ⟨o, ho, holds_ ho holds⟩

section
variable [DecidableEq ι]

/-- **The data are overwritten**, and the record is no longer on its chain. -/
theorem Has.blank {data' : List Byte} (has : Has i c true key data as o bs t s)
    (free : FreeLock i fs s) (tears : ∃ d k, c = .call d k ∧
      ∀ m : Table, m key = some data → d.2.Tears (bucket key.text) m)
    (len : data'.length = t.datlen) (small : (s.1.write .dat t.datoff data').Small) :
    Guar i s (s.1.write .dat t.datoff data',
      (s.2.setChain (bucket key.text) (as ++ bs) (some i)).give o (.proc i)) ∧
    Taken i c key (some data) as o bs fs t (s.1.write .dat t.datoff data',
      (s.2.setChain (bucket key.text) (as ++ bs) (some i)).give o (.proc i)) := by
  obtain ⟨d, k, rfl, tears⟩ := tears
  have mine : s.2.own o = some (.bucket (bucket key.text)) := (has.entries.owns o).2 (by simp)
  have holds : Holds i s.1 (.bucket (bucket key.text)) := holds_bucket has.lock
  have data_ (o' : Nat) (other : o' ≠ o) (t' : Slot) (there : s.at' o' = some (.slot t')) :
      State.data (s.1.write .dat t.datoff data',
        (s.2.setChain (bucket key.text) (as ++ bs) (some i)).give o (.proc i)) t' = s.data t' :=
    data_overwrite_other has.inv.laid has.here len other there
  have slot (o' : Nat) (other : o' ≠ o) : Same (.slot o') s (s.1.write .dat t.datoff data',
      (s.2.setChain (bucket key.text) (as ++ bs) (some i)).give o (.proc i)) := fun w own =>
    ⟨give_own.2 (.inr ⟨other, own⟩), rfl, fun t' there => data_ o' other t' there⟩
  have own {o' : Nat} {w : Owner ι} : ((s.2.setChain (bucket key.text) (as ++ bs) (some i)).give o
      (.proc i)).own o' = some w ↔ o' = o ∧ .proc i = w ∨ o' ≠ o ∧ s.2.own o' = some w := give_own
  have turn : Turn i s ((s.2.setChain (bucket key.text) (as ++ bs) (some i)).give o (.proc i)) :=
    { Turn.refl i has.inv with
      bucket := fun b other => by
        have ne : b ≠ bucket key.text := by
          rintro rfl
          exact other holds
        exact ⟨Function.update_of_ne ne _ _, Function.update_of_ne ne _ _, fun _ _ => rfl⟩
      slot := fun o' w own' other => own.2 <| .inr ⟨by
        rintro rfl
        obtain rfl := Option.some.inj (own'.symm.trans mine)
        exact other holds, own'⟩
      own := fun o' w own' => by
        rcases own.1 own' with ⟨-, rfl⟩ | ⟨-, own'⟩
        · exact .inr rfl
        · exact .inl own'
      torn := fun b j torn => by
        rw [Ghost.give_torn, Ghost.setChain_torn, Function.update_apply] at torn
        split at torn
        · exact .inr (Option.some.inj torn).symm
        · exact .inl torn
      doing := fun b torn => by
        rw [Ghost.give_torn, Ghost.setChain_torn, Function.update_apply] at torn
        split at torn
        · rename_i self
          exact ⟨d, k, has.prog, self ▸ tears _ has.value⟩
        · exact absurd torn (has.torn b) }
  have guar : Guar i s (s.1.write .dat t.datoff data',
      (s.2.setChain (bucket key.text) (as ++ bs) (some i)).give o (.proc i)) := by
    refine Guar.overwrite has.inv has.here len (fun w own => ?_) turn rfl
      (fun o' => give_isSome (by rw [Ghost.setChain_own, mine]; rfl)) rfl small (fun _ => ?_) ?_
    · obtain rfl := Option.some.inj (own.symm.trans mine)
      exact holds
    · refine has.inv.free_frame ⟨rfl, rfl⟩ (fun o' free => slot o' ?_) fun o' free => ?_
      · rintro rfl
        rw [mine] at free
        cases free
      · exact ((own.1 free).resolve_left (by simp)).2
    · intro b _ whole
      rw [Ghost.give_torn, Ghost.setChain_torn, Function.update_apply] at whole
      split at whole
      · cases whole
      · rename_i ne
        have same : Same (.bucket b) s (s.1.write .dat t.datoff data',
            (s.2.setChain (bucket key.text) (as ++ bs) (some i)).give o (.proc i)) :=
          ⟨rfl, Function.update_of_ne ne _ _, Function.update_of_ne ne _ _, fun _ _ => rfl⟩
        refine has.inv.chain_frame whole same (fun o' theirs => slot o' ?_) fun o' theirs => ?_
        · rintro rfl
          rw [mine] at theirs
          exact ne (by simpa using theirs.symm)
        · exact ((own.1 theirs).resolve_left (by simp)).2
  have slots : ∀ o' ∈ as ++ o :: bs, TAIL ≤ o' := fun o' ho' => by
    obtain ⟨t', there⟩ := has.entries.slot ho'
    exact has.inv.laid.slot_pos there
  refine ⟨guar, { free, has with
    inv := guar.inv
    prog := has.prog
    lock := has.lock
    value := has.value
    freeLock := free.freeLock
    list := free.list
    room := has.room
    here := has.here
    chain := Function.update_self ..
    torn' := Function.update_self ..
    torn := fun b torn => ?_
    distinct := List.nodup_cons.2 ⟨fun there => ?_, has.links.distinct⟩
    links := ⟨_, has.links.chain, fun y _ => rfl⟩
    entries := ?_
    own := fun o' => ?_ }⟩
  · rw [Ghost.give_torn, Ghost.setChain_torn, Function.update_apply] at torn
    split at torn
    · assumption
    · exact absurd torn (has.torn b)
  · exact absurd (slots _ there) (by have := headOff_lt (bucket key.text); omega)
  · refine has.entries.erase has.links.distinct has.here has.same
      (fun o' other => ⟨rfl, fun t' there => data_ o' other t' there⟩) fun o' => ?_
    exact own.trans (by simp)
  · rw [own]
    constructor
    · rintro (⟨rfl, -⟩ | ⟨-, own'⟩)
      · rfl
      · exact absurd own' (has.own o')
    · rintro rfl
      exact .inl ⟨rfl, rfl⟩

/-- The record gets a blank key and the link of the free list. -/
theorem Taken.rewrite (taken : Taken i c key was as o bs fs t s) (ok : t'.Ok)
    (alike : t'.datoff = t.datoff ∧ t'.datlen = t.datlen) (same : t'.text.length = t.text.length)
    (small : (s.1.write .idx o (Item.slot t').enc).Small) :
    Guar i s (s.1.write .idx o (Item.slot t').enc, s.2.put o (.slot t')) ∧
    Taken i c key was as o bs fs t' (s.1.write .idx o (Item.slot t').enc, s.2.put o (.slot t')) := by
  have guar := Guar.rewrite_own taken.inv ((taken.own o).2 rfl) taken.here ok alike same small
  have long : (Item.slot t').enc.length = (Item.slot t).enc.length := by
    rw [enc_slot_length (taken.inv.laid.ok _ (Heap.Layout.find_mem taken.here)),
      enc_slot_length ok, same]
  have fresh (y : Nat) (hy : y ∈ headOff (bucket key.text) :: (as ++ bs)) : y ≠ o := by
    have distinct := taken.distinct
    rw [← List.cons_append, List.nodup_middle, List.nodup_cons] at distinct
    rintro rfl
    exact distinct.1 hy
  refine ⟨guar, { taken with
    inv := guar.inv
    prog := taken.prog
    torn := taken.torn
    lock := taken.lock
    chain := taken.chain
    value := taken.value
    freeLock := taken.freeLock
    list := taken.list
    room := taken.room
    torn' := taken.torn'
    own := taken.own
    here := at_put taken.here rfl
    links := ?_
    entries := ?_ }⟩
  · obtain ⟨next, chain, same⟩ := taken.links
    refine ⟨next, chain, fun y hy => Eq.trans (cell_congr ?_) (same y hy)⟩
    exact at_put_other taken.here long rfl (fresh y hy)
  · exact taken.entries.frame (fun o' ho' => put_slot taken.here long rfl rfl
      (fresh o' (List.mem_cons_of_mem _ ho')) fun _ own => own) (fun _ own => own) fun _ _ => rfl

theorem Guar.push (inv : Inv s) (holds : Holds i s.1 .free) (mine : s.2.own o = some (.proc i))
    (here : s.at' o = some (.slot t)) (ptr : t.ptr = s.2.free.headD 0)
    (blank : ∀ c ∈ t.key, c = SPACE) (small : (s.push o).1.Small) : Guar i s (s.push o) := by
  have fits := inv.fits here
  obtain ⟨p, head, long⟩ := push_long inv.laid fits
  have turn : Turn i s (s.push o).2 :=
    { Turn.refl i inv with
      free := fun other => absurd holds other
      slot := fun o' w theirs other => push_own.2 <| .inr ⟨by
        rintro rfl
        obtain rfl := Option.some.inj (theirs.symm.trans mine)
        exact other rfl, theirs⟩
      own := fun o' w theirs => by
        rcases push_own.1 theirs with ⟨-, rfl⟩ | ⟨-, theirs⟩
        · exact .inr holds
        · exact .inl theirs }
  refine Guar.relink inv head (by simp) fits rfl small
    { turn
      owned := fun o' => give_isSome (by rw [Ghost.put_own, mine]; rfl)
      room := rfl
      head := fun b e => absurd e.symm (headOff_ne_free b)
      freeHead := fun _ => holds
      slot := fun w theirs => by
        rw [inv.laid.bare head] at theirs
        cases theirs
      free := fun _ => inv.free.push inv.laid mine here ptr blank fits
      chains := fun b _ whole => ?_ }
  refine put_chain (w := (s.push o).1) (g := (s.push o).2) inv head long rfl rfl
    (headOff_ne_free b).symm (by simp [inv.laid.bare head]) (fun o' => push_own.trans ?_) rfl whole
    whole fun _ _ => rfl
  constructor
  · rintro (⟨-, e⟩ | ⟨-, theirs⟩)
    · cases e
    · exact theirs
  · refine fun theirs => .inr ⟨?_, theirs⟩
    rintro rfl
    rw [mine] at theirs
    cases theirs

/-- The record is put on the free list. -/
theorem Taken.pass (taken : Taken i c key was as o bs fs t s) (ptr : t.ptr = fs.headD 0)
    (blank : ∀ c ∈ t.key, c = SPACE) (small : (s.push o).1.Small) :
    Guar i s (s.push o) ∧ Passed i c key was as o bs (o :: fs) (s.push o) := by
  have mine := (taken.own o).2 rfl
  have fits := taken.inv.fits taken.here
  have guar := Guar.push taken.inv taken.toFreeLock.holds mine taken.here
    (by rw [taken.list, ptr]) blank small
  have fresh (y : Nat) (hy : y ∈ as ++ bs) : y ≠ o ∧ y ≠ FREE_OFF := by
    obtain ⟨t', there⟩ := taken.entries.slot hy
    refine ⟨?_, ?_⟩
    · rintro rfl
      exact absurd ((taken.entries.owns y).2 hy) (by simp [mine])
    · rintro rfl
      exact absurd (taken.inv.laid.slot_pos there) (by decide)
  refine ⟨guar, { taken with
    inv := guar.inv
    prog := taken.prog
    torn := taken.torn
    lock := taken.lock
    chain := taken.chain
    value := taken.value
    freeLock := taken.freeLock
    list := congrArg (o :: ·) taken.list
    room := taken.room
    torn' := taken.torn'
    own := fun o' theirs => ?_
    links := ?_
    entries := ?_ }⟩
  · obtain ⟨next, chain, same⟩ := taken.links
    refine ⟨next, chain, fun y hy => Eq.trans (cell_congr ?_) (same y hy)⟩
    rcases List.mem_cons.1 hy with rfl | hy
    · exact push_other taken.inv.laid fits (headOff_ne_free _)
    · exact push_other taken.inv.laid fits (fresh y hy).2
  · refine taken.entries.frame (fun o' ho' w theirs => ?_) (fun o' theirs => ?_) fun _ _ => rfl
    · exact ⟨push_own.2 (.inr ⟨(fresh o' ho').1, theirs⟩),
        push_other taken.inv.laid fits (fresh o' ho').2, fun _ _ => rfl⟩
    · exact ((push_own.1 theirs).resolve_left (by simp)).2
  · rcases push_own.1 theirs with ⟨-, e⟩ | ⟨other, theirs⟩
    · cases e
    · exact other ((taken.own o').1 theirs)

/-- **The chain is mended.** The link at `l` led to the record. -/
theorem Passed.mend {l : Nat} (passed : Passed i c key was as o bs fs s)
    (last : as.getLastD (headOff (bucket key.text)) = l)
    (small : (s.1.write .idx l (padded PTR_SZ (bs.headD 0 : Nat))).Small) :
    ∃ g, Guar i s (s.1.write .idx l (padded PTR_SZ (bs.headD 0 : Nat)), g) ∧
      Settled i c key was none (as ++ bs) (s.1.write .idx l (padded PTR_SZ (bs.headD 0 : Nat)), g) ∧
      FreeLock i fs (s.1.write .idx l (padded PTR_SZ (bs.headD 0 : Nat)), g) := by
  have laid := passed.inv.laid
  have fits := passed.toCut.fits
  obtain ⟨it, there, some', place⟩ := last_link laid (find_headOff laid _)
    fun y hy => (passed.entries.owns y).2 (List.mem_append_left bs hy)
  rw [last] at there place
  have long := enc_setPtr_length (laid.ok _ (Heap.Layout.find_mem there)) fits
  have notFree : l ≠ FREE_OFF := by
    rintro rfl
    rcases place with ⟨e, -⟩ | ⟨-, behind⟩
    · exact headOff_ne_free _ e.symm
    · exact absurd behind (by decide)
  have guar : Guar i s (s.1.write .idx l (padded PTR_SZ (bs.headD 0 : Nat)),
      s.2.put l (it.setPtr (bs.headD 0))) := by
    have turn := Turn.refl i passed.inv
    refine Guar.relink passed.inv there some' fits rfl small
      { turn := { turn with }
        owned := fun o => Iff.rfl
        room := rfl
        head := fun b e => ?_
        freeHead := fun e => absurd e notFree
        slot := fun w theirs => ?_
        free := fun _ => put_free passed.inv there long rfl rfl notFree ?_ (fun _ => Iff.rfl) rfl
        chains := fun b _ whole => ?_ }
    · rcases place with ⟨e', -⟩ | ⟨-, behind⟩
      · rw [← headOff_inj (e'.symm.trans e)]
        exact passed.holds
      · exact absurd behind (by have := headOff_lt b; omega)
    · rcases place with ⟨-, bare⟩ | ⟨mine, -⟩
      · rw [bare] at theirs
        cases theirs
      · obtain rfl := Option.some.inj (theirs.symm.trans mine)
        exact passed.holds
    · rcases place with ⟨-, bare⟩ | ⟨mine, -⟩ <;> simp_all
    · have other : b ≠ bucket key.text := by
        rintro rfl
        exact absurd (passed.torn'.symm.trans whole) (by simp)
      refine put_chain (w := s.1.write .idx l _) (g := s.2.put l (it.setPtr (bs.headD 0)))
        passed.inv there long rfl rfl ?_ ?_ (fun _ => Iff.rfl) rfl whole whole fun _ _ => rfl
      · rintro rfl
        rcases place with ⟨e, -⟩ | ⟨-, behind⟩
        · exact other (headOff_inj e)
        · exact absurd behind (by have := headOff_lt b; omega)
      · rcases place with ⟨-, bare⟩ | ⟨mine, -⟩
        · simp [bare]
        · simpa [mine] using other.symm
  refine ⟨_, guar, { passed with
    inv := guar.inv
    prog := passed.prog
    torn := passed.torn
    lock := passed.lock
    chain := passed.chain
    value := passed.value
    room := passed.room
    own := passed.own
    links := ?_
    entries := ?_ }, passed.freeLock, passed.list⟩
  · obtain ⟨next, chain, same⟩ := passed.links
    refine ⟨chain.skip passed.distinct ?_ fun y hy other => ?_, ?_⟩
    · rw [last, cell_eq (at_put there rfl), setPtr_ptr some', chain.at_last.2.head]
    · rw [last] at other
      rw [← same y hy]
      exact cell_congr (at_put_other there long rfl other)
    · exact (List.nodup_middle.1 passed.distinct.of_cons).of_cons
  · refine passed.entries.relink (fun _ => Iff.rfl) (fun y hy t here => ?_) rfl
    by_cases self : y = l
    · subst self
      rw [here] at there
      cases there
      exact ⟨_, at_put here rfl⟩
    · exact ⟨t.ptr, (at_put_other there long rfl self).trans here⟩

/-! ## Deleting -/

/-- A record with a blank key. -/
def Slot.blank (t : Slot) (p : Nat) : Slot :=
  { t with ptr := p, key := List.replicate t.key.length SPACE }

theorem Slot.blank_text (t : Slot) (p : Nat) : (t.blank p).text.length = t.text.length := by
  simp [text, blank, entry_length]

theorem Slot.Ok.blank (ok : t.Ok) {p : Nat} (fits : p ≤ 9999999) : (t.blank p).Ok where
  ptr := fits
  clean there := absurd (List.eq_of_mem_replicate there) (by decide)
  noNul there := absurd (List.eq_of_mem_replicate there) (by decide)
  off := ok.off
  some' := ok.some'
  len := ok.len
  long := by rw [t.blank_text]; exact ok.long
  short := by rw [t.blank_text]; exact ok.short

section
variable {f : File} {off len : Nat} {mode : Option Bool}

theorem Writing.setLock (writing : Writing i c key was now xs s)
    (inv : Inv (s.1.setLock i f off len mode, s.2))
    (other : ¬ (f = .idx ∧ covers off len (headOff (bucket key.text)))) :
    Writing i c key was now xs (s.1.setLock i f off len mode, s.2) :=
  { writing with
    inv
    prog := writing.prog
    torn := writing.torn
    lock := (Locks.set_self _).trans ((if_neg fun e => other ⟨e.1.symm, e.2⟩).trans writing.lock)
    chain := writing.chain
    value := writing.value
    links := writing.links.frame rfl fun _ _ => rfl
    entries := writing.entries.frame (fun _ _ _ own => ⟨own, rfl, fun _ _ => rfl⟩)
      (fun _ own => own) fun _ _ => rfl }

theorem Settled.setLock (settled : Settled i c key was now xs s)
    (inv : Inv (s.1.setLock i f off len mode, s.2))
    (other : ¬ (f = .idx ∧ covers off len (headOff (bucket key.text)))) :
    Settled i c key was now xs (s.1.setLock i f off len mode, s.2) :=
  { settled.toWriting.setLock inv other with
    room := settled.room
    own := settled.own }

end

omit [DecidableEq ι] in
theorem Settled.stable_free : Stable i fun s : State ι β =>
    Settled i c key was now xs s ∧ FreeLock i fs s :=
  Settled.stable.and fun _ _ => FreeLock.rely

theorem free_notHead (b : Bucket) : ¬ (File.idx = .idx ∧ covers FREE_OFF 1 (headOff b)) := by
  rw [covers_one]
  exact fun both => headOff_ne_free b both.2

/-- Giving the free list back. -/
theorem does_unlock_free {P : State ι β → Prop} {h : Handle} (stable : Stable i P) (hP : P s)
    (free : FreeLock i fs s) (keeps : ∀ s, P s → Inv (s.1.setLock i .idx FREE_OFF 1 none, s.2) →
      P (s.1.setLock i .idx FREE_OFF 1 none, s.2)) :
    Does i (un_lockByte FREE_OFF) (fun _ h' s' => P s' ∧ h' = h) h s :=
  Db.does_unlock (stable.and fun _ _ => FreeLock.rely) stable ⟨hP, free⟩ fun s both =>
    have guar := Guar.drop (stable.inv s both.1) fun b _ => free_notHead b
    ⟨_, guar, keeps s both.1 guar.inv⟩

/-- A record is taken off its chain. -/
theorem does_dodelete {h : Handle} (has : Has i c true key data as o bs t s)
    (at' : h.At (bucket key.text) as o t) (tears : ∃ d k, c = .call d k ∧
      ∀ m : Table, m key = some data → d.2.Tears (bucket key.text) m) :
    Does i dodelete (fun _ h' s' => Settled i c key (some data) none (as ++ bs) s' ∧
      h'.db.chainoff = h.db.chainoff) h s := by
  have ok : t.Ok := has.inv.laid.ok _ (Heap.Layout.find_mem has.here)
  have some' : t.datlen - 1 + 1 = t.datlen := Nat.sub_add_cancel ok.some'
  have stable : Stable i fun s : State ι β =>
      ∃ fs, Has i c true key data as o bs t s ∧ FreeLock i fs s :=
    Stable.exists fun _ => Has.stable.and fun _ _ => FreeLock.rely
  rw [dodelete, does_setDB, lockByte]
  refine (does_lock Has.stable stable has fun s has grant => ?_).then ?_
  · have guar := Guar.lock has.inv grant (.inl rfl)
    refine ⟨guar, s.2.free, { has with inv := guar.inv, lock := ?_ }, ?_, rfl⟩
    · rw [setLock_byte, if_neg fun e => headOff_ne_free _ e.2, has.lock]
    · rw [setLock_byte, if_pos ⟨rfl, rfl⟩]
  rintro _ h' s' ⟨⟨fs, has, free⟩, same⟩
  have datbuf : h'.db.datbuf = List.replicate (t.datlen - 1) SPACE := by
    rw [same, Handle.on_db, at'.datlen]
  have datoff : h'.db.datoff = t.datoff := by rw [same, Handle.on_db, at'.datoff]
  rw [does_getDB, datbuf, datoff]
  refine (does_writedat (P := fun s => Has i c true key data as o bs t s ∧ FreeLock i fs s)
    (Has.stable.and fun _ _ => FreeLock.rely) Taken.stable ⟨has, free⟩
    fun s both small => ⟨_, both.1.blank both.2 tears (by simpa using some') small⟩).then ?_
  rintro _ h₁ s₁ ⟨taken, db₁⟩
  refine (does_readptr (o := FREE_OFF) (v := fs.headD 0) Taken.stable taken fun s taken => ?_).then ?_
  · rw [← taken.list]
    exact taken.inv.free.head_link taken.inv.laid
  rintro _ h₂ s₂ ⟨taken, rfl, db₂⟩
  have fits : fs.headD 0 ≤ 9999999 := by
    obtain ⟨it, there, -, ptr⟩ := taken.inv.free.head_link taken.inv.laid
    rw [← taken.list, ← ptr]
    exact (taken.inv.laid.ok it (Heap.Layout.find_mem there)).ptr_le
  have idxbuf : h₂.db.idxbuf = (t.blank (fs.headD 0)).key := by
    simp only [db₂, db₁, same, Handle.on_db, at'.idxbuf, Slot.blank]
  have idxoff : h₂.db.idxoff = o := by simp only [db₂, db₁, same, Handle.on_db, at'.idxoff]
  have saveptr : h₂.db.ptrval = (bs.headD 0 : Nat) := by
    simp only [db₂, db₁, same, Handle.on_db, at'.ptrval]
    exact congrArg Nat.cast (has.links.next_link has.here)
  have text : (t.blank (fs.headD 0)).text = entry (t.blank (fs.headD 0)).key h₂.db.datoff
      h₂.db.datlen := by
    rw [db₂, db₁, List.length_replicate, some']
    rfl
  rw [does_getDB, does_getDB, idxbuf, idxoff, saveptr]
  refine (does_writeidx (t := t.blank (fs.headD 0)) (ok.blank fits) text rfl Taken.stable
    Taken.stable taken fun s taken small => ⟨_, taken.rewrite (ok.blank fits) ⟨rfl, rfl⟩
      (t.blank_text _) small⟩).then ?_
  rintro _ h₃ s₃ ⟨taken, db₃⟩
  have idxoff : h₃.db.idxoff = o := by rw [db₃]
  have ptroff : h₃.db.ptroff = (as.getLastD (headOff (bucket key.text)) : Nat) := by
    simp only [db₃, db₂, db₁, same, Handle.on_db, at'.ptroff]
  rw [does_getDB, idxoff, ptroff]
  refine (does_writeptr (o := FREE_OFF) (taken.inv.fits taken.here) Taken.stable Passed.stable taken
    fun s taken small => ⟨_, taken.pass rfl ?_ small⟩).then ?_
  · exact fun c there => List.eq_of_mem_replicate there
  rintro _ h₄ s₄ ⟨passed, db₄⟩
  refine (does_writeptr passed.toCut.fits Passed.stable Settled.stable_free passed
    fun s passed small => passed.mend rfl small).then ?_
  rintro _ h₅ s₅ ⟨settled, db₅⟩
  refine (does_unlock_free Settled.stable settled.1 settled.2 fun s settled inv =>
    settled.setLock inv (free_notHead _)).mono fun _ h₆ s₆ done => ⟨done.1, ?_⟩
  simp only [done.2, db₅, db₄, db₃, db₂, db₁, same, Handle.on_db]

/-- **A deletion.** -/
theorem does_delete {turns n : Nat} {h : Handle} (many : 9999999 < turns)
    {k : Reply (.delete key) → Client β} (idle : Idle i (.call (n, .delete key) k) s) :
    Does i (db_delete turns key.text) (fun r _ s' => Idle i (k r) s') h s := by
  refine (does_find many idle h).then ?_
  rintro found h' s' (⟨rfl, as, o, bs, t, found, same, at'⟩ | ⟨rfl, off, xs, missing⟩)
  · obtain ⟨data, has⟩ := found.has same
    refine (does_dodelete has at' ⟨_, _, rfl, fun m value => ⟨rfl, by rw [value]; rfl⟩⟩).then ?_
    rintro _ h'' s'' ⟨settled, off⟩
    refine does_setDB.2 (does_getDB.2
      (does_release (n := n) (k := k) Settled.stable settled fun s settled => ?_))
    refine ⟨_, _, _, _, off.trans at'.chainoff, settled.ready ?_⟩
    rw [Req.answer, settled.value]
    rfl
  · refine does_setDB.2 (does_getDB.2
      (does_release (n := n) (k := k) Missing.stable missing fun s missing => ?_))
    refine ⟨_, _, _, _, off, missing.ready ?_⟩
    rw [Req.answer, missing.missing]
    rfl

end

end UnixProgramming.Db
