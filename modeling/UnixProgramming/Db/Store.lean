import UnixProgramming.Db.Insert

/-!
# The end of a store

What others see of a store is one write: the link of the chain to the record,
or the data where those before were as long. With it the call is done.

* `Ripe.link`, `Has.replace`: the write that does the call;
* `does_append`, `does_reuse`: a record for the data on its chain;
* `does_store`: a store.
-/

namespace UnixProgramming.Db

open Calls (Prog Pool)
open Heap (Chain pread pwrite)
open Heap.Layout (flat find put)
open Ssl (Byte)

variable {ι β : Type} {i j : ι} {s s' : State ι β} {o o' v n : Nat} {t t' : Slot} {b : Bucket}
  {xs as bs fs : List Nat} {c client : Client β} {key : Key} {data old : Data}
  {was now : Option Data} {m : Table} {w w' : Owner ι} {h : Handle}

/-! ## One more record -/

theorem Entries.insert (entries : Entries b xs m s) (hash : bucket key.text = b)
    (fresh : m key = none) (holds : Holds' o key data s' t) (notHere : o ∉ xs)
    (slots : ∀ o' ∈ xs, s'.at' o' = s.at' o' ∧
      ∀ t, s.at' o' = some (.slot t) → s'.data t = s.data t)
    (own : ∀ o', s'.2.own o' = some (.bucket b) ↔ o' = o ∨ s.2.own o' = some (.bucket b)) :
    Entries b (o :: xs) (Function.update m key (some data)) s' := by
  have kept {o' : Nat} {key' : Key} {data' : Data} {t' : Slot} (mem : o' ∈ xs)
      (holds : Holds' o' key' data' s t') : Holds' o' key' data' s' t' :=
    holds.frame (slots o' mem).1 (slots o' mem).2
  have other {o' : Nat} (mem : o' ∈ xs) {t' : Slot} (there : s'.at' o' = some (.slot t')) :
      t'.key ≠ key.text := by
    obtain ⟨t₁, key₁, data₁, holds₁, -, value₁⟩ := entries.holds o' mem
    have same := there.symm.trans (kept mem holds₁).here
    simp only [Option.some.injEq, Item.slot.injEq] at same
    rintro e
    have : key₁ = key := Key.ext (holds₁.key.symm.trans (same ▸ e))
    rw [this, fresh] at value₁
    cases value₁
  refine ⟨fun o' => ?_, fun o' mem => ?_, ?_, fun key' data' hash' value => ?_⟩
  · rw [own, entries.owns, List.mem_cons]
  · rcases List.mem_cons.1 mem with rfl | mem
    · exact ⟨t, key, data, holds, hash, Function.update_self ..⟩
    · obtain ⟨t', key', data', holds', hash', value⟩ := entries.holds o' mem
      refine ⟨t', key', data', kept mem holds', hash', ?_⟩
      rw [Function.update_of_ne, value]
      rintro rfl
      rw [fresh] at value
      cases value
  · intro o₁ h₁ o₂ h₂ t₁ t₂ there₁ there₂ equal
    have mine {t' : Slot} (there : s'.at' o = some (.slot t')) : t'.key = key.text := by
      have same := there.symm.trans holds.here
      simp only [Option.some.injEq, Item.slot.injEq] at same
      rw [same, holds.key]
    rcases List.mem_cons.1 h₁ with rfl | mem₁ <;> rcases List.mem_cons.1 h₂ with rfl | mem₂
    · rfl
    · exact absurd (equal.symm.trans (mine there₁)) (other mem₂ there₂)
    · exact absurd (equal.trans (mine there₂)) (other mem₁ there₁)
    · rw [(slots o₁ mem₁).1] at there₁
      rw [(slots o₂ mem₂).1] at there₂
      exact entries.only o₁ mem₁ o₂ mem₂ t₁ t₂ there₁ there₂ equal
  · rw [Function.update_apply] at value
    split at value
    · rename_i self
      cases value
      exact ⟨o, List.mem_cons_self .., t, self ▸ holds⟩
    · obtain ⟨o', mem, t', holds'⟩ := entries.all key' data' hash' value
      exact ⟨o', List.mem_cons_of_mem _ mem, t', kept mem holds'⟩

/-- Other data in the place of those of a record. -/
theorem Entries.replace (entries : Entries b xs m s) (hash : bucket key.text = b) (mem : o ∈ xs)
    (here : s.at' o = some (.slot t)) (same : t.key = key.text)
    (data_ : s'.data t = data.text ++ [NEWLINE]) (at_ : ∀ o', s'.at' o' = s.at' o')
    (others : ∀ o', o' ≠ o → ∀ t, s.at' o' = some (.slot t) → s'.data t = s.data t)
    (own : s'.2.own = s.2.own) : Entries b xs (Function.update m key (some data)) s' := by
  have kept {o' : Nat} {key' : Key} {data' : Data} {t' : Slot} (other : o' ≠ o)
      (holds : Holds' o' key' data' s t') : Holds' o' key' data' s' t' :=
    holds.frame (at_ o') (others o' other)
  have mine : Holds' o key data s' t := ⟨(at_ o).trans here, same, data_⟩
  refine ⟨fun o' => by rw [own]; exact entries.owns o', fun o' mem' => ?_, ?_,
    fun key' data' hash' value => ?_⟩
  · by_cases self : o' = o
    · subst self
      exact ⟨t, key, data, mine, hash, Function.update_self ..⟩
    · obtain ⟨t', key', data', holds', hash', value⟩ := entries.holds o' mem'
      refine ⟨t', key', data', kept self holds', hash', ?_⟩
      rw [Function.update_of_ne, value]
      rintro rfl
      exact self (entries.only o' mem' o mem t' t holds'.here here (holds'.key.trans same.symm))
  · intro o₁ h₁ o₂ h₂ t₁ t₂ there₁ there₂ equal
    rw [at_] at there₁ there₂
    exact entries.only o₁ h₁ o₂ h₂ t₁ t₂ there₁ there₂ equal
  · rw [Function.update_apply] at value
    split at value
    · rename_i self
      cases value
      exact ⟨o, mem, t, self ▸ mine⟩
    · rename_i notKey
      obtain ⟨o', mem', t', holds'⟩ := entries.all key' data' hash' value
      refine ⟨o', mem', t', kept ?_ holds'⟩
      rintro rfl
      have equal := holds'.here.symm.trans here
      simp only [Option.some.injEq, Item.slot.injEq] at equal
      subst equal
      exact notKey (Key.ext (holds'.key.symm.trans same))

/-! ## The write that does the call -/

/-- The record at `o` is first on the chain, and the call is done. -/
def State.link [DecidableEq ι] (s : State ι β) (i : ι) (b : Bucket) (o : Nat) (xs : List Nat)
    (m : Table) (client : Client β) : State ι β :=
  (s.1.write .idx (headOff b) (padded PTR_SZ o),
    (((s.2.put (headOff b) (.head o)).give o (.bucket b)).setChain b (o :: xs) none).commit i m
      client)

theorem Held.ne_head (held : Held i c key was xs o t s) (b : Bucket) : o ≠ headOff b := by
  have := held.inv.laid.slot_pos held.here
  have := headOff_lt b
  omega

theorem Writing.slot_ne (writing : Writing i c key was now xs s) (mem : o ∈ xs) (b : Bucket) :
    o ≠ headOff b := by
  obtain ⟨t, there⟩ := writing.entries.slot mem
  have := writing.inv.laid.slot_pos there
  have := headOff_lt b
  omega

theorem Writing.fits (writing : Writing i c key was now xs s) : xs.headD 0 ≤ 9999999 := by
  cases xs with
  | nil => exact Nat.zero_le _
  | cons x xs =>
    obtain ⟨t, there⟩ := writing.entries.slot (o := x) (by simp)
    exact writing.inv.fits there

theorem Held.notHere (held : Held i c key was xs o t s) : o ∉ xs := fun there => by
  rw [← held.entries.owns, (held.own o).2 rfl] at there
  cases there

section
variable [DecidableEq ι]

theorem link_own : (s.link i b o xs m client).2.own o' = some w ↔
    o' = o ∧ .bucket b = w ∨ o' ≠ o ∧ s.2.own o' = some w := give_own

section
variable (laid : Laid s) (fits : o ≤ 9999999)
include laid fits

omit [DecidableEq ι] in
theorem link_long (b : Bucket) : ∃ p, s.at' (headOff b) = some (.head p) ∧
    (Item.head o).enc.length = (Item.head p).enc.length := by
  obtain ⟨p, head⟩ := find_headOff laid b
  exact ⟨p, head, enc_setPtr_length (laid.ok (.head p) (Heap.Layout.find_mem head)) fits⟩

theorem link_head : (s.link i b o xs m client).at' (headOff b) = some (.head o) := by
  obtain ⟨p, head, -⟩ := link_long laid fits b
  exact at_put head rfl

theorem link_other (other : o' ≠ headOff b) :
    (s.link i b o xs m client).at' o' = s.at' o' := by
  obtain ⟨p, head, long⟩ := link_long laid fits b
  exact at_put_other head long rfl other

end

theorem Ripe.links_link (ripe : Ripe i c key data was xs o t s) :
    Links (bucket key.text) (o :: xs) (s.link i (bucket key.text) o xs m client) := by
  have fits := ripe.inv.fits ripe.here
  have laid := ripe.inv.laid
  refine ⟨ripe.links.chain.push ?_ (cell_eq (link_head laid fits)) ?_ fun y hy => ?_,
    List.nodup_cons.2 ⟨ripe.notHere, ripe.links.distinct⟩⟩
  · rintro rfl
    exact absurd (laid.slot_pos ripe.here) (by decide)
  · rw [ripe.links.chain.head, ← ripe.ptr]
    exact cell_eq ((link_other laid fits (ripe.ne_head _)).trans ripe.here)
  · exact cell_congr (link_other laid fits (ripe.slot_ne hy _))

theorem Ripe.entries_link (ripe : Ripe i c key data was xs o t s) :
    Entries (bucket key.text) (o :: xs) (Function.update s.map key (some data))
      (s.link i (bucket key.text) o xs m client) := by
  have fits := ripe.inv.fits ripe.here
  have laid := ripe.inv.laid
  have holds : Holds' o key data (s.link i (bucket key.text) o xs m client) t :=
    ⟨(link_other laid fits (ripe.ne_head _)).trans ripe.here, ripe.same, ripe.data⟩
  have new := ripe.entries.insert rfl (Function.update_self ..) holds ripe.notHere
    (fun o' mem => ⟨link_other laid fits (ripe.slot_ne mem _), fun _ _ => rfl⟩) fun o' => ?_
  · rwa [Function.update_idem] at new
  · rw [link_own]
    constructor
    · rintro (⟨rfl, -⟩ | ⟨-, theirs⟩)
      · exact .inl rfl
      · exact .inr theirs
    · rintro (rfl | theirs)
      · exact .inl ⟨rfl, rfl⟩
      · refine .inr ⟨?_, theirs⟩
        rintro rfl
        rw [(ripe.own o').2 rfl] at theirs
        cases theirs

/-- **A new record is seen.** -/
theorem Ripe.link {d : Req.On} {k : Reply.On d → Client β} {r : Reply.On d}
    (ripe : Ripe i (.call d k) key data was xs o t s) (answer : ∀ m : Table, m key = was →
      d.2.answer m = (r, Function.update m key (some data)))
    (small : (s.1.write .idx (headOff (bucket key.text)) (padded PTR_SZ o)).Small) :
    Guar i s (s.link i (bucket key.text) o xs (Function.update s.map key (some data)) (k r)) ∧
      On i (k r) (bucket key.text) true (o :: xs)
        (s.link i (bucket key.text) o xs (Function.update s.map key (some data)) (k r)) := by
  have inv := ripe.inv
  have mine := (ripe.own o).2 rfl
  have fits := inv.fits ripe.here
  obtain ⟨p, head, long⟩ := link_long inv.laid fits (bucket key.text)
  have bare := inv.laid.bare head
  have step : Pool.Step (spec ι) i s.2.pool (s.link i (bucket key.text) o xs
      (Function.update s.map key (some data)) (k r)).2.pool :=
    .call ripe.prog (answer s.map ripe.value)
  have chain : (s.link i (bucket key.text) o xs (Function.update s.map key (some data))
      (k r)).2.chain (bucket key.text) = o :: xs := Function.update_self ..
  have whole_of {b : Bucket} {j : ι} (torn : (s.link i (bucket key.text) o xs
      (Function.update s.map key (some data)) (k r)).2.torn b = some j) :
      b ≠ bucket key.text ∧ s.2.torn b = some j := by
    replace torn : Function.update s.2.torn (bucket key.text) none b = some j := torn
    rw [Function.update_apply] at torn
    split at torn
    · cases torn
    · exact ⟨‹_›, torn⟩
  have turn : Turn i s (s.link i (bucket key.text) o xs (Function.update s.map key (some data))
      (k r)).2 :=
    { Turn.refl i inv with
      bucket := fun b other => by
        have ne : b ≠ bucket key.text := by
          rintro rfl
          exact other ripe.holds
        refine ⟨Function.update_of_ne ne _ _, Function.update_of_ne ne _ _, fun key' hash => ?_⟩
        exact Function.update_of_ne (by rintro rfl; exact ne hash.symm) _ _
      slot := fun o' w theirs other => link_own.2 <| .inr ⟨by
        rintro rfl
        obtain rfl := Option.some.inj (theirs.symm.trans mine)
        exact other rfl, theirs⟩
      own := fun o' w theirs => by
        rcases link_own.1 theirs with ⟨-, rfl⟩ | ⟨-, theirs⟩
        · exact .inr ripe.holds
        · exact .inl theirs
      torn := fun b j torn => .inl (whole_of torn).2
      doing := fun b torn => absurd (ripe.torn b (whole_of torn).2) (whole_of torn).1
      pool := .inr step }
  have guar : Guar i s (s.link i (bucket key.text) o xs (Function.update s.map key (some data))
      (k r)) := by
    refine Guar.relink inv head (by simp) fits rfl small
      { turn
        owned := fun o' => give_isSome (by rw [Ghost.put_own, mine]; rfl)
        room := rfl
        head := fun b e => headOff_inj e ▸ ripe.holds
        freeHead := fun e => absurd e (headOff_ne_free _)
        slot := fun w theirs => by
          rw [bare] at theirs
          cases theirs
        free := fun _ => put_free inv head long rfl rfl (headOff_ne_free _) (by simp [bare])
          (fun o' => link_own.trans ?_) rfl
        chains := fun b _ whole => ?_ }
    · constructor
      · rintro (⟨-, e⟩ | ⟨-, theirs⟩)
        · cases e
        · exact theirs
      · refine fun theirs => .inr ⟨?_, theirs⟩
        rintro rfl
        rw [mine] at theirs
        cases theirs
    · replace whole : Function.update s.2.torn (bucket key.text) none b = none := whole
      by_cases self : b = bucket key.text
      · subst self
        have links : Links (bucket key.text) ((s.link i (bucket key.text) o xs
            (Function.update s.map key (some data)) (k r)).2.chain (bucket key.text))
            (s.link i (bucket key.text) o xs (Function.update s.map key (some data)) (k r)) := by
          rw [chain]
          exact ripe.links_link
        have entries : Entries (bucket key.text) ((s.link i (bucket key.text) o xs
            (Function.update s.map key (some data)) (k r)).2.chain (bucket key.text))
            (Function.update s.map key (some data))
            (s.link i (bucket key.text) o xs (Function.update s.map key (some data)) (k r)) := by
          rw [chain]
          exact ripe.entries_link
        exact ⟨links, entries⟩
      · rw [Function.update_of_ne self] at whole
        refine put_chain (w := s.1.write .idx _ _) (g := (s.link i (bucket key.text) o xs
          (Function.update s.map key (some data)) (k r)).2) inv head long rfl rfl
          (fun e => self (headOff_inj e).symm) (by simp [bare]) (fun o' => link_own.trans ?_)
          (Function.update_of_ne self _ _) whole ((Function.update_of_ne self _ _).trans whole)
          fun key' hash => Function.update_of_ne (by rintro rfl; exact self hash.symm) _ _
        constructor
        · rintro (⟨-, e⟩ | ⟨-, theirs⟩)
          · exact absurd (by simpa using e.symm) self
          · exact theirs
        · refine fun theirs => .inr ⟨?_, theirs⟩
          rintro rfl
          rw [mine] at theirs
          cases theirs
  refine ⟨guar, { inv := guar.inv, prog := Function.update_self .., room := ripe.room
                  own := fun o' theirs => ?_, lock := ripe.lock, chain
                  torn := fun b torn => (whole_of torn).1 (ripe.torn b (whole_of torn).2) }⟩
  · rcases link_own.1 theirs with ⟨-, e⟩ | ⟨other, theirs⟩
    · cases e
    · exact other ((ripe.own o').1 theirs)

/-- **Other data are seen** in the place of those before, which were as long. -/
theorem Has.replace {d : Req.On} {k : Reply.On d → Client β} {r : Reply.On d}
    (has : Has i (.call d k) true key old as o bs t s) (len : data.text.length + 1 = t.datlen)
    (answer : ∀ m : Table, m key = some old →
      d.2.answer m = (r, Function.update m key (some data)))
    (small : (s.1.write .dat t.datoff (data.text ++ [NEWLINE])).Small) :
    Guar i s (s.1.write .dat t.datoff (data.text ++ [NEWLINE]),
      s.2.commit i (Function.update s.map key (some data)) (k r)) ∧
    On i (k r) (bucket key.text) true (as ++ o :: bs) (s.1.write .dat t.datoff
      (data.text ++ [NEWLINE]), s.2.commit i (Function.update s.map key (some data)) (k r)) := by
  have inv := has.inv
  have holds : Holds i s.1 (.bucket (bucket key.text)) := holds_bucket has.lock
  have mine : s.2.own o = some (.bucket (bucket key.text)) := (has.entries.owns o).2 (by simp)
  have long : (data.text ++ [NEWLINE]).length = t.datlen := by simp [len]
  have step : Pool.Step (spec ι) i s.2.pool
      (s.2.commit i (Function.update s.map key (some data)) (k r)).pool :=
    .call has.prog (answer s.map has.value)
  have others (o' : Nat) (other : o' ≠ o) (t' : Slot) (there : s.at' o' = some (.slot t')) :
      State.data (s.1.write .dat t.datoff (data.text ++ [NEWLINE]),
        s.2.commit i (Function.update s.map key (some data)) (k r)) t' = s.data t' :=
    data_overwrite_other inv.laid has.here long other there
  have slot (o' : Nat) (other : o' ≠ o) : Same (.slot o') s
      (s.1.write .dat t.datoff (data.text ++ [NEWLINE]),
        s.2.commit i (Function.update s.map key (some data)) (k r)) := fun w own =>
    ⟨own, rfl, others o' other⟩
  have turn : Turn i s (s.2.commit i (Function.update s.map key (some data)) (k r)) :=
    { Turn.refl i inv with
      bucket := fun b other => ⟨rfl, rfl, fun key' hash =>
        Function.update_of_ne (by rintro rfl; exact other (hash ▸ holds)) _ _⟩
      doing := fun b torn => absurd torn (has.torn b)
      pool := .inr step }
  have guar : Guar i s (s.1.write .dat t.datoff (data.text ++ [NEWLINE]),
      s.2.commit i (Function.update s.map key (some data)) (k r)) := by
    refine Guar.overwrite inv has.here long (fun w own => ?_) turn rfl (fun _ => Iff.rfl) rfl small
      (fun _ => inv.free_frame ⟨rfl, rfl⟩ (fun o' own => slot o' ?_) fun _ own => own) ?_
    · obtain rfl := Option.some.inj (own.symm.trans mine)
      exact holds
    · rintro rfl
      rw [mine] at own
      cases own
    · intro b _ whole
      by_cases self : b = bucket key.text
      · subst self
        exact ⟨(inv.links _ whole).frame rfl fun _ _ => rfl,
          (inv.entries _ whole).replace rfl (by rw [has.chain]; simp) has.here has.same
            (data_overwrite inv.laid has.here long) (fun _ => rfl) others rfl⟩
      · refine ⟨(inv.links b whole).frame rfl fun _ _ => rfl, (inv.entries b whole).frame
          (fun o' mem => slot o' ?_) (fun _ own => own) fun key' hash =>
          Function.update_of_ne (by rintro rfl; exact self hash.symm) _ _⟩
        rintro rfl
        rw [← (inv.entries b whole).owns, mine] at mem
        exact self (by simpa using mem.symm)
  exact ⟨guar, { inv := guar.inv, prog := Function.update_self .., room := has.room
                 own := has.own, torn := has.torn, lock := has.lock, chain := has.chain }⟩

/-! ## A record used again -/

/-- The data are written, and the record is the old one. -/
structure Filled (i : ι) (c : Client β) (key : Key) (data : Data) (was : Option Data)
    (xs : List Nat) (o : Nat) (t : Slot) (s : State ι β) : Prop
    extends Held i c key was xs o t s where
  data : s.data t = data.text ++ [NEWLINE]

omit [DecidableEq ι] in
theorem Filled.stable : Stable i (Filled (β := β) i c key data was xs o t) where
  inv _ filled := filled.inv
  rely _ _ filled others :=
    { filled.toHeld.rely others with
      data := ((others.slot ((filled.own o).2 rfl) rfl).2.2 t filled.here).trans filled.data }

omit [DecidableEq ι] in
theorem Held.other (held : Held i c key was xs o t s) (own : s.2.own o' = some w)
    (notMine : w ≠ .proc i) : o' ≠ o := by
  rintro rfl
  rw [(held.own o').2 rfl] at own
  exact notMine (Option.some.inj own).symm

theorem Held.fill (held : Held i c key was xs o t s) (len : data.text.length + 1 = t.datlen)
    (small : (s.1.write .dat t.datoff (data.text ++ [NEWLINE])).Small) :
    Guar i s (s.1.write .dat t.datoff (data.text ++ [NEWLINE]), s.2) ∧
      Filled i c key data was xs o t (s.1.write .dat t.datoff (data.text ++ [NEWLINE]), s.2) := by
  have inv := held.inv
  have mine := (held.own o).2 rfl
  have long : (data.text ++ [NEWLINE]).length = t.datlen := by simp [len]
  have slot (o' : Nat) (w : Owner ι) (own : s.2.own o' = some w) (notMine : w ≠ .proc i) :
      Same (.slot o') s (s.1.write .dat t.datoff (data.text ++ [NEWLINE]), s.2) := fun w' own' =>
    ⟨own', rfl, fun t' there =>
      data_overwrite_other inv.laid held.here long (held.other own notMine) there⟩
  have same (b : Bucket) :
      Same (.bucket b) s (s.1.write .dat t.datoff (data.text ++ [NEWLINE]), s.2) :=
    ⟨rfl, rfl, rfl, fun _ _ => rfl⟩
  have guar : Guar i s (s.1.write .dat t.datoff (data.text ++ [NEWLINE]), s.2) := by
    refine Guar.overwrite inv held.here long (fun w own => ?_) (Turn.refl i inv) rfl
      (fun _ => Iff.rfl) rfl small
      (fun _ => inv.free_frame ⟨rfl, rfl⟩ (fun o' own => slot o' _ own (by simp)) fun _ own => own)
      fun b _ whole => inv.chain_frame whole (same b)
        (fun o' own => slot o' _ own (by simp)) fun _ own => own
    obtain rfl := Option.some.inj (own.symm.trans mine)
    exact rfl
  refine ⟨guar, { held.toWriting.frame guar.inv rfl rfl rfl held.lock rfl (fun o' mem =>
      slot o' _ ((held.entries.owns o').2 mem) (by simp)) (fun _ own => own) with
    room := held.room
    own := held.own
    here := held.here
    data := data_overwrite inv.laid held.here long }⟩

/-- The record gets the key, and the link of the chain. -/
theorem Filled.rewrite (filled : Filled i c key data was xs o t s) (ok : t'.Ok)
    (alike : t'.datoff = t.datoff ∧ t'.datlen = t.datlen) (long : t'.text.length = t.text.length)
    (same : t'.key = key.text) (ptr : t'.ptr = xs.headD 0)
    (small : (s.1.write .idx o (Item.slot t').enc).Small) :
    Guar i s (s.1.write .idx o (Item.slot t').enc, s.2.put o (.slot t')) ∧
    Ripe i c key data was xs o t' (s.1.write .idx o (Item.slot t').enc, s.2.put o (.slot t')) := by
  have inv := filled.inv
  have guar := Guar.rewrite_own inv ((filled.own o).2 rfl) filled.here ok alike long small
  have enc : (Item.slot t').enc.length = (Item.slot t).enc.length := by
    rw [enc_slot_length (inv.laid.ok _ (Heap.Layout.find_mem filled.here)), enc_slot_length ok, long]
  refine ⟨guar, { filled.toWriting.frame guar.inv rfl rfl rfl filled.lock
      (at_put_other filled.here enc rfl (filled.ne_head _).symm) (fun o' mem => put_slot filled.here
        enc rfl rfl (filled.other ((filled.entries.owns o').2 mem) (by simp)) fun _ own => own)
      (fun _ own => own) with
    room := filled.room
    own := filled.own
    here := at_put filled.here rfl
    same
    ptr
    data := ?_ }⟩
  rw [← filled.data, State.data, State.data, alike.1, alike.2]
  rfl

/-! ## A record for the data on its chain -/

section
variable {d : Req.On} {k : Reply.On d → Client β} {r : Reply.On d}
  (answer : ∀ m : Table, m key = was → d.2.answer m = (r, Function.update m key (some data)))
include answer

theorem does_link (ripe : Ripe i (.call d k) key data was xs o t s) :
    Does i (writeptr (headOff (bucket key.text)) o) (fun _ h' s' =>
      On i (k r) (bucket key.text) true (o :: xs) s' ∧ h'.db = h.db) h s :=
  does_writeptr (ripe.inv.fits ripe.here) Ripe.stable On.stable ripe
    fun _ ripe small => ⟨_, ripe.link answer small⟩

theorem does_append (settled : Settled i (.call d k) key was none xs s)
    (chainoff : h.db.chainoff = headOff (bucket key.text)) :
    Does i (append key.text data.text (xs.headD 0 : Nat)) (fun _ h' s' =>
      (∃ xs, On i (k r) (bucket key.text) true xs s') ∧ h'.db.chainoff = h.db.chainoff) h s := by
  rw [append]
  refine (does_writedat_end settled).then ?_
  rintro _ h₁ s₁ ⟨off, roomy, db₁⟩
  refine (does_writeidx_end roomy roomy.fits (by rw [db₁]) (by rw [db₁])).then ?_
  rintro _ h₂ s₂ ⟨o, t, ripe, idxoff, chainoff₂⟩
  have chainoff₂ : h₂.db.chainoff = h.db.chainoff := by rw [chainoff₂, db₁]
  rw [does_getDB, idxoff, chainoff₂, chainoff]
  exact (does_link answer ripe).mono fun _ h₃ s₃ done =>
    ⟨⟨_, done.1⟩, by rw [done.2, chainoff₂, chainoff]⟩

theorem does_reuse (held : Held i (.call d k) key was xs o t s)
    (long : t.key.length = key.text.length) (len : t.datlen = data.text.length + 1)
    (idxoff : h.db.idxoff = o) (datoff : h.db.datoff = t.datoff)
    (chainoff : h.db.chainoff = headOff (bucket key.text)) :
    Does i (reuse key.text data.text (xs.headD 0 : Nat)) (fun _ h' s' =>
      (∃ xs, On i (k r) (bucket key.text) true xs s') ∧ h'.db.chainoff = h.db.chainoff) h s := by
  have ok : t.Ok := held.inv.laid.ok _ (Heap.Layout.find_mem held.here)
  have text : Slot.text ⟨xs.headD 0, key.text, t.datoff, t.datlen⟩ =
      entry key.text t.datoff (data.text.length + 1) := by rw [Slot.text, len]
  have long' : (Slot.text ⟨xs.headD 0, key.text, t.datoff, t.datlen⟩).length = t.text.length := by
    rw [Slot.text, Slot.text, entry_length, entry_length, long]
  have ok' : Slot.Ok ⟨xs.headD 0, key.text, t.datoff, t.datlen⟩ :=
    ⟨held.fits, key.clean, key.noNul, ok.off, ok.some', ok.len, long'.symm ▸ ok.long,
      long'.symm ▸ ok.short⟩
  rw [reuse, does_getDB, datoff]
  refine (does_writedat Held.stable Filled.stable held fun s held small =>
    ⟨_, held.fill len.symm small⟩).then ?_
  rintro _ h₁ s₁ ⟨filled, db₁⟩
  have idxoff₁ : h₁.db.idxoff = o := by rw [db₁]; exact idxoff
  rw [does_getDB, idxoff₁]
  refine (does_writeidx ok' (by rw [text, db₁]) rfl Filled.stable Ripe.stable filled
    fun s filled small => ⟨_, filled.rewrite ok' ⟨rfl, rfl⟩ long' rfl rfl small⟩).then ?_
  rintro _ h₂ s₂ ⟨ripe, db₂⟩
  have idxoff₂ : h₂.db.idxoff = o := by rw [db₂]
  have chainoff₂ : h₂.db.chainoff = h.db.chainoff := by rw [db₂, db₁]
  rw [does_getDB, idxoff₂, chainoff₂, chainoff]
  exact (does_link answer ripe).mono fun _ h₃ s₃ done =>
    ⟨⟨_, done.1⟩, by rw [done.2, chainoff₂, chainoff]⟩

end

/-! ## Storing -/

/-- What a call has come to before it gives the chain back: it leaves the table
as it is, or it has been done. -/
def Ended (i : ι) (d : Req.On) (k : Reply.On d → Client β) (key : Key) (rc : Reply.On d)
    (s : State ι β) : Prop :=
  (∃ xs was, On i (.call d k) (bucket key.text) true xs s ∧ s.map key = was ∧
    ∀ m : Table, m key = was → d.2.answer m = (rc, m)) ∨
  ∃ xs, On i (k rc) (bucket key.text) true xs s

section
variable {d : Req.On} {k : Reply.On d → Client β} {rc : Reply.On d}

omit [DecidableEq ι] in
theorem Ended.stable : Stable i (Ended i d k key rc) where
  inv s ended := by
    rcases ended with ⟨xs, was, on, -⟩ | ⟨xs, on⟩
    · exact on.inv
    · exact on.inv
  rely s s' ended others := by
    rcases ended with ⟨xs, was, on, value, answer⟩ | ⟨xs, on⟩
    · exact .inl ⟨xs, was, on.rely others, (on.map others rfl).trans value, answer⟩
    · exact .inr ⟨xs, on.rely others⟩

/-- Giving the chain back after the call has been done. -/
theorem On.release {mode : Bool} (on : On i c b mode xs s) :
    Guar i s (s.1.setLock i .idx (headOff b) 1 none, s.2) ∧
      Idle i c (s.1.setLock i .idx (headOff b) 1 none, s.2) := by
  have guar : Guar i s (s.1.setLock i .idx (headOff b) 1 none, s.2) :=
    Guar.drop on.inv fun b torn => absurd torn (on.torn b)
  exact ⟨guar, guar.inv, on.prog, on.room, on.own, on.torn⟩

theorem does_end (ended : Ended i d k key rc s)
    (chainoff : h.db.chainoff = headOff (bucket key.text)) :
    Does i (un_lockByte h.db.chainoff >>= fun _ => pure rc) (fun r _ s' => Idle i (k r) s') h s := by
  refine (does_unlock Ended.stable (Idle.stable (c := k rc)) ended fun s ended => ?_).then ?_
  · rw [chainoff]
    rcases ended with ⟨xs, was, on, value, answer⟩ | ⟨xs, on⟩
    · exact ⟨_, (on.ready (answer s.map value)).release⟩
    · exact ⟨_, on.release⟩
  · rintro _ h' s' ⟨idle, -⟩
    exact does_return Idle.stable idle fun s idle => idle

end

/-- The link that a new record gets. -/
theorem does_readptr_chain (settled : Settled i c key was now xs s) :
    Does i (readptr (headOff (bucket key.text))) (fun r h' s' =>
      Settled i c key was now xs s' ∧ r = (xs.headD 0 : Nat) ∧ h'.db = h.db) h s :=
  does_readptr Settled.stable settled fun _ settled => settled.links.head_link settled.inv.laid

section
variable {flag : Flag} {k : Reply (.store key data flag) → Client β} {turns : Nat}

theorem does_storeNew (many : 9999999 < turns)
    (missing : Missing i (.call (n, .store key data flag) k) true key xs s)
    (chainoff : h.db.chainoff = headOff (bucket key.text)) :
    Does i (storeNew turns key.text data.text flag.code) (fun rc h' s' =>
      Ended i (n, .store key data flag) k key rc s' ∧
        h'.db.chainoff = headOff (bucket key.text)) h s := by
  rw [storeNew]
  by_cases replaces : flag = .replace
  · rw [if_pos (Flag.code_replace.2 replaces)]
    refine does_setDB.2 (does_modify.2 (does_return Missing.stable missing fun s missing =>
      ⟨.inl ⟨xs, none, missing.toOn, missing.missing, fun m value => ?_⟩, chainoff⟩))
    simp [Req.answer, value, replaces]
  · have answer (m : Table) (value : m key = none) :
        (Req.store key data flag).answer m = (0, Function.update m key (some data)) := by
      simp [Req.answer, value, replaces]
    rw [if_neg (mt Flag.code_replace.1 replaces), does_getDB, chainoff]
    refine (does_readptr_chain (missing.toOn.settled missing.missing)).then ?_
    rintro _ h₁ s₁ ⟨settled, rfl, db₁⟩
    refine (does_findfree many settled).then ?_
    rintro _ h₂ s₂ ⟨chainoff₂, ⟨rfl, settled⟩ | ⟨rfl, o, t, held, long, len, idxoff, datoff⟩⟩
    · have chainoff₂ : h₂.db.chainoff = headOff (bucket key.text) := by
        rw [chainoff₂, db₁, chainoff]
      rw [if_neg (by simp)]
      refine (does_append (d := (n, .store key data flag)) (k := k) answer settled chainoff₂).then ?_
      rintro _ h₃ s₃ ⟨⟨xs, on⟩, chainoff₃⟩
      exact does_setDB.2 (does_return On.stable on fun s on =>
        ⟨.inr ⟨xs, on⟩, chainoff₃.trans chainoff₂⟩)
    · have chainoff₂ : h₂.db.chainoff = headOff (bucket key.text) := by
        rw [chainoff₂, db₁, chainoff]
      rw [if_pos rfl]
      refine (does_reuse (d := (n, .store key data flag)) (k := k) answer held long len idxoff datoff
        chainoff₂).then ?_
      rintro _ h₃ s₃ ⟨⟨xs, on⟩, chainoff₃⟩
      exact does_setDB.2 (does_return On.stable on fun s on =>
        ⟨.inr ⟨xs, on⟩, chainoff₃.trans chainoff₂⟩)

theorem does_storeOld (has : Has i (.call (n, .store key data flag) k) true key old as o bs t s)
    (at' : h.At (bucket key.text) as o t) :
    Does i (storeOld key.text (.own data.text) flag.code) (fun rc h' s' =>
      Ended i (n, .store key data flag) k key rc s' ∧
        h'.db.chainoff = headOff (bucket key.text)) h s := by
  rw [storeOld]
  by_cases inserts : flag = .insert
  · rw [if_pos (Flag.code_insert.2 inserts)]
    refine does_setDB.2 (does_return Has.stable has fun s has =>
      ⟨.inl ⟨_, some old, has.toOn, has.value, fun m value => ?_⟩, at'.chainoff⟩)
    simp [Req.answer, value, inserts]
  · have answer (m : Table) (value : m key = some old) :
        (Req.store key data flag).answer m = (0, Function.update m key (some data)) := by
      simp [Req.answer, value, inserts]
    have long : old.text.length + 1 = t.datlen := by
      rw [← has.inv.laid.data_length has.here, has.data, List.length_append]
      rfl
    rw [if_neg (mt Flag.code_insert.1 inserts), does_getDB, Source.text, at'.datlen]
    by_cases other : data.text.length + 1 ≠ t.datlen
    · rw [if_pos other, at'.chainoff]
      refine (does_dodelete has at' ⟨_, _, rfl, fun m value =>
        ⟨rfl, inserts, old, value, by omega⟩⟩).then ?_
      rintro _ h₁ s₁ ⟨settled, chainoff₁⟩
      refine (does_readptr_chain settled).then ?_
      rintro _ h₂ s₂ ⟨settled, rfl, db₂⟩
      have chainoff₂ : h₂.db.chainoff = headOff (bucket key.text) := by
        rw [db₂, chainoff₁, at'.chainoff]
      rw [does_getDB, Source.text]
      refine (does_append (d := (n, .store key data flag)) (k := k) answer settled chainoff₂).then ?_
      rintro _ h₃ s₃ ⟨⟨xs, on⟩, chainoff₃⟩
      exact does_setDB.2 (does_return On.stable on fun s on =>
        ⟨.inr ⟨xs, on⟩, chainoff₃.trans chainoff₂⟩)
    · rw [if_neg other, at'.datoff]
      refine (does_writedat Has.stable On.stable has fun s has small =>
        ⟨_, has.replace (d := (n, .store key data flag)) (by omega) answer small⟩).then ?_
      rintro _ h₁ s₁ ⟨on, db₁⟩
      exact does_setDB.2 (does_return On.stable on fun s on =>
        ⟨.inr ⟨_, on⟩, by rw [Handle.on_db, db₁]; exact at'.chainoff⟩)

/-- **A store.** -/
theorem does_store (many : 9999999 < turns) (idle : Idle i (.call (n, .store key data flag) k) s) :
    Does i (db_store turns key.text (.own data.text) flag.code) (fun r _ s' => Idle i (k r) s') h s := by
  have short : ¬ (data.text.length + 1 < DATLEN_MIN ∨ data.text.length + 1 > DATLEN_MAX) := by
    have long := List.length_pos_of_ne_nil data.nonempty
    have := data.short
    rw [DATLEN_MIN]
    omega
  rw [db_store, does_getDB, Source.text, if_neg flag.code_some, if_neg short]
  refine (does_find many idle h).then ?_
  rintro found h₁ s₁ (⟨rfl, as, o, bs, t, found, same, at'⟩ | ⟨rfl, off, xs, missing⟩)
  · obtain ⟨old, has⟩ := found.has same
    rw [if_pos rfl]
    refine (does_storeOld has at').then ?_
    rintro rc h₂ s₂ ⟨ended, chainoff⟩
    exact does_getDB.2 (does_end ended chainoff)
  · rw [if_neg (by simp)]
    refine (does_storeNew many missing off).then ?_
    rintro rc h₂ s₂ ⟨ended, chainoff⟩
    exact does_getDB.2 (does_end ended chainoff)

end

end

end UnixProgramming.Db
