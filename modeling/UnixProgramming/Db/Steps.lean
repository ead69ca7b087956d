import UnixProgramming.Db.Writes

/-!
# The steps of the library

Each kind of write, and the locks, as steps that keep to the terms.

* `Guar.relink`, `Guar.rewrite`: a link or a record in the index file;
* `Guar.overwrite`, `Guar.extend`, `Guar.append`: data, and a new record for them;
* `Guar.lock`, `Guar.unlock`: a lock.
-/

namespace UnixProgramming.Db

open Calls (Prog Pool)
open Heap (Chain pread pwrite)
open Heap.Layout (flat find put)
open Ssl (Byte)

variable {ι β α : Type} [DecidableEq ι] {i j : ι} {s s' : State ι β} {o v : Nat} {t t' : Slot}
  {it it' : Item} {g : Ghost ι β} {bs : List Byte} {h : Handle} {f : File}
  {P P' : State ι β → Prop}

/-- A write is one step. -/
theorem does_write (stable : Stable i P) (stable' : Stable i P') (hP : P s)
    (step : ∀ s, P s → (s.1.write f (h.pos f) bs).Small →
      ∃ g, Guar i s (s.1.write f (h.pos f) bs, g) ∧ P' (s.1.write f (h.pos f) bs, g)) :
    Does i (write f bs) (fun _ h' s' => P' s' ∧ h'.db = h.db) h s := by
  rw [write, does_get]
  refine does_sys.2 fun s' others => ⟨fun why => by simp, fun r w does => ?_⟩
  obtain ⟨⟨answer, locks⟩, small⟩ := does
  simp only [Sys.answer, Option.some.injEq, Prod.mk.injEq, true_and] at answer
  obtain rfl : w = s'.1.write f (h.pos f) bs := by
    cases w
    simp only at answer locks
    rw [World.write, ← answer, locks]
  obtain ⟨g, guar, hP'⟩ := step s' (stable.next hP others) small
  exact ⟨g, guar, does_modify.2 (does_return stable' hP' fun s hP => ⟨hP, rfl⟩)⟩

/-! ## The functions that write -/

theorem does_writeptr (fits : v ≤ 9999999) (stable : Stable i P) (stable' : Stable i P') (hP : P s)
    (step : ∀ s, P s → (s.1.write .idx o (padded PTR_SZ v)).Small →
      ∃ g, Guar i s (s.1.write .idx o (padded PTR_SZ v), g) ∧
        P' (s.1.write .idx o (padded PTR_SZ v), g)) :
    Does i (writeptr o v) (fun _ h' s' => P' s' ∧ h'.db = h.db) h s := by
  have small : ¬ ((v : Int) < 0 ∨ (v : Int) > PTR_MAX) := by
    rw [PTR_MAX]
    omega
  rw [writeptr, if_neg small, does_lseek]
  refine does_write stable stable' hP ?_
  rwa [Handle.seek_pos]

/-- Writing data where there are some. -/
theorem does_writedat {data : List Byte} (stable : Stable i P) (stable' : Stable i P') (hP : P s)
    (step : ∀ s, P s → (s.1.write .dat o (data ++ [NEWLINE])).Small →
      ∃ g, Guar i s (s.1.write .dat o (data ++ [NEWLINE]), g) ∧
        P' (s.1.write .dat o (data ++ [NEWLINE]), g)) :
    Does i (writedat data o .SEEK_SET) (fun _ h' s' => P' s' ∧
      h'.db = { h.db with datoff := o, datlen := data.length + 1 }) h s := by
  rw [writedat, if_neg (by simp), if_neg (by simp)]
  beta_reduce
  rw [does_lseek, does_setDB]
  refine (does_write stable stable' hP ?_).then ?_
  · rwa [Handle.on_pos, Handle.seek_pos]
  · rintro _ h' s' ⟨hP', db⟩
    exact does_return stable' hP' fun s hP => ⟨hP, db⟩

/-- Writing a record where there is one. -/
theorem does_writeidx {key : List Byte} (ok : t.Ok) (text : t.text = entry key h.db.datoff h.db.datlen)
    (ptr : t.ptr = v) (stable : Stable i P) (stable' : Stable i P') (hP : P s)
    (step : ∀ s, P s → (s.1.write .idx o (Item.slot t).enc).Small →
      ∃ g, Guar i s (s.1.write .idx o (Item.slot t).enc, g) ∧
        P' (s.1.write .idx o (Item.slot t).enc, g)) :
    Does i (writeidx key o .SEEK_SET v) (fun _ h' s' => P' s' ∧
      h'.db = { h.db with ptrval := v, idxbuf := t.text, idxoff := o }) h s := by
  have small : ¬ ((v : Int) < 0 ∨ (v : Int) > PTR_MAX) := by
    have := ok.ptr
    rw [PTR_MAX]
    omega
  have long := ok.long
  have short := ok.short
  rw [writeidx, does_setDB, if_neg small, does_getDB]
  simp only [Handle.on_db, ← text]
  rw [if_neg (by omega), does_setDB, if_neg (by omega), if_neg (by simp), if_neg (by simp),
    does_lseek, does_setDB]
  refine (does_write stable stable' hP ?_).then ?_
  · rw [Handle.on_pos, Handle.seek_pos, ← ptr, List.append_assoc]
    exact step
  · rintro _ h' s' ⟨hP', db⟩
    exact does_return stable' hP' fun s hP => ⟨hP, db⟩

/-! ## The index file -/

/-- What else a step that replaces a thing in the index file has to see to. -/
structure Relinks (i : ι) (o : Nat) (s s' : State ι β) : Prop where
  turn : Turn i s s'.2
  owned : ∀ o, (s'.2.own o).isSome ↔ (s.2.own o).isSome
  room : s'.2.room = s.2.room
  head : ∀ b, o = headOff b → Holds i s.1 (.bucket b)
  freeHead : o = FREE_OFF → Holds i s.1 .free
  slot : ∀ w, s.2.own o = some w → Holds i s.1 w
  free : Holds i s.1 .free → Free s'
  chains : ∀ b, Holds i s.1 (.bucket b) → s'.2.torn b = none →
    Links b (s'.2.chain b) s' ∧ Entries b (s'.2.chain b) s'.map s'

theorem Guar.replace (inv : Inv s) (here : s.at' o = some it) (ok : it'.Ok) (alike : Alike it it')
    (same : it'.enc.length = it.enc.length) {bs : List Byte}
    (bytes : pwrite 0 (flat Item.enc s.2.img) o bs = flat Item.enc (put Item.enc s.2.img o it'))
    (img : g.img = Heap.Layout.put Item.enc s.2.img o it') (small : (s.1.write .idx o bs).Small)
    (relinks : Relinks i o s (s.1.write .idx o bs, g)) : Guar i s (s.1.write .idx o bs, g) := by
  have content : (s.1.write .idx o bs).files.content .idx = flat Item.enc g.img := by
    rw [World.write_content, inv.laid.layout, bytes, img]
  have other {o' : Nat} (other : o' ≠ o) :
      State.at' (s.1.write .idx o bs, g) o' = s.at' o' := at_put_other here same img other
  refine Guar.of inv relinks.turn small ?_ rfl ?_ ?_ ?_ ?_ relinks.free relinks.chains
  · exact Laid.put here same img inv.laid ok alike content rfl relinks.owned relinks.room
  · exact fun b mine => other fun e => mine (relinks.head b e.symm)
  · exact fun mine => other fun e => mine (relinks.freeHead e.symm)
  · refine fun o' w own mine => ⟨other ?_, fun _ _ => rfl⟩
    rintro rfl
    exact mine (relinks.slot w own)
  · intro f _
    cases f with
    | idx =>
      rw [content, img, Heap.Layout.flat_put_length enc_ne_nil here same, inv.laid.layout]
    | dat => rfl

section
variable {w : World ι} {o' : Nat} (inv : Inv s) (here : s.at' o = some it)
  (same : it'.enc.length = it.enc.length) (img : g.img = put Item.enc s.2.img o it')
  (dat : w.files.content .dat = s.1.files.content .dat)
include here same img dat

omit [DecidableEq ι] in
theorem put_slot (other : o' ≠ o) (own : ∀ w, s.2.own o' = some w → g.own o' = some w) :
    Same (.slot o') s (w, g) := by
  refine fun w' own' => ⟨own w' own', at_put_other here same img other, fun t there => ?_⟩
  rw [State.data, State.data, dat]

include inv

omit [DecidableEq ι] in
/-- A chain that is not concerned. -/
theorem put_chain {b : Bucket} (head : o ≠ headOff b) (mine : s.2.own o ≠ some (.bucket b))
    (own : ∀ o', g.own o' = some (.bucket b) ↔ s.2.own o' = some (.bucket b))
    (chain : g.chain b = s.2.chain b) (whole : s.2.torn b = none) (whole' : g.torn b = none)
    (map : ∀ key : Key, bucket key.text = b → g.pool.state key = s.map key) :
    Links b (g.chain b) (w, g) ∧ Entries b (g.chain b) g.pool.state (w, g) := by
  have kept : Same (.bucket b) s (w, g) :=
    ⟨at_put_other here same img head.symm, chain, whole'.trans whole.symm, map⟩
  refine inv.chain_frame whole kept (fun o' theirs => ?_) fun o' => (own o').1
  refine put_slot here same img dat (by rintro rfl; exact mine theirs) fun w' own' => ?_
  obtain rfl := Option.some.inj (theirs.symm.trans own')
  exact (own o').2 theirs

omit [DecidableEq ι] in
/-- The free list when it is not concerned. -/
theorem put_free (head : o ≠ FREE_OFF) (mine : s.2.own o ≠ some .free)
    (own : ∀ o', g.own o' = some .free ↔ s.2.own o' = some .free)
    (list : g.free = s.2.free) : Free (w, g) := by
  have kept : Same .free s (w, g) := ⟨at_put_other here same img head.symm, list⟩
  refine inv.free_frame kept (fun o' theirs => ?_) fun o' => (own o').1
  refine put_slot here same img dat (by rintro rfl; exact mine theirs) fun w' own' => ?_
  obtain rfl := Option.some.inj (theirs.symm.trans own')
  exact (own o').2 theirs

end

/-- Another link. -/
theorem Guar.relink (inv : Inv s) (here : s.at' o = some it) (some' : it ≠ .newline)
    (fits : v ≤ 9999999) (img : g.img = put Item.enc s.2.img o (it.setPtr v))
    (small : (s.1.write .idx o (padded PTR_SZ v)).Small)
    (relinks : Relinks i o s (s.1.write .idx o (padded PTR_SZ v), g)) :
    Guar i s (s.1.write .idx o (padded PTR_SZ v), g) := by
  have ok := inv.laid.ok it (Heap.Layout.find_mem here)
  exact Guar.replace inv here (ok.setPtr fits) (alike_setPtr some' v) (enc_setPtr_length ok fits)
    (pwrite_ptr here ok some' fits) img small relinks

/-- Another record of the same size, for the same data. -/
theorem Guar.rewrite (inv : Inv s) (here : s.at' o = some (.slot t)) (ok : t'.Ok)
    (alike : t'.datoff = t.datoff ∧ t'.datlen = t.datlen) (same : t'.text.length = t.text.length)
    (img : g.img = put Item.enc s.2.img o (.slot t'))
    (small : (s.1.write .idx o (Item.slot t').enc).Small)
    (relinks : Relinks i o s (s.1.write .idx o (Item.slot t').enc, g)) :
    Guar i s (s.1.write .idx o (Item.slot t').enc, g) := by
  have ok' := inv.laid.ok _ (Heap.Layout.find_mem here)
  have long : (Item.slot t').enc.length = (Item.slot t).enc.length := by
    rw [enc_slot_length ok, enc_slot_length ok', same]
  exact Guar.replace inv here (show (Item.slot t').Ok from ok) alike long
    (pwrite_slot here ok' ok same) img small relinks

/-- Another text in a record of this process. -/
theorem Guar.rewrite_own (inv : Inv s) (mine : s.2.own o = some (.proc i))
    (here : s.at' o = some (.slot t)) (ok : t'.Ok)
    (alike : t'.datoff = t.datoff ∧ t'.datlen = t.datlen) (same : t'.text.length = t.text.length)
    (small : (s.1.write .idx o (Item.slot t').enc).Small) :
    Guar i s (s.1.write .idx o (Item.slot t').enc, s.2.put o (.slot t')) := by
  have long : (Item.slot t').enc.length = (Item.slot t).enc.length := by
    rw [enc_slot_length (inv.laid.ok _ (Heap.Layout.find_mem here)), enc_slot_length ok, same]
  have pos := inv.laid.slot_pos here
  have notFree : o ≠ FREE_OFF := by
    rintro rfl
    exact absurd pos (by decide)
  have notHead (b : Bucket) : o ≠ headOff b := by
    have := headOff_lt b
    omega
  have turn := Turn.refl i inv
  refine Guar.rewrite inv here ok alike same rfl small
    { turn := { turn with }
      owned := fun o => Iff.rfl
      room := rfl
      head := fun b e => absurd e (notHead b)
      freeHead := fun e => absurd e notFree
      slot := fun w own => ?_
      free := fun _ => put_free inv here long rfl rfl notFree (by simp [mine])
        (fun _ => Iff.rfl) rfl
      chains := fun b _ whole => put_chain (w := s.1.write .idx o _) (g := s.2.put o (.slot t'))
        inv here long rfl rfl (notHead b) (by simp [mine]) (fun _ => Iff.rfl) rfl whole whole
        fun _ _ => rfl }
  obtain rfl := Option.some.inj (own.symm.trans mine)
  exact rfl

/-! ## Data -/

/-- The data of a record of this process. -/
theorem Guar.overwrite (inv : Inv s) (here : s.at' o = some (.slot t)) (len : bs.length = t.datlen)
    (own : ∀ w, s.2.own o = some w → Holds i s.1 w) (turn : Turn i s g) (img : g.img = s.2.img)
    (owned : ∀ o, (g.own o).isSome ↔ (s.2.own o).isSome) (room : g.room = s.2.room)
    (small : (s.1.write .dat t.datoff bs).Small)
    (free : Holds i s.1 .free → Free (s.1.write .dat t.datoff bs, g))
    (chains : ∀ b, Holds i s.1 (.bucket b) → g.torn b = none →
      Links b (g.chain b) (s.1.write .dat t.datoff bs, g) ∧
      Entries b (g.chain b) g.pool.state (s.1.write .dat t.datoff bs, g)) :
    Guar i s (s.1.write .dat t.datoff bs, g) := by
  have at_ (o : Nat) : State.at' (s.1.write .dat t.datoff bs, g) o = s.at' o := by rw [State.at', img]
  have mine : s.extent (.inl o) = some (t.datoff, t.datlen) := by rw [State.extent, here]
  have inside := inv.laid.inside _ _ _ mine
  refine Guar.of inv turn small (inv.laid.overwrite here len owned img room) rfl
    (fun b _ => at_ _) (fun _ => at_ _) ?_ ?_ free chains
  · intro o' w own' other
    refine ⟨at_ _, fun t' there => data_overwrite_other inv.laid here len ?_ there⟩
    rintro rfl
    exact other (own w own')
  · intro f _
    cases f with
    | idx => rfl
    | dat =>
      rw [World.write_content, Heap.length_pwrite (by omega)]
      omega

/-- New data at the end of the file. -/
theorem Guar.extend (inv : Inv s) (lock : s.1.locks i .dat (endOff .dat) = some true)
    (none' : s.2.room i = none)
    (small : (s.1.write .dat (s.1.files.content .dat).length bs).Small) :
    Guar i s (s.1.write .dat (s.1.files.content .dat).length bs,
      s.2.reserve i ((s.1.files.content .dat).length, bs)) := by
  have data {o : Nat} {t : Slot} (there : s.at' o = some (.slot t)) :
      State.data (s.1.write .dat (s.1.files.content .dat).length bs,
        s.2.reserve i ((s.1.files.content .dat).length, bs)) t = s.data t :=
    data_extend inv.laid there
  have turn : Turn i s (s.2.reserve i ((s.1.files.content .dat).length, bs)) :=
    { Turn.refl i inv with room := fun j other => Function.update_of_ne other _ _ }
  have slot (o : Nat) : Same (.slot o) s (s.1.write .dat (s.1.files.content .dat).length bs,
      s.2.reserve i ((s.1.files.content .dat).length, bs)) :=
    fun w own => ⟨own, rfl, fun t there => data there⟩
  refine Guar.of inv turn small (inv.laid.extend none' rfl rfl rfl) rfl (fun _ _ => rfl)
    (fun _ => rfl) (fun o w own mine => ⟨rfl, fun t there => data there⟩) ?_
    (fun _ => inv.free.frame ⟨rfl, rfl⟩ (fun o _ => slot o) fun _ own => own) ?_
  · intro f other
    cases f with
    | idx => rfl
    | dat => exact absurd lock other
  · exact fun b _ whole => ⟨(inv.links b whole).frame rfl fun _ _ => rfl,
      (inv.entries b whole).frame (fun o _ => slot o) (fun _ own => own) fun _ _ => rfl⟩

/-- A record for data that have been added. -/
theorem Guar.append (inv : Inv s) (lock : s.1.locks i .idx (endOff .idx) = some true) (ok : t.Ok)
    (mine : s.2.room i = some (t.datoff, bs)) (len : bs.length = t.datlen)
    (small : (s.1.write .idx (s.1.files.content .idx).length (Item.slot t).enc).Small) :
    Guar i s (s.1.write .idx (s.1.files.content .idx).length (Item.slot t).enc,
      s.2.add i (s.1.files.content .idx).length t) := by
  have owned {o : Nat} {w : Owner ι} (own : s.2.own o = some w) :
      o ≠ (s.1.files.content .idx).length := inv.laid.owned_ne own
  have own' {o : Nat} {w : Owner ι} (own : (s.2.add i (s.1.files.content .idx).length t).own o =
      some w) : s.2.own o = some w ∨ w = .proc i := by
    rw [Ghost.add_own] at own
    by_cases self : o = (s.1.files.content .idx).length
    · rw [self, Function.update_self] at own
      cases own
      exact .inr rfl
    · rw [Function.update_of_ne self] at own
      exact .inl own
  have turn : Turn i s (s.2.add i (s.1.files.content .idx).length t) :=
    { Turn.refl i inv with
      slot := fun o w own _ => by rw [Ghost.add_own, Function.update_of_ne (owned own), own]
      own := fun o w own => (own' own).imp_right (by rintro rfl; exact rfl)
      room := fun j other => by rw [Ghost.add_room, Function.update_of_ne other] }
  have at_ {o : Nat} (there : o ≠ (s.1.files.content .idx).length) :
      State.at' (s.1.write .idx (s.1.files.content .idx).length (Item.slot t).enc,
        s.2.add i (s.1.files.content .idx).length t) o = s.at' o := by
    rw [at_append inv.laid rfl, if_neg there]
  have head {k : Nat} (small : k ≤ NHASH_DEF) : k * PTR_SZ ≠ (s.1.files.content .idx).length := by
    obtain ⟨p, there⟩ := inv.laid.heads k small
    exact inv.laid.before_end there
  have headOff_ne (b : Bucket) : headOff b ≠ (s.1.files.content .idx).length := by
    have := head (Nat.succ_le_of_lt b.isLt)
    rwa [Nat.succ_mul] at this
  have slot (o : Nat) : Same (.slot o) s
      (s.1.write .idx (s.1.files.content .idx).length (Item.slot t).enc,
        s.2.add i (s.1.files.content .idx).length t) := fun w own =>
    ⟨by rw [Ghost.add_own, Function.update_of_ne (owned own), own], at_ (owned own),
      fun _ _ => rfl⟩
  refine Guar.of inv turn small (inv.laid.append rfl ok mine len rfl rfl) rfl
    (fun b _ => at_ (headOff_ne b)) (fun _ => at_ (head (k := 0) (Nat.zero_le _)))
    (fun o w own _ => ⟨at_ (owned own), fun _ _ => rfl⟩) ?_
    (fun _ => inv.free.frame ⟨at_ (head (k := 0) (Nat.zero_le _)), rfl⟩ (fun o _ => slot o)
      fun o own => (own' own).resolve_right (by simp)) ?_
  · intro f other
    cases f with
    | idx => exact absurd lock other
    | dat => rfl
  · intro b _ whole
    have entries := inv.entries b whole
    refine ⟨(inv.links b whole).frame (at_ (headOff_ne b)) fun o ho =>
        at_ (owned ((entries.owns o).2 ho)), entries.frame (fun o _ => slot o) ?_ fun _ _ => rfl⟩
    exact fun o own => (own' own).resolve_right (by simp)

/-! ## Locks -/

def World.setLock (w : World ι) (i : ι) (f : File) (off len : Nat) (mode : Option Bool) : World ι :=
  { w with locks := w.locks.set i f off len mode }

section
variable {off len n : Nat} {mode : Option Bool}

theorem Locks.set_other {L : Locks ι} (other : j ≠ i) : L.set i f off len mode j = L j :=
  Function.update_of_ne other _ _

theorem Locks.set_self {L : Locks ι} (k : File) : L.set i f off len mode i k n =
    if k = f ∧ covers off len n then mode else L i k n := by
  rw [Locks.set, Function.update_self]

/-- A step that changes no more than a lock, and what its process may change of
the meaning of the files. -/
theorem Guar.setLock (inv : Inv s) (turn : Turn i s g) (img : g.img = s.2.img)
    (own : g.own = s.2.own) (free : g.free = s.2.free) (room : g.room = s.2.room)
    (excl : ∀ j k f' n, (s.1.setLock i f off len mode).locks j f' n = some true → k ≠ j →
      (s.1.setLock i f off len mode).locks k f' n = none)
    (tears : ∀ b, g.torn b = some i →
      (s.1.setLock i f off len mode).locks i .idx (headOff b) = some true)
    (chains : ∀ b, Holds i s.1 (.bucket b) → g.torn b = none →
      Links b (g.chain b) s ∧ Entries b (g.chain b) g.pool.state s) :
    Guar i s (s.1.setLock i f off len mode, g) := by
  have at_ (o : Nat) : State.at' (s.1.setLock i f off len mode, g) o = s.at' o := by
    rw [State.at', img]
  have extents (e : Nat ⊕ ι) : State.extent (s.1.setLock i f off len mode, g) e = s.extent e := by
    cases e with
    | inl o => rw [State.extent, State.extent, at_]
    | inr j => rw [State.extent, State.extent, room]
  have slot (o : Nat) : Same (.slot o) s (s.1.setLock i f off len mode, g) := fun w own' =>
    ⟨by rw [own]; exact own', at_ o, fun _ _ => rfl⟩
  have laid : Laid (s.1.setLock i f off len mode, g) := by
    refine ⟨?_, ?_, fun k hk => ?_, fun o it there => ?_, (at_ _).trans inv.laid.gap,
      fun o => ?_,
      fun e off len there => ?_, fun e e' other off len off' len' there there' => ?_, ?_⟩
    · rw [img]
      exact inv.laid.layout
    · rw [img]
      exact inv.laid.ok
    · rw [at_]
      exact inv.laid.heads k hk
    · rw [at_] at there
      exact inv.laid.slots o it there
    · rw [at_, own]
      exact inv.laid.owned o
    · rw [extents] at there
      exact inv.laid.inside e off len there
    · rw [extents] at there there'
      exact inv.laid.apart e e' other off len off' len' there there'
    · rw [room]
      exact inv.laid.room
  refine Guar.of_locks inv turn inv.small laid (fun j other => Locks.set_other other) excl tears
    (fun b _ => at_ _) (fun _ => at_ _) (fun o w own _ => ⟨at_ o, fun _ _ => rfl⟩) (fun f _ => rfl)
    (fun _ => inv.free.frame ⟨at_ _, free⟩ (fun o _ => slot o) fun o own' => by rwa [own] at own') ?_
  intro b mine whole
  obtain ⟨links, entries⟩ := chains b mine whole
  refine ⟨links.frame (at_ _) fun o _ => at_ o, entries.frame (fun o _ => slot o) ?_ fun _ _ => rfl⟩
  exact fun o own' => by rwa [own] at own'

/-- A lock that nobody is in the way of. -/
theorem Guar.lock {write : Bool} (inv : Inv s) (grant : Grant s.1.locks i f write off len)
    (whole : write = true ∨ ∀ b, s.2.torn b ≠ some i) :
    Guar i s (s.1.setLock i f off len (some write), s.2) := by
  refine Guar.setLock inv (Turn.refl i inv) rfl rfl rfl rfl ?_ ?_
    fun b _ whole => ⟨inv.links b whole, inv.entries b whole⟩
  · intro j k f' n lock other
    change s.1.locks.set i f off len (some write) j f' n = some true at lock
    change s.1.locks.set i f off len (some write) k f' n = none
    rcases eq_or_ne j i with rfl | notI
    · rw [Locks.set_other other]
      rw [Locks.set_self] at lock
      split at lock
      · rename_i here
        obtain ⟨rfl, here⟩ := here
        cases lock
        cases theirs : s.1.locks k f' n with
        | none => rfl
        | some mode => exact absurd (grant k other n here mode theirs).1 (by simp)
      · exact inv.excl j k f' n lock other
    · rw [Locks.set_other notI] at lock
      rcases eq_or_ne k i with rfl | notI'
      · rw [Locks.set_self]
        split
        · rename_i here
          obtain ⟨rfl, here⟩ := here
          exact absurd (grant j notI n here true lock).2 (by simp)
        · exact inv.excl j k f' n lock other
      · rw [Locks.set_other notI']
        exact inv.excl j k f' n lock other
  · intro b torn
    change s.1.locks.set i f off len (some write) i .idx (headOff b) = some true
    rw [Locks.set_self]
    split
    · rcases whole with rfl | whole
      · rfl
      · exact absurd torn (whole b)
    · exact inv.tears b i torn

/-- A lock that is given back, with what has been done under it. -/
theorem Guar.unlock (inv : Inv s) (turn : Turn i s g) (img : g.img = s.2.img)
    (own : g.own = s.2.own) (free : g.free = s.2.free) (room : g.room = s.2.room)
    (whole : ∀ b, g.torn b = some i → ¬ (f = .idx ∧ covers off len (headOff b)))
    (chains : ∀ b, Holds i s.1 (.bucket b) → g.torn b = none →
      Links b (g.chain b) s ∧ Entries b (g.chain b) g.pool.state s) :
    Guar i s (s.1.setLock i f off len none, g) := by
  refine Guar.setLock inv turn img own free room ?_ ?_ chains
  · intro j k f' n lock other
    change s.1.locks.set i f off len none j f' n = some true at lock
    change s.1.locks.set i f off len none k f' n = none
    rcases eq_or_ne j i with rfl | notI
    · rw [Locks.set_other other]
      rw [Locks.set_self] at lock
      split at lock
      · cases lock
      · exact inv.excl j k f' n lock other
    · rw [Locks.set_other notI] at lock
      rcases eq_or_ne k i with rfl | notI'
      · rw [Locks.set_self]
        split
        · rfl
        · exact inv.excl j k f' n lock other
      · rw [Locks.set_other notI']
        exact inv.excl j k f' n lock other
  · intro b torn
    change s.1.locks.set i f off len none i .idx (headOff b) = some true
    rw [Locks.set_self, if_neg fun both => whole b torn ⟨both.1.symm, both.2⟩]
    rcases turn.torn b i torn with before | -
    · exact inv.tears b i before
    · by_cases mine : Holds i s.1 (.bucket b)
      · obtain ⟨n, at', lock⟩ := mine
        obtain rfl := Option.some.inj at'
        exact lock
      · exact inv.tears b i ((turn.bucket b mine).2.1.symm.trans torn)

/-- A lock that is given back, and nothing else. -/
theorem Guar.drop (inv : Inv s)
    (whole : ∀ b, s.2.torn b = some i → ¬ (f = .idx ∧ covers off len (headOff b))) :
    Guar i s (s.1.setLock i f off len none, s.2) :=
  Guar.unlock inv (Turn.refl i inv) rfl rfl rfl rfl whole
    fun b _ whole => ⟨inv.links b whole, inv.entries b whole⟩

/-- Waiting for a lock. -/
theorem does_lock {write : Bool} (stable : Stable i P) (stable' : Stable i P') (hP : P s)
    (step : ∀ s, P s → Grant s.1.locks i f write off len →
      Guar i s (s.1.setLock i f off len (some write), s.2) ∧
        P' (s.1.setLock i f off len (some write), s.2)) :
    Does i (sys (.lock f write off len)) (fun _ h' s' => P' s' ∧ h' = h) h s := by
  rw [← bind_pure (sys _)]
  refine does_sys.2 fun s' others => ⟨fun why => by simp, fun r w does => ?_⟩
  obtain ⟨⟨answer, grant, locks⟩, -⟩ := does
  simp only [Sys.answer, Option.some.injEq, Prod.mk.injEq, true_and] at answer
  obtain rfl : w = s'.1.setLock i f off len (some write) := by
    cases w
    simp only at answer locks
    rw [World.setLock, answer, locks]
  obtain ⟨guar, hP'⟩ := step s' (stable.next hP others) grant
  exact ⟨s'.2, guar, does_return stable' hP' fun s hP => ⟨hP, rfl⟩⟩

/-- Giving a lock back. -/
theorem does_unlock (stable : Stable i P) (stable' : Stable i P') (hP : P s)
    (step : ∀ s, P s → ∃ g, Guar i s (s.1.setLock i f off len none, g) ∧
      P' (s.1.setLock i f off len none, g)) :
    Does i (sys (.unlock f off len)) (fun _ h' s' => P' s' ∧ h' = h) h s := by
  rw [← bind_pure (sys _)]
  refine does_sys.2 fun s' others => ⟨fun why => by simp, fun r w does => ?_⟩
  obtain ⟨⟨answer, locks⟩, -⟩ := does
  simp only [Sys.answer, Option.some.injEq, Prod.mk.injEq, true_and] at answer
  obtain rfl : w = s'.1.setLock i f off len none := by
    cases w
    simp only at answer locks
    rw [World.setLock, answer, locks]
  obtain ⟨g, guar, hP'⟩ := step s' (stable.next hP others)
  exact ⟨g, guar, does_return stable' hP' fun s hP => ⟨hP, rfl⟩⟩

end

end UnixProgramming.Db
