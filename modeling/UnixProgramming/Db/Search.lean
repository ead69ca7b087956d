import UnixProgramming.Db.Steps

/-!
# Searching a chain

What a process knows while it holds the lock of a chain, and what it has found
there.

* `Idle`, `On`: a process between calls, and one that has locked a chain;
* `does_find`: the search;
* `does_release`: the end of a call;
* `does_fetch`: a fetch.
-/

namespace UnixProgramming.Db

open Calls (Prog Pool)
open Heap (Chain pread pwrite)
open Heap.Layout (flat find put)
open Ssl (Byte)

variable {ι β α : Type} {i j : ι} {s s' : State ι β} {o v : Nat} {t t' : Slot} {b : Bucket}
  {xs as bs : List Nat} {mode : Bool} {c : Client β} {key : Key}

/-- A process with no record or data of its own, which has still to do `c`. -/
structure Idle (i : ι) (c : Client β) (s : State ι β) : Prop where
  inv : Inv s
  prog : s.2.pool.prog i = c
  room : s.2.room i = none
  own : ∀ o, s.2.own o ≠ some (.proc i)
  torn : ∀ b, s.2.torn b ≠ some i

/-- A process with a lock on a chain. -/
structure On (i : ι) (c : Client β) (b : Bucket) (mode : Bool) (xs : List Nat) (s : State ι β) :
    Prop extends Idle i c s where
  lock : s.1.locks i .idx (headOff b) = some mode
  chain : s.2.chain b = xs

theorem Idle.rely (idle : Idle i c s) (others : Rely' i s s') : Idle i c s' where
  inv := others.inv
  prog := others.prog.trans idle.prog
  room := Eq.trans (others.same (.room i) rfl) idle.room
  own o own := idle.own o (others.own o _ own rfl)
  torn b torn := idle.torn b (others.torn b torn)

theorem Idle.stable : Stable i (Idle (β := β) i c) := ⟨fun _ idle => idle.inv, fun _ _ => Idle.rely⟩

namespace On

theorem reads (on : On i c b mode xs s) : Reads i s.1 (.bucket b) := reads_bucket on.lock

theorem rely (on : On i c b mode xs s) (others : Rely' i s s') : On i c b mode xs s' :=
  { on.toIdle.rely others with
    lock := by rw [others.locks, on.lock]
    chain := (others.same (.bucket b) on.reads).2.1.trans on.chain }

theorem stable : Stable i (On (β := β) i c b mode xs) := ⟨fun _ on => on.inv, fun _ _ => rely⟩

/-- Nobody else can be taking a record from the chain. -/
theorem whole (on : On i c b mode xs s) : s.2.torn b = none := by
  cases torn : s.2.torn b with
  | none => rfl
  | some j =>
    rcases eq_or_ne i j with rfl | other
    · exact absurd torn (on.torn b)
    · have none' := on.inv.excl j i _ _ (on.inv.tears b j torn) other
      rw [on.lock] at none'
      cases none'

theorem links (on : On i c b mode xs s) : Links b xs s := by
  have := on.inv.links b on.whole
  rwa [on.chain] at this

theorem entries (on : On i c b mode xs s) : Entries b xs s.map s := by
  have := on.inv.entries b on.whole
  rwa [on.chain] at this

/-- A record of the chain stays as it is. -/
theorem slot (on : On i c b mode xs s) (others : Rely' i s s') (mem : o ∈ xs) :
    s'.at' o = s.at' o :=
  (others.slot ((on.entries.owns o).2 mem) on.reads).2.1

theorem map (on : On i c b mode xs s) (others : Rely' i s s') (hash : bucket key.text = b) :
    s'.map key = s.map key :=
  (others.same (.bucket b) on.reads).2.2.2 key hash

end On

/-! ## Links -/

/-- The link of a chain, as `readptr` finds it. -/
theorem Links.head_link (links : Links b xs s) (laid : Laid s) :
    ∃ it, s.at' (headOff b) = some it ∧ it ≠ .newline ∧ it.ptr = xs.headD 0 := by
  obtain ⟨p, head⟩ := find_headOff laid b
  refine ⟨_, head, by simp, ?_⟩
  rw [← cell_eq head]
  exact links.chain.head

/-- The link of the free list. -/
theorem Free.head_link (free : Free s) (laid : Laid s) :
    ∃ it, s.at' FREE_OFF = some it ∧ it ≠ .newline ∧ it.ptr = s.2.free.headD 0 := by
  obtain ⟨p, head⟩ := laid.heads 0 (Nat.zero_le _)
  refine ⟨_, head, by simp, ?_⟩
  rw [← cell_eq head]
  exact free.chain.head

/-- The link of a record on a chain. -/
theorem Links.next_link (links : Links b (as ++ o :: bs) s) (here : s.at' o = some (.slot t)) :
    t.ptr = bs.headD 0 := by
  have next := (links.chain.at_last).2.head
  rwa [cell_eq here] at next

theorem Entries.slot {m : Table} (entries : Entries b xs m s) (mem : o ∈ xs) :
    ∃ t, s.at' o = some (.slot t) := by
  obtain ⟨t, _, _, holds, _⟩ := entries.holds o mem
  exact ⟨t, holds.here⟩

theorem Laid.data_length (laid : Laid s) (here : s.at' o = some (.slot t)) :
    (s.data t).length = t.datlen := by
  have mine : s.extent (.inl o) = some (t.datoff, t.datlen) := by rw [State.extent, here]
  exact Heap.length_pread (laid.inside _ _ _ mine)

/-- There are not too many records for the loops. -/
theorem length_le (inv : Inv s) (distinct : xs.Nodup)
    (slots : ∀ o ∈ xs, ∃ t, s.at' o = some (.slot t)) : xs.length ≤ 9999999 := by
  have inside : xs ⊆ List.range (s.1.files.content .idx).length := by
    intro o ho
    obtain ⟨t, here⟩ := slots o ho
    exact List.mem_range.2 (inv.laid.slot_lt here)
  have := (List.subperm_of_subset distinct inside).length_le
  rw [List.length_range] at this
  exact this.trans inv.small.1

/-! ## The search -/

/-- A record of the chain with the key, behind others. -/
structure Found (i : ι) (c : Client β) (b : Bucket) (mode : Bool) (as : List Nat) (o : Nat)
    (bs : List Nat) (t : Slot) (s : State ι β) : Prop extends On i c b mode (as ++ o :: bs) s where
  here : s.at' o = some (.slot t)

theorem Found.stable : Stable i (Found (β := β) i c b mode as o bs t) where
  inv _ found := found.inv
  rely _ _ found others :=
    { found.toOn.rely others with here := (found.toOn.slot others (by simp)).trans found.here }

/-- No record of the chain has the key. -/
structure Missing (i : ι) (c : Client β) (mode : Bool) (key : Key) (xs : List Nat)
    (s : State ι β) : Prop extends On i c (bucket key.text) mode xs s where
  missing : s.map key = none

theorem Missing.stable : Stable i (Missing (β := β) i c mode key xs) where
  inv _ missing := missing.inv
  rely _ _ missing others :=
    { missing.toOn.rely others with
      missing := (missing.toOn.map others rfl).trans missing.missing }

/-- A search that has passed the records of `as`. -/
structure Looking (i : ι) (c : Client β) (mode : Bool) (key : Key) (as bs : List Nat)
    (s : State ι β) : Prop extends On i c (bucket key.text) mode (as ++ bs) s where
  past : ∀ o ∈ as, ∃ t, s.at' o = some (.slot t) ∧ t.key ≠ key.text

namespace Looking

theorem rely (looking : Looking i c mode key as bs s) (others : Rely' i s s') :
    Looking i c mode key as bs s' :=
  { looking.toOn.rely others with
    past := fun o ho => by
      obtain ⟨t, here, other⟩ := looking.past o ho
      exact ⟨t, (looking.toOn.slot others (by simp [ho])).trans here, other⟩ }

theorem stable_here :
    Stable i fun s : State ι β => Looking i c mode key as (o :: bs) s ∧ s.at' o = some (.slot t) where
  inv _ both := both.1.inv
  rely _ _ both others :=
    ⟨both.1.rely others, (both.1.toOn.slot others (by simp)).trans both.2⟩

/-- At the end of the chain. -/
theorem missing (looking : Looking i c mode key as [] s) : Missing i c mode key (as ++ []) s := by
  refine { looking with missing := ?_ }
  cases value : s.map key with
  | none => rfl
  | some data =>
    obtain ⟨o, ho, t, holds⟩ := looking.entries.all key data rfl value
    rw [List.append_nil] at ho
    obtain ⟨t', here, other⟩ := looking.past o ho
    rw [holds.here] at here
    cases here
    exact absurd holds.key other

/-- One more record that is not the right one. -/
theorem past_next (looking : Looking i c mode key as (o :: bs) s) (here : s.at' o = some (.slot t))
    (other : t.key ≠ key.text) : Looking i c mode key (as ++ [o]) bs s := by
  refine { looking.toIdle with lock := looking.lock, chain := by simp [looking.chain], past := ?_ }
  intro o' ho'
  rcases List.mem_append.1 ho' with before | last
  · exact looking.past o' before
  · rw [List.mem_singleton.1 last]
    exact ⟨t, here, other⟩

end Looking

/-- What the handle says of a record that has been found. -/
structure Handle.At (h : Handle) (b : Bucket) (as : List Nat) (o : Nat) (t : Slot) : Prop
    extends h.Has t where
  idxoff : h.db.idxoff = o
  ptroff : h.db.ptroff = (as.getLastD (headOff b) : Nat)
  chainoff : h.db.chainoff = headOff b

section
variable [DecidableEq ι] {h : Handle} {P : State ι β → Prop}

/-- What a search ends with. -/
def Searched (i : ι) (c : Client β) (mode : Bool) (key : Key) (found : Bool) (h : Handle)
    (s : State ι β) : Prop :=
  (found = true ∧ ∃ as o bs t, Found i c (bucket key.text) mode as o bs t s ∧ t.key = key.text ∧
    h.At (bucket key.text) as o t) ∨
  (found = false ∧ h.db.chainoff = headOff (bucket key.text) ∧ ∃ xs, Missing i c mode key xs s)

/-- The loop over a chain. -/
theorem does_findFrom (turns : Nat) (looking : Looking i c mode key as bs s)
    (more : bs.length < turns)
    (ptroff : h.db.ptroff = (as.getLastD (headOff (bucket key.text)) : Nat))
    (chainoff : h.db.chainoff = headOff (bucket key.text)) :
    Does i (findFrom key.text turns (bs.headD 0 : Nat)) (Searched i c mode key) h s := by
  induction bs generalizing turns as s h with
  | nil =>
    obtain ⟨turns, rfl⟩ := Nat.exists_eq_add_of_lt more
    rw [findFrom, List.headD_nil, if_pos Nat.cast_zero]
    exact does_return Missing.stable looking.missing fun s missing =>
      .inr ⟨rfl, chainoff, _, missing⟩
  | cons o bs ih =>
    obtain ⟨turns, rfl⟩ := Nat.exists_eq_add_of_lt more
    obtain ⟨t, here⟩ := looking.entries.slot (o := o) (by simp)
    have behind := looking.inv.laid.slot_pos here
    have some' : o ≠ 0 := by
      rintro rfl
      exact absurd behind (by decide)
    rw [findFrom, List.headD_cons, if_neg (by exact_mod_cast some')]
    refine (does_readidx Looking.stable_here ⟨looking, here⟩ some' fun s both => both.2).then ?_
    rintro _ h' s' ⟨⟨looking, here⟩, rfl, has, off, ptroff', chainoff'⟩
    rw [does_getDB]
    by_cases same : h'.db.idxbuf = key.text
    · rw [if_pos same]
      have found : Found i c (bucket key.text) mode as o bs t s' := { looking with here }
      refine does_return Found.stable found fun s found =>
        .inl ⟨rfl, as, o, bs, t, found, has.idxbuf.symm.trans same, ?_⟩
      exact { has with idxoff := off, ptroff := ptroff'.trans ptroff,
                       chainoff := chainoff'.trans chainoff }
    · rw [if_neg same, does_setDB, looking.links.next_link here]
      have past := looking.past_next here fun e => same (has.idxbuf.trans e)
      refine ih _ past ?_ (by simp) (chainoff'.trans chainoff)
      rw [List.length_cons] at more ⊢
      omega

theorem covers_one (off n : Nat) : covers off 1 n ↔ n = off := by
  unfold covers
  omega

theorem setLock_byte {off : Nat} {m : Option Bool} (w : World ι) (f : File) (n : Nat) :
    (w.setLock i .idx off 1 m).locks i f n = if f = .idx ∧ n = off then m else w.locks i f n := by
  simp only [World.setLock, Locks.set_self, covers_one]

/-- Nobody else may touch the chain that has been locked. -/
theorem Idle.lock (idle : Idle i c s) (grant : Grant s.1.locks i .idx mode (headOff b) 1) :
    Guar i s (s.1.setLock i .idx (headOff b) 1 (some mode), s.2) ∧
      On i c b mode (s.2.chain b) (s.1.setLock i .idx (headOff b) 1 (some mode), s.2) := by
  have guar := Guar.lock idle.inv grant (.inr idle.torn)
  refine ⟨guar, { idle with inv := guar.inv, lock := ?_, chain := rfl }⟩
  rw [setLock_byte, if_pos ⟨rfl, rfl⟩]

omit [DecidableEq ι] in
theorem On.stable_some : Stable i fun s : State ι β => ∃ xs, On i c b mode xs s :=
  Stable.exists fun _ => On.stable

/-- **The search for a key**, with the lock on its chain. -/
theorem does_find {turns : Nat} (many : 9999999 < turns) (idle : Idle i c s) (h : Handle) :
    Does i (find_and_lock turns key.text mode) (Searched i c mode key) h s := by
  rw [find_and_lock, does_setDB, lockByte]
  refine (does_lock Idle.stable (On.stable_some (b := bucket key.text)) idle
    fun s idle grant => ⟨(idle.lock grant).1, _, (idle.lock grant).2⟩).then ?_
  rintro _ h' s' ⟨⟨xs, on⟩, rfl⟩
  refine (does_readptr (o := headOff (bucket key.text)) On.stable on
    fun s on => on.links.head_link on.inv.laid).then ?_
  rintro _ h' s' ⟨on, rfl, db⟩
  have looking : Looking i c mode key [] xs s' := { on with past := by simp }
  have short : xs.length < turns := by
    have := length_le on.inv on.links.distinct fun o ho => on.entries.slot ho
    omega
  exact does_findFrom turns looking short (by rw [db]; rfl) (by rw [db]; rfl)

/-! ## The end of a call -/

/-- A process at the end of a call, with the lock on a chain: what is known of the
chain, and what the table is to be. -/
structure Ready (i : ι) (n : Nat) (req : Req) (k : Reply req → Client β) (b : Bucket) (mode : Bool)
    (xs : List Nat) (r : Reply req) (m : Table) (s : State ι β) : Prop where
  inv : Inv s
  prog : s.2.pool.prog i = .call (n, req) k
  room : s.2.room i = none
  own : ∀ o, s.2.own o ≠ some (.proc i)
  torn : ∀ b', s.2.torn b' = some i → b' = b
  lock : s.1.locks i .idx (headOff b) = some mode
  links : Links b xs s
  chain : s.2.chain b = xs
  entries : Entries b xs m s
  answer : req.answer s.map = (r, m)
  outside : ∀ key : Key, bucket key.text ≠ b → m key = s.map key
  reader : mode = false → m = s.map ∧ s.2.torn b = none

variable {n : Nat} {req : Req} {k : Reply req → Client β} {r : Reply req} {m : Table}

/-- **The call is done** when the lock is given back. -/
theorem Ready.release (ready : Ready i n req k b mode xs r m s) :
    Guar i s (s.1.setLock i .idx (headOff b) 1 none,
      (s.2.setChain b xs none).commit i m (k r)) ∧
    Idle i (k r) (s.1.setLock i .idx (headOff b) 1 none,
      (s.2.setChain b xs none).commit i m (k r)) := by
  have chain (b' : Bucket) : Function.update s.2.chain b xs b' = s.2.chain b' := by
    rw [← ready.chain, Function.update_eq_self]
  have notI (b' : Bucket) : Function.update s.2.torn b none b' ≠ some i := by
    by_cases self : b' = b
    · rw [self, Function.update_self]
      simp
    · rw [Function.update_of_ne self]
      exact fun torn => self (ready.torn b' torn)
  have step : Pool.Step (spec ι) i s.2.pool ((s.2.setChain b xs none).commit i m (k r)).pool :=
    .call ready.prog ready.answer
  have turn : Turn i s ((s.2.setChain b xs none).commit i m (k r)) :=
    { Turn.refl i ready.inv with
      bucket := fun b' other => by
        refine ⟨chain b', ?_, fun key hash => ?_⟩
        · by_cases self : b' = b
          · cases mode with
            | true => exact absurd (self ▸ holds_bucket ready.lock) other
            | false => simp [self, (ready.reader rfl).2]
          · exact Function.update_of_ne self _ _
        · by_cases self : b' = b
          · cases mode with
            | true => exact absurd (self ▸ holds_bucket ready.lock) other
            | false => exact congrFun (ready.reader rfl).1 key
          · exact ready.outside key fun e => self (hash.symm.trans e)
      torn := fun b' j torn => by
        by_cases self : b' = b
        · rw [self] at torn
          simp at torn
        · exact .inl ((Function.update_of_ne self _ _).symm.trans torn)
      doing := fun b' torn => absurd torn (notI b')
      pool := .inr step }
  have guar : Guar i s (s.1.setLock i .idx (headOff b) 1 none,
      (s.2.setChain b xs none).commit i m (k r)) := by
    refine Guar.unlock ready.inv turn rfl rfl rfl rfl (fun b' torn => absurd torn (notI b')) ?_
    intro b' _ whole
    rw [show ((s.2.setChain b xs none).commit i m (k r)).chain b' = s.2.chain b' from chain b']
    by_cases self : b' = b
    · subst self
      rw [ready.chain]
      exact ⟨ready.links, ready.entries⟩
    · have whole' : s.2.torn b' = none := (Function.update_of_ne self _ _).symm.trans whole
      refine ⟨ready.inv.links b' whole', (ready.inv.entries b' whole').frame
        (fun o _ => Same.refl _ _) (fun _ own => own) fun key hash => ?_⟩
      exact ready.outside key fun e => self (hash.symm.trans e)
  refine ⟨guar, guar.inv, ?_, ready.room, ready.own, notI⟩
  rw [Ghost.commit_pool_prog, Function.update_self]

/-- Giving the lock back ends the call. -/
theorem does_release (stable : Stable i P) (hP : P s)
    (ready : ∀ s, P s → ∃ b mode xs m, h.db.chainoff = headOff b ∧ Ready i n req k b mode xs r m s) :
    Does i (un_lockByte h.db.chainoff >>= fun _ => pure r) (fun r _ s' => Idle i (k r) s') h s := by
  refine (does_unlock stable (Idle.stable (c := k r)) hP fun s hP => ?_).then ?_
  · obtain ⟨b, mode, xs, m, off, ready⟩ := ready s hP
    rw [off]
    exact ⟨_, ready.release⟩
  · rintro _ h' s' ⟨idle, -⟩
    exact does_return Idle.stable idle fun s idle => idle

omit [DecidableEq ι] in
/-- A call that leaves the table as it is. -/
theorem On.ready (on : On i (.call (n, req) k) b mode xs s)
    (answer : req.answer s.map = (r, s.map)) : Ready i n req k b mode xs r s.map s :=
  { on with
    torn := fun b' torn => absurd torn (on.torn b')
    links := on.links
    entries := on.entries
    answer
    outside := fun _ _ => rfl
    reader := fun _ => ⟨rfl, on.whole⟩ }

/-! ## Fetching -/

/-- A record that has been found, with the data of the table. -/
structure Has (i : ι) (c : Client β) (mode : Bool) (key : Key) (data : Data) (as : List Nat)
    (o : Nat) (bs : List Nat) (t : Slot) (s : State ι β) : Prop
    extends Found i c (bucket key.text) mode as o bs t s where
  same : t.key = key.text
  value : s.map key = some data
  data : s.data t = data.text ++ [NEWLINE]

omit [DecidableEq ι] in
theorem Found.has (found : Found i c (bucket key.text) mode as o bs t s) (key' : t.key = key.text) :
    ∃ data, Has i c mode key data as o bs t s := by
  obtain ⟨t', key'', data, holds, -, value⟩ := found.entries.holds o (by simp)
  have same : t = t' := by
    have := found.here.symm.trans holds.here
    simpa using this
  subst same
  obtain rfl : key'' = key := Key.ext (holds.key.symm.trans key')
  exact ⟨data, { found with same := key', value, data := holds.data }⟩

omit [DecidableEq ι] in
theorem Has.stable {data : Data} : Stable i (Has (β := β) i c mode key data as o bs t) where
  inv _ has := has.inv
  rely _ _ has others :=
    { Found.stable.rely _ _ has.toFound others with
      same := has.same
      value := (has.toOn.map others rfl).trans has.value
      data := ((others.slot ((has.entries.owns o).2 (by simp)) has.reads).2.2 t has.here).trans
        has.data }

/-- **A fetch.** -/
theorem does_fetch {turns : Nat} (many : 9999999 < turns)
    {k : Reply (.fetch key) → Client β} (idle : Idle i (.call (n, .fetch key) k) s) :
    Does i (db_fetch turns key.text) (fun r _ s' => Idle i (k r) s') h s := by
  refine (does_find many idle h).then ?_
  rintro found h' s' (⟨rfl, as, o, bs, t, found, same, at'⟩ | ⟨rfl, off, xs, missing⟩)
  · obtain ⟨data, has⟩ := found.has same
    have long : h'.db.datlen = data.text.length + 1 := by
      rw [at'.datlen, ← has.inv.laid.data_length has.here, has.data, List.length_append]
      rfl
    refine (does_readdat Has.stable has at'.datoff (fun s has => ?_) long).then ?_
    · rw [at'.datlen]
      exact has.data
    rintro _ h'' s'' ⟨has, rfl, off⟩
    refine does_setDB.2 (does_getDB.2 (does_release (n := n) (k := k) Has.stable has fun s has => ?_))
    refine ⟨_, _, _, _, off.trans at'.chainoff, has.ready ?_⟩
    rw [Req.answer, has.value]
    rfl
  · refine does_setDB.2 (does_getDB.2 (does_release (n := n) (k := k) Missing.stable missing fun s missing => ?_))
    refine ⟨_, _, _, _, off, missing.ready ?_⟩
    rw [Req.answer, missing.missing]
    rfl

end

end UnixProgramming.Db
