import UnixProgramming.Calls.Order
import UnixProgramming.Db.Library

/-!
# The order of the locks

The library takes the lock of a chain first, then that of the free list or of
the end of a file, and one of these at a time. This holds whatever is in the
files.

* `Quiet`, `Level`, `Under`: what a function does with locks;
* `library_keeps`: every program over the library keeps to the order;
* `library_never_stops`, `library_completes`: what comes of it side by side.
-/

namespace UnixProgramming.Db

open Calls (Prog Pool Order Terms)
open Ssl (Byte)

/-- A lock: the first byte, and how many there are. -/
structure Region where
  file : File
  off : Nat
  len : Nat
  deriving DecidableEq

/-- The locks of the library. -/
def Region.Known : Region → Prop
  | ⟨.idx, off, len⟩ => (off < TAIL ∧ len = 1) ∨ (off = TAIL ∧ len = 0)
  | ⟨.dat, off, len⟩ => off = 0 ∧ len = 0

/-- Chains, the free list, the end of the data file, the end of the index file. -/
def Region.rank : Region → Nat
  | ⟨.idx, off, _⟩ => if off = FREE_OFF then 1 else if off < TAIL then 0 else 3
  | ⟨.dat, _, _⟩ => 2

def locking : Order Sys Region where
  may c := ∀ f write off len, c = .lock f write off len → Region.Known ⟨f, off, len⟩
  takes
    | .lock f _ off len => some ⟨f, off, len⟩
    | _ => none
  gives
    | .unlock f off len => some ⟨f, off, len⟩
    | _ => none
  rank := Region.rank

variable {α γ : Type} {m : Action α} {k : α → Action γ} {h : Handle} {held : List Region}

/-! ## What a function does with locks -/

/-- No locks at all; the chain of the handle stays. -/
def Quiet (m : Action α) : Prop := ∀ h held,
  locking.does m (fun _ h' held' => held' = held ∧ h'.db.chainoff = h.db.chainoff) h held

/-- All locks that are taken are given back; those that there are already are of chains. -/
def Level (m : Action α) : Prop := ∀ h held, (∀ l ∈ held, Region.rank l = 0) →
  locking.does m (fun _ h' held' => held' = held ∧ h'.db.chainoff = h.db.chainoff) h held

/-- The lock `l` is given back. -/
def Under (l : Region) (m : Action α) : Prop := ∀ h held, (∀ l ∈ held, Region.rank l = 0) →
  locking.does m (fun _ h' held' => held' = held ∧ h'.db.chainoff = h.db.chainoff) h (l :: held)

theorem Quiet.bind (first : Quiet m) (rest : ∀ a, Quiet (k a)) : Quiet (m >>= k) := by
  refine fun h held => Order.does_bind.2 ((first h held).mono ?_)
  rintro a h' held' ⟨rfl, off⟩
  exact (rest a h' held').mono fun _ _ _ both => ⟨both.1, both.2.trans off⟩

theorem Quiet.level (quiet : Quiet m) : Level m := fun h held _ => quiet h held

theorem Level.bind (first : Level m) (rest : ∀ a, Level (k a)) : Level (m >>= k) := by
  refine fun h held chains => Order.does_bind.2 ((first h held chains).mono ?_)
  rintro a h' held' ⟨rfl, off⟩
  exact (rest a h' held' chains).mono fun _ _ _ both => ⟨both.1, both.2.trans off⟩

variable {l : Region}

theorem Quiet.after (first : Quiet m) (rest : ∀ a, Under l (k a)) : Under l (m >>= k) := by
  refine fun h held chains => Order.does_bind.2 ((first h (l :: held)).mono ?_)
  rintro a h' held' ⟨rfl, off⟩
  exact (rest a h' held chains).mono fun _ _ _ both => ⟨both.1, both.2.trans off⟩

theorem Under.bind (first : Under l m) (rest : ∀ a, Level (k a)) : Under l (m >>= k) := by
  refine fun h held chains => Order.does_bind.2 ((first h held chains).mono ?_)
  rintro a h' held' ⟨rfl, off⟩
  exact (rest a h' held' chains).mono fun _ _ _ both => ⟨both.1, both.2.trans off⟩

theorem quiet_pure (a : α) : Quiet (pure a) := fun _ _ => ⟨rfl, rfl⟩

theorem does_stop (why : Stop) {Q : α → Handle → List Region → Prop} :
    locking.does (stop why) Q h held := by
  refine ⟨fun f write off len e => ?_, fun l e => ?_, fun r => r.elim⟩
  · cases e
  · cases e

theorem quiet_stop (why : Stop) : Quiet (stop why : Action α) := fun _ _ => does_stop why

theorem quiet_sys {c : Sys} (takes : locking.takes c = none) (gives : locking.gives c = none) :
    Quiet (sys c) := by
  refine fun h held => ⟨fun f write off len e => ?_, fun l e => ?_, fun r => ⟨?_, rfl⟩⟩
  · rw [e] at takes
    cases takes
  · rw [takes] at e
    cases e
  · rw [Order.after, takes, gives]
    rfl

theorem quiet_get : Quiet (get : Action Handle) := fun _ _ => ⟨rfl, rfl⟩

theorem quiet_seek (f : File) (o : Nat) : Quiet (modify fun h => h.seek f o) := fun _ _ => ⟨rfl, rfl⟩

theorem quiet_getDB : Quiet getDB := fun _ _ => ⟨rfl, rfl⟩

theorem quiet_setDB {f : DB → DB} (same : ∀ db, (f db).chainoff = db.chainoff) :
    Quiet (setDB f) := fun h _ => ⟨rfl, same h.db⟩

theorem quiet_ite {p : Prop} [Decidable p] {m' : Action α} (yes : Quiet m) (no : Quiet m') :
    Quiet (if p then m else m') := by
  split
  · exact yes
  · exact no

theorem level_ite {p : Prop} [Decidable p] {m' : Action α} (yes : Level m) (no : Level m') :
    Level (if p then m else m') := by
  split
  · exact yes
  · exact no

/-- Taking a lock that is given back. -/
theorem Level.lock {f : File} {write : Bool} {off len : Nat} {k : Unit → Action α}
    (known : Region.Known ⟨f, off, len⟩) (other : Region.rank ⟨f, off, len⟩ ≠ 0)
    (rest : Under ⟨f, off, len⟩ (k ())) : Level (sys (.lock f write off len) >>= k) := by
  intro h held chains
  refine ⟨?_, ?_, fun _ => rest h held chains⟩
  · rintro f' write' off' len' e
    cases e
    exact known
  · rintro l e l' there
    cases e
    change Region.rank l' < Region.rank ⟨f, off, len⟩
    rw [chains l' there]
    omega

theorem under_unlock (f : File) (off len : Nat) : Under ⟨f, off, len⟩ (sys (.unlock f off len)) := by
  intro h held _
  refine ⟨fun f write off len e => ?_, fun l e => ?_, fun _ => ⟨?_, rfl⟩⟩
  · cases e
  · cases e
  · exact List.erase_cons_head ..

/-! ## The functions -/

section
variable {f : File} {msg : String}

theorem quiet_lseek (offset : Int) (whence : Whence) : Quiet (lseek f offset whence msg) := by
  unfold lseek
  cases whence with
  | SEEK_SET =>
    refine (quiet_pure 0).bind fun base => ?_
    exact quiet_ite (quiet_stop _) ((quiet_seek _ _).bind fun _ => quiet_pure _)
  | SEEK_END =>
    refine (quiet_sys rfl rfl).bind fun base => ?_
    exact quiet_ite (quiet_stop _) ((quiet_seek _ _).bind fun _ => quiet_pure _)

theorem quiet_read (n : Nat) : Quiet (read f n) := by
  rw [read]
  refine quiet_get.bind fun h => ?_
  refine (quiet_sys rfl rfl).bind fun bs => ?_
  exact (quiet_seek _ _).bind fun _ => quiet_pure bs

theorem quiet_write (bs : List Byte) : Quiet (write f bs) := by
  rw [write]
  refine quiet_get.bind fun h => ?_
  exact (quiet_sys rfl rfl).bind fun _ => quiet_seek _ _

theorem quiet_readptr (offset : Int) : Quiet (readptr offset) := by
  rw [readptr]
  refine (quiet_lseek _ _).bind fun _ => (quiet_read _).bind fun asciiptr => ?_
  exact quiet_ite (quiet_stop _) (quiet_pure _)

theorem quiet_separate (text : List Byte) : Quiet (separate text) := by
  rw [separate]
  split
  · exact quiet_stop _
  · split
    · exact quiet_stop _
    · refine quiet_ite (quiet_stop _) (quiet_ite (quiet_stop _) (quiet_ite (quiet_stop _) ?_))
      exact quiet_setDB fun _ => rfl

theorem quiet_readhere (mayEnd : Bool) : Quiet (readhere mayEnd) := by
  rw [readhere]
  refine (quiet_read _).bind fun head => quiet_ite (quiet_ite (quiet_pure _) (quiet_stop _)) ?_
  refine Quiet.bind (quiet_setDB fun _ => rfl) fun _ => quiet_ite (quiet_stop _) ?_
  refine (quiet_read _).bind fun body => quiet_ite (quiet_stop _) (quiet_ite (quiet_stop _) ?_)
  exact (quiet_separate _).bind fun _ => quiet_pure _

theorem quiet_readidx (offset : Int) : Quiet (readidx offset) := by
  rw [readidx]
  refine quiet_ite ?_ ?_
  · refine quiet_get.bind fun h => ?_
    exact Quiet.bind (quiet_setDB fun _ => rfl) fun _ => quiet_readhere _
  · refine (quiet_lseek _ _).bind fun idxoff => ?_
    exact Quiet.bind (quiet_setDB fun _ => rfl) fun _ => quiet_readhere _

theorem quiet_readdat : Quiet readdat := by
  rw [readdat]
  refine quiet_getDB.bind fun db => (quiet_lseek _ _).bind fun _ => (quiet_read _).bind fun bs => ?_
  refine quiet_ite (quiet_stop _) (quiet_ite (quiet_stop _) ?_)
  exact Quiet.bind (quiet_setDB fun _ => rfl) fun _ => quiet_pure _

theorem quiet_writeptr (offset ptrval : Int) : Quiet (writeptr offset ptrval) := by
  rw [writeptr]
  exact quiet_ite (quiet_stop _) ((quiet_lseek _ _).bind fun _ => quiet_write _)

theorem quiet_count (f : Counts → Counts) : Quiet (count f) := quiet_setDB fun _ => rfl

end

theorem quiet_writedat (data : List Byte) (offset : Int) : Quiet (writedat data offset .SEEK_SET) := by
  rw [writedat, if_neg (by decide), if_neg (by decide)]
  refine (quiet_lseek _ _).bind fun datoff => ?_
  refine Quiet.bind (quiet_setDB fun _ => rfl) fun _ => ?_
  exact (quiet_write _).bind fun _ => quiet_pure _

/-- The data file is locked when data are added. -/
theorem level_writedat (data : List Byte) (offset : Int) : Level (writedat data offset .SEEK_END) := by
  rw [writedat, if_pos rfl, if_pos rfl]
  refine Level.lock ⟨rfl, rfl⟩ (by decide) ((quiet_lseek _ _).after fun datoff => ?_)
  refine Quiet.after (quiet_setDB fun _ => rfl) fun _ => ?_
  exact (quiet_write _).after fun _ => under_unlock _ _ _

theorem quiet_writeidx (key : List Byte) (offset ptrval : Int) :
    Quiet (writeidx key offset .SEEK_SET ptrval) := by
  rw [writeidx]
  refine Quiet.bind (quiet_setDB fun _ => rfl) fun _ => quiet_ite (quiet_stop _) ?_
  refine quiet_getDB.bind fun db => quiet_ite (quiet_stop _) ?_
  refine Quiet.bind (quiet_setDB fun _ => rfl) fun _ => quiet_ite (quiet_stop _) ?_
  rw [if_neg (by decide), if_neg (by decide)]
  refine (quiet_lseek _ _).bind fun idxoff => ?_
  refine Quiet.bind (quiet_setDB fun _ => rfl) fun _ => ?_
  exact (quiet_write _).bind fun _ => quiet_pure _

/-- The end of the index file is locked when a record is added. -/
theorem level_writeidx (key : List Byte) (offset ptrval : Int) :
    Level (writeidx key offset .SEEK_END ptrval) := by
  rw [writeidx]
  refine Level.bind (Quiet.level (quiet_setDB fun _ => rfl)) fun _ =>
    level_ite (quiet_stop _).level ?_
  refine quiet_getDB.level.bind fun db => level_ite (quiet_stop _).level ?_
  refine Level.bind (Quiet.level (quiet_setDB fun _ => rfl)) fun _ =>
    level_ite (quiet_stop _).level ?_
  rw [if_pos rfl, if_pos rfl]
  refine Level.lock (.inr ⟨rfl, rfl⟩) (by decide) ((quiet_lseek _ _).after fun idxoff => ?_)
  refine Quiet.after (quiet_setDB fun _ => rfl) fun _ => ?_
  exact (quiet_write _).after fun _ => under_unlock _ _ _

theorem level_dodelete : Level dodelete := by
  rw [dodelete]
  refine Level.bind (Quiet.level (quiet_setDB fun _ => rfl)) fun _ => ?_
  refine Level.lock (.inl ⟨by decide, rfl⟩) (by decide) ?_
  refine quiet_getDB.after fun db => (quiet_writedat _ _).after fun _ => ?_
  refine (quiet_readptr _).after fun freeptr => quiet_getDB.after fun db => ?_
  refine quiet_getDB.after fun db => (quiet_writeidx _ _ _).after fun _ => ?_
  refine quiet_getDB.after fun db => (quiet_writeptr _ _).after fun _ => ?_
  exact (quiet_writeptr _ _).after fun _ => under_unlock _ _ _

theorem quiet_findFrom (key : List Byte) (turns : Nat) (offset : Int) :
    Quiet (findFrom key turns offset) := by
  induction turns generalizing offset with
  | zero => exact quiet_stop _
  | succ turns ih =>
    rw [findFrom]
    refine quiet_ite (quiet_pure _) ((quiet_readidx _).bind fun next => quiet_getDB.bind fun db => ?_)
    exact quiet_ite (quiet_pure _) (Quiet.bind (quiet_setDB fun _ => rfl) fun _ => ih next)

theorem quiet_freeFrom (keylen datlen turns : Nat) (save offset : Int) :
    Quiet (freeFrom keylen datlen turns save offset) := by
  induction turns generalizing save offset with
  | zero => exact quiet_stop _
  | succ turns ih =>
    rw [freeFrom]
    refine quiet_ite (quiet_pure _) ((quiet_readidx _).bind fun next => quiet_getDB.bind fun db => ?_)
    exact quiet_ite (quiet_pure _) (ih offset next)

theorem level_findfree (turns keylen datlen : Nat) : Level (findfree turns keylen datlen) := by
  rw [findfree]
  refine Level.lock (.inl ⟨by decide, rfl⟩) (by decide) ?_
  refine (quiet_readptr _).after fun offset => (quiet_freeFrom _ _ _ _ _).after fun found => ?_
  cases found with
  | none => exact (under_unlock _ _ _).bind fun _ => (quiet_pure _).level
  | some save =>
    refine quiet_getDB.after fun db => (quiet_writeptr _ _).after fun _ => ?_
    exact (under_unlock _ _ _).bind fun _ => (quiet_pure _).level

theorem level_append (key data : List Byte) (ptrval : Int) : Level (append key data ptrval) := by
  rw [append]
  refine (level_writedat _ _).bind fun _ => (level_writeidx _ _ _).bind fun _ => ?_
  exact quiet_getDB.level.bind fun db => (quiet_writeptr _ _).level

theorem level_reuse (key data : List Byte) (ptrval : Int) : Level (reuse key data ptrval) := by
  rw [reuse]
  refine Quiet.level (quiet_getDB.bind fun db => (quiet_writedat _ _).bind fun _ => ?_)
  refine quiet_getDB.bind fun db => (quiet_writeidx _ _ _).bind fun _ => ?_
  exact quiet_getDB.bind fun db => quiet_writeptr _ _

theorem level_storeNew (turns : Nat) (key data : List Byte) (flag : Int) :
    Level (storeNew turns key data flag) := by
  rw [storeNew]
  refine level_ite ?_ ?_
  · exact Quiet.level ((quiet_count _).bind fun _ =>
      Quiet.bind (fun _ _ => ⟨rfl, rfl⟩) fun _ => quiet_pure _)
  · refine quiet_getDB.level.bind fun db => (quiet_readptr _).level.bind fun ptrval => ?_
    refine (level_findfree _ _ _).bind fun found => level_ite ?_ ?_
    · exact (level_reuse _ _ _).bind fun _ =>
        (quiet_count _).level.bind fun _ => (quiet_pure _).level
    · exact (level_append _ _ _).bind fun _ =>
        (quiet_count _).level.bind fun _ => (quiet_pure _).level

theorem level_storeOld (key : List Byte) (src : Source) (flag : Int) :
    Level (storeOld key src flag) := by
  rw [storeOld]
  refine level_ite ?_ ?_
  · exact Quiet.level ((quiet_count _).bind fun _ => quiet_pure _)
  · refine quiet_getDB.level.bind fun db => level_ite ?_ ?_
    · refine level_dodelete.bind fun _ => (quiet_readptr _).level.bind fun ptrval => ?_
      refine quiet_getDB.level.bind fun db => ?_
      exact (level_append _ _ _).bind fun _ =>
        (quiet_count _).level.bind fun _ => (quiet_pure _).level
    · exact Quiet.level ((quiet_writedat _ _).bind fun _ =>
        (quiet_count _).bind fun _ => quiet_pure _)

/-! ## The calls -/

/-- All locks are given back, when there are none to begin with. -/
def Fair (m : Action α) : Prop := ∀ h, locking.does m (fun _ _ held => held = []) h []

/-- The lock of the chain that the handle is at. -/
abbrev chainLock (h : Handle) : Region := ⟨.idx, h.db.chainoff, 1⟩

/-- What follows a search. -/
def Chained (m : Action α) : Prop := ∀ h, h.db.chainoff < TAIL → h.db.chainoff ≠ FREE_OFF →
  locking.does m (fun _ _ held => held = []) h [chainLock h]

theorem Chained.after (first : Level m) (rest : ∀ a, Chained (k a)) : Chained (m >>= k) := by
  intro h tail free
  have chain : ∀ l ∈ [chainLock h], Region.rank l = 0 := by
    intro l there
    rw [List.mem_singleton.1 there, Region.rank, if_neg free, if_pos tail]
  refine Order.does_bind.2 ((first h _ chain).mono ?_)
  rintro a h' held' ⟨rfl, off⟩
  have again := rest a h' (off ▸ tail) (off ▸ free)
  rwa [chainLock, off] at again

/-- A call gives the chain back and returns. -/
theorem chained_unlock (a : α) :
    Chained (getDB >>= fun db => un_lockByte db.chainoff >>= fun _ => pure a) := by
  intro h _ _
  refine ⟨fun f write off len e => ?_, fun l e => ?_, fun _ => ?_⟩
  · cases e
  · cases e
  · exact List.erase_cons_head ..

theorem headOff_known (b : Bucket) : Region.Known ⟨.idx, headOff b, 1⟩ :=
  .inl ⟨headOff_lt b, rfl⟩

/-- A search, and what follows it. -/
theorem fair_find {turns : Nat} {key : List Byte} {writelock : Bool} {k : Bool → Action α}
    (rest : ∀ found, Chained (k found)) : Fair (find_and_lock turns key writelock >>= k) := by
  intro h
  have head : hash key * PTR_SZ + HASH_OFF = headOff (bucket key) := rfl
  rw [find_and_lock, head, bind_assoc, bind_assoc]
  refine ⟨?_, fun l _ l' there => ?_, fun _ => ?_⟩
  · rintro f write off len e
    cases e
    exact headOff_known _
  · cases there
  · have search : Quiet (readptr (headOff (bucket key)) >>= fun offset =>
        findFrom key turns offset) := (quiet_readptr _).bind fun _ => quiet_findFrom _ _ _
    show locking.does ((readptr (headOff (bucket key)) >>= fun offset => findFrom key turns offset)
      >>= k) (fun _ _ held => held = []) (h.on fun db => { db with
        chainoff := headOff (bucket key), ptroff := (headOff (bucket key) : Nat) })
      [⟨.idx, headOff (bucket key), 1⟩]
    refine Order.does_bind.2 ((search _ _).mono ?_)
    rintro found h' held' ⟨rfl, off⟩
    have again := rest found h' (by rw [off]; exact headOff_lt _)
      (by rw [off]; exact headOff_ne_free _)
    rwa [chainLock, off] at again

theorem fair_fetch (turns : Nat) (key : List Byte) : Fair (db_fetch turns key) := by
  rw [db_fetch]
  refine fair_find fun found => ?_
  cases found with
  | true =>
    exact Chained.after quiet_readdat.level fun data =>
      Chained.after (quiet_count _).level fun _ => chained_unlock _
  | false => exact Chained.after (quiet_count _).level fun _ => chained_unlock _

theorem fair_delete (turns : Nat) (key : List Byte) : Fair (db_delete turns key) := by
  rw [db_delete]
  refine fair_find fun found => ?_
  cases found with
  | true =>
    exact Chained.after level_dodelete fun _ =>
      Chained.after (quiet_count _).level fun _ => chained_unlock _
  | false => exact Chained.after (quiet_count _).level fun _ => chained_unlock _

theorem fair_getDB {k : DB → Action α} (rest : ∀ db, Fair (k db)) : Fair (getDB >>= k) :=
  fun h => rest h.db h

theorem fair_store (turns : Nat) (key : List Byte) (src : Source) (flag : Int) :
    Fair (db_store turns key src flag) := by
  rw [db_store]
  refine fair_getDB fun db => ?_
  dsimp only
  split
  · exact fun h => rfl
  · split
    · exact fun h => does_stop _
    · refine fair_find fun found => ?_
      cases found with
      | true => exact Chained.after (level_storeOld _ _ _) fun rc => chained_unlock rc
      | false => exact Chained.after (level_storeNew _ _ _ _) fun rc => chained_unlock rc

theorem fair_action (turns : Nat) (req : Req) : Fair (req.action turns) := by
  cases req with
  | fetch key => exact fair_fetch turns key.text
  | delete key => exact fair_delete turns key.text
  | store key data flag => exact fair_store turns key.text (.own data.text) flag.code

/-- **Every program over the library keeps to the order of the locks**, and ends without any. -/
theorem library_keeps {β : Type} (turns : Nat) (client : Client β) (handles : Nat → Handle) :
    locking.keeps (client.library turns handles) (fun _ held => held = []) [] := by
  induction client generalizing handles with
  | ret b => exact rfl
  | call d k ih =>
    have first := fair_action turns d.2 (handles d.1)
    refine Order.keeps_bind.2 (Order.keeps_bind.2 (Order.keeps.mono first fun x held none' => ?_))
    rw [none']
    exact ih x.1 _

/-! ## Side by side -/

variable {ι β : Type} [DecidableEq ι] {i j : ι} {w : World ι} {helds : ι → List Region}

/-- What the kernel has of the locks of all processes. -/
structure Covered (w : World ι) (helds : ι → List Region) : Prop where
  held : ∀ i f n, (w.locks i f n).isSome → ∃ l ∈ helds i, l.file = f ∧ covers l.off l.len n
  known : ∀ i, ∀ l ∈ helds i, l.Known

/-- Locks in each other's way are of one rank. -/
theorem rank_eq {l l' : Region} (known : l.Known) (known' : l'.Known) (same : l.file = l'.file)
    {n : Nat} (there : covers l.off l.len n) (there' : covers l'.off l'.len n) :
    l.rank = l'.rank := by
  obtain ⟨f, off, len⟩ := l
  obtain ⟨f', off', len'⟩ := l'
  simp only [covers] at there there'
  simp only at same
  subst same
  cases f with
  | dat => rfl
  | idx =>
    simp only [Region.Known] at known known'
    have : off = off' := by omega
    rw [this, Region.rank, Region.rank]

theorem Covered.step {c : Sys} {r : Answer c} {w' : World ι} (covered : Covered w helds)
    (may : locking.may c) (does : sem i c w r w') :
    Covered w' (Function.update helds i (locking.after c (helds i))) := by
  have same (locks : w'.locks = w.locks) (none' : locking.after c (helds i) = helds i) :
      Covered w' (Function.update helds i (locking.after c (helds i))) := by
    rw [none', Function.update_eq_self]
    exact ⟨by rw [locks]; exact covered.held, covered.known⟩
  obtain ⟨-, locks⟩ := does
  cases c with
  | openf f creat trunc => exact same locks rfl
  | size f => exact same locks rfl
  | read f off n => exact same locks rfl
  | write f off bs => exact same locks rfl
  | stop why => exact r.elim
  | lock f write off len =>
    obtain ⟨-, locks⟩ := locks
    have after : locking.after (.lock f write off len) (helds i) = ⟨f, off, len⟩ :: helds i := rfl
    rw [after]
    refine ⟨fun j f' n some' => ?_, fun j l there => ?_⟩
    · rw [locks] at some'
      rcases eq_or_ne j i with rfl | other
      · rw [Function.update_self]
        rw [Locks.set_self] at some'
        split at some'
        · rename_i here
          exact ⟨_, List.mem_cons_self .., here.1.symm, here.2⟩
        · obtain ⟨l, there, rest⟩ := covered.held j f' n some'
          exact ⟨l, List.mem_cons_of_mem _ there, rest⟩
      · rw [Locks.set_other other] at some'
        rw [Function.update_of_ne other]
        exact covered.held j f' n some'
    · rcases eq_or_ne j i with rfl | other
      · rw [Function.update_self] at there
        rcases List.mem_cons.1 there with rfl | there
        · exact may f write off len rfl
        · exact covered.known j l there
      · rw [Function.update_of_ne other] at there
        exact covered.known j l there
  | unlock f off len =>
    have after : locking.after (.unlock f off len) (helds i) = (helds i).erase ⟨f, off, len⟩ := rfl
    rw [after]
    refine ⟨fun j f' n some' => ?_, fun j l there => ?_⟩
    · replace some' : (w.locks.set i f off len none j f' n).isSome := by rwa [locks] at some'
      rcases eq_or_ne j i with rfl | other
      · rw [Function.update_self]
        rw [Locks.set_self] at some'
        split at some'
        · cases some'
        · rename_i notHere
          obtain ⟨l, there, file, byte⟩ := covered.held j f' n some'
          refine ⟨l, (List.mem_erase_of_ne ?_).2 there, file, byte⟩
          rintro rfl
          exact notHere ⟨file.symm, byte⟩
      · rw [Locks.set_other other] at some'
        rw [Function.update_of_ne other]
        exact covered.held j f' n some'
    · rcases eq_or_ne j i with rfl | other
      · rw [Function.update_self] at there
        exact covered.known j l (List.mem_of_mem_erase there)
      · rw [Function.update_of_ne other] at there
        exact covered.known j l there

/-- Who cannot make its call waits for a lock of the same rank. -/
theorem Covered.waits (covered : Covered w helds) {c : Sys} (may : locking.may c)
    (goes : ∀ why, c ≠ .stop why) : (∃ r w', sem i c w r w') ∨
      ∃ l ∈ locking.takes c, ∃ j, ∃ l' ∈ helds j, locking.rank l' = locking.rank l := by
  cases c with
  | openf f creat trunc =>
    by_cases there : w.files.exists' f || creat
    · have answer : (Sys.openf f creat trunc).answer w.files = some (true, _) := if_pos there
      exact .inl ⟨true, ⟨_, w.locks⟩, answer, rfl⟩
    · exact .inl ⟨false, w, by rw [Sys.answer, if_neg there], rfl⟩
  | size f => exact .inl ⟨_, w, rfl, rfl⟩
  | read f off n => exact .inl ⟨_, w, rfl, rfl⟩
  | write f off bs => exact .inl ⟨(), ⟨_, w.locks⟩, rfl, rfl⟩
  | unlock f off len => exact .inl ⟨(), ⟨w.files, w.locks.set i f off len none⟩, rfl, rfl⟩
  | stop why => exact absurd rfl (goes why)
  | lock f write off len =>
    by_cases grant : Grant w.locks i f write off len
    · exact .inl ⟨(), ⟨w.files, w.locks.set i f off len (some write)⟩, rfl, grant, rfl⟩
    · right
      rw [Grant] at grant
      push Not at grant
      obtain ⟨j, -, n, byte, mode, theirs, -⟩ := grant
      obtain ⟨l', there, file, byte'⟩ := covered.held j f n (by rw [theirs]; rfl)
      refine ⟨⟨f, off, len⟩, rfl, j, l', there, ?_⟩
      exact rank_eq (covered.known j l' there) (may f write off len rfl) file byte' byte

variable {turns : Nat} {clients : ι → Client β} {handles : ι → Nat → Handle} {m : Table}
  {P P' : Pool Answer ι (World ι) β}

/-- What one step leaves of the locks. -/
theorem Covered.run_step (covered : Covered P.state helds)
    (all : ∀ i, locking.keeps (P.prog i) (fun _ held => held = []) (helds i))
    (step : Pool.Step semSmall i P P') : ∃ helds', Covered P'.state helds' ∧
      (∀ i, locking.keeps (P'.prog i) (fun _ held => held = []) (helds' i)) ∧
      ∀ j, j ≠ i → helds' j = helds j := by
  cases step with
  | @call c k r w' next does =>
    refine ⟨_, covered.step ?_ does.1, fun j => Order.step all next j, fun j other =>
      Function.update_of_ne other _ _⟩
    have mine := all i
    rw [next] at mine
    exact mine.1

/-- The locks at any time of a run, as the programs and the kernel have them. -/
theorem run_covered (none' : ∀ i f n, w.locks i f n = none)
    (run : Pool.Reaches semSmall (start turns w clients handles) P) : ∃ helds,
      Covered P.state helds ∧ ∀ i, locking.keeps (P.prog i) (fun _ held => held = []) (helds i) := by
  induction run with
  | refl =>
    refine ⟨fun _ => [], ⟨fun i f n some' => ?_, fun i l there => ?_⟩, fun i => library_keeps ..⟩
    · rw [show (start turns w clients handles).state.locks i f n = none from none' i f n] at some'
      cases some'
    · cases there
  | step run last ih =>
    obtain ⟨helds, covered, all⟩ := ih
    obtain ⟨helds', covered', all', -⟩ := covered.run_step all last
    exact ⟨helds', covered', all'⟩

/-- What many steps of processes that keep to the terms leave. -/
theorem guar_run {s s' : State ι β}
    (steps : Relation.ReflTransGen (fun s s' => ∃ i, Guar i s s') s s') :
    (Inv s → Inv s') ∧ Pool.Reaches (spec ι) s.2.pool s'.2.pool ∧
      ∀ o, s'.2.own o = some .lost → s.2.own o = some .lost := by
  induction steps with
  | refl => exact ⟨id, .refl, fun _ => id⟩
  | tail _ guar ih =>
    obtain ⟨i, guar⟩ := guar
    obtain ⟨-, run, lost⟩ := ih
    refine ⟨fun _ => guar.inv, ?_, fun o own => ?_⟩
    · rcases guar.pool with same | step
      · rw [same]
        exact run
      · exact run.step step
    · rcases guar.own o _ own with before | ⟨n, at', -⟩
      · exact lost o before
      · cases at'

/-- What holds at any time of a run. -/
theorem run_inv (many : 9999999 < turns) {g : Ghost ι Unit} (rest : w.Rest g m)
    (run : Pool.Reaches semSmall (start turns w clients handles) P) : ∃ g' : Ghost ι β,
      Inv (P.state, g') ∧ Pool.Reaches (spec ι) ⟨m, clients⟩ g'.pool ∧
      (∀ i, (terms ι β).wp semSmall i (P.prog i) (fun b s => Idle i (.ret b) s) (P.state, g')) ∧
      ∀ o, g'.own o = some .lost → g.own o = some .lost := by
  have all (i : ι) := library_wp many (handles i) (rest.idle clients i)
  obtain ⟨g', steps, all'⟩ := Terms.together_run (P := start turns w clients handles) all run
  obtain ⟨inv, run', lost⟩ := guar_run steps
  exact ⟨g', inv (rest.inv.withPool rest.whole rest.table.symm), run', all', lost⟩

/-- One of the processes that are alive can go on. -/
theorem Covered.goes_on {live : ι → Prop} (covered : Covered P.state helds)
    (all : ∀ i, locking.keeps (P.prog i) (fun _ held => held = []) (helds i))
    (lives : ∀ j, ∀ l ∈ helds j, live j)
    (goes : ∀ j c k, live j → P.prog j = .call c k → ∀ why, c ≠ .stop why)
    (alive : live i) (more : ∀ b, P.prog i ≠ .ret b) :
    ∃ j c k r w', P.prog j = .call c k ∧ sem j c P.state r w' := by
  have bounded (l : Region) : locking.rank l ≤ 3 := by
    obtain ⟨f, off, len⟩ := l
    change Region.rank _ ≤ 3
    cases f with
    | idx =>
      rw [Region.rank]
      split
      · decide
      · split <;> decide
    | dat => exact (by decide : 2 ≤ 3)
  refine Order.not_stuck bounded all (fun j c k alive next => ?_) lives alive more
  refine covered.waits ?_ (goes j c k alive next)
  have mine := all j
  rw [next] at mine
  exact mine.1

/-- No deadlock: as long as a process has not ended, one can go on. -/
theorem run_goes_on (many : 9999999 < turns) {g : Ghost ι Unit} (rest : w.Rest g m)
    (run : Pool.Reaches semSmall (start turns w clients handles) P)
    (more : ∀ b, P.prog i ≠ .ret b) :
    ∃ j c k r w', P.prog j = .call c k ∧ sem j c P.state r w' := by
  obtain ⟨helds, covered, all⟩ := run_covered rest.free run
  obtain ⟨g', -, -, wps, -⟩ := run_inv many rest run
  refine covered.goes_on all (fun _ _ _ => trivial) (fun j c k _ next => ?_) trivial more
  have mine := wps j
  rw [next] at mine
  exact (mine _ ((terms ι β).rely_refl j _)).1

/-- When all have ended, each with the value it would have with a table for all,
the files hold that table. -/
theorem run_clean (many : 9999999 < turns) (clean : w.Clean m)
    (run : Pool.Reaches semSmall (start turns w clients handles) P) {ends : ι → β}
    (ended : ∀ i, P.prog i = .ret (ends i)) : ∃ A, Pool.Reaches (spec ι) ⟨m, clients⟩ A ∧
      (∀ i, A.prog i = .ret (ends i)) ∧ P.state.Clean A.state := by
  obtain ⟨g, rest, whole'⟩ := clean
  obtain ⟨helds, covered, all⟩ := run_covered rest.free run
  obtain ⟨g', inv, steps, wps, lost⟩ := run_inv many rest run
  have idle (i : ι) : Idle i (.ret (ends i)) (P.state, g') := by
    have mine := wps i
    rw [ended] at mine
    exact mine _ ((terms ι β).rely_refl i _)
  have free (i : ι) (f : File) (n : Nat) : P.state.locks i f n = none := by
    have mine := all i
    rw [ended, Order.keeps] at mine
    by_contra some'
    obtain ⟨l, there, -⟩ := covered.held i f n (Option.isSome_iff_ne_none.2 some')
    rw [mine] at there
    cases there
  have whole (b : Bucket) : g'.torn b = none := by
    by_contra some'
    obtain ⟨i, torn⟩ := Option.ne_none_iff_exists'.1 some'
    exact (idle i).torn b torn
  refine ⟨g'.pool, steps, fun i => (idle i).prog, g'.withPool ⟨g'.pool.state, fun _ => .ret ()⟩, ?_⟩
  exact ⟨⟨inv.withPool whole rfl, rfl, free, fun i => (idle i).room, fun o i => (idle i).own o⟩,
    fun o own => whole' o (lost o own)⟩

/-! ## What never happens -/

/-- **No call of the library ends a process** as long as the files are small
enough: whatever the others do, what is read is what the library can make sense
of. -/
theorem library_never_stops (many : 9999999 < turns) (holds : w.Holds m)
    (run : Pool.Reaches semSmall (start turns w clients handles) P) (i : ι) (why : Stop)
    (k : Empty → Prog Answer β) : P.prog i ≠ .call (.stop why) k := by
  obtain ⟨g, rest⟩ := holds
  obtain ⟨g', -, -, wps, -⟩ := run_inv many rest run
  intro next
  have mine := wps i
  rw [next] at mine
  exact (mine _ ((terms ι β).rely_refl i _)).1 why rfl

/-- A store, and a process that does nothing. -/
def storeAlpha : Fin 2 → Client Int
  | 0 => insert alpha data1
  | 1 => return 0

/-- A new database behind the store. -/
def alphaWorld : World (Fin 2) :=
  (((storeAlpha 0).library 10000000 fun _ => {}).exec (World.answer 0 [])
    (emptyWorld (Fin 2))).2

def alphaTable : Table := Function.update (fun _ => none) alpha (some data1)

theorem storeAlpha_spec {A : Pool Reply.On (Fin 2) Table Int}
    (run : Pool.Reaches (spec (Fin 2)) ⟨fun _ => none, storeAlpha⟩ A) :
    A = ⟨fun _ => none, storeAlpha⟩ ∨ A.state = alphaTable ∧ ∀ i, ∃ n, A.prog i = .ret n := by
  induction run with
  | refl => exact .inl rfl
  | @step A A' i run last ih =>
    obtain ⟨next, does⟩ := last
    rcases ih with rfl | ⟨-, ended⟩
    · match i with
      | 0 =>
        cases next
        cases does
        refine .inr ⟨rfl, fun i => ?_⟩
        match i with
        | 0 => exact ⟨_, rfl⟩
        | 1 => exact ⟨_, rfl⟩
      | 1 => cases next
    · obtain ⟨n, ended⟩ := ended i
      rw [ended] at next
      cases next

theorem storeAlpha_ends : (((storeAlpha 0).library 10000000 fun _ => {}).exec (World.answer 0 [])
    (emptyWorld (Fin 2))).1 = some 0 := by
  decide +kernel

theorem storeAlpha_steps : ∃ n, ((storeAlpha 0).library 10000000 fun _ => {}).steps
    (World.answer 0 []) n (emptyWorld (Fin 2)) = some (.ret 0, alphaWorld) := by
  exact Prog.exists_steps storeAlpha_ends

attribute [irreducible] alphaWorld

theorem alphaWorld_clean : alphaWorld.Clean alphaTable := by
  have beside : (emptyWorld (Fin 2)).Beside 0 [] := fun _ _ _ _ lock => absurd rfl lock
  obtain ⟨n, steps⟩ := storeAlpha_steps
  have first := (Pool.Reaches.alone (i := 0)
    (P := start 10000000 (emptyWorld (Fin 2)) storeAlpha fun _ _ => {})
    (World.answer_sem []) beside steps).1
  have ended (i : Fin 2) : Function.update
      (start 10000000 (emptyWorld (Fin 2)) storeAlpha fun _ _ => {}).prog 0 (.ret 0) i = .ret 0 := by
    match i with
    | 0 => exact Function.update_self ..
    | 1 => exact Function.update_of_ne (by decide) ..
  obtain ⟨A, run, last, clean⟩ := run_clean (by decide) emptyWorld_clean first ended
  rcases storeAlpha_spec run with rfl | ⟨table, -⟩
  · cases last 0
  · rw [table] at clean
    exact clean

/-- A store, and a search for another key. -/
def storeAndFetch : Fin 2 → Client Int
  | 0 => insert beta dataForBeta
  | 1 => do
    let _ ← (Prog.ask ((0, .fetch alpha) : Req.On) : Client (Option (List Byte)))
    return 0

/-- A process is about to write the index record of a new key, while another one has
read the half of a record on another chain. -/
theorem library_never_stops_beside : ∃ P : Pool Answer (Fin 2) (World (Fin 2)) Int,
    Pool.Reaches semSmall (start 10000000 alphaWorld storeAndFetch fun _ _ => {}) P ∧
      (P.prog 0).next = .inr (.write .idx 988
        (padded PTR_SZ 0 ++ padded IDXLEN_SZ 10 ++ entry beta.text 6 14)) ∧
      (P.prog 1).next = .inr (.read .idx 978 10) ∧
      ∀ i why k, P.prog i ≠ .call (.stop why) k := by
  have all : (((storeAndFetch 1).library 10000000 fun _ => {}).steps (fun c s =>
      if c.OnlyAt .idx (headOff (bucket alpha.text)) then World.answer 1 [] c s else none) 3
        alphaWorld).bind (fun x => (((storeAndFetch 0).library 10000000 fun _ => {}).steps
      (World.answer 0 [(.idx, headOff (bucket alpha.text))]) 12 x.2).map
        fun y => (y.1.next, x.1.next)) = some (.inr (.write .idx 988
          (padded PTR_SZ 0 ++ padded IDXLEN_SZ 10 ++ entry beta.text 6 14)),
        .inr (.read .idx 978 10)) := by decide +kernel
  obtain ⟨x, reads, all⟩ := Option.bind_eq_some_iff.1 all
  obtain ⟨y, writes, next⟩ := Option.map_eq_some_iff.1 all
  obtain ⟨g, rest, -⟩ := alphaWorld_clean
  have first := Pool.Reaches.alone (i := 1)
    (P := start 10000000 alphaWorld storeAndFetch fun _ _ => {})
    (World.answer_only [] .idx (headOff (bucket alpha.text)))
    ⟨fun j _ f n lock => absurd (rest.free j f n) lock,
      fun f n lock => absurd (rest.free 1 f n) lock⟩ reads
  obtain ⟨reader, -, mine⟩ := first
  have beside : x.2.Beside 0 [(.idx, headOff (bucket alpha.text))] := by
    intro j other f n lock
    match j with
    | 0 => exact absurd rfl other
    | 1 => exact List.mem_singleton.2 (mine f n lock)
  have writer := (Pool.Reaches.alone (i := 0)
    (P := ⟨x.2, Function.update
      (start 10000000 alphaWorld storeAndFetch fun _ _ => {}).prog 1 x.1⟩)
    (World.answer_sem _) beside writes).1
  have run := reader.trans writer
  obtain ⟨write, read⟩ := Prod.mk.inj next
  exact ⟨_, run, write, read, library_never_stops (by decide) alphaWorld_clean.holds run⟩
/-! ## The end -/

/-- **No deadlock, and the right table in the end.** Every run comes to a point
from which there is no step. There all processes have ended, each with the value
it would have with a table for all, and the files hold that table; or a file is
too large for the next call of one. -/
theorem library_completes [Finite ι] (many : 9999999 < turns) (clean : w.Clean m)
    (clients : ι → Client β) (handles : ι → Nat → Handle) :
    (WellFounded fun P' P : Pool Answer ι (World ι) β => ∃ i, Pool.Step semSmall i P P') ∧
    ∀ P, Pool.Reaches semSmall (start turns w clients handles) P →
      (∀ i P', ¬ Pool.Step semSmall i P P') →
      (∃ (ends : ι → β) (A : _), (∀ i, P.prog i = .ret (ends i)) ∧ Pool.Reaches (spec ι) ⟨m, clients⟩ A ∧
        (∀ i, A.prog i = .ret (ends i)) ∧ P.state.Clean A.state) ∨
      ∃ i c k r w', P.prog i = .call c k ∧ sem i c P.state r w' ∧ ¬ w'.Small := by
  refine ⟨Pool.wellFounded semSmall, fun P run last => ?_⟩
  by_cases all : ∀ i, ∃ b, P.prog i = .ret b
  · choose ends ended using all
    obtain ⟨A, steps, same, clean'⟩ := run_clean many clean run ended
    exact .inl ⟨ends, A, ended, steps, same, clean'⟩
  · push Not at all
    obtain ⟨i, more⟩ := all
    obtain ⟨g, rest, -⟩ := clean
    obtain ⟨j, c, k, r, w', next, does⟩ := run_goes_on many rest run more
    refine .inr ⟨j, c, k, r, w', next, does, fun small => ?_⟩
    exact last j _ (.call next ⟨does, small⟩)

theorem library_completes_t4 :
    (WellFounded fun P' P : Pool Answer (Fin 2) (World (Fin 2)) (Option String) =>
      ∃ i, Pool.Step semSmall i P P') ∧
    ∀ P, Pool.Reaches semSmall
        (start 10000000 (emptyWorld (Fin 2)) (fun _ => t4) fun _ _ => {}) P →
      (∀ i P', ¬ Pool.Step semSmall i P P') →
      (∃ (ends : Fin 2 → Option String) (A : _), (∀ i, P.prog i = .ret (ends i)) ∧
        Pool.Reaches (spec (Fin 2)) ⟨fun _ => none, fun _ => t4⟩ A ∧
        (∀ i, A.prog i = .ret (ends i)) ∧ P.state.Clean A.state) ∨
      ∃ i c k r w', P.prog i = .call c k ∧ sem i c P.state r w' ∧ ¬ w'.Small :=
  library_completes (by decide) emptyWorld_clean _ _

end UnixProgramming.Db
