import UnixProgramming.Counted.Terms

/-!
# The steps of the threads

Each kind of operation as a step that keeps to the terms.

* `Guar.lock`, `Guar.unlock`: mutexes;
* `Guar.malloc`, `Guar.on`, `Guar.free`: a private object;
* `Guar.publish`, `Guar.unlink`: the table gets an object, and loses one;
* `Guar.recount`, `Guar.dies`: a count.
-/

namespace UnixProgramming.Counted

open Calls (Prog Pool)
open Heap (Chain)

variable {ι β : Type} {v : Version} {i j : ι} {s s' : State ι β} {w : World ι} {g : Ghost ι β}
  {m : Mutex} {fp fp' : Addr} {b : Bucket} {p : Option Addr} {f : Foo → Foo} {foo : Foo}

/-! ## Memory after an operation -/

namespace World

@[simp] theorem on_fh : (w.on fp f).fh = w.fh := rfl
@[simp] theorem on_locks : (w.on fp f).locks = w.locks := rfl
@[simp] theorem on_mem : (w.on fp f).mem fp = (w.mem fp).map f := Function.update_self ..
theorem on_mem_ne (other : fp' ≠ fp) : (w.on fp f).mem fp' = w.mem fp' :=
  Function.update_of_ne other ..

theorem on_isSome : ((w.on fp f).mem fp').isSome = (w.mem fp').isSome := by
  by_cases same : fp' = fp
  · subst same
    simp
  · rw [on_mem_ne same]

/-- A change that leaves the link of an object leaves all links. -/
theorem on_next (keeps : ∀ foo, (f foo).f_next = foo.f_next) :
    ((w.on fp f).mem fp').bind Foo.f_next = (w.mem fp').bind Foo.f_next := by
  by_cases same : fp' = fp
  · subst same
    cases found : w.mem fp' <;> simp [found, keeps]
  · rw [on_mem_ne same]

@[simp] theorem setMem_fh : (w.setMem fp foo).fh = w.fh := rfl
@[simp] theorem setMem_locks {foo : Option Foo} : (w.setMem fp foo).locks = w.locks := rfl
@[simp] theorem setMem_mem {foo : Option Foo} : (w.setMem fp foo).mem fp = foo :=
  Function.update_self ..
theorem setMem_mem_ne {foo : Option Foo} (other : fp' ≠ fp) :
    (w.setMem fp foo).mem fp' = w.mem fp' :=
  Function.update_of_ne other ..

@[simp] theorem setHead_mem : (w.setHead b p).mem = w.mem := rfl
@[simp] theorem setHead_locks : (w.setHead b p).locks = w.locks := rfl
@[simp] theorem setHead_fh : (w.setHead b p).fh b = p := Function.update_self ..

variable {x : Option ι}

@[simp] theorem setLock_fh : (w.setLock m x).fh = w.fh := rfl
@[simp] theorem setLock_mem : (w.setLock m x).mem = w.mem := rfl
@[simp] theorem setLock_locks : (w.setLock m x).locks m = x := Function.update_self ..
theorem setLock_locks_ne {m' : Mutex} (other : m' ≠ m) : (w.setLock m x).locks m' = w.locks m' :=
  Function.update_of_ne other ..

/-- The link behind `prev` in a list becomes another. -/
def setLink (w : World ι) (b : Bucket) (prev p : Option Addr) : World ι :=
  match prev with
  | none => w.setHead b p
  | some fp => w.on fp fun foo => { foo with f_next := p }

section
variable {prev y : Option Addr} {b' : Bucket}

@[simp] theorem setLink_locks : (w.setLink b prev p).locks = w.locks := by
  cases prev <;> rfl

theorem setLink_mem (other : prev ≠ some fp) : (w.setLink b prev p).mem fp = w.mem fp := by
  cases prev with
  | none => rfl
  | some q => exact on_mem_ne fun e => other (congrArg some e.symm)

/-- Only the link of an object may be another. -/
theorem setLink_found {foo' : Foo} (found : (w.setLink b prev p).mem fp = some foo') :
    ∃ foo, w.mem fp = some foo ∧ foo' = { foo with f_next := foo'.f_next } := by
  by_cases same : prev = some fp
  · subst same
    simp only [setLink, on_mem, Option.map_eq_some_iff] at found
    obtain ⟨foo, here, rfl⟩ := found
    exact ⟨foo, here, rfl⟩
  · exact ⟨foo', setLink_mem same ▸ found, rfl⟩

theorem setLink_isSome : ((w.setLink b prev p).mem fp).isSome = (w.mem fp).isSome := by
  cases prev with
  | none => rfl
  | some q => exact on_isSome

theorem setLink_link (alive : ∀ fp, prev = some fp → (w.mem fp).isSome) :
    (w.setLink b prev p).link b prev = p := by
  cases prev with
  | none => exact setHead_fh
  | some fp =>
    obtain ⟨foo, here⟩ := Option.isSome_iff_exists.1 (alive fp rfl)
    simp [setLink, link, here]

theorem setLink_link_ne (other : y ≠ prev) : (w.setLink b prev p).link b y = w.link b y := by
  cases y with
  | none =>
    cases prev with
    | none => exact absurd rfl other
    | some fp => rfl
  | some fp => rw [link, link, setLink_mem other.symm]

theorem setLink_link_other (list : b' ≠ b) (other : ∀ fp, y = some fp → prev ≠ some fp) :
    (w.setLink b prev p).link b' y = w.link b' y := by
  cases y with
  | none =>
    cases prev with
    | none => exact Function.update_of_ne list ..
    | some fp => rfl
  | some fp => rw [link, link, setLink_mem (other fp rfl)]

end

theorem link_congr {w' : World ι} (fh : w'.fh = w.fh) (mem : ∀ fp, p = some fp →
    (w'.mem fp).bind Foo.f_next = (w.mem fp).bind Foo.f_next) : w'.link b p = w.link b p := by
  cases p with
  | none => exact congrFun fh b
  | some fp => exact mem fp rfl

end World

/-! ## What the invariant says -/

theorem Table.mem_list {t : Table ι} : fp ∈ t.list b ↔ fp ∈ t.objects ∧ HASH (t.id fp) = b := by
  simp [Table.list]

namespace Inv

variable (inv : Inv v s)
include inv

theorem not_object (mine : s.2.priv fp = some i) : fp ∉ s.table.objects := by
  intro mem
  rw [inv.apart fp mem] at mine
  cases mine

theorem object_of_holder (mem : i ∈ s.table.holders fp) : fp ∈ s.table.objects := by
  rw [inv.held fp]
  intro none'
  rw [none'] at mem
  cases Multiset.notMem_zero i mem

theorem at_object (mem : fp ∈ s.table.objects) :
    ∃ foo, s.1.mem fp = some foo ∧ Kept s.table s.2.dying fp foo := by
  obtain ⟨foo, here⟩ := Option.isSome_iff_exists.1 ((inv.alive fp).2 (.inl mem))
  exact ⟨foo, here, inv.kept fp mem foo here⟩

theorem at_priv (mine : s.2.priv fp = some i) : ∃ foo, s.1.mem fp = some foo := by
  apply Option.isSome_iff_exists.1
  exact (inv.alive fp).2 (.inr (by rw [mine]; rfl))

/-- What is done to an object of the table changes no private one. -/
theorem on_priv (mem : fp ∈ s.table.objects) (mine : s.2.priv fp' = some i) :
    (s.1.on fp f).mem fp' = s.1.mem fp' := by
  rw [World.on_mem_ne]
  rintro rfl
  exact inv.not_object mine mem

/-- A count that is written is right if it is so for what the table is then. -/
theorem kept_count {t : Table ι} {dying : Option Addr} {n : Int} (mem : fp ∈ s.table.objects)
    (id : t.id = s.table.id)
    (here : n + (if dying = some fp then 1 else 0) = (t.holders fp).card)
    (few : (t.holders fp).card < 2 ^ 31)
    (others : ∀ fp', fp' ≠ fp →
      t.holders fp' = s.table.holders fp' ∧ (dying = some fp' ↔ s.2.dying = some fp'))
    (mem' : fp' ∈ s.table.objects)
    (found : foo ∈ (s.1.on fp fun foo => { foo with f_count := n }).mem fp') :
    Kept t dying fp' foo := by
  by_cases same : fp' = fp
  · subst same
    obtain ⟨foo', found', kept⟩ := inv.at_object mem
    simp only [World.on_mem, found', Option.map_some, Option.mem_def, Option.some.injEq] at found
    subst found
    exact ⟨kept.lock, id ▸ kept.id, here, few⟩
  · rw [World.on_mem_ne same] at found
    obtain ⟨holders, dies⟩ := others fp' same
    have kept := inv.kept fp' mem' foo found
    exact ⟨kept.lock, id ▸ kept.id, by simpa only [holders, dies] using kept.count,
      by simpa only [holders] using kept.few⟩

/-- Nobody else has the mutex of a private object. -/
theorem lock_priv (mine : s.2.priv fp = some i) (lock : s.1.locks (.f_lock fp) = some j) :
    j = i := by
  rcases inv.lock fp j lock with ⟨mem, -⟩ | theirs
  · exact absurd mem (inv.not_object mine)
  · exact Option.some.inj (theirs.symm.trans mine)

end Inv

variable [DecidableEq ι]

/-! ## Mutexes -/

theorem Guar.lock (inv : Inv v s) (is_free : s.1.locks m = none)
    (object : ∀ fp, m = .f_lock fp →
      fp ∈ s.table.objects ∧ (v = .mutex3 → i ∈ s.table.holders fp)) :
    Guar v i s (s.1.setLock m (some i), s.2) := by
  refine ⟨{ inv with lock := ?lock, dying := ?dying }, ?locks, fun _ _ _ => Iff.rfl,
    fun _ _ _ _ => rfl, fun _ _ _ => rfl, fun _ => .of s.2 rfl fun _ _ => rfl, fun _ mem _ => ⟨mem, rfl⟩, .inl rfl⟩
  case lock =>
    intro fp j lock
    by_cases same : m = .f_lock fp
    · subst same
      rw [World.setLock_locks] at lock
      cases lock
      exact .inl (object fp rfl)
    · rw [World.setLock_locks_ne (Ne.symm same)] at lock
      exact inv.lock fp j lock
  case dying =>
    intro fp dies
    obtain ⟨three, j, holds, lock⟩ := inv.dying fp dies
    refine ⟨three, j, holds, ?_⟩
    rwa [World.setLock_locks_ne]
    rintro rfl
    rw [is_free] at lock
    cases lock
  case locks =>
    intro m' j other
    by_cases same : m' = m
    · subst same
      simp [is_free, other.symm]
    · rw [World.setLock_locks_ne same]

theorem Guar.unlock (inv : Inv v s) (mine : s.1.locks m = some i)
    (whole : m = .hashlock → s.2.dying = none) : Guar v i s (s.1.setLock m none, s.2) := by
  refine ⟨{ inv with lock := ?lock, dying := ?dying }, ?locks, fun _ _ _ => Iff.rfl,
    fun _ _ _ _ => rfl, fun _ _ _ => rfl, fun _ => .of s.2 rfl fun _ _ => rfl, fun _ mem _ => ⟨mem, rfl⟩, .inl rfl⟩
  case lock =>
    intro fp j lock
    apply inv.lock fp j
    by_cases same : m = .f_lock fp
    · subst same
      rw [World.setLock_locks] at lock
      cases lock
    · rwa [World.setLock_locks_ne (Ne.symm same)] at lock
  case dying =>
    intro fp dies
    obtain ⟨three, j, holds, lock⟩ := inv.dying fp dies
    refine ⟨three, j, holds, ?_⟩
    rwa [World.setLock_locks_ne]
    rintro rfl
    rw [whole rfl] at dies
    cases dies
  case locks =>
    intro m' j other
    by_cases same : m' = m
    · subst same
      simp [mine, other.symm]
    · rw [World.setLock_locks_ne same]

/-! ## A private object -/

omit [DecidableEq ι] in
/-- Memory changes at one place that is private before and after. -/
theorem Inv.elsewhere (inv : Inv v s) (out : fp ∉ s.table.objects) {foo : Option Foo}
    {x : Option ι} (alive : foo.isSome ↔ x.isSome)
    (lock : ∀ j, s.1.locks (.f_lock fp) = some j → x = some j) :
    Inv v (s.1.setMem fp foo, { s.2 with priv := Function.update s.2.priv fp x }) where
  alive fp' := by
    by_cases same : fp' = fp
    · subst same
      simp [alive, out]
    · simpa [World.setMem_mem_ne same, Function.update_of_ne same] using inv.alive fp'
  apart fp' mem := by
    have other : fp' ≠ fp := fun e => out (e ▸ mem)
    simpa [Function.update_of_ne other] using inv.apart fp' mem
  distinct := inv.distinct
  held := inv.held
  kept fp' mem foo' here := by
    have other : fp' ≠ fp := fun e => out (e ▸ mem)
    rw [World.setMem_mem_ne other] at here
    exact { inv.kept fp' mem foo' here with }
  list b := by
    refine (inv.list b).congr fun q mem => World.link_congr rfl ?_
    rintro fp' rfl
    rw [World.setMem_mem_ne]
    rintro rfl
    simp only [List.mem_cons, reduceCtorEq, false_or, List.mem_map, Option.some.injEq,
      exists_eq_right] at mem
    exact out (Table.mem_list.1 mem).1
  lock fp' j locked := by
    by_cases same : fp' = fp
    · subst same
      exact .inr (by simpa using lock j locked)
    · simpa [Function.update_of_ne same] using inv.lock fp' j locked
  dying := inv.dying

/-- Nobody else sees what happens to memory of thread `i`, or of nobody. -/
theorem Guar.elsewhere (inv : Inv v s) (out : fp ∉ s.table.objects)
    (mine : ∀ j, s.2.priv fp = some j → j = i) {foo : Option Foo} {x : Option ι}
    (alive : foo.isSome ↔ x.isSome) (new : ∀ j, x = some j → j = i)
    (lock : ∀ j, s.1.locks (.f_lock fp) = some j → x = some j) :
    Guar v i s (s.1.setMem fp foo, { s.2 with priv := Function.update s.2.priv fp x }) := by
  refine ⟨inv.elsewhere out alive lock, fun _ _ _ => Iff.rfl, ?_, ?_, fun _ _ _ => rfl, ?_,
    fun _ mem _ => ⟨mem, rfl⟩, .inl rfl⟩
  · intro fp' j other
    by_cases same : fp' = fp
    · subst same
      simp only [Function.update_self]
      exact ⟨fun e => absurd (new j e) other, fun e => absurd (mine j e) other⟩
    · simp only [Function.update_of_ne same]
  · intro fp' j other theirs
    rw [World.setMem_mem_ne]
    rintro rfl
    exact other (mine j theirs)
  · intro _
    refine { Frozen.refl s with next := fun fp' mem => ?_ }
    rw [World.setMem_mem_ne]
    rintro rfl
    exact out mem

theorem Guar.malloc (inv : Inv v s) (is_free : s.1.mem fp = none) :
    Guar v i s (s.1.setMem fp (some foo),
      { s.2 with priv := Function.update s.2.priv fp (some i) }) := by
  have none' := inv.alive fp
  rw [is_free] at none'
  simp only [Option.isSome_none, Bool.false_eq_true, false_iff, not_or,
    Option.not_isSome_iff_eq_none] at none'
  refine Guar.elsewhere inv none'.1 ?_ (by simp) (by simp +contextual) ?_
  · simp [none'.2]
  · intro j lock
    rcases inv.lock fp j lock with ⟨mem, -⟩ | theirs
    · exact absurd mem none'.1
    · rw [none'.2] at theirs
      cases theirs

theorem Guar.free (inv : Inv v s) (mine : s.2.priv fp = some i)
    (lock : s.1.locks (.f_lock fp) ≠ some i) :
    Guar v i s (s.1.setMem fp none, { s.2 with priv := Function.update s.2.priv fp none }) := by
  refine Guar.elsewhere inv (inv.not_object mine) ?_ (by simp) (by simp) ?_
  · intro j theirs
    exact Option.some.inj (theirs.symm.trans mine)
  · intro j locked
    exact absurd (inv.lock_priv mine locked ▸ locked) lock

theorem Guar.on (inv : Inv v s) (mine : s.2.priv fp = some i) (f : Foo → Foo) :
    Guar v i s (s.1.on fp f, s.2) := by
  have same : s.2.priv = Function.update s.2.priv fp (some i) := by
    rw [← mine, Function.update_eq_self]
  suffices Guar v i s (s.1.setMem fp ((s.1.mem fp).map f),
      { s.2 with priv := Function.update s.2.priv fp (some i) }) by
    rwa [← same] at this
  refine Guar.elsewhere inv (inv.not_object mine) ?_ ?_ (by simp +contextual) ?_
  · intro j theirs
    exact Option.some.inj (theirs.symm.trans mine)
  · obtain ⟨foo, here⟩ := inv.at_priv mine
    simp [here]
  · intro j locked
    rw [inv.lock_priv mine locked]

/-! ## A count -/

/-- Who has the mutex of the version gives an object other holders. -/
theorem Guar.recount (inv : Inv v s) (mem : fp ∈ s.table.objects)
    (guard : s.1.locks (v.guard fp) = some i) (whole : s.2.dying ≠ some fp) {h : Multiset ι}
    (held : h ≠ 0) (few : h.card < 2 ^ 31)
    (others : ∀ j, j ≠ i → h.count j = (s.table.holders fp).count j)
    (lock : v = .mutex3 → ∀ j, s.1.locks (.f_lock fp) = some j → j ∈ h)
    {P : Pool Reply ι (Table ι) β} (step : Pool.Step (spec ι) i s.2.pool P)
    (table : P.state = s.table.setHolders fp h) :
    Guar v i s (s.1.on fp fun foo => { foo with f_count := h.card }, { s.2 with pool := P }) := by
  obtain ⟨t, prog⟩ := P
  obtain rfl : t = s.table.setHolders fp h := table
  refine ⟨⟨?alive, inv.apart, inv.distinct, ?held, ?kept, ?list, ?lock, ?dying⟩,
    fun _ _ _ => Iff.rfl, fun _ _ _ => Iff.rfl, ?mem, ?refs, ?hash, ?guard, .inr step⟩
  case alive =>
    intro fp'
    have same := inv.alive fp'
    rwa [← World.on_isSome] at same
  case held =>
    intro fp'
    by_cases same : fp' = fp
    · subst same
      simpa [held] using mem
    · simpa [Table.setHolders_holders_ne same] using inv.held fp'
  case kept =>
    intro fp' mem' foo' found
    refine inv.kept_count mem rfl ?_ ?_ ?_ mem' found
    · simp [whole]
    · simpa using few
    · exact fun fp' other => ⟨Table.setHolders_holders_ne other, Iff.rfl⟩
  case list =>
    intro b
    exact (inv.list b).congr fun p _ => World.link_congr rfl fun _ _ => World.on_next fun _ => rfl
  case lock =>
    intro fp' j locked
    rcases inv.lock fp' j locked with ⟨mem', holds⟩ | theirs
    · refine .inl ⟨mem', fun three => ?_⟩
      by_cases same : fp' = fp
      · subst same
        simpa using lock three j locked
      · simpa [Table.setHolders_holders_ne same] using holds three
    · exact .inr theirs
  case dying =>
    intro fp' dies
    have other : fp' ≠ fp := fun e => whole (e ▸ dies)
    simpa [Table.setHolders_holders_ne other] using inv.dying fp' dies
  case mem => exact fun fp' j _ theirs => inv.on_priv mem theirs
  case refs =>
    intro fp' j other
    by_cases same : fp' = fp
    · subst same
      simpa using others j other
    · simp [Table.setHolders_holders_ne same]
  case hash => exact fun _ => ⟨rfl, rfl, rfl, rfl, fun _ _ => World.on_next fun _ => rfl⟩
  case guard =>
    intro fp' mem' theirs
    refine ⟨mem', Table.setHolders_holders_ne ?_⟩
    rintro rfl
    exact theirs guard

/-- The last reference is counted down while the object is in the table. -/
theorem Guar.dies (inv : Inv .mutex3 s) (hash : s.1.locks .hashlock = some i)
    (last : s.table.holders fp = {i}) (whole : s.2.dying = none) :
    Guar .mutex3 i s (s.1.on fp fun foo => { foo with f_count := 0 },
      { s.2 with dying := some fp }) := by
  have mem : fp ∈ s.table.objects := inv.object_of_holder (i := i) (by simp [last])
  refine ⟨⟨?alive, inv.apart, inv.distinct, inv.held, ?kept, ?list, inv.lock, ?dying⟩,
    fun _ _ _ => Iff.rfl, fun _ _ _ => Iff.rfl, ?mem, fun _ _ _ => rfl, absurd hash,
    fun _ mem _ => ⟨mem, rfl⟩, .inl rfl⟩
  case alive =>
    intro fp'
    have same := inv.alive fp'
    rwa [← World.on_isSome] at same
  case kept =>
    intro fp' mem' foo' found
    have one : (s.table.holders fp).card = 1 := congrArg Multiset.card last
    refine inv.kept_count mem rfl ?_ ?_ ?_ mem' found
    · simp [one]
    · exact lt_of_eq_of_lt one (by decide)
    · intro fp' other
      simp [whole, other.symm]
  case list =>
    intro b
    exact (inv.list b).congr fun p _ => World.link_congr rfl fun _ _ => World.on_next fun _ => rfl
  case dying =>
    rintro fp' ⟨⟩
    exact ⟨rfl, i, last, hash⟩
  case mem => exact fun fp' j _ theirs => inv.on_priv mem theirs

/-! ## The table -/

/-- A private object that is ready comes first in its list. -/
theorem Guar.publish (inv : Inv v s) (hash : s.1.locks .hashlock = some i)
    (mine : s.2.priv fp = some i) {id : Int}
    (ready : s.1.mem fp = some ⟨1, true, id, s.1.fh (HASH id)⟩)
    {P : Pool Reply ι (Table ι) β} (step : Pool.Step (spec ι) i s.2.pool P)
    (table : P.state = s.table.alloc i fp id) :
    Guar v i s (s.1.setHead (HASH id) (some fp),
      { s.2 with priv := Function.update s.2.priv fp none, pool := P }) := by
  have fresh := inv.not_object mine
  have empty : s.table.holders fp = 0 := by
    by_contra held
    exact fresh ((inv.held fp).2 held)
  obtain ⟨t, prog⟩ := P
  obtain rfl : t = s.table.alloc i fp id := table
  refine ⟨⟨?alive, ?apart, ?distinct, ?held, ?kept, ?list, ?lock, ?dying⟩,
    fun _ _ _ => Iff.rfl, ?priv, fun _ _ _ _ => rfl, ?refs, absurd hash, ?guard, .inr step⟩
  case alive =>
    intro fp'
    by_cases same : fp' = fp
    · subst same
      simp [Table.alloc, ready]
    · simpa [Table.alloc, same] using inv.alive fp'
  case apart =>
    intro fp' mem
    by_cases same : fp' = fp
    · subst same
      simp
    · simpa [same] using inv.apart fp' (by simpa [Table.alloc, same] using mem)
  case distinct => exact List.nodup_cons.2 ⟨fresh, inv.distinct⟩
  case held =>
    intro fp'
    by_cases same : fp' = fp
    · subst same
      simp [Table.alloc]
    · simpa [Table.alloc, same] using inv.held fp'
  case kept =>
    intro fp' mem foo found
    by_cases same : fp' = fp
    · subst same
      have whole : s.2.dying ≠ some fp' := by
        intro dies
        obtain ⟨-, j, last, -⟩ := inv.dying fp' dies
        simp [empty] at last
      simp only [World.setHead_mem, ready, Option.mem_def, Option.some.injEq] at found
      subst found
      exact ⟨rfl, by simp [Table.alloc], by simp [Table.alloc, whole], by simp [Table.alloc]⟩
    · have kept := inv.kept fp' (by simpa [Table.alloc, same] using mem) foo found
      exact ⟨kept.lock, by simpa [Table.alloc, same] using kept.id,
        by simpa [Table.alloc, same] using kept.count,
        by simpa [Table.alloc, same] using kept.few⟩
  case list =>
    intro b
    have rest : s.table.objects.filter (fun fp' => HASH ((s.table.alloc i fp id).id fp') = b) =
        s.table.list b := by
      refine List.filter_congr fun fp' mem => ?_
      have other : fp' ≠ fp := fun e => fresh (e ▸ mem)
      simp [Table.alloc, other]
    have same : (s.table.alloc i fp id).list b =
        if HASH id = b then fp :: s.table.list b else s.table.list b := by
      rw [← rest, Table.list]
      simp only [Table.alloc, List.filter_cons, Function.update_self, decide_eq_true_eq]
    rw [State.table, same]
    split
    · rename_i this
      subst this
      refine (inv.list _).push (by simp) (by simp [World.link]) (by simp [World.link, ready]) ?_
      rintro p mem
      obtain ⟨fp', -, rfl⟩ := List.mem_map.1 mem
      rfl
    · rename_i other
      refine (inv.list b).congr fun p _ => ?_
      cases p with
      | none => exact Function.update_of_ne (Ne.symm other) ..
      | some fp' => rfl
  case lock =>
    intro fp' j locked
    by_cases same : fp' = fp
    · subst same
      rw [inv.lock_priv mine locked]
      simp [Table.alloc]
    · simpa [Table.alloc, same] using inv.lock fp' j locked
  case dying =>
    intro fp' dies
    have other : fp' ≠ fp := by
      rintro rfl
      obtain ⟨-, j, last, -⟩ := inv.dying fp' dies
      simp [empty] at last
    simpa [Table.alloc, other] using inv.dying fp' dies
  case priv =>
    intro fp' j other
    by_cases same : fp' = fp
    · subst same
      simp [mine, other.symm]
    · simp [same]
  case refs =>
    intro fp' j other
    by_cases same : fp' = fp
    · subst same
      simp [Table.alloc, empty, other]
    · simp [Table.alloc, same]
  case guard =>
    intro fp' mem _
    have other : fp' ≠ fp := fun e => fresh (e ▸ mem)
    simp [Table.alloc, other, mem]

theorem Table.rele_last {t : Table ι} (last : t.holders fp = {i}) :
    t.rele i fp = (t.setHolders fp 0).remove fp := by
  simp [Table.rele, last]

theorem Table.rele_more {t : Table ι} (more : (t.holders fp).erase i ≠ 0) :
    t.rele i fp = t.setHolders fp ((t.holders fp).erase i) := by
  simp [Table.rele, more]

omit [DecidableEq ι] in
/-- The objects of a list without one of them. -/
theorem Table.list_remove {t : Table ι} {as bs : List Addr} (distinct : t.objects.Nodup)
    (here : t.list (HASH (t.id fp)) = as ++ fp :: bs) (b : Bucket) :
    ((t.setHolders fp 0).remove fp).list b =
      if b = HASH (t.id fp) then as ++ bs else t.list b := by
  have rest : ((t.setHolders fp 0).remove fp).list b = (t.list b).filter (· ≠ fp) := by
    simp only [list, remove, setHolders_objects, setHolders_id, List.filter_filter]
    exact List.filter_congr fun _ _ => Bool.and_comm ..
  rw [rest]
  split
  · rename_i this
    subst this
    have nodup : (as ++ fp :: bs).Nodup := here ▸ distinct.filter _
    rw [here]
    rw [List.nodup_middle, List.nodup_cons, List.mem_append, not_or] at nodup
    have others {xs : List Addr} (out : fp ∉ xs) : xs.filter (· ≠ fp) = xs := by
      refine List.filter_eq_self.2 fun x mem => ?_
      simpa using fun e : x = fp => out (e ▸ mem)
    rw [List.filter_append, List.filter_cons_of_neg (by simp), others nodup.1.1, others nodup.1.2]
  · rename_i other
    refine List.filter_eq_self.2 fun x mem => ?_
    simp only [ne_eq, decide_not, Bool.not_eq_true', decide_eq_false_iff_not]
    rintro rfl
    exact other (Table.mem_list.1 mem).2.symm

/-- The last reference to an object: its list does without it, and it is private. -/
theorem Guar.unlink (inv : Inv v s) (hash : s.1.locks .hashlock = some i)
    (guard : s.1.locks (v.guard fp) = some i) (last : s.table.holders fp = {i})
    (whole : s.2.dying = none ∨ s.2.dying = some fp) {as bs : List Addr}
    (here : s.table.list (HASH (s.table.id fp)) = as ++ fp :: bs)
    {P : Pool Reply ι (Table ι) β} (step : Pool.Step (spec ι) i s.2.pool P)
    (table : P.state = s.table.rele i fp) :
    Guar v i s
      (s.1.setLink (HASH (s.table.id fp)) as.getLast? ((s.1.mem fp).bind Foo.f_next),
        { priv := Function.update s.2.priv fp (some i), dying := none, pool := P }) := by
  have mem : fp ∈ s.table.objects := inv.object_of_holder (i := i) (by simp [last])
  have nodup : (as ++ fp :: bs).Nodup := here ▸ inv.distinct.filter _
  have before {q : Addr} (prev : as.getLast? = some q) :
      q ∈ s.table.list (HASH (s.table.id fp)) := by
    rw [here]
    exact List.mem_append_left _ (List.mem_of_getLast? prev)
  have object {q : Addr} (prev : as.getLast? = some q) : q ∈ s.table.objects :=
    (Table.mem_list.1 (before prev)).1
  obtain ⟨t, prog⟩ := P
  obtain rfl : t = s.table.rele i fp := table
  rw [Table.rele_last last] at step ⊢
  refine ⟨⟨?alive, ?apart, ?distinct, ?held, ?kept, ?list, ?lock, fun _ => ?dying⟩,
    fun m j _ => by simp, ?priv, ?mem, ?refs, absurd hash, ?guard, .inr step⟩
  case alive =>
    intro fp'
    rw [World.setLink_isSome, inv.alive fp']
    by_cases same : fp' = fp
    · subst same
      simpa using .inl mem
    · simp [same]
  case apart =>
    intro fp' mem'
    obtain ⟨mem', other⟩ := Table.mem_remove.1 mem'
    simpa [other] using inv.apart fp' mem'
  case distinct => exact inv.distinct.filter _
  case held =>
    intro fp'
    by_cases same : fp' = fp
    · subst same
      simp
    · simpa [same, Table.setHolders_holders_ne same] using inv.held fp'
  case kept =>
    intro fp' mem' foo' found
    obtain ⟨mem', other⟩ := Table.mem_remove.1 mem'
    obtain ⟨foo, found', same⟩ := World.setLink_found found
    have kept := inv.kept fp' mem' foo found'
    rw [same]
    refine ⟨kept.lock, kept.id, ?_,
      by simpa [Table.setHolders_holders_ne other] using kept.few⟩
    have dies : s.2.dying ≠ some fp' := by
      rcases whole with e | e <;> simp [e, Ne.symm other]
    simpa [dies, Table.setHolders_holders_ne other] using kept.count
  case list =>
    intro b
    rw [State.table, Table.list_remove inv.distinct here]
    split
    · rename_i this
      subst this
      have chain := inv.list (HASH (s.table.id fp))
      have prev : (as.map some).getLastD none = as.getLast? := by
        rw [List.getLastD_eq_getLast?, List.getLast?_map]
        cases as.getLast? <;> rfl
      rw [here] at chain
      simp only [List.map_append, List.map_cons] at chain ⊢
      refine chain.skip ?_ ?_ ?_
      · rw [← List.map_cons, ← List.map_append, List.nodup_cons]
        exact ⟨by simp, nodup.map (Option.some_injective _)⟩
      · rw [prev]
        refine World.setLink_link fun q e => ?_
        exact (inv.alive q).2 (.inl (object e))
      · intro y _ other
        rw [prev] at other
        exact World.setLink_link_ne other
    · rename_i other
      refine (inv.list b).congr fun y mem' => World.setLink_link_other other ?_
      rintro q rfl prev
      apply other
      simp only [List.mem_cons, reduceCtorEq, false_or, List.mem_map, Option.some.injEq,
        exists_eq_right] at mem'
      rw [← (Table.mem_list.1 mem').2, (Table.mem_list.1 (before prev)).2]
  case lock =>
    intro fp' j locked
    rw [World.setLink_locks] at locked
    by_cases same : fp' = fp
    · subst same
      right
      suffices i = j by simpa using this
      cases v with
      | mutex2 => exact Option.some.inj (guard.symm.trans locked)
      | mutex3 =>
        rcases inv.lock fp' j locked with ⟨-, holds⟩ | theirs
        · have := holds rfl
          rw [last, Multiset.mem_singleton] at this
          exact this.symm
        · exact absurd mem (inv.not_object theirs)
    · simpa [same, Table.setHolders_holders_ne same] using inv.lock fp' j locked
  case dying => simp
  case priv =>
    intro fp' j other
    by_cases same : fp' = fp
    · subst same
      simp [inv.apart fp' mem, other.symm]
    · simp [same]
  case mem =>
    intro fp' j _ theirs
    exact World.setLink_mem fun e => inv.not_object theirs (object e)
  case refs =>
    intro fp' j other
    by_cases same : fp' = fp
    · subst same
      simpa [Multiset.count_singleton, other] using congrArg (Multiset.count j) last.symm
    · simp [Table.setHolders_holders_ne same]
  case guard =>
    intro fp' mem' theirs
    have other : fp' ≠ fp := by
      rintro rfl
      exact theirs guard
    exact ⟨Table.mem_remove.2 ⟨mem', other⟩, Table.setHolders_holders_ne other⟩

end UnixProgramming.Counted
