import UnixProgramming.Calls.Order
import UnixProgramming.Counted.Library

/-!
# The order of the mutexes

The mutex of the table is taken before that of an object, and never the other
way round.

* `Returns`: a program that gives back what it takes;
* `code_returns`: every client keeps to the order;
* `foo_completes`: what comes of it side by side.
-/

namespace UnixProgramming.Counted

open Calls (Prog Pool Order Terms)

def Mutex.rank : Mutex → Nat
  | .hashlock => 0
  | .f_lock _ => 1

def locking : Order Op Mutex where
  may _ := True
  takes
    | .lock m => some m
    | _ => none
  gives
    | .unlock m => some m
    | _ => none
  rank := Mutex.rank

variable {α γ ι β : Type} {m : Mutex} {fp : Addr} {held : List Mutex} {k : α → Action γ}
  {Q : γ → List Mutex → Prop} {p : Action α} {turns : Nat} {v : Version}

/-- The program takes mutexes in their order, and gives back what it takes. -/
def Returns (held : List Mutex) (p : Action α) : Prop :=
  locking.keeps p (fun _ held' => held' = held) held

theorem Returns.then (first : Returns held p) (rest : ∀ a, locking.keeps (k a) Q held) :
    locking.keeps (p >>= k) Q held := by
  apply Order.keeps_bind.2
  apply Order.keeps.mono first
  rintro a held' rfl
  exact rest a

theorem returns_ret (a : α) : Returns held (.ret a : Action α) := rfl

theorem returns_stop (why : Stop) : Returns held (stop why : Action α) :=
  ⟨trivial, by simp [locking], fun e => e.elim⟩

theorem returns_op {c : Op} (takes : locking.takes c = none) (gives : locking.gives c = none) :
    Returns held (op c) := by
  refine ⟨trivial, by simp [takes], fun r => ?_⟩
  change Order.after locking c held = held
  rw [Order.after, takes, gives]
  rfl

theorem keeps_lock {k : Unit → Action γ} (order : ∀ l ∈ held, l.rank < m.rank)
    (rest : locking.keeps (k ()) Q (m :: held)) :
    locking.keeps (op (.lock m) >>= k) Q held := by
  refine ⟨trivial, ?_, fun _ => rest⟩
  rintro l ⟨⟩
  exact order

theorem keeps_unlock {k : Unit → Action γ} (rest : locking.keeps (k ()) Q (held.erase m)) :
    locking.keeps (op (.unlock m) >>= k) Q held :=
  ⟨trivial, by simp [locking], fun _ => rest⟩

/-- A program under a mutex. -/
theorem returns_under {p : Action Unit} (order : ∀ l ∈ held, l.rank < m.rank)
    (inner : Returns (m :: held) p) :
    Returns held (do op (.lock m); p; op (.unlock m)) := by
  apply keeps_lock order
  apply Returns.then inner
  intro _
  rw [← bind_pure (op (.unlock m))]
  apply keeps_unlock
  exact List.erase_cons_head ..

/-! ## What both files have -/

theorem returns_addCount (n : Int) : Returns held (addCount fp n) :=
  Returns.then (returns_op rfl rfl) fun _ => returns_op rfl rfl

theorem returns_alloc (id : Int) : Returns [] (foo_alloc id) := by
  apply Returns.then (returns_op rfl rfl)
  intro r
  cases r with
  | none => exact returns_ret none
  | some fp =>
    apply Returns.then (returns_op rfl rfl)
    intro _
    apply Returns.then (returns_op rfl rfl)
    intro _
    apply Returns.then (returns_op rfl rfl)
    intro ready
    cases ready with
    | false => exact Returns.then (returns_op rfl rfl) fun _ => returns_ret none
    | true =>
      apply keeps_lock (by simp)
      apply Returns.then (returns_op rfl rfl)
      intro head
      apply Returns.then (returns_op rfl rfl)
      intro _
      apply Returns.then (returns_op rfl rfl)
      intro _
      apply keeps_lock (by simp [Mutex.rank])
      apply keeps_unlock
      apply keeps_unlock
      change List.erase _ _ = []
      simp

theorem returns_findFrom {found : Addr → Action Unit} (inner : ∀ fp, Returns held (found fp))
    (id : Int) (p : Option Addr) : Returns held (findFrom found id turns p) := by
  induction turns generalizing p with
  | zero => exact returns_stop .givenUp
  | succ turns ih =>
    cases p with
    | none => exact returns_ret none
    | some fp =>
      apply Returns.then (returns_op rfl rfl)
      intro f_id
      split
      · exact (inner fp).then fun _ => returns_ret (some fp)
      · exact Returns.then (returns_op rfl rfl) ih

theorem returns_findWith {found : Addr → Action Unit}
    (inner : ∀ fp, Returns [.hashlock] (found fp)) (id : Int) :
    Returns [] (findWith found turns id) := by
  apply keeps_lock (by simp)
  apply Returns.then (returns_op rfl rfl)
  intro head
  apply Returns.then (returns_findFrom inner id head)
  intro fp
  apply keeps_unlock
  exact List.erase_cons_head ..

theorem returns_unlinkFrom (p : Option Addr) : Returns held (unlinkFrom fp turns p) := by
  induction turns generalizing p with
  | zero => exact returns_stop .givenUp
  | succ turns ih =>
    cases p with
    | none => exact returns_stop .null
    | some tfp =>
      apply Returns.then (returns_op rfl rfl)
      intro next
      split
      · exact Returns.then (returns_op rfl rfl) ih
      · exact Returns.then (returns_op rfl rfl) fun _ => returns_op rfl rfl

theorem returns_unlink : Returns held (unlink turns fp) := by
  apply Returns.then (returns_op rfl rfl)
  intro f_id
  apply Returns.then (returns_op rfl rfl)
  intro tfp
  split
  · exact Returns.then (returns_op rfl rfl) fun _ => returns_op rfl rfl
  · exact returns_unlinkFrom tfp

/-! ## The functions -/

theorem returns_hold2 (order : ∀ l ∈ held, l.rank < 1) : Returns held (Mutex2.foo_hold fp) :=
  returns_under order (returns_addCount 1)

theorem returns_rele2 : Returns [] (Mutex2.foo_rele turns fp) := by
  apply keeps_lock (by simp)
  apply Returns.then (returns_op rfl rfl)
  intro f_count
  split
  · apply keeps_unlock
    rw [List.erase_cons_head]
    apply keeps_lock (by simp)
    apply keeps_lock (by simp [Mutex.rank])
    apply Returns.then (returns_op rfl rfl)
    intro f_count
    split
    · apply Returns.then (returns_addCount _)
      intro _
      apply keeps_unlock
      rw [List.erase_cons_head]
      apply keeps_unlock
      exact List.erase_cons_head ..
    · apply Returns.then returns_unlink
      intro _
      apply keeps_unlock
      apply keeps_unlock
      have none' : (List.erase [Mutex.f_lock fp, .hashlock] .hashlock).erase (.f_lock fp) = [] := by
        simp
      rw [none']
      exact Returns.then (returns_op rfl rfl) fun _ => returns_op rfl rfl
  · apply Returns.then (returns_addCount _)
    intro _
    apply keeps_unlock
    exact List.erase_cons_head ..

theorem returns_rele3 : Returns [] (Mutex3.foo_rele turns fp) := by
  apply keeps_lock (by simp)
  apply Returns.then (returns_op rfl rfl)
  intro f_count
  apply Returns.then (returns_op rfl rfl)
  intro _
  split
  · apply Returns.then returns_unlink
    intro _
    apply keeps_unlock
    rw [List.erase_cons_head]
    exact Returns.then (returns_op rfl rfl) fun _ => returns_op rfl rfl
  · apply keeps_unlock
    exact List.erase_cons_head ..

theorem returns_action (req : Req) : Returns [] (req.action turns v) := by
  cases req with
  | alloc id => exact returns_alloc id
  | hold fp =>
    cases v with
    | mutex2 => exact returns_hold2 (by simp)
    | mutex3 => exact returns_under (by simp) (returns_addCount 1)
  | find id =>
    cases v with
    | mutex2 => exact returns_findWith (fun fp => returns_hold2 (by simp [Mutex.rank])) id
    | mutex3 => exact returns_findWith (fun fp => returns_addCount 1) id
  | rele fp =>
    cases v with
    | mutex2 => exact returns_rele2
    | mutex3 => exact returns_rele3

/-- Every client, call after call. -/
theorem code_returns (c : Client β) :
    locking.keeps (c.code v turns) (fun _ held => held = []) [] := by
  induction c with
  | ret b => rfl
  | call req k ih =>
    apply Returns.then
    · exact Returns.then (returns_action req) fun r => returns_ret (r, ())
    · exact fun x => ih x.1

/-! ## Side by side -/

variable [DecidableEq ι] {i : ι} {w w' : World ι} {helds : ι → List Mutex} {clients : ι → Client β}
  {P : Pool Answer ι (World ι) β}

/-- Every mutex that is taken is among those that its thread is to give back. -/
def Covered (w : World ι) (helds : ι → List Mutex) : Prop :=
  ∀ m i, w.locks m = some i → m ∈ helds i

theorem Covered.step {c : Op} {r : Answer c} (covered : Covered w helds) (does : sem i c w r w') :
    Covered w' (Function.update helds i (locking.after c (helds i))) := by
  have same (locks : w'.locks = w.locks) (after : locking.after c (helds i) = helds i) :
      Covered w' (Function.update helds i (locking.after c (helds i))) := by
    rw [after, Function.update_eq_self]
    intro m j lock
    exact covered m j (locks ▸ lock)
  cases c with
  | malloc =>
    cases r with
    | none => exact same (congrArg World.locks does) rfl
    | some fp =>
      obtain ⟨-, foo, -, rfl⟩ := does
      exact same rfl rfl
  | init fp =>
    cases r with
    | false => exact same (congrArg World.locks does) rfl
    | true =>
      obtain rfl := does
      exact same rfl rfl
  | free | destroy | setHead | setCount | setId | setNext =>
    obtain rfl := does
    exact same rfl rfl
  | head | count | id | next => exact same (congrArg World.locks does.2) rfl
  | stop => exact does.elim
  | lock m =>
    obtain ⟨-, rfl⟩ := does
    intro m' j lock
    have after : locking.after (.lock m) (helds i) = m :: helds i := rfl
    rw [after]
    by_cases this : m' = m
    · subst this
      rw [World.setLock_locks] at lock
      cases lock
      simp
    · rw [World.setLock_locks_ne this] at lock
      rcases eq_or_ne j i with rfl | other
      · simp [covered m' j lock]
      · rw [Function.update_of_ne other]
        exact covered m' j lock
  | unlock m =>
    obtain rfl := does
    intro m' j lock
    have after : locking.after (.unlock m) (helds i) = (helds i).erase m := rfl
    rw [after]
    have other : m' ≠ m := by
      rintro rfl
      rw [World.setLock_locks] at lock
      cases lock
    rw [World.setLock_locks_ne other] at lock
    rcases eq_or_ne j i with rfl | other'
    · rw [Function.update_self]
      exact (List.mem_erase_of_ne other).2 (covered m' j lock)
    · rw [Function.update_of_ne other']
      exact covered m' j lock

omit [DecidableEq ι] in
/-- A thread that cannot go on waits for a mutex that another one has. -/
theorem Covered.waits (covered : Covered w helds) {c : Op} (goes : ∀ why, c ≠ .stop why) :
    (∃ r w', sem i c w r w') ∨
      ∃ l ∈ locking.takes c, ∃ j, ∃ l' ∈ helds j, locking.rank l' = locking.rank l := by
  have field {α : Type} (get : Foo → α) (default : α) (fp : Addr) :
      ∃ r, ∀ foo ∈ w.mem fp, r = get foo := by
    cases here : w.mem fp with
    | none => exact ⟨default, by simp⟩
    | some foo => exact ⟨get foo, by simp⟩
  cases c with
  | malloc => exact .inl ⟨none, w, rfl⟩
  | init fp => exact .inl ⟨false, w, rfl⟩
  | free | destroy | setHead | setCount | setId | setNext | unlock => exact .inl ⟨(), _, rfl⟩
  | head b => exact .inl ⟨_, w, rfl, rfl⟩
  | count fp =>
    obtain ⟨r, value⟩ := field Foo.f_count 0 fp
    exact .inl ⟨r, w, value, rfl⟩
  | id fp =>
    obtain ⟨r, value⟩ := field Foo.f_id 0 fp
    exact .inl ⟨r, w, value, rfl⟩
  | next fp =>
    obtain ⟨r, value⟩ := field Foo.f_next none fp
    exact .inl ⟨r, w, value, rfl⟩
  | stop why => exact absurd rfl (goes why)
  | lock m =>
    cases taken : w.locks m with
    | none => exact .inl ⟨(), _, taken, rfl⟩
    | some j => exact .inr ⟨m, rfl, j, m, covered m j taken, rfl⟩

/-- The mutexes at any time of a run, as the programs and memory have them. -/
theorem run_covered (run : Pool.Reaches semFits (start v turns clients) P) : ∃ helds,
    Covered P.state helds ∧ ∀ i, locking.keeps (P.prog i) (fun _ held => held = []) (helds i) := by
  induction run with
  | refl =>
    refine ⟨fun _ => [], fun m i lock => ?_, fun i => code_returns (clients i)⟩
    cases lock
  | step run last ih =>
    obtain ⟨helds, covered, all⟩ := ih
    cases last with
    | call next does => exact ⟨_, covered.step does.1, fun j => Order.step all next j⟩

/-- **No deadlock.** Every run comes to a point from which there is no step, and
there all threads have ended, or one is about to make a count too large. -/
theorem foo_completes [Finite ι] (v : Version) (many : 2 ^ 64 < turns)
    (careful : ∀ i, Careful (clients i) fun _ => 0) :
    (WellFounded fun P' P : Pool Answer ι (World ι) β => ∃ i, Pool.Step semFits i P P') ∧
    ∀ P, Pool.Reaches semFits (start v turns clients) P → (∀ i P', ¬ Pool.Step semFits i P P') →
      (∀ i, ∃ b, P.prog i = .ret b) ∨ ∃ i c k, P.prog i = .call c k ∧ ¬ c.Fits := by
  refine ⟨Pool.wellFounded semFits, fun P run last => or_iff_not_imp_left.2 fun more => ?_⟩
  push Not at more
  obtain ⟨i, more⟩ := more
  obtain ⟨helds, covered, all⟩ := run_covered run
  obtain ⟨g, -, allowed⟩ := reaches_allowed many careful run
  have bounded (m : Mutex) : locking.rank m ≤ 1 := by
    cases m with
    | hashlock => exact Nat.zero_le 1
    | f_lock fp => exact Nat.le_refl 1
  have goes {j : ι} {c : Op} {k : Answer c → Prog Answer β} (next : P.prog j = .call c k)
      (why : Stop) : c ≠ .stop why := by
    rintro rfl
    exact allowed j _ k next
  have lives : ∀ j, ∀ l ∈ helds j, (fun _ : ι => True) j := fun _ _ _ => trivial
  obtain ⟨j, c, k, r, w', next, does⟩ := Order.not_stuck bounded all
    (fun j c k _ next => covered.waits (goes next)) lives trivial more
  exact ⟨j, c, k, next, fun fits => last j _ (.call next ⟨does, fits⟩)⟩

theorem foo_completes_useOne :
    (WellFounded fun P' P : Pool Answer (Fin 2) (World (Fin 2)) Bool =>
      ∃ i, Pool.Step semFits i P P') ∧
    ∀ P, Pool.Reaches semFits (start .mutex2 (2 ^ 64 + 1) fun _ : Fin 2 => useOne 7) P →
      (∀ i P', ¬ Pool.Step semFits i P P') →
      (∀ i, ∃ b, P.prog i = .ret b) ∨ ∃ i c k, P.prog i = .call c k ∧ ¬ c.Fits :=
  foo_completes .mutex2 (Nat.lt_succ_self _) fun _ => careful_useOne 7

end UnixProgramming.Counted
