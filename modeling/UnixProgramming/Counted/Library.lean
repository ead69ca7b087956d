import UnixProgramming.Counted.Rele

/-!
# The objects side by side

Any number of threads that use only references they have, in any order of
their operations.

* `does_request`, `code_wp`: one thread, with the others in between;
* `foo_simulates`: each call is done at one moment;
* `foo_safe`, `foo_race_free`: what never happens to memory;
* `foo_frees`: what is left in the end.
-/

namespace UnixProgramming.Counted

open Calls (Prog Pool Terms)
open Heap (Chain)

variable {ι β : Type} [DecidableEq ι] {v : Version} {i j : ι} {s : State ι β} {n : Refs}
  {c : Client β} {turns : Nat}

/-- Every call. -/
theorem does_request (many : 2 ^ 64 < turns) (req : Req) {k : Reply req → Client β}
    (careful : Careful (.call req k) n) (thread : Thread v i (.call req k) n [] none s) :
    Does v i (req.action turns v)
      (fun r s => ∃ n, Careful (k r) n ∧ Thread v i (k r) n [] none s) s := by
  cases req with
  | alloc id => exact (does_alloc thread).mono fun r s thread => ⟨_, careful r, thread⟩
  | hold fp =>
    exact (does_hold turns thread careful.1).mono fun _ s thread => ⟨_, careful.2, thread⟩
  | find id => exact (does_find many thread).mono fun r s thread => ⟨_, careful r, thread⟩
  | rele fp =>
    exact (does_rele many thread careful.1).mono fun _ s thread => ⟨_, careful.2, thread⟩

/-- **Every careful client**, call after call. -/
theorem code_wp (many : 2 ^ 64 < turns) (careful : Careful c n)
    (thread : Thread v i c n [] none s) :
    (terms v ι β).wp semFits i (c.code v turns)
      (fun b s => ∃ n, Thread v i (.ret b) n [] none s) s := by
  induction c generalizing n s with
  | ret b => exact fun s' others => ⟨n, Thread.stable.next thread others⟩
  | call req k ih =>
    have first := does_request many req careful thread
    refine Terms.wp_bind.2 (Terms.wp_bind.2 (first.mono fun r s done => ?_))
    obtain ⟨n, careful, thread⟩ := done
    exact fun s' others => ih r careful (Thread.stable.next thread others)

/-! ## The beginning -/

def World.empty : World ι := ⟨fun _ => none, fun _ => none, fun _ => none⟩

/-- Threads that have not begun, with an empty table. -/
def start (v : Version) (turns : Nat) (clients : ι → Client β) : Pool Answer ι (World ι) β :=
  ⟨.empty, fun i => (clients i).code v turns⟩

def Ghost.start (clients : ι → Client β) : Ghost ι β :=
  ⟨fun _ => none, none, .empty, clients⟩

omit [DecidableEq ι] in
theorem inv_start (clients : ι → Client β) : Inv v (World.empty, Ghost.start clients) where
  alive _ := by simp [World.empty, Ghost.start, Table.empty]
  apart _ mem := by cases mem
  distinct := List.nodup_nil
  held _ := by simp [Ghost.start, Table.empty]
  kept _ mem := by cases mem
  list _ := rfl
  lock _ _ lock := by cases lock
  dying _ dies := by cases dies

theorem thread_start (clients : ι → Client β) (i : ι) :
    Thread v i (clients i) (fun _ => 0) [] none (World.empty, Ghost.start clients) where
  inv := inv_start clients
  prog := rfl
  refs _ := Multiset.count_zero i
  locks _ := by simp [World.empty]
  priv _ := by simp [Ghost.start]

variable {clients : ι → Client β}

/-- Where a run has led, with what it means. -/
theorem reaches_wp (many : 2 ^ 64 < turns) (careful : ∀ i, Careful (clients i) fun _ => 0)
    {P : Pool Answer ι (World ι) β} (run : Pool.Reaches semFits (start v turns clients) P) :
    ∃ g, Inv v (P.state, g) ∧ Pool.Reaches (spec ι) ⟨.empty, clients⟩ g.pool ∧
      ∀ i, (terms v ι β).wp semFits i (P.prog i) (fun b s => ∃ n, Thread v i (.ret b) n [] none s)
        (P.state, g) := by
  induction run with
  | refl => exact ⟨.start clients, inv_start clients, .refl,
      fun i => code_wp many (careful i) (thread_start clients i)⟩
  | step run last ih =>
    obtain ⟨g, _, reach, all⟩ := ih
    obtain ⟨g', guar, all'⟩ := Terms.together all last
    refine ⟨g', guar.inv, ?_, all'⟩
    rcases guar.pool with same | step
    · exact Eq.mpr (congrArg _ same) reach
    · exact reach.step step

/-- Whatever a thread has come to in a run, it is an operation it may come to. -/
theorem reaches_allowed (many : 2 ^ 64 < turns) (careful : ∀ i, Careful (clients i) fun _ => 0)
    {P : Pool Answer ι (World ι) β} (run : Pool.Reaches semFits (start v turns clients) P) :
    ∃ g : Ghost ι β, Inv v (P.state, g) ∧ ∀ (i : ι) (c : Op) (k : Answer c → Prog Answer β),
      P.prog i = .call c k → Allowed v i (P.state, g) c := by
  obtain ⟨g, inv, -, all⟩ := reaches_wp many careful run
  refine ⟨g, inv, fun i c k next => ?_⟩
  have mine := all i
  rw [next] at mine
  exact (mine _ ((terms v ι β).rely_refl i _)).1

/-! ## One call at a time -/

/-- **The calls of any number of threads are done one at a time.** Whatever the
order of the operations, and as long as no count is too large for an `int`, all
that the threads get to know is what they would with a table on which each call
is done at once. -/
theorem foo_simulates (v : Version) (many : 2 ^ 64 < turns)
    (careful : ∀ i, Careful (clients i) fun _ => 0) :
    Pool.Simulates semFits (spec ι) (start v turns clients) ⟨.empty, clients⟩ := by
  refine Terms.simulates (T := terms v ι β) (g := .start clients) (fun g => g.pool)
    (fun i s s' guar => guar.pool) fun i => ?_
  refine (code_wp many (careful i) (thread_start clients i)).mono ?_
  rintro b s ⟨n, thread⟩
  exact thread.prog

/-! ## A program -/

def call (req : Req) : Client (Reply req) := Prog.ask req

/-- Uses the object with an id, and makes it if there is none. -/
def useOne (id : Int) : Client Bool := do
  match ← call (.find id) with
  | some fp =>
    call (.rele fp)
    return true
  | none =>
    match ← call (.alloc id) with
    | none => return false
    | some fp =>
      call (.hold fp)
      call (.rele fp)
      call (.rele fp)
      return true

theorem careful_useOne (id : Int) : Careful (useOne id) fun _ => 0 := by
  intro r
  cases r with
  | some fp => exact ⟨by simp [Refs.gain], trivial⟩
  | none =>
    intro r
    cases r with
    | none => trivial
    | some fp =>
      exact ⟨by simp [Refs.gain], by simp [Refs.gain], by simp [Refs.gain, Refs.drop], trivial⟩

theorem foo_simulates_useOne :
    Pool.Simulates semFits (spec (Fin 2)) (start .mutex2 (2 ^ 64 + 1) fun _ => useOne 7)
      ⟨.empty, fun _ => useOne 7⟩ :=
  foo_simulates .mutex2 (Nat.lt_succ_self _) fun _ => careful_useOne 7

/-! ## What never happens to memory -/

/-- An operation that does not go wrong: no memory that is not allocated is
used, no mutex that is not initialized or that somebody has is done away with,
no thread takes a mutex twice or gives one back that it does not have. -/
def Safe (i : ι) (w : World ι) : Op → Prop
  | .malloc | .head _ | .setHead _ _ => True
  | .free fp | .init fp => ∃ foo, w.mem fp = some foo ∧ foo.f_lock = false
  | .destroy fp => (∃ foo, w.mem fp = some foo ∧ foo.f_lock = true) ∧ w.locks (.f_lock fp) = none
  | .lock .hashlock => w.locks .hashlock ≠ some i
  | .lock (.f_lock fp) => (∃ foo, w.mem fp = some foo ∧ foo.f_lock = true) ∧
      w.locks (.f_lock fp) ≠ some i
  | .unlock m => w.locks m = some i
  | .count fp | .setCount fp _ | .id fp | .setId fp _ | .next fp | .setNext fp _ =>
    (w.mem fp).isSome
  | .stop _ => False

omit [DecidableEq ι] in
theorem Allowed.safe (inv : Inv v s) {c : Op} (allowed : Allowed v i s c) : Safe i s.1 c := by
  have own {fp : Addr} (mine : s.2.priv fp = some i) : (s.1.mem fp).isSome :=
    (inv.alive fp).2 (.inr (by rw [mine]; rfl))
  have used {fp : Addr} {p : Prop} (has : s.2.priv fp = some i ∨ fp ∈ s.table.objects ∧ p) :
      (s.1.mem fp).isSome :=
    has.elim own fun has => (inv.alive fp).2 (.inl has.1)
  cases c with
  | malloc | head | setHead => trivial
  | free fp | init fp =>
    obtain ⟨foo, here⟩ := inv.at_priv allowed.1
    exact ⟨foo, here, allowed.2 foo here⟩
  | destroy fp =>
    obtain ⟨foo, here⟩ := inv.at_priv allowed.1
    exact ⟨⟨foo, here, allowed.2.1 foo here⟩, allowed.2.2⟩
  | lock m =>
    cases m with
    | hashlock => exact allowed.1
    | f_lock fp =>
      obtain ⟨foo, here, kept⟩ := inv.at_object (allowed.2 fp rfl).1
      exact ⟨⟨foo, here, kept.lock⟩, allowed.1⟩
  | unlock m => exact allowed
  | count | setCount | id | next | setNext => exact used allowed
  | setId => exact own allowed
  | stop => exact allowed

/-- **No thread goes wrong.** Whatever a thread is about to do in any run, it
uses no memory that has been freed, and no mutex in a way it must not. -/
theorem foo_safe (v : Version) (many : 2 ^ 64 < turns)
    (careful : ∀ i, Careful (clients i) fun _ => 0) {P : Pool Answer ι (World ι) β}
    (run : Pool.Reaches semFits (start v turns clients) P) {c : Op} {k : Answer c → Prog Answer β}
    (next : P.prog i = .call c k) : Safe i P.state c := by
  obtain ⟨g, inv, allowed⟩ := reaches_allowed many careful run
  exact (allowed i c k next).safe inv

/-- One thread is about to count up an object that the other one is looking at in
the table. -/
theorem useOne_beside : ∃ P : Pool Answer (Fin 2) (World (Fin 2)) Bool,
    Pool.Reaches semFits (start .mutex2 (2 ^ 64 + 1) fun _ => useOne 7) P ∧
      (∃ k, P.prog 0 = .call (.setCount 5 2) k) ∧ ∃ k, P.prog 1 = .call (.id 5) k :=
  ⟨_, (Pool.Reaches.alone (i := 0) (n := 16) (World.answer_sem 5) trivial rfl).1.trans
    (Pool.Reaches.alone (i := 1) (n := 2) (World.answer_sem 6) trivial rfl).1, ⟨_, rfl⟩, ⟨_, rfl⟩⟩

theorem foo_safe_useOne : ∃ P : Pool Answer (Fin 2) (World (Fin 2)) Bool,
    Pool.Reaches semFits (start .mutex2 (2 ^ 64 + 1) fun _ => useOne 7) P ∧
      Safe 0 P.state (.setCount 5 2) ∧ Safe 1 P.state (.id 5) := by
  obtain ⟨P, run, ⟨k, next⟩, k', next'⟩ := useOne_beside
  have many : 2 ^ 64 < 2 ^ 64 + 1 := Nat.lt_succ_self _
  exact ⟨P, run, foo_safe .mutex2 many (fun _ => careful_useOne 7) run next,
    foo_safe .mutex2 many (fun _ => careful_useOne 7) run next'⟩

/-! ## No two threads at one place -/

/-- A place in memory. -/
inductive Place where
  | fh (b : Bucket)
  | f_count (fp : Addr)
  | f_lock (fp : Addr)
  | f_id (fp : Addr)
  | f_next (fp : Addr)

inductive Op.Changes : Op → Place → Prop
  | setHead (b : Bucket) (p : Option Addr) : Changes (.setHead b p) (.fh b)
  | setCount (fp : Addr) (n : Int) : Changes (.setCount fp n) (.f_count fp)
  | setId (fp : Addr) (n : Int) : Changes (.setId fp n) (.f_id fp)
  | setNext (fp : Addr) (p : Option Addr) : Changes (.setNext fp p) (.f_next fp)
  | init (fp : Addr) : Changes (.init fp) (.f_lock fp)
  | destroy (fp : Addr) : Changes (.destroy fp) (.f_lock fp)
  | free_count (fp : Addr) : Changes (.free fp) (.f_count fp)
  | free_lock (fp : Addr) : Changes (.free fp) (.f_lock fp)
  | free_id (fp : Addr) : Changes (.free fp) (.f_id fp)
  | free_next (fp : Addr) : Changes (.free fp) (.f_next fp)

/-- Taking and giving back a mutex counts as looking at it: mutexes keep their
own order. -/
inductive Op.Looks : Op → Place → Prop
  | head (b : Bucket) : Looks (.head b) (.fh b)
  | count (fp : Addr) : Looks (.count fp) (.f_count fp)
  | id (fp : Addr) : Looks (.id fp) (.f_id fp)
  | next (fp : Addr) : Looks (.next fp) (.f_next fp)
  | lock (fp : Addr) : Looks (.lock (.f_lock fp)) (.f_lock fp)
  | unlock (fp : Addr) : Looks (.unlock (.f_lock fp)) (.f_lock fp)

/-- Thread `i` alone may be at a place. -/
def Owns (v : Version) (i : ι) (s : State ι β) : Place → Prop
  | .fh _ => s.1.locks .hashlock = some i
  | .f_count fp => s.2.priv fp = some i ∨ fp ∈ s.table.objects ∧ s.1.locks (v.guard fp) = some i
  | .f_next fp => s.2.priv fp = some i ∨ fp ∈ s.table.objects ∧ s.1.locks .hashlock = some i
  | .f_id fp | .f_lock fp => s.2.priv fp = some i

/-- Thread `i` may be at a place. -/
def Shares (v : Version) (i : ι) (s : State ι β) : Place → Prop
  | .f_id fp | .f_lock fp => s.2.priv fp = some i ∨ fp ∈ s.table.objects
  | l => Owns v i s l

omit [DecidableEq ι] in
theorem Allowed.owns {c : Op} {l : Place} (allowed : Allowed v i s c) (changes : c.Changes l) :
    Owns v i s l := by
  cases changes with
  | setHead | setCount | setId | setNext => exact allowed
  | init | destroy | free_lock | free_id => exact allowed.1
  | free_count | free_next => exact .inl allowed.1

omit [DecidableEq ι] in
theorem Allowed.shares (inv : Inv v s) {c : Op} {l : Place} (allowed : Allowed v i s c)
    (looks : c.Looks l) : Shares v i s l := by
  cases looks with
  | head | count | next => exact allowed
  | id fp => exact allowed.imp_right And.left
  | lock fp => exact .inr (allowed.2 fp rfl).1
  | unlock fp => exact (inv.lock fp i allowed).elim (fun h => .inr h.1) .inl

omit [DecidableEq ι] in
theorem Owns.shares {l : Place} (owns : Owns v i s l) : Shares v i s l := by
  cases l with
  | fh | f_count | f_next => exact owns
  | f_id | f_lock => exact .inl owns

omit [DecidableEq ι] in
theorem Owns.alone (inv : Inv v s) {l : Place} (owns : Owns v i s l) (shares : Shares v j s l) :
    i = j := by
  have once {x : Option ι} (mine : x = some i) (theirs : x = some j) : i = j :=
    Option.some.inj (mine.symm.trans theirs)
  have either {fp : Addr} {m : Mutex}
      (mine : s.2.priv fp = some i ∨ fp ∈ s.table.objects ∧ s.1.locks m = some i)
      (theirs : s.2.priv fp = some j ∨ fp ∈ s.table.objects ∧ s.1.locks m = some j) : i = j := by
    rcases mine with mine | mine <;> rcases theirs with theirs | theirs
    · exact once mine theirs
    · exact absurd theirs.1 (inv.not_object mine)
    · exact absurd mine.1 (inv.not_object theirs)
    · exact once mine.2 theirs.2
  cases l with
  | fh b => exact once owns shares
  | f_count fp => exact either owns shares
  | f_next fp => exact either owns shares
  | f_id fp | f_lock fp =>
    rcases shares with theirs | mem
    · exact once owns theirs
    · exact absurd mem (inv.not_object owns)

/-- **No races.** No two threads are ever about to do something to one place of
which one changes it. -/
theorem foo_race_free (v : Version) (many : 2 ^ 64 < turns)
    (careful : ∀ i, Careful (clients i) fun _ => 0) {P : Pool Answer ι (World ι) β}
    (run : Pool.Reaches semFits (start v turns clients) P) (other : i ≠ j) {c d : Op}
    {k : Answer c → Prog Answer β} {k' : Answer d → Prog Answer β}
    (next : P.prog i = .call c k) (next' : P.prog j = .call d k') {l : Place}
    (changes : c.Changes l) : ¬ (d.Changes l ∨ d.Looks l) := by
  obtain ⟨g, inv, allowed⟩ := reaches_allowed many careful run
  have owns : Owns v i (P.state, g) l := (allowed i c k next).owns changes
  have may := allowed j d k' next'
  rintro (theirs | theirs)
  · exact other (owns.alone inv (may.owns theirs).shares)
  · exact other (owns.alone inv (may.shares inv theirs))

theorem foo_race_free_useOne : ∃ P : Pool Answer (Fin 2) (World (Fin 2)) Bool,
    Pool.Reaches semFits (start .mutex2 (2 ^ 64 + 1) fun _ => useOne 7) P ∧
      (∃ k, P.prog 0 = .call (.setCount 5 2) k) ∧ (∃ k, P.prog 1 = .call (.id 5) k) ∧
      ¬ ((Op.id 5).Changes (.f_count 5) ∨ (Op.id 5).Looks (.f_count 5)) := by
  obtain ⟨P, run, ⟨k, next⟩, k', next'⟩ := useOne_beside
  exact ⟨P, run, ⟨k, next⟩, ⟨k', next'⟩, foo_race_free .mutex2 (Nat.lt_succ_self _)
    (fun _ => careful_useOne 7) run (by decide) next next' (.setCount 5 2)⟩

/-! ## What is left -/

/-- **An object is there as long as somebody has a reference.** When all threads
have ended, what is allocated are the objects to which they have kept
references, each with their number. -/
theorem foo_frees (v : Version) (many : 2 ^ 64 < turns)
    (careful : ∀ i, Careful (clients i) fun _ => 0) {P : Pool Answer ι (World ι) β}
    (run : Pool.Reaches semFits (start v turns clients) P) {results : ι → β}
    (ended : ∀ i, P.prog i = .ret (results i)) :
    ∃ t, Pool.Reaches (spec ι) ⟨.empty, clients⟩ ⟨t, fun i => .ret (results i)⟩ ∧
      (∀ fp, (P.state.mem fp).isSome ↔ t.holders fp ≠ 0) ∧
      ∀ fp foo, P.state.mem fp = some foo → foo.f_count = (t.holders fp).card := by
  obtain ⟨g, inv, reach, all⟩ := reaches_wp many careful run
  have idle (i : ι) : ∃ n, Thread v i (.ret (results i)) n [] none (P.state, g) := by
    have mine := all i
    rw [ended] at mine
    exact mine _ ((terms v ι β).rely_refl i _)
  have none' (fp : Addr) : g.priv fp = none := by
    cases mine : g.priv fp with
    | none => rfl
    | some i =>
      obtain ⟨n, thread⟩ := idle i
      cases (thread.priv fp).1 mine
  have whole (fp : Addr) : g.dying ≠ some fp := by
    intro dies
    obtain ⟨-, i, -, lock⟩ := inv.dying fp dies
    obtain ⟨n, thread⟩ := idle i
    cases (thread.locks _).1 lock
  have alive (fp : Addr) : (P.state.mem fp).isSome ↔ fp ∈ g.pool.state.objects := by
    simpa [none' fp] using inv.alive fp
  refine ⟨g.pool.state, ?_, fun fp => (alive fp).trans (inv.held fp), ?_⟩
  · have same : g.pool.prog = fun i => .ret (results i) := by
      funext i
      obtain ⟨n, thread⟩ := idle i
      exact thread.prog
    rw [← same]
    exact reach
  · intro fp foo here
    have kept := inv.kept fp ((alive fp).1 (by rw [here]; rfl)) foo here
    simpa [whole fp] using kept.count

/-- A client that makes an object and keeps it. -/
def makeOne : Client Bool := do return (← call (.alloc 7)).isSome

/-- Both clients, with different ids. -/
def makeAndUse : Fin 2 → Client Bool
  | 0 => makeOne
  | 1 => useOne 8

theorem careful_makeAndUse : (i : Fin 2) → Careful (makeAndUse i) fun _ => 0
  | 0 => fun _ => trivial
  | 1 => careful_useOne 8

/-- One object is kept, and one is freed by its last reference. -/
theorem makeAndUse_ends : ∃ P : Pool Answer (Fin 2) (World (Fin 2)) Bool,
    Pool.Reaches semFits (start .mutex2 (2 ^ 64 + 1) makeAndUse) P ∧
      (∀ i, P.prog i = .ret true) ∧ P.state.mem 5 = some ⟨1, true, 7, none⟩ ∧
      P.state.mem 6 = none :=
  ⟨_, (Pool.Reaches.alone (i := 0) (n := 11) (World.answer_sem 5) trivial rfl).1.trans
    (Pool.Reaches.alone (i := 1) (n := 37) (World.answer_sem 6) trivial rfl).1,
    fun
    | 0 => rfl
    | 1 => rfl,
    rfl, rfl⟩

theorem foo_frees_makeAndUse :
    ∃ (P : Pool Answer (Fin 2) (World (Fin 2)) Bool) (t : Table (Fin 2)),
      P.state.mem 5 = some ⟨1, true, 7, none⟩ ∧ P.state.mem 6 = none ∧
        Pool.Reaches (spec (Fin 2)) ⟨.empty, makeAndUse⟩ ⟨t, fun _ => .ret true⟩ ∧
        (∀ fp, (P.state.mem fp).isSome ↔ t.holders fp ≠ 0) ∧
        ∀ fp foo, P.state.mem fp = some foo → foo.f_count = (t.holders fp).card := by
  obtain ⟨P, run, ended, kept, freed⟩ := makeAndUse_ends
  obtain ⟨t, reach, alive, count⟩ :=
    foo_frees .mutex2 (Nat.lt_succ_self _) careful_makeAndUse run ended
  exact ⟨P, t, kept, freed, reach, alive, count⟩

end UnixProgramming.Counted
