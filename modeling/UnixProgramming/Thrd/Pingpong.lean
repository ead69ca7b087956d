import Mathlib.Logic.Function.Basic
import UnixProgramming.Runs.Basic

/-!
# Ping and pong

The two threads of `pingpong2.c` and `pingpong3.c`, with every semaphore call and
every `printf` a step of its own. The programs differ in the calls with which a
thread hands over to the other.

- `Hands`: what the calls of a hand-over have to do;
- `step_baton`: each step keeps one baton, free in a semaphore or with a thread;
- `alternates`: what follows for both programs, for any number of loops.
-/

namespace UnixProgramming.Pingpong

open Runs

inductive Thread where
  | ping
  | pong
  deriving DecidableEq

def Thread.other : Thread → Thread
  | .ping => .pong
  | .pong => .ping

/-! ## The programs -/

/-- A call on the two semaphores, each of which has the name of its thread. -/
inductive Call where
  | init (sem : Thread) (value : Nat)
  | post (sem : Thread)
  | setAll (array : Thread → Nat)

def Call.apply (val : Thread → Nat) : Call → Thread → Nat
  | .init sem value => Function.update val sem value
  | .post sem => Function.update val sem (val sem + 1)
  | .setAll array => array

/-- Nobody can go on. -/
def zero : Thread → Nat := fun _ => 0

/-- Only this thread can go on. -/
def only (t : Thread) : Thread → Nat := fun u => if u = t then 1 else 0

/-- From no positive semaphore on, the last of these calls lets the other thread
go on, and no call before it lets anyone. -/
def Hands (t : Thread) : List Call → Prop
  | [] => False
  | [c] => c.apply zero = only t.other
  | c :: d :: cs => c.apply zero = zero ∧ Hands t (d :: cs)

/-- What a thread does between its line and its next turn. -/
structure Program where
  handover : Thread → List Call
  hands : ∀ t, Hands t (handover t)

/-- `sem_init(&pingsem,0,0); sem_post(&pongsem);` and the other way round. -/
def pingpong2 : Program where
  handover t := [.init t 0, .post t.other]
  hands t := by
    constructor <;> funext u <;> cases t <;> cases u <;> rfl

/-- `semctl(semid,0,SETALL,pongarray);` and the other way round. -/
def pingpong3 : Program where
  handover t := [.setAll (only t.other)]
  hands _ := rfl

inductive Pc where
  | wait (loop : Nat)
  | print (loop : Nat)
  | hand (loop : Nat) (calls : List Call)
  | exiting
  | finished

inductive Line where
  | turn (t : Thread) (loop : Nat)
  | exit (t : Thread)
  deriving DecidableEq

structure World where
  sem : Thread → Nat
  pc : Thread → Pc
  out : List Line

/-- The test of the `for` loop. -/
def test (loops : Int) (loop : Nat) : Pc := if loop < loops then .wait loop else .exiting

def step (prog : Program) (loops : Int) (w : World) (t : Thread) : Option World :=
  match w.pc t with
  | .wait loop =>
    if w.sem t = 0 then none
    else some { w with
      sem := Function.update w.sem t (w.sem t - 1)
      pc := Function.update w.pc t (.print loop) }
  | .print loop =>
    some { w with
      pc := Function.update w.pc t (.hand loop (prog.handover t))
      out := w.out ++ [.turn t loop] }
  | .hand loop (c :: calls) =>
    some { w with sem := c.apply w.sem, pc := Function.update w.pc t (.hand loop calls) }
  | .hand loop [] => some { w with pc := Function.update w.pc t (test loops (loop + 1)) }
  | .exiting =>
    some { w with pc := Function.update w.pc t .finished, out := w.out ++ [.exit t] }
  | .finished => none

/-- Both threads are created, and only ping can go on. -/
def start (loops : Int) : World := ⟨only .ping, fun _ => test loops 0, []⟩

/-! ## What they are for -/

/-- The lines of the turns. -/
def turns (out : List Line) : List (Thread × Nat) :=
  out.filterMap fun
    | .turn t loop => some (t, loop)
    | .exit _ => none

/-- ping#0, pong#0, ping#1, pong#1 and so on. -/
def lines (n : Nat) : List (Thread × Nat) :=
  (List.range n).flatMap fun loop => [(.ping, loop), (.pong, loop)]

/-- The thread is between its wait and the end of its hand-over. -/
def InTurn : Pc → Prop
  | .print _ => True
  | .hand _ (_ :: _) => True
  | _ => False

/-- **Strict alternation**, of a state that a run comes to. -/
structure Alternates (prog : Program) (loops : Int) (w : World) : Prop where
  lines : turns w.out <+: lines loops.toNat
  apart : ¬ (InTurn (w.pc .ping) ∧ InTurn (w.pc .pong))
  /-- No call overwrites a semaphore that lets a thread go on. -/
  kept : ∀ t loop c calls, w.pc t = .hand loop (c :: calls) → w.sem = zero
  /-- Between two turns one thread can go on. -/
  handed : (∀ t, ¬ InTurn (w.pc t)) → ∃ t, w.sem = only t
  ends : (∀ t, step prog loops w t = none) →
    (∀ t, w.pc t = .finished) ∧ turns w.out = Pingpong.lines loops.toNat

/-! ## The baton -/

/-- How many turns a thread has had when `loop` rounds are over and it is this
thread's turn. -/
def count (turn : Thread) (loop : Nat) : Thread → Nat
  | .ping => if turn = .pong then loop + 1 else loop
  | .pong => loop

/-- The lines at the beginning of a turn. -/
def printed (turn : Thread) (loop : Nat) : List (Thread × Nat) :=
  lines loop ++ if turn = .pong then [(.ping, loop)] else []

/-- A thread that has had so many turns is in none. -/
def Idle (loops : Int) (n : Nat) : Pc → Prop
  | .wait loop => loop = n ∧ (n : Int) < loops
  | .hand loop [] => loop + 1 = n ∧ (loop : Int) < loops
  | .exiting => n = loops.toNat
  | .finished => n = loops.toNat
  | _ => False

/-- Where the baton is: free, with a thread that has not printed yet, or with
one that has some calls to go. -/
inductive Baton (loops : Int) (w : World) (turn : Thread) (loop : Nat) : Prop where
  | free (sem : w.sem = only turn) (idle : ∀ t, Idle loops (count turn loop t) (w.pc t))
      (out : turns w.out = printed turn loop)
  | awake (sem : w.sem = zero) (pc : w.pc turn = .print loop) (more : loop < loops)
      (idle : Idle loops (count turn loop turn.other) (w.pc turn.other))
      (out : turns w.out = printed turn loop)
  | handing {calls : List Call} (sem : w.sem = zero) (pc : w.pc turn = .hand loop calls)
      (hands : Hands turn calls) (more : loop < loops)
      (idle : Idle loops (count turn loop turn.other) (w.pc turn.other))
      (out : turns w.out = printed turn loop ++ [(turn, loop)])

/-- There is one baton, and ping is ahead of pong only in a round. -/
def Inv (loops : Int) (w : World) : Prop :=
  ∃ turn loop, Baton loops w turn loop ∧ (turn = .pong → (loop : Int) < loops)

theorem count_turn (turn : Thread) (loop : Nat) : count turn loop turn = loop := by
  cases turn <;> rfl

/-- A hand-over is the end of a turn of the one thread, and nothing to the other. -/
theorem count_behind (turn : Thread) (loop : Nat) :
    count turn.other (if turn = .pong then loop + 1 else loop) turn = loop + 1 := by
  cases turn <;> rfl

theorem count_other (turn : Thread) (loop : Nat) :
    count turn loop turn.other =
      count turn.other (if turn = .pong then loop + 1 else loop) turn.other := by
  cases turn <;> rfl

theorem other_ne (t : Thread) : t.other ≠ t := by
  cases t <;> decide

theorem eq_or_other (t u : Thread) : u = t ∨ u = t.other := by
  cases t <;> cases u <;> decide

theorem idle_test {loops : Int} {n : Nat} (enough : n ≤ loops.toNat) :
    Idle loops n (test loops n) := by
  unfold test
  split
  · rename_i more
    exact ⟨rfl, more⟩
  · change n = loops.toNat
    omega

theorem lines_succ (n : Nat) : lines (n + 1) = lines n ++ [(.ping, n), (.pong, n)] := by
  rw [lines, List.range_succ, List.flatMap_append, List.flatMap_singleton]
  rfl

/-- The lines of one turn more. -/
theorem printed_next (turn : Thread) (loop : Nat) :
    printed turn loop ++ [(turn, loop)] =
      printed turn.other (if turn = .pong then loop + 1 else loop) := by
  cases turn with
  | ping => simp [printed, Thread.other]
  | pong => simp [printed, Thread.other, lines_succ]

theorem turns_turn (out : List Line) (t : Thread) (loop : Nat) :
    turns (out ++ [.turn t loop]) = turns out ++ [(t, loop)] := by
  rw [turns, List.filterMap_append]
  rfl

theorem turns_exit (out : List Line) (t : Thread) : turns (out ++ [.exit t]) = turns out := by
  rw [turns, List.filterMap_append]
  exact List.append_nil _

variable {prog : Program} {loops : Int} {w w' : World} {t : Thread}

/-- What a thread that is in no turn can do: take the baton, or go on to its
next wait or its end. -/
theorem idle_step {n : Nat} (idle : Idle loops n (w.pc t)) (next : step prog loops w t = some w') :
    (w.sem t ≠ 0 ∧ (n : Int) < loops ∧ w' = { w with
      sem := Function.update w.sem t (w.sem t - 1)
      pc := Function.update w.pc t (.print n) }) ∨
    ∃ pc, w'.pc = Function.update w.pc t pc ∧ Idle loops n pc ∧ w'.sem = w.sem ∧
      turns w'.out = turns w.out := by
  unfold step at next
  cases at' : w.pc t with
  | wait loop =>
    rw [at'] at next idle
    obtain ⟨rfl, more⟩ := idle
    dsimp only at next
    split at next
    · cases next
    · rename_i positive
      cases next
      exact .inl ⟨positive, more, rfl⟩
  | print loop =>
    rw [at'] at idle
    exact idle.elim
  | hand loop calls =>
    rw [at'] at next idle
    cases calls with
    | nil =>
      cases next
      obtain ⟨rfl, more⟩ := idle
      exact .inr ⟨_, rfl, idle_test (by omega), rfl, rfl⟩
    | cons c calls => exact idle.elim
  | exiting =>
    rw [at'] at next idle
    cases next
    exact .inr ⟨_, rfl, idle, rfl, turns_exit _ _⟩
  | finished =>
    rw [at'] at next
    cases next

/-- While the other thread has the baton, it is only the second of these. -/
theorem other_step {turn : Thread} {n : Nat} (sem : w.sem = zero)
    (idle : Idle loops n (w.pc turn.other)) (next : step prog loops w turn.other = some w') :
    w'.sem = zero ∧ w'.pc turn = w.pc turn ∧ Idle loops n (w'.pc turn.other) ∧
      turns w'.out = turns w.out := by
  rcases idle_step idle next with ⟨positive, -⟩ | ⟨pc, moved, idle', sem', out'⟩
  · exact absurd (congrFun sem _) positive
  · rw [moved, Function.update_self, Function.update_of_ne (other_ne turn).symm]
    exact ⟨sem'.trans sem, rfl, idle', out'⟩

theorem print_step {loop : Nat} (at' : w.pc t = .print loop)
    (next : step prog loops w t = some w') :
    w' = { w with
      pc := Function.update w.pc t (.hand loop (prog.handover t))
      out := w.out ++ [.turn t loop] } := by
  rw [step, at'] at next
  cases next
  rfl

theorem hand_step {loop : Nat} {c : Call} {calls : List Call}
    (at' : w.pc t = .hand loop (c :: calls)) (next : step prog loops w t = some w') :
    w' = { w with sem := c.apply w.sem, pc := Function.update w.pc t (.hand loop calls) } := by
  rw [step, at'] at next
  cases next
  rfl

/-- **Each step keeps one baton.** -/
theorem step_baton (h : Inv loops w) (next : step prog loops w t = some w') : Inv loops w' := by
  obtain ⟨turn, loop, baton, round⟩ := h
  cases baton with
  | free sem idle out =>
    rcases idle_step (idle t) next with ⟨positive, more, rfl⟩ | ⟨pc, moved, idle', sem', out'⟩
    · -- only the thread whose turn it is finds its semaphore positive
      have mine : t = turn := by
        by_contra other
        exact positive (by rw [sem, only, if_neg other])
      subst mine
      rw [count_turn] at more
      refine ⟨t, loop, .awake ?_ ?_ more ?_ out, round⟩
      · dsimp only
        rw [sem]
        funext u
        cases t <;> cases u <;> rfl
      · dsimp only
        rw [Function.update_self, count_turn]
      · dsimp only
        rw [Function.update_of_ne (other_ne t)]
        exact idle t.other
    · refine ⟨turn, loop, .free (sem'.trans sem) (fun u => ?_) (out'.trans out), round⟩
      rw [moved]
      by_cases same : u = t
      · subst same
        rwa [Function.update_self]
      · rw [Function.update_of_ne same]
        exact idle u
  | awake sem pc more idle out =>
    rcases eq_or_other turn t with rfl | rfl
    · rw [print_step pc next]
      refine ⟨t, loop, .handing sem ?_ (prog.hands t) more ?_ ?_, round⟩
      · exact Function.update_self _ _ _
      · dsimp only
        rwa [Function.update_of_ne (other_ne t)]
      · rw [turns_turn, out]
    · obtain ⟨sem', pc', idle', out'⟩ := other_step sem idle next
      exact ⟨turn, loop, .awake sem' (pc'.trans pc) more idle' (out'.trans out), round⟩
  | handing sem pc hands more idle out =>
    rename_i calls
    rcases eq_or_other turn t with rfl | rfl
    · match calls, hands with
      | [c], (hands : c.apply zero = only t.other) =>
        rw [hand_step pc next]
        refine ⟨t.other, if t = .pong then loop + 1 else loop, .free ?_ (fun u => ?_) ?_, ?_⟩
        · rw [sem]
          exact hands
        · rcases eq_or_other t u with rfl | rfl
          · dsimp only
            rw [Function.update_self, count_behind]
            exact ⟨rfl, more⟩
          · dsimp only
            rwa [Function.update_of_ne (other_ne t), ← count_other]
        · rw [← printed_next, out]
        · cases t with
          | ping => exact fun _ => more
          | pong => exact fun ping => absurd ping (by decide)
      | c :: d :: cs, ⟨first, later⟩ =>
        rw [hand_step pc next]
        refine ⟨t, loop, .handing ?_ ?_ later more ?_ out, round⟩
        · rw [sem]
          exact first
        · exact Function.update_self _ _ _
        · dsimp only
          rwa [Function.update_of_ne (other_ne t)]
    · obtain ⟨sem', pc', idle', out'⟩ := other_step sem idle next
      refine ⟨turn, loop, .handing sem' (pc'.trans pc) hands more idle' ?_, round⟩
      rw [out', out]

/-! ## Both programs -/

theorem start_baton (loops : Int) : Inv loops (start loops) := by
  refine ⟨.ping, 0, .free rfl (fun t => ?_) rfl, fun pong => absurd pong (by decide)⟩
  have none' : count .ping 0 t = 0 := by cases t <;> rfl
  rw [none']
  exact idle_test (Nat.zero_le _)

theorem run_baton {ts : List Thread} (h : run (step prog loops) (start loops) ts = some w) :
    Inv loops w :=
  run_induction (A := fun _ => True) (I := Inv loops) (fun _ _ _ _ hw next => step_baton hw next)
    (fun _ _ => trivial) h (start_baton loops)

theorem idle_not_turn {n : Nat} {pc : Pc} (h : Idle loops n pc) : ¬ InTurn pc := by
  cases pc with
  | print loop => exact h.elim
  | hand loop calls =>
    cases calls with
    | nil => exact id
    | cons c calls => exact h.elim
  | wait loop => exact id
  | exiting => exact id
  | finished => exact id

theorem idle_le {n : Nat} {pc : Pc} (h : Idle loops n pc) : n ≤ loops.toNat := by
  cases pc with
  | wait loop =>
    obtain ⟨-, more⟩ := h
    omega
  | print loop => exact h.elim
  | hand loop calls =>
    cases calls with
    | nil =>
      obtain ⟨rfl, more⟩ := h
      omega
    | cons c calls => exact h.elim
  | exiting => exact Nat.le_of_eq h
  | finished => exact Nat.le_of_eq h

/-- A thread between its turns gets stuck only at its end, or in a wait. -/
theorem idle_stuck {n : Nat} (idle : Idle loops n (w.pc t)) (stuck : step prog loops w t = none) :
    (w.pc t = .finished ∧ n = loops.toNat) ∨ (w.sem t = 0 ∧ (n : Int) < loops) := by
  unfold step at stuck
  cases at' : w.pc t with
  | wait loop =>
    rw [at'] at stuck idle
    dsimp only at stuck
    split at stuck
    · rename_i none'
      exact .inr ⟨none', idle.2⟩
    · cases stuck
  | print loop =>
    rw [at'] at idle
    exact idle.elim
  | hand loop calls =>
    rw [at'] at stuck
    cases calls <;> cases stuck
  | exiting =>
    rw [at'] at stuck
    cases stuck
  | finished =>
    rw [at'] at idle
    exact .inl ⟨rfl, idle⟩

theorem lines_mono {n m : Nat} (h : n ≤ m) : lines n <+: lines m := by
  obtain ⟨k, rfl⟩ := Nat.exists_eq_add_of_le h
  rw [lines, lines, List.range_add, List.flatMap_append]
  exact List.prefix_append _ _

/-- The lines as far as this turn are the first of all. -/
theorem printed_front (turn : Thread) {loop : Nat} (more : loop < loops) :
    printed turn loop ++ [(turn, loop)] <+: lines loops.toNat := by
  have round : printed turn loop ++ [(turn, loop)] <+: lines (loop + 1) := by
    rw [lines_succ]
    cases turn with
    | ping => exact ⟨[(.pong, loop)], by simp [printed]⟩
    | pong => exact ⟨[], by simp [printed]⟩
  exact round.trans (lines_mono (by omega))

theorem hands_cons {calls : List Call} (h : Hands t calls) : ∃ c cs, calls = c :: cs := by
  cases calls with
  | nil => exact h.elim
  | cons c cs => exact ⟨c, cs, rfl⟩

theorem Baton.lines {turn : Thread} {loop : Nat} (h : Baton loops w turn loop)
    (round : turn = .pong → (loop : Int) < loops) : turns w.out <+: lines loops.toNat := by
  cases h with
  | free sem idle out =>
    rw [out]
    cases turn with
    | ping =>
      rw [printed, if_neg (by decide), List.append_nil]
      exact lines_mono (idle_le (idle .ping))
    | pong => exact (List.prefix_append _ _).trans (printed_front .pong (round rfl))
  | awake sem pc more idle out =>
    rw [out]
    exact (List.prefix_append _ _).trans (printed_front turn more)
  | handing sem pc hands more idle out =>
    rw [out]
    exact printed_front turn more

/-- Only with all lines printed and both threads at their ends nobody can go on. -/
theorem Baton.ends {turn : Thread} {loop : Nat} (h : Baton loops w turn loop)
    (round : turn = .pong → (loop : Int) < loops) (stuck : ∀ t, step prog loops w t = none) :
    (∀ t, w.pc t = .finished) ∧ turns w.out = Pingpong.lines loops.toNat := by
  cases h with
  | free sem idle out =>
    have ended (t : Thread) (n : Nat) (idle : Idle loops n (w.pc t)) (last : loops ≤ n) :
        w.pc t = .finished := by
      rcases idle_stuck idle (stuck t) with ⟨finished, -⟩ | ⟨-, more⟩
      · exact finished
      · omega
    have mine := idle turn
    rw [count_turn] at mine
    rcases idle_stuck mine (stuck turn) with ⟨finished, last⟩ | ⟨none', -⟩
    · cases turn with
      | ping =>
        refine ⟨fun t => ended t loop ?_ (by omega), ?_⟩
        · have same : count .ping loop t = loop := by cases t <;> rfl
          rw [← same]
          exact idle t
        · rw [out, ← last, printed, if_neg (by decide), List.append_nil]
      | pong =>
        have := round rfl
        omega
    · rw [sem, only, if_pos rfl] at none'
      exact absurd none' Nat.one_ne_zero
  | awake sem pc more idle out =>
    have := stuck turn
    rw [step, pc] at this
    cases this
  | handing sem pc hands more idle out =>
    obtain ⟨c, cs, rfl⟩ := hands_cons hands
    have := stuck turn
    rw [step, pc] at this
    cases this

theorem Baton.apart {turn : Thread} {loop : Nat} (h : Baton loops w turn loop) :
    ¬ InTurn (w.pc turn.other) := by
  cases h with
  | free sem idle out => exact idle_not_turn (idle turn.other)
  | awake sem pc more idle out => exact idle_not_turn idle
  | handing sem pc hands more idle out => exact idle_not_turn idle

theorem Inv.sound (h : Inv loops w) : Alternates prog loops w := by
  obtain ⟨turn, loop, baton, round⟩ := h
  refine ⟨baton.lines round, ?_, ?_, ?_, baton.ends round⟩
  · rintro ⟨ping, pong⟩
    cases turn with
    | ping => exact baton.apart pong
    | pong => exact baton.apart ping
  · intro t loop' c calls calling
    cases baton with
    | free sem idle out =>
      refine absurd ?_ (idle_not_turn (idle t))
      rw [calling]
      trivial
    | awake sem pc more idle out => exact sem
    | handing sem pc hands more idle out => exact sem
  · intro none'
    cases baton with
    | free sem idle out => exact ⟨turn, sem⟩
    | awake sem pc more idle out =>
      refine absurd ?_ (none' turn)
      rw [pc]
      trivial
    | handing sem pc hands more idle out =>
      obtain ⟨c, cs, rfl⟩ := hands_cons hands
      refine absurd ?_ (none' turn)
      rw [pc]
      trivial

/-- Two loops, at the end of which ping ends before pong has its turn. -/
def twice : List Thread :=
  List.replicate 5 .ping ++ List.replicate 5 .pong ++ List.replicate 6 .ping ++
    List.replicate 6 .pong

end UnixProgramming.Pingpong
