import Mathlib.Data.List.Basic
import UnixProgramming.Runs.Basic

/-!
# Logging signals

`hw7c1` logs all signals it can catch until its parent sends it a `SIGUSR2`,
while `hw7c2` sends it any others. A handler can interrupt the loop between any
two steps, and other handlers.

* `step_heeded`: what a run keeps in which the parent's signal comes in time;
* `termination`: in such a run it is not lost;
* `pause_loses`: a signal between the test of the loop and `pause`.
-/

namespace UnixProgramming.Signals

open Runs

def SIGKILL : Int := 9
def SIGUSR2 : Int := 12

/-- The process that a signal comes from. -/
inductive Pid where
  | hw7c2
  | parent
  deriving DecidableEq

structure Signal where
  signum : Int
  si_pid : Pid
  deriving DecidableEq

/-- A handler under way: whether it has logged the signal. -/
structure Handler where
  siginfo : Signal
  logged : Bool
  deriving DecidableEq

/-- What `main` does next. -/
inductive Pc where
  | test
  | reset
  | pause
  /-- In `pause`, and whether it is to return. -/
  | paused (woken : Bool)
  | print (isig : Nat)
  | resetAgain
  | left
  | killed
  /-- A store behind the end of `signo`. -/
  | wild
  deriving DecidableEq

/-- `pause` returns when a handler has. -/
def Pc.wake : Pc → Pc
  | .paused _ => .paused true
  | pc => pc

/-- The handlers under way come innermost first; `handled` says whether one for
a signal of the parent has returned. -/
structure Process where
  pc : Pc
  sigcnt : Int
  signo : List Int
  sigpid : Option Pid
  out : List (Int × Option Pid)
  handlers : List Handler
  coming : List Signal
  handled : Bool
  deriving DecidableEq

/-- The signals that `main` installs its handler for. -/
def caught (signum : Int) : Bool := 1 ≤ signum && signum < 32 && signum != SIGKILL && signum != 19

/-- The signals that end a process without a handler. -/
def fatal (signum : Int) : Bool := signum = SIGKILL || 32 ≤ signum && signum ≤ 64

/-- A signal is delivered while no handler for its number is under way. What is
stopped goes on at some time. -/
def deliver (p : Process) (i : Nat) : Option Process :=
  if p.pc = .left ∨ p.pc = .killed ∨ p.pc = .wild then none
  else
    match p.coming[i]? with
    | none => none
    | some s =>
      let q := { p with coming := p.coming.eraseIdx i }
      if caught s.signum then
        if p.handlers.any fun h => h.siginfo.signum = s.signum then none
        else some { q with handlers := ⟨s, false⟩ :: p.handlers }
      else if fatal s.signum then some { q with pc := .killed, handlers := [] }
      else some q

/-- `signo[++sigcnt] = signum;` and then `sigpid = siginfo->si_pid;` -/
def sighandler (p : Process) : Option Process :=
  if p.pc = .wild then none
  else
    match p.handlers with
    | [] => none
    | h :: hs =>
      if h.logged then
        some { p with
          sigpid := some h.siginfo.si_pid
          pc := p.pc.wake
          handlers := hs
          handled := p.handled || h.siginfo.si_pid = .parent }
      else if p.sigcnt + 1 < 32 then
        some { p with
          sigcnt := p.sigcnt + 1
          signo := p.signo.set (p.sigcnt + 1).toNat h.siginfo.signum
          handlers := { h with logged := true } :: hs }
      else some { p with pc := .wild }

/-- `main` goes on when no handler is under way. -/
def main (p : Process) : Option Process :=
  if p.handlers ≠ [] then none
  else
    match p.pc with
    | .test =>
      if p.signo.headD 0 ≠ SIGUSR2 ∨ p.sigpid ≠ some .parent then some { p with pc := .reset }
      else some { p with pc := .left }
    | .reset => some { p with sigcnt := -1, pc := .pause }
    | .pause => some { p with pc := .paused false }
    | .paused false => none
    | .paused true => some { p with pc := .print 0 }
    | .print isig =>
      if (isig : Int) ≤ p.sigcnt then
        some { p with out := p.out ++ [(p.signo.getD isig 0, p.sigpid)], pc := .print (isig + 1) }
      else some { p with pc := .resetAgain }
    | .resetAgain => some { p with sigcnt := -1, pc := .test }
    | .left => none
    | .killed => none
    | .wild => none

inductive Act where
  | deliver (i : Nat)
  | sighandler
  | main

def step (p : Process) : Act → Option Process
  | .deliver i => deliver p i
  | .sighandler => sighandler p
  | .main => main p

/-- When the handlers are installed; `sent` are the signals of `hw7c2`. -/
def start (sent : List Int) : Process where
  pc := .test
  sigcnt := -1
  signo := List.replicate 32 0
  sigpid := none
  out := []
  handlers := []
  coming := sent.map (⟨·, .hw7c2⟩) ++ [⟨SIGUSR2, .parent⟩]
  handled := false

/-! ## Whether the signal is lost -/

/-- In `pause` for ever, behind the signal of the parent. -/
def Lost (p : Process) : Prop :=
  p.pc = .paused false ∧ p.handlers = [] ∧ p.coming = [] ∧ p.handled = true

instance : DecidablePred Lost := fun _ => inferInstanceAs (Decidable (_ ∧ _ ∧ _ ∧ _))

structure Right (p : Process) : Prop where
  heard : ¬ Lost p
  loyal : p.pc = .left → p.handled = true
  inside : p.pc ≠ .wild

/-- There is room for another signal in `signo`; that of the parent is logged as
the first since `sigcnt= -1` or behind a first `SIGUSR2`, but not between the test
of the loop and `pause`; and no other handler returns behind that for the parent. -/
def InTime (p : Process) : Act → Prop
  | .sighandler => ∀ h ∈ p.handlers.head?,
    if h.logged then h.siginfo.si_pid = .hw7c2 → p.handled = false
    else p.sigcnt + 1 < 32 ∧ (h.siginfo.si_pid = .parent → p.pc ≠ .reset ∧ p.pc ≠ .pause ∧
      (p.sigcnt = -1 ∨ p.signo.head? = some SIGUSR2))
  | _ => True

instance (p : Process) : (a : Act) → Decidable (InTime p a)
  | .sighandler => inferInstanceAs (Decidable (∀ h ∈ p.handlers.head?, _))
  | .deliver _ => isTrue trivial
  | .main => isTrue trivial

/-- On the way out of the loop, as far as it is known now. -/
def Process.Leaving (p : Process) : Prop :=
  p.signo.head? = some SIGUSR2 ∧ p.pc ≠ .reset ∧ p.pc ≠ .pause

/-- What holds behind the steps of a run in which the signal of the parent comes
in time. -/
structure Heeded (p : Process) : Prop where
  size : p.signo.length = 32
  low : -1 ≤ p.sigcnt
  coming : ∀ s ∈ p.coming, s.si_pid = .parent → s.signum = SIGUSR2
  running : ∀ h ∈ p.handlers, h.siginfo.si_pid = .parent → h.siginfo.signum = SIGUSR2
  first : ∀ h ∈ p.handlers, h.logged → 0 ≤ p.sigcnt
  logged : ∀ h ∈ p.handlers, h.logged → h.siginfo.si_pid = .parent → p.Leaving
  unheard : p.sigpid = some .parent → p.handled = true
  heard : p.handled = true → p.pc ≠ .reset ∧ p.pc ≠ .pause ∧ p.pc ≠ .paused false
  leaving : p.handled = true → p.handlers = [] → p.pc ≠ .killed →
    p.signo.head? = some SIGUSR2 ∧ p.sigpid = some .parent
  loyal : p.pc = .left → p.handled = true
  inside : p.pc ≠ .wild

section
variable {p q : Process}

theorem Heeded.right (h : Heeded p) : Right p :=
  ⟨fun lost => (h.heard lost.2.2.2).2.2 lost.1, h.loyal, h.inside⟩

theorem start_heeded (sent : List Int) : Heeded (start sent) := by
  refine ⟨List.length_replicate, Int.le_refl _, ?_, by simp [start], by simp [start], by simp [start],
    nofun, nofun, nofun, nofun, nofun⟩
  intro s hs parent
  rcases List.mem_append.1 hs with mine | final
  · obtain ⟨signum, -, rfl⟩ := List.mem_map.1 mine
    cases parent
  · rw [List.mem_singleton.1 final]

theorem deliver_heeded {i : Nat} (h : Heeded p) (hq : deliver p i = some q) : Heeded q := by
  unfold deliver at hq
  split at hq
  · cases hq
  split at hq
  · cases hq
  rename_i s there
  have fewer : ∀ s ∈ p.coming.eraseIdx i, s.si_pid = .parent → s.signum = SIGUSR2 :=
    fun s hs => h.coming s (List.mem_of_mem_eraseIdx hs)
  dsimp only at hq
  split at hq
  · split at hq
    · cases hq
    cases hq
    refine ⟨h.size, h.low, fewer, ?_, ?_, ?_, h.unheard, h.heard, nofun, h.loyal, h.inside⟩
    · exact List.forall_mem_cons.2 ⟨h.coming s (List.mem_of_getElem? there), h.running⟩
    · exact List.forall_mem_cons.2 ⟨nofun, h.first⟩
    · exact List.forall_mem_cons.2 ⟨nofun, h.logged⟩
  split at hq
  · cases hq
    exact ⟨h.size, h.low, fewer, nofun, nofun, nofun, h.unheard, fun _ => ⟨nofun, nofun, nofun⟩,
      fun _ _ killed => absurd rfl killed, nofun, nofun⟩
  · cases hq
    exact ⟨h.size, h.low, fewer, h.running, h.first, h.logged, h.unheard, h.heard, h.leaving,
      h.loyal, h.inside⟩

/-- A store behind the first number leaves that alone. -/
theorem head?_set {signo : List Int} {i : Nat} (behind : 0 < i) (signum : Int) :
    (signo.set i signum).head? = signo.head? := by
  cases signo with
  | nil => rfl
  | cons x signo =>
    obtain ⟨i, rfl⟩ := Nat.exists_eq_add_of_lt behind
    simp [List.set]

theorem sighandler_heeded (h : Heeded p) (inTime : InTime p .sighandler)
    (hq : sighandler p = some q) : Heeded q := by
  unfold sighandler at hq
  split at hq
  · cases hq
  split at hq
  · cases hq
  rename_i top hs handlers
  have allowed := inTime top (by rw [handlers]; rfl)
  have running := h.running
  have first := h.first
  have logged := h.logged
  rw [handlers] at running first logged
  rw [List.forall_mem_cons] at running first logged
  split at hq
  · -- it returns
    rename_i done
    cases hq
    rw [if_pos done] at allowed
    have asleep : p.pc.wake ≠ .paused false := by cases p.pc <;> nofun
    have same {pc : Pc} (other : ∀ woken, pc ≠ .paused woken) (is : p.pc.wake = pc) :
        p.pc = pc := by
      cases now : p.pc with
      | paused woken =>
        rw [now] at is
        exact absurd is.symm (other true)
      | _ =>
        rw [now] at is
        exact is
    have away (h : p.pc ≠ .reset ∧ p.pc ≠ .pause) : p.pc.wake ≠ .reset ∧ p.pc.wake ≠ .pause :=
      ⟨fun is => h.1 (same nofun is), fun is => h.2 (same nofun is)⟩
    refine ⟨h.size, h.low, h.coming, running.2, first.2, ?_, ?_, ?_, ?_, ?_, ?_⟩
    · intro g hg glogged parent
      obtain ⟨head, apart⟩ := logged.2 g hg glogged parent
      exact ⟨head, away apart⟩
    · intro parent
      simpa using .inr (Option.some.inj parent)
    · intro handled
      rcases Bool.or_eq_true_iff.1 handled with before | parent
      · obtain ⟨noReset, noPause, -⟩ := h.heard before
        exact ⟨(away ⟨noReset, noPause⟩).1, (away ⟨noReset, noPause⟩).2, asleep⟩
      · have apart := (logged.1 done (by simpa using parent)).2
        exact ⟨(away apart).1, (away apart).2, asleep⟩
    · intro handled _ _
      cases from' : top.siginfo.si_pid with
      | hw7c2 =>
        have unhandled := allowed from'
        simp [unhandled, from'] at handled
      | parent => exact ⟨(logged.1 done from').1, rfl⟩
    · intro left
      have before := h.loyal (same nofun left)
      simp [before]
    · exact fun wild => h.inside (same nofun wild)
  · -- it logs the signal
    rename_i fresh
    rw [if_neg fresh] at allowed
    obtain ⟨room, place⟩ := allowed
    rw [if_pos room] at hq
    cases hq
    have low := h.low
    -- only behind `sigcnt= -1` the first number changes
    have kept (inner : 0 ≤ p.sigcnt) (signum : Int) :
        (p.signo.set (p.sigcnt + 1).toNat signum).head? = p.signo.head? :=
      head?_set (by omega) signum
    refine ⟨by rw [List.length_set, h.size], ?_, h.coming, ?_, ?_, ?_, h.unheard, h.heard, nofun,
      h.loyal, h.inside⟩
    · change -1 ≤ p.sigcnt + 1
      omega
    · exact List.forall_mem_cons.2 ⟨running.1, running.2⟩
    · intro g _ _
      change 0 ≤ p.sigcnt + 1
      omega
    · refine List.forall_mem_cons.2 ⟨fun _ parent => ?_, fun g hg glogged parent => ?_⟩
      · obtain ⟨noReset, noPause, empty | head⟩ := place parent
        · refine ⟨?_, noReset, noPause⟩
          obtain ⟨x, signo, e⟩ := List.exists_cons_of_length_pos (l := p.signo) (by rw [h.size]; decide)
          simp [e, empty, running.1 parent]
        · refine ⟨?_, noReset, noPause⟩
          by_cases empty : p.sigcnt = -1
          · obtain ⟨x, signo, e⟩ :=
              List.exists_cons_of_length_pos (l := p.signo) (by rw [h.size]; decide)
            simp [e, empty, running.1 parent]
          · exact (kept (by omega) _).trans head
      · obtain ⟨head, apart⟩ := logged.2 g hg glogged parent
        exact ⟨(kept (first.2 g hg glogged) _).trans head, apart⟩

/-- The loop goes on without a handler under way. -/
theorem Heeded.move (h : Heeded p) (none' : p.handlers = []) (alive : p.pc ≠ .killed)
    (hs : q = { p with pc := q.pc, sigcnt := q.sigcnt, out := q.out }) (low : -1 ≤ q.sigcnt)
    (heard : p.handled = true → q.pc ≠ .reset ∧ q.pc ≠ .pause ∧ q.pc ≠ .paused false)
    (loyal : q.pc = .left → p.handled = true) (inside : q.pc ≠ .wild) : Heeded q := by
  have leaving := h.leaving
  rw [hs]
  exact
    { size := h.size
      low
      coming := h.coming
      running := h.running
      first := by simp [none']
      logged := by simp [none']
      unheard := h.unheard
      heard
      leaving := fun handled none' _ => leaving handled none' alive
      loyal
      inside }

theorem main_heeded (h : Heeded p) (hq : main p = some q) : Heeded q := by
  unfold main at hq
  split at hq
  · cases hq
  rename_i none'
  have none' : p.handlers = [] := by simpa using none'
  cases pc : p.pc with
  | test =>
    have alive : p.pc ≠ .killed := by rw [pc]; nofun
    simp only [pc] at hq
    split at hq
    · rename_i stays
      cases hq
      refine h.move none' alive rfl h.low (fun handled => ?_) nofun nofun
      obtain ⟨head, parent⟩ := h.leaving handled none' alive
      rw [List.headD_eq_head?_getD, head, parent] at stays
      exact absurd stays (by simp)
    · rename_i leaves
      cases hq
      have parent : p.sigpid = some .parent := by
        by_contra other
        exact leaves (.inr other)
      exact h.move none' alive rfl h.low (fun _ => ⟨nofun, nofun, nofun⟩)
        (fun _ => h.unheard parent) nofun
  | reset =>
    simp only [pc] at hq
    cases hq
    exact h.move none' (by rw [pc]; nofun) rfl (Int.le_refl _)
      (fun handled => absurd pc (h.heard handled).1) nofun nofun
  | pause =>
    simp only [pc] at hq
    cases hq
    exact h.move none' (by rw [pc]; nofun) rfl h.low
      (fun handled => absurd pc (h.heard handled).2.1) nofun nofun
  | paused woken =>
    cases woken with
    | false =>
      simp only [pc] at hq
      cases hq
    | true =>
      simp only [pc] at hq
      cases hq
      exact h.move none' (by rw [pc]; nofun) rfl h.low (fun _ => ⟨nofun, nofun, nofun⟩) nofun nofun
  | print isig =>
    have alive : p.pc ≠ .killed := by rw [pc]; nofun
    simp only [pc] at hq
    split at hq
    all_goals
      cases hq
      exact h.move none' alive rfl h.low (fun _ => ⟨nofun, nofun, nofun⟩) nofun nofun
  | resetAgain =>
    simp only [pc] at hq
    cases hq
    exact h.move none' (by rw [pc]; nofun) rfl (Int.le_refl _) (fun _ => ⟨nofun, nofun, nofun⟩)
      nofun nofun
  | left | killed | wild =>
    simp only [pc] at hq
    cases hq

/-- **Step.** A signal of the parent that comes in time is heeded. -/
theorem step_heeded {a : Act} (h : Heeded p) (inTime : InTime p a) (hq : step p a = some q) :
    Heeded q := by
  cases a with
  | deliver i => exact deliver_heeded h hq
  | sighandler => exact sighandler_heeded h inTime hq
  | main => exact main_heeded h hq

end

/-- **Termination.** In the runs in which the signal of the parent comes in time
and there is room in `signo`, it is not lost. -/
theorem termination {sent : List Int} {acts : List Act}
    (inTime : Along step InTime (start sent) acts) : Always step Right (start sent) acts :=
  Along.always (fun _ _ _ h inTime hq => step_heeded h inTime hq) (fun _ h => h.right)
    (start_heeded sent) inTime

/-- From one `pause` to the next, for a signal that arrives in it. -/
def once : List Act :=
  [.main, .main, .main, .deliver 0, .sighandler, .sighandler, .main, .main, .main, .main]

/-- `hw7c2` sends a `SIGUSR1` first. -/
theorem termination_sigusr1 :
    Always step Right (start [10]) (once ++ once ++ [.main]) :=
  termination (by decide +kernel)

/-- The signal of the parent comes between the test of the loop and `pause`. -/
theorem pause_loses : ¬ ∀ sent acts, Always step Right (start sent) acts := by
  intro always
  have right := (always [] [.main, .deliver 0, .sighandler, .sighandler, .main, .main]).last rfl
  exact right.heard ⟨rfl, rfl, rfl, rfl⟩

end UnixProgramming.Signals
