import Mathlib.Data.List.Perm.Subperm
import UnixProgramming.Solns.Signals

/-!
# Reporting signals

`interceptor` and `sigmasker` keep the signals that they catch in `signo`, and
report them when the input does not say anything else. A handler can interrupt
the loop between any two steps, and a handler for another signal.

* `step_logged`: what a run keeps in which the signals come in time;
* `reported`: in such a run every report is of the signals since the last one;
* `signals_wrong`: the signals that come at other times, too many of them, and a
  line without a word.
-/

namespace UnixProgramming.Interceptor

open Runs
open Signals (caught)

inductive Program where
  | interceptor
  | sigmasker
  deriving DecidableEq

def BUFSIZE : Nat := 256

def SIGSEGV : Int := 11

/-- What a read of the command loop comes to. -/
inductive Turn where
  | report
  | again
  | gone
  /-- `strcmp` of a `NULL`. -/
  | fault
  /-- A store outside of an array. -/
  | wild
  deriving DecidableEq

/-- A `scanf` or an `fgets` with the result `ret`, and `buf` behind it. `sigmasker`
cuts the last character off `buf` also when the read has failed; then it compares
the first word, which a line of blanks does not have. -/
def Program.turn : Program → Bool → List Char → Turn
  | .interceptor, ret, buf =>
    if ret ∧ BUFSIZE ≤ buf.length then .wild
    else if ret ∧ buf = "quit".toList then .gone
    else .report
  | .sigmasker, ret, buf =>
    if buf = [] ∨ BUFSIZE < buf.length then .wild
    else if ¬ ret then .report
    else if buf.dropLast = "quit".toList then .gone
    else if buf.dropLast.all (· = ' ') then .fault
    else .again

/-- What `main` does next. -/
inductive Pc where
  | command
  | test (isig : Nat)
  | print (isig : Nat)
  | reset
  | gone
  /-- At the comparison of a `NULL`, which raises `SIGSEGV` as often as it is
  begun again. -/
  | fault
  | wild
  deriving DecidableEq

/-- A report: the signals delivered since the one before has started, and what
it prints. -/
structure Report where
  due : List Int
  printed : List Int
  deriving DecidableEq

/-- How far a handler is in `signo[++sigcnt] = signum;`: the sum is in a register,
or it is stored, and `signo` is next. -/
inductive Stage where
  | entered
  | loaded (next : Int)
  | stored
  deriving DecidableEq

structure Handler where
  signum : Int
  stage : Stage
  deriving DecidableEq

/-- The handlers under way come innermost first; `reports` are over, `now` is under
way; `since` are the signals since it has started, among all that were
`delivered`. -/
structure Process where
  pc : Pc
  sigcnt : Int
  signo : List Int
  handlers : List Handler
  delivered : List Int
  since : List Int
  now : Report
  reports : List Report
  deriving DecidableEq

inductive Act where
  | deliver (signum : Int)
  | sighandler
  | read (ret : Bool) (buf : List Char)
  | main

/-- A signal is delivered while no handler for its number is under way. -/
def deliver (p : Process) (signum : Int) : Option Process :=
  if p.pc = .gone ∨ p.pc = .wild ∨ ¬ caught signum ∨ signum ∈ p.handlers.map Handler.signum then none
  else
    some { p with
      handlers := ⟨signum, .entered⟩ :: p.handlers
      delivered := p.delivered ++ [signum]
      since := p.since ++ [signum] }

/-- `signo[++sigcnt] = signum;`, where the index is what `sigcnt` is behind the
store. -/
def sighandler (p : Process) : Option Process :=
  if p.pc = .wild then none
  else
    match p.handlers with
    | [] => none
    | ⟨signum, .entered⟩ :: hs =>
      some { p with handlers := ⟨signum, .loaded (p.sigcnt + 1)⟩ :: hs }
    | ⟨signum, .loaded next⟩ :: hs =>
      some { p with sigcnt := next, handlers := ⟨signum, .stored⟩ :: hs }
    | ⟨signum, .stored⟩ :: hs =>
      if p.sigcnt < 32 then
        some { p with signo := p.signo.set p.sigcnt.toNat signum, handlers := hs }
      else some { p with pc := .wild }

/-- The read at the head of the loop, and what is done with it. -/
def read (prog : Program) (p : Process) (ret : Bool) (buf : List Char) : Option Process :=
  if p.handlers = [] ∧ p.pc = .command then
    match prog.turn ret buf with
    | .report => some { p with pc := .test 0, now := ⟨p.since, []⟩, since := [] }
    | .again => some p
    | .gone => some { p with pc := .gone }
    | .fault => some { p with pc := .fault }
    | .wild => some { p with pc := .wild }
  else none

/-- The report: a loop over `signo`, and then `sigcnt= -1`. `main` goes on when no
handler is under way. -/
def main (p : Process) : Option Process :=
  if p.handlers ≠ [] then none
  else
    match p.pc with
    | .test isig => some { p with pc := if (isig : Int) ≤ p.sigcnt then .print isig else .reset }
    | .print isig =>
      some { p with
        pc := .test (isig + 1)
        now := { p.now with printed := p.now.printed ++ [p.signo.getD isig 0] } }
    | .reset =>
      some { p with
        pc := .command
        sigcnt := -1
        now := ⟨[], []⟩
        reports := p.reports ++ [p.now] }
    | .fault => deliver p SIGSEGV
    | .command => none
    | .gone => none
    | .wild => none

def step (prog : Program) (p : Process) : Act → Option Process
  | .deliver signum => deliver p signum
  | .sighandler => sighandler p
  | .read ret buf => read prog p ret buf
  | .main => main p

/-- When the handlers are installed. -/
def start : Process where
  pc := .command
  sigcnt := -1
  signo := List.replicate 32 0
  handlers := []
  delivered := []
  since := []
  now := ⟨[], []⟩
  reports := []

/-! ## Which signals are reported -/

/-- `sigcnt` is an index of `signo`, or in front of it; what was delivered is due
in one report, and that prints it once. -/
structure Right (p : Process) : Prop where
  inside : p.pc ≠ .wild ∧ -1 ≤ p.sigcnt ∧ p.sigcnt < 32
  all : p.delivered = p.reports.flatMap Report.due ++ p.now.due ++ p.since
  past : ∀ r ∈ p.reports, r.printed.Perm r.due
  now : p.now.printed.Subperm p.now.due

/-- A signal is delivered outside of the reports and of `signo[++sigcnt] = signum`,
as one of 32 since the last report at most. What is read fits into `buf`, has a
character to cut off, and is not a line of blanks. -/
def InTime (prog : Program) (p : Process) : Act → Prop
  | .deliver _ => p.pc = .command ∧ (∀ h ∈ p.handlers.head?, h.stage = .entered) ∧
    p.since.length < 32
  | .read ret buf => prog.turn ret buf ≠ .wild ∧ prog.turn ret buf ≠ .fault
  | _ => True

instance (prog : Program) (p : Process) : (a : Act) → Decidable (InTime prog p a)
  | .deliver _ => inferInstanceAs (Decidable (_ ∧ (∀ h ∈ p.handlers.head?, _) ∧ _))
  | .read _ _ => inferInstanceAs (Decidable (_ ∧ _))
  | .sighandler => isTrue trivial
  | .main => isTrue trivial

/-- How many numbers are in `signo`: one less than `sigcnt` says while a handler is
about to store the last. -/
def Process.full (p : Process) : Int :=
  match p.handlers with
  | ⟨_, .stored⟩ :: _ => p.sigcnt
  | _ => p.sigcnt + 1

def Process.logged (p : Process) : List Int := p.signo.take p.full.toNat

/-- The handlers of a run in which signals come in time: only the innermost one is
in `signo[++sigcnt] = signum`. -/
structure Process.Handling (p : Process) : Prop where
  outer : ∀ h ∈ p.handlers.tail, h.stage = .entered
  loaded : ∀ h ∈ p.handlers.head?, ∀ next, h.stage = .loaded next → next = p.sigcnt + 1
  stored : ∀ h ∈ p.handlers.head?, h.stage = .stored → 0 ≤ p.sigcnt
  held : (p.logged ++ p.handlers.map Handler.signum).Perm p.since
  room : p.since.length ≤ 32

/-- Where a report is, when `main` is there. -/
def Process.At (p : Process) : Pc → Prop
  | .command => p.Handling ∧ p.now = ⟨[], []⟩
  | .test isig => p.handlers = [] ∧ p.logged.Perm p.now.due ∧ p.since = [] ∧
    (isig : Int) ≤ p.sigcnt + 1 ∧ p.now.printed = p.logged.take isig
  | .print isig => p.handlers = [] ∧ p.logged.Perm p.now.due ∧ p.since = [] ∧
    (isig : Int) ≤ p.sigcnt ∧ p.now.printed = p.logged.take isig
  | .reset => p.handlers = [] ∧ p.since = [] ∧ p.now.printed.Perm p.now.due
  | .gone => p.handlers = [] ∧ p.now = ⟨[], []⟩
  | .fault => False
  | .wild => False

/-- What holds behind the steps of a run in which the signals come in time. -/
structure Logged (p : Process) : Prop where
  size : p.signo.length = 32
  low : -1 ≤ p.sigcnt
  high : p.sigcnt < 32
  all : p.delivered = p.reports.flatMap Report.due ++ p.now.due ++ p.since
  past : ∀ r ∈ p.reports, r.printed.Perm r.due
  at' : p.At p.pc

section
variable {prog : Program} {p q : Process}

theorem Process.full_none (none' : p.handlers = []) : p.full = p.sigcnt + 1 := by
  rw [Process.full, none']

/-- Outside of the last store of a handler. -/
theorem Process.full_entered (entered : ∀ h ∈ p.handlers.head?, h.stage = .entered) :
    p.full = p.sigcnt + 1 := by
  cases handlers : p.handlers with
  | nil => exact Process.full_none handlers
  | cons h hs =>
    rw [handlers] at entered
    obtain ⟨signum, stage⟩ := h
    cases entered _ rfl
    rw [Process.full, handlers]

theorem Process.Handling.alone (none' : p.handlers = [])
    (held : (p.signo.take (p.sigcnt + 1).toNat).Perm p.since) (room : p.since.length ≤ 32) :
    p.Handling := by
  refine ⟨?_, ?_, ?_, ?_, room⟩
  · rw [none']
    exact nofun
  · rw [none']
    exact nofun
  · rw [none']
    exact nofun
  · rw [Process.logged, Process.full_none none', none', List.map_nil, List.append_nil]
    exact held

/-- The signals of the handlers under way find room in `signo`. -/
theorem Process.Handling.full_lt (h : p.Handling) (size : p.signo.length = 32)
    (under : p.handlers ≠ []) : p.full < 32 := by
  have length := h.held.length_eq
  rw [List.length_append, Process.logged, List.length_take, size, List.length_map] at length
  have := List.length_pos_iff.2 under
  have := h.room
  omega

theorem Logged.right (h : Logged p) : Right p := by
  have at' := h.at'
  refine ⟨⟨?_, h.low, h.high⟩, h.all, h.past, ?_⟩
  · intro wild
    rw [wild] at at'
    exact at'
  · cases pc : p.pc with
    | command | gone =>
      rw [pc] at at'
      have none' : p.now = ⟨[], []⟩ := at'.2
      rw [none']
    | test | print =>
      rw [pc] at at'
      obtain ⟨-, logged, -, -, printed⟩ := at'
      rw [printed]
      exact (List.take_sublist _ _).subperm.trans logged.subperm
    | reset =>
      rw [pc] at at'
      exact at'.2.2.subperm
    | fault | wild =>
      rw [pc] at at'
      exact at'.elim

theorem start_logged : Logged start := by
  refine ⟨List.length_replicate, Int.le_refl _, by decide, rfl, nofun, ?_⟩
  exact ⟨.alone rfl (.refl _) (by decide), rfl⟩

/-- A signal in time is due in the next report, and will be in `signo`. -/
theorem deliver_logged {signum : Int} (h : Logged p) (inTime : InTime prog p (.deliver signum))
    (hq : deliver p signum = some q) : Logged q := by
  have at' := h.at'
  obtain ⟨outside, entered, room⟩ := inTime
  rw [outside] at at'
  obtain ⟨handling, none'⟩ := at'
  unfold deliver at hq
  split at hq
  · cases hq
  cases hq
  refine ⟨h.size, h.low, h.high, ?_, h.past, ?_⟩
  · dsimp only
    rw [h.all, List.append_assoc]
  dsimp only
  rw [outside]
  refine ⟨⟨?_, ?_, ?_, ?_, ?_⟩, none'⟩
  · -- the handler that is interrupted has not begun
    intro h mem
    dsimp only [List.tail_cons] at mem
    cases handlers : p.handlers with
    | nil =>
      rw [handlers] at mem
      cases mem
    | cons top hs =>
      have outer := handling.outer
      rw [handlers] at mem entered outer
      rcases List.mem_cons.1 mem with rfl | mem
      · exact entered h rfl
      · exact outer h mem
  · rintro _ ⟨⟩ next ⟨⟩
  · rintro _ ⟨⟩ ⟨⟩
  · have same : p.logged = p.signo.take (p.sigcnt + 1).toNat := by
      rw [Process.logged, Process.full_entered entered]
    have held := handling.held
    rw [same] at held
    exact List.perm_middle.trans ((held.cons signum).trans (List.perm_append_singleton _ _).symm)
  · dsimp only
    rw [List.length_append]
    exact room

/-- A step of a handler leaves what its process holds back, and the last of them
puts it into `signo`. -/
theorem sighandler_handling (handling : p.Handling) (size : p.signo.length = 32)
    (low : -1 ≤ p.sigcnt) (high : p.sigcnt < 32) (hq : sighandler p = some q) :
    q.Handling ∧ q.signo.length = 32 ∧ -1 ≤ q.sigcnt ∧ q.sigcnt < 32 ∧
      q = { p with sigcnt := q.sigcnt, signo := q.signo, handlers := q.handlers } := by
  have lt := handling.full_lt size
  obtain ⟨outer, loaded, stored, held, room⟩ := handling
  unfold sighandler at hq
  split at hq
  · cases hq
  split at hq
  · cases hq
  · rename_i signum hs handlers
    cases hq
    rw [handlers] at outer held
    have same : p.full = p.sigcnt + 1 := by rw [Process.full, handlers]
    rw [Process.logged, same] at held
    refine ⟨⟨outer, ?_, nofun, held, room⟩, size, low, high, rfl⟩
    rintro _ ⟨⟩ next ⟨⟩
    rfl
  · rename_i signum next hs handlers
    cases hq
    rw [handlers] at outer loaded held
    have same : p.full = p.sigcnt + 1 := by rw [Process.full, handlers]
    rw [Process.logged, same] at held
    have lt := lt (by rw [handlers]; exact List.cons_ne_nil _ _)
    rw [same] at lt
    cases loaded _ rfl next rfl
    refine ⟨⟨outer, nofun, ?_, held, room⟩, size, ?_, lt, rfl⟩
    · rintro _ ⟨⟩ -
      dsimp only
      omega
    · dsimp only
      omega
  · rename_i signum hs handlers
    have same : p.full = p.sigcnt := by rw [Process.full, handlers]
    rw [handlers] at outer stored held
    rw [Process.logged, same] at held
    cases hq
    have nonneg := stored _ rfl rfl
    have entered : ∀ h ∈ hs, h.stage = .entered := outer
    have head : ∀ h ∈ hs.head?, h.stage = .entered :=
      fun h mem => entered h (List.mem_of_mem_head? mem)
    refine ⟨⟨fun h mem => entered h (List.mem_of_mem_tail mem), ?_, ?_, ?_, room⟩,
      by rw [List.length_set, size], low, high, rfl⟩
    · intro h mem next is
      cases (head h mem).symm.trans is
    · intro h mem is
      cases (head h mem).symm.trans is
    · have inside : p.sigcnt.toNat < p.signo.length := by omega
      have next : (p.sigcnt + 1).toNat = p.sigcnt.toNat + 1 := by omega
      rw [Process.logged, Process.full_entered head]
      dsimp only
      rw [next, List.take_add_one, List.take_set_of_le (Nat.le_refl _),
        List.getElem?_set_self inside, Option.toList_some, List.append_assoc]
      exact held

theorem sighandler_logged (h : Logged p) (hq : sighandler p = some q) : Logged q := by
  have at' := h.at'
  have under : p.handlers ≠ [] := by
    intro none'
    rw [sighandler, none'] at hq
    split at hq <;> cases hq
  cases pc : p.pc with
  | command =>
    rw [pc] at at'
    obtain ⟨handling, none'⟩ := at'
    obtain ⟨handling', size, low, high, same⟩ := sighandler_handling handling h.size h.low h.high hq
    rw [same, pc] at handling' ⊢
    exact ⟨size, low, high, h.all, h.past, handling', none'⟩
  | test | print | reset | gone =>
    rw [pc] at at'
    exact absurd at'.1 under
  | fault | wild =>
    rw [pc] at at'
    exact at'.elim

theorem read_logged {ret : Bool} {buf : List Char} (h : Logged p)
    (inTime : InTime prog p (.read ret buf)) (hq : read prog p ret buf = some q) : Logged q := by
  have at' := h.at'
  unfold read at hq
  split at hq
  case isFalse => cases hq
  case isTrue outside =>
    obtain ⟨alone, outside⟩ := outside
    rw [outside] at at'
    obtain ⟨handling, none'⟩ := at'
    split at hq
    · cases hq
      refine ⟨h.size, h.low, h.high, ?_, h.past, alone, ?_, rfl, ?_, rfl⟩
      · rw [h.all, none', List.append_nil, List.append_nil]
      · have held := handling.held
        rw [alone, List.map_nil, List.append_nil] at held
        exact held
      · exact Int.le_add_of_sub_right_le h.low
    · cases hq
      exact h
    · cases hq
      exact ⟨h.size, h.low, h.high, h.all, h.past, alone, none'⟩
    · exact absurd (by assumption) inTime.2
    · exact absurd (by assumption) inTime.1

theorem main_logged (h : Logged p) (hq : main p = some q) : Logged q := by
  have at' := h.at'
  unfold main at hq
  split at hq
  · cases hq
  rename_i alone
  have alone := not_not.1 alone
  have logged' : p.logged = p.signo.take (p.sigcnt + 1).toNat := by
    rw [Process.logged, Process.full_none alone]
  cases pc : p.pc with
  | test isig =>
    simp only [pc] at hq
    rw [pc] at at'
    obtain ⟨-, logged, none', most, printed⟩ := at'
    cases hq
    refine ⟨h.size, h.low, h.high, h.all, h.past, ?_⟩
    dsimp only
    split
    case isTrue more => exact ⟨alone, logged, none', more, printed⟩
    case isFalse last =>
      refine ⟨alone, none', ?_⟩
      dsimp only
      have whole : p.logged.take isig = p.logged := by
        rw [List.take_of_length_le]
        rw [logged', List.length_take, h.size]
        omega
      rw [printed, whole]
      exact logged
  | print isig =>
    simp only [pc] at hq
    rw [pc] at at'
    obtain ⟨-, logged, none', more, printed⟩ := at'
    cases hq
    refine ⟨h.size, h.low, h.high, h.all, h.past, alone, logged, none', ?_, ?_⟩
    · dsimp only
      omega
    · have high := h.high
      have inside : isig < p.signo.length := by rw [h.size]; omega
      change p.now.printed ++ [p.signo.getD isig 0] = p.logged.take (isig + 1)
      rw [printed, List.take_add_one, logged', List.getElem?_take_of_lt (by omega),
        List.getD_eq_getElem?_getD, List.getElem?_eq_getElem inside]
      rfl
  | reset =>
    simp only [pc] at hq
    rw [pc] at at'
    obtain ⟨-, none', printed⟩ := at'
    cases hq
    have high : (-1 : Int) < 32 := by decide
    refine ⟨h.size, Int.le_refl _, high, ?_, ?_, .alone alone ?_ ?_, rfl⟩
    · simp [h.all]
    · intro r mem
      rcases List.mem_append.1 mem with before | this
      · exact h.past r before
      · rw [List.mem_singleton.1 this]
        exact printed
    · dsimp only
      rw [none']
      exact .refl _
    · dsimp only
      rw [none']
      exact Nat.zero_le _
  | command | gone | wild =>
    simp only [pc] at hq
    cases hq
  | fault =>
    rw [pc] at at'
    exact at'.elim

/-- **Step.** A signal that comes in time is due in the next report. -/
theorem step_logged {a : Act} (h : Logged p) (inTime : InTime prog p a)
    (hq : step prog p a = some q) : Logged q := by
  cases a with
  | deliver signum => exact deliver_logged h inTime hq
  | sighandler => exact sighandler_logged h hq
  | read ret buf => exact read_logged h inTime hq
  | main => exact main_logged h hq

end

/-- **Signal log.** In the runs in which signals come in time, `sigcnt` stays
inside `signo`, and each report that is over has printed the signals between the
start of the one before and its own, each of them once. -/
theorem reported (prog : Program) {acts : List Act}
    (inTime : Along (step prog) (InTime prog) start acts) :
    Always (step prog) Right start acts :=
  Along.always (fun _ _ _ h inTime hq => step_logged h inTime hq) (fun _ h => h.right)
    start_logged inTime

/-- A handler from its delivery to its end. -/
def Act.handled (signum : Int) : List Act :=
  [.deliver signum, .sighandler, .sighandler, .sighandler]

/-- A handler that another one interrupts before it has begun, the report of both,
and one more signal. -/
theorem reported_two :
    Always (step .sigmasker) Right start
      (.deliver 1 :: Act.handled 2 ++ [.sighandler, .sighandler, .sighandler,
        .read false "show".toList, .main, .main, .main, .main, .main, .main,
        .read true "mask 3\n".toList] ++ Act.handled 2) :=
  reported .sigmasker (by decide +kernel)

/-- A signal between the end of the loop and `sigcnt= -1`, and a next report. -/
def late : List Act :=
  [.read false [], .main] ++ Act.handled 2 ++ [.main, .read false [], .main, .main]

/-- One signal in the report that was under way. -/
def early : List Act :=
  .read false ['x'] :: Act.handled 2 ++ [.main, .main]

/-- A signal while the handler for another one has added 1 to `sigcnt`, and a
report. -/
def nested : List Act :=
  [.deliver 1, .sighandler] ++ Act.handled 2 ++
    [.sighandler, .sighandler, .read false [], .main, .main, .main, .main]

/-- An empty line, and the handlers for the `SIGSEGV`s of the comparison. -/
def blank : List Act :=
  .read true ['\n'] ::
    (List.replicate 33 [.main, .sighandler, .sighandler, .sighandler]).flatten

theorem wild_wrong {prog : Program} {acts : List Act}
    (wild : (run (step prog) start acts).map Process.pc = some .wild) :
    ¬ Always (step prog) Right start acts := by
  intro always
  obtain ⟨p, ran, pc⟩ := Option.map_eq_some_iff.1 wild
  exact (always.last ran).inside.1 pc

/-- Signals that come late are lost, those that come early are printed by the
report before, a handler overwrites what another one has stored behind its back, and
the 33rd signal is stored behind `signo`, also when they all come from an empty
line. -/
theorem signals_wrong :
    ¬ Always (step .interceptor) Right start late ∧
      ¬ Always (step .sigmasker) Right start early ∧
      ¬ Always (step .interceptor) Right start nested ∧
      ¬ Always (step .interceptor) Right start (List.replicate 33 (Act.handled 2)).flatten ∧
      ¬ Always (step .sigmasker) Right start blank := by
  refine ⟨fun always => ?_, fun always => ?_, fun always => ?_, fun always => ?_, fun always => ?_⟩
  · have right := always.last rfl
    exact absurd (right.past ⟨[2], []⟩ (by decide)) (by decide)
  · have right := always.last rfl
    exact absurd right.now.length_le (by decide)
  · have right := always.last rfl
    exact absurd (right.past ⟨[1, 2], [1]⟩ (by decide)) (by decide)
  · exact wild_wrong (by decide +kernel) always
  · exact wild_wrong (by decide +kernel) always

end UnixProgramming.Interceptor
