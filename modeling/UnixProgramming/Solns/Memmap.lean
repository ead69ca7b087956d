import Mathlib.Logic.Function.Basic
import UnixProgramming.Ssl.Basic
import UnixProgramming.Runs.Basic

/-!
# Arguments through shared memory

The two programs of `memmapA.c` on one mapped file and two semaphores, with every
`semop`, `strcpy` and `printf` a step of its own.

* `step_stage`: the order in which the exchange is meant to happen;
* `exchange`: the runs that keep to it print the right lines;
* `early_breaks`: a process that receives before the other has sent.
-/

namespace UnixProgramming.Memmap

open Runs
open Ssl (Byte cstr overlay withNul)

def MEMBUF : Nat := 256
def semA : Nat := 0
def semB : Nat := 1

/-- A program by the last character of its name. -/
inductive Name where
  | A
  | B
  deriving DecidableEq

def Name.other : Name → Name
  | .A => .B
  | .B => .A

abbrev Arg := { s : List Byte // 0 ∉ s }

inductive Line where
  | sent (membuf : List Byte)
  | rcvd (membuf : List Byte)
  deriving DecidableEq

/-- What a process does next. In `SendArgs` these are the strings that are still
to be copied, and `mb`. A process that has written or read behind the mapped file
is `outside`. -/
inductive Pc where
  | semget
  | init
  | map
  | sendWait
  | copy (strs : List (List Byte)) (mb : Nat)
  | advance (strs : List (List Byte)) (mb : Nat)
  | sendPost
  | rcvWait
  | rcvPrint
  | rcvPost
  | cleanup
  | done
  | exited
  | outside
  deriving DecidableEq

structure Process where
  pc : Pc
  IamA : Bool
  IdidInit : Bool
  out : List Line

/-- The semaphores and the file, if they exist, and the two processes. -/
structure World where
  semid : Option (Nat → Nat)
  memmapfile : Option (List Byte)
  main : Name → Process

/-- `semop` with -1: it waits, or fails at once if there are no semaphores. -/
def semWait (semid : Option (Nat → Nat)) (sem : Nat) : Option (Option (Nat → Nat)) :=
  match semid with
  | none => some none
  | some val =>
    if val sem = 0 then none else some (some (Function.update val sem (val sem - 1)))

def semPost (semid : Option (Nat → Nat)) (sem : Nat) : Option (Nat → Nat) :=
  semid.map fun val => Function.update val sem (val sem + 1)

/-- `!sem` -/
def notSem (sem : Nat) : Nat := if sem = 0 then 1 else 0

/-- The end of the file is the end of the memory. -/
def strcpy (membuf : List Byte) (mb : Nat) (s : List Byte) : Option (List Byte) :=
  if mb + s.length < membuf.length then some (overlay membuf mb (withNul s)) else none

/-- What `strlen` and `printf` find, if there is an end of it. -/
def string (membuf : List Byte) : Option (List Byte) :=
  if 0 ∈ membuf then some (cstr membuf) else none

/-- The strings that `SendArgs` copies, each behind the one before. -/
def strs (argv : List Arg) : List (List Byte) := argv.flatMap fun arg => [arg.1, [32]]

def Process.sem (p : Process) : Nat := if p.IamA then semA else semB

def World.set (w : World) (n : Name) (p : Process) : World :=
  { w with main := Function.update w.main n p }

/-- What a process goes on with, unless it has been outside of the memory. -/
def World.access {α : Type} (w : World) (n : Name) (found : Option α) (k : α → World) : World :=
  match found with
  | some a => k a
  | none => w.set n { w.main n with pc := .outside }

/-- One step of `main`. Nothing removes `memmapfile` again. -/
def step (argv : Name → List Arg) (w : World) (n : Name) : Option World :=
  let p := w.main n
  match p.pc with
  | .semget =>
    if w.semid.isSome then some (w.set n { p with IdidInit := false, pc := .map })
    else some ({ w with semid := some fun _ => 0 }.set n { p with IdidInit := true, pc := .init })
  | .init =>
    if w.memmapfile.isSome then some ({ w with semid := none }.set n { p with pc := .exited })
    else
      let array := if n = .A then ([1, 0] : List Nat) else [0, 1]
      let w := { w with
        semid := w.semid.map fun _ => fun sem => array.getD sem 0
        memmapfile := some (List.replicate MEMBUF 0) }
      some (w.set n { p with IamA := n = .A, pc := .sendWait })
  | .map =>
    some ({ w with memmapfile := some (w.memmapfile.getD []) }.set n { p with pc := .rcvWait })
  | .sendWait => (semWait w.semid p.sem).map fun semid =>
    { w with semid := semid }.set n { p with pc := .copy (strs (argv n)) 0 }
  | .copy (str :: strs) mb =>
    some (w.access n (w.memmapfile.bind fun membuf => strcpy membuf mb str) fun membuf =>
      { w with memmapfile := some membuf }.set n { p with pc := .advance strs mb })
  | .advance strs mb =>
    some (w.access n (w.memmapfile.bind fun membuf => string (membuf.drop mb)) fun s =>
      w.set n { p with pc := .copy strs (mb + s.length) })
  | .copy [] _ =>
    some (w.access n (w.memmapfile.bind string) fun s =>
      w.set n { p with out := p.out ++ [.sent s], pc := .sendPost })
  | .sendPost => some ({ w with semid := semPost (semPost w.semid semA) semB }.set n
    { p with pc := if p.IdidInit then .rcvWait else .done })
  | .rcvWait => (semWait w.semid (notSem p.sem)).map fun semid =>
    { w with semid := semid }.set n { p with pc := .rcvPrint }
  | .rcvPrint =>
    some (w.access n (w.memmapfile.bind string) fun s =>
      w.set n { p with out := p.out ++ [.rcvd s], pc := .rcvPost })
  | .rcvPost => some ({ w with semid := semPost w.semid (notSem p.sem) }.set n
    { p with pc := if p.IdidInit then .cleanup else .sendWait })
  | .cleanup => some ({ w with semid := none }.set n { p with pc := .done })
  | .done => none
  | .exited => none
  | .outside => none

def Process.new : Process := ⟨.semget, false, false, []⟩

/-- A clean start. -/
def World.new : World := ⟨none, none, fun _ => .new⟩

/-! ## The exchange -/

def text (argv : List Arg) : List Byte := (strs argv).flatten

/-- The lines of a process, of which the one that starts first sends first. -/
def lines (argv : Name → List Arg) (n : Name) (IdidInit : Bool) : List Line :=
  if IdidInit then [.sent (text (argv n)), .rcvd (text (argv n.other))]
  else [.rcvd (text (argv n.other)), .sent (text (argv n))]

/-- All lines so far are right, and all lines are there at the end. -/
structure Right (argv : Name → List Arg) (n : Name) (p : Process) : Prop where
  inside : p.pc ≠ .outside
  sofar : p.out <+: lines argv n p.IdidInit
  all : p.pc = .done → p.out = lines argv n p.IdidInit

def BothRight (argv : Name → List Arg) (w : World) : Prop := ∀ n, Right argv n (w.main n)

/-- Whether the process has returned from `SendArgs`. -/
def Process.hasSent (p : Process) : Bool :=
  match p.pc with
  | .rcvWait => p.IdidInit
  | .rcvPrint => p.IdidInit
  | .rcvPost => p.IdidInit
  | .cleanup => true
  | .done => true
  | _ => false

/-- The second process starts when the first one has made semaphores and file, and
has arguments itself if the first one has; a process sends what fits into the file,
and receives when the other has sent. -/
def Ordered (argv : Name → List Arg) (w : World) (n : Name) : Prop :=
  match (w.main n).pc with
  | .semget => (w.main n.other).pc ≠ .init ∧
    ((w.main n.other).pc ≠ .semget → argv n = [] → argv n.other = [])
  | .sendWait => (text (argv n)).length < MEMBUF
  | .rcvWait => (w.main n.other).hasSent
  | _ => True

instance (argv : Name → List Arg) (w : World) (n : Name) : Decidable (Ordered argv w n) := by
  unfold Ordered
  split <;> infer_instance

@[simp] theorem Name.other_other (n : Name) : n.other.other = n := by cases n <;> rfl

@[simp] theorem Name.other_ne (n : Name) : n.other ≠ n := by cases n <;> decide

theorem Name.eq_or (n f : Name) : n = f ∨ n = f.other := by
  cases n <;> cases f <;> simp [Name.other]

@[simp] theorem set_main (w : World) (n : Name) (p : Process) : (w.set n p).main n = p :=
  Function.update_self ..

@[simp] theorem set_main_other (w : World) (n : Name) (p : Process) :
    (w.set n p).main n.other = w.main n.other :=
  Function.update_of_ne n.other_ne ..

@[simp] theorem access_some {α : Type} (w : World) (n : Name) (a : α) (k : α → World) :
    w.access n (some a) k = k a := rfl

theorem access_other {α : Type} {w : World} {n : Name} {found : Option α} {k : α → World}
    (other : ∀ a, (k a).main n.other = w.main n.other) :
    (w.access n found k).main n.other = w.main n.other := by
  cases found with
  | none => exact set_main_other ..
  | some a => exact other a

@[simp] theorem set_semid (w : World) (n : Name) (p : Process) : (w.set n p).semid = w.semid := rfl

@[simp] theorem set_file (w : World) (n : Name) (p : Process) :
    (w.set n p).memmapfile = w.memmapfile := rfl

/-! ## The buffer -/

/-- The string at the start of the buffer. -/
def Holds (file : Option (List Byte)) (s : List Byte) : Prop :=
  ∃ rest, file = some (s ++ 0 :: rest) ∧ (s ++ 0 :: rest).length = MEMBUF

theorem Holds.string {file : Option (List Byte)} {s : List Byte} (h : Holds file s)
    (free : 0 ∉ s) : file.bind string = some s := by
  obtain ⟨rest, rfl, -⟩ := h
  simp [Memmap.string, Ssl.cstr_append_nul free]

/-- A string is copied behind what has been copied before. -/
theorem strcpy_holds {buf d s : List Byte} (before : buf.take d.length = d)
    (whole : buf.length = MEMBUF) (fits : (d ++ s).length < MEMBUF) :
    ∃ membuf, strcpy buf d.length s = some membuf ∧ Holds (some membuf) (d ++ s) := by
  rw [List.length_append] at fits
  have length : d.length + (withNul s).length ≤ buf.length := by
    rw [withNul, List.length_append, List.length_singleton]
    omega
  have parts : overlay buf d.length (withNul s) =
      d ++ s ++ 0 :: buf.drop (d.length + (withNul s).length) := by
    simp [overlay, before, withNul]
  refine ⟨_, if_pos (by omega), _, congrArg some parts, ?_⟩
  rw [← parts, Ssl.overlay_length length, whole]

theorem Holds.strlen {file : Option (List Byte)} {d s : List Byte} (h : Holds file (d ++ s))
    (free : 0 ∉ s) : (file.bind fun membuf => Memmap.string (membuf.drop d.length)) = some s := by
  obtain ⟨rest, rfl, -⟩ := h
  simp [Memmap.string, Ssl.cstr_append_nul free]

theorem strs_free (argv : List Arg) : ∀ s ∈ strs argv, 0 ∉ s := by
  intro s hs
  obtain ⟨arg, -, hs⟩ := List.mem_flatMap.1 hs
  rcases List.mem_pair.1 hs with rfl | rfl
  · exact arg.2
  · decide

theorem text_free (argv : List Arg) : 0 ∉ text argv := by
  intro mem
  obtain ⟨s, hs, mem⟩ := List.mem_flatten.1 mem
  exact strs_free argv s hs mem

theorem strs_nil {argv : List Arg} (h : strs argv = []) : argv = [] := by
  cases argv with
  | nil => rfl
  | cons arg argv => cases h

theorem semWait_isSome {semid semid' : Option (Nat → Nat)} {sem : Nat}
    (h : semWait semid sem = some semid') (some' : semid.isSome) : semid'.isSome := by
  unfold semWait at h
  split at h
  · cases some'
  · split at h
    · cases h
    · cases h
      rfl

/-! ## Sending -/

/-- A process in `SendArgs`, with what the buffer held before and the lines that
were printed before. -/
def Sends (argv : List Arg) (old : List Byte) (out : List Line) (p : Process)
    (file : Option (List Byte)) : Prop :=
  match p.pc with
  | .sendWait => p.out = out ∧ Holds file old
  | .copy rest mb => p.out = out ∧ (text argv).length < MEMBUF ∧
      (rest = strs argv ∧ mb = 0 ∧ Holds file old ∨
        ∃ d, d.length = mb ∧ d ++ rest.flatten = text argv ∧ Holds file d)
  | .advance rest mb => p.out = out ∧ (text argv).length < MEMBUF ∧
      ∃ d s, d.length = mb ∧ d ++ s ++ rest.flatten = text argv ∧ Holds file (d ++ s)
  | .sendPost => p.out = out ++ [.sent (text argv)] ∧ Holds file (text argv)
  | _ => False

section
variable {argv : Name → List Arg} {w w' : World} {n : Name}

/-- One step in `SendArgs`. -/
theorem sends_step {old : List Byte} {out : List Line}
    (sends : Sends (argv n) old out (w.main n) w.memmapfile) (new : argv n = [] → old = [])
    (ordered : Ordered argv w n) (h : step argv w n = some w') :
    (w.semid.isSome → w'.semid.isSome) ∧ (w'.main n).IdidInit = (w.main n).IdidInit ∧
      (Sends (argv n) old out (w'.main n) w'.memmapfile ∨
        Holds w'.memmapfile (text (argv n)) ∧
          (w'.main n).pc = (if (w.main n).IdidInit then .rcvWait else .done) ∧
          (w'.main n).out = out ++ [.sent (text (argv n))]) := by
  unfold Sends at sends
  unfold step at h
  dsimp only at h
  cases pc : (w.main n).pc with
  | sendWait =>
    simp only [Ordered, pc] at ordered
    simp only [pc] at sends h
    obtain ⟨semid, waited, rfl⟩ := Option.map_eq_some_iff.1 h
    refine ⟨semWait_isSome waited, by rw [set_main], .inl ?_⟩
    simp only [Sends, set_main, set_file]
    exact ⟨sends.1, ordered, .inl ⟨trivial, trivial, sends.2⟩⟩
  | copy rest mb =>
    simp only [pc] at sends
    obtain ⟨out', fits, sends⟩ := sends
    -- the string that has been copied so far, or none yet
    cases rest with
    | nil =>
      have holds : Holds w.memmapfile (text (argv n)) := by
        rcases sends with ⟨none', -, holds⟩ | ⟨d, -, parts, holds⟩
        · have empty := strs_nil none'.symm
          rw [new empty] at holds
          rw [empty]
          exact holds
        · rw [List.flatten_nil, List.append_nil] at parts
          rwa [← parts]
      simp only [pc, holds.string (text_free _), access_some, Option.some.injEq] at h
      subst h
      refine ⟨id, by rw [set_main], .inl ?_⟩
      simp only [Sends, set_main, set_file]
      exact ⟨by rw [out'], holds⟩
    | cons str rest =>
      simp only [pc, Option.some.injEq] at h
      -- what has been copied, which the string goes behind
      obtain ⟨d, buf, rfl, parts, there, before, whole⟩ : ∃ d buf, d.length = mb ∧
          d ++ str ++ rest.flatten = text (argv n) ∧ w.memmapfile = some buf ∧
          buf.take d.length = d ∧ buf.length = MEMBUF := by
        rcases sends with ⟨all, rfl, behind, there, whole⟩ | ⟨d, rfl, parts, behind, there, whole⟩
        · exact ⟨[], _, rfl, by rw [text, ← all]; rfl, there, rfl, whole⟩
        · exact ⟨d, _, rfl, by simpa using parts, there, by simp, whole⟩
      have room : (d ++ str).length < MEMBUF := by
        rw [← parts, List.length_append] at fits
        omega
      obtain ⟨membuf, copied, holds⟩ := strcpy_holds before whole room
      rw [there, Option.bind_some, copied, access_some] at h
      subst h
      refine ⟨id, by rw [set_main], .inl ?_⟩
      simp only [Sends, set_main, set_file]
      exact ⟨out', fits, d, str, rfl, parts, holds⟩
  | advance rest mb =>
    simp only [pc, Option.some.injEq] at sends h
    obtain ⟨out', fits, d, s, rfl, parts, holds⟩ := sends
    have free : 0 ∉ s := fun mem => text_free (argv n) (parts ▸ by simp [mem])
    rw [holds.strlen free, access_some] at h
    subst h
    refine ⟨id, by rw [set_main], .inl ?_⟩
    simp only [Sends, set_main, set_file]
    exact ⟨out', fits, .inr ⟨d ++ s, by simp, parts, holds⟩⟩
  | sendPost =>
    simp only [pc] at sends h
    cases h
    exact ⟨by simp [semPost], by rw [set_main], .inr ⟨sends.2, by rw [set_main],
      by rw [set_main]; exact sends.1⟩⟩
  | _ => simp only [pc] at sends

/-! ## The order of the exchange -/

/-- The second process has not received yet. -/
structure Waits (argv : Name → List Arg) (n : Name) (p : Process) : Prop where
  pc : p.pc = .map ∨ p.pc = .rcvWait
  second : p.IdidInit = false
  out : p.out = []
  args : argv n = [] → argv n.other = []

/-- What the second process does when the first one has sent. -/
def Answers (argv : Name → List Arg) (n : Name) (p : Process) (file : Option (List Byte)) : Prop :=
  p.IdidInit = false ∧ (argv n = [] → argv n.other = []) ∧
    (p.pc = .rcvPrint ∧ p.out = [] ∧ Holds file (text (argv n.other)) ∨
      p.pc = .rcvPost ∧ p.out = [.rcvd (text (argv n.other))] ∧
        Holds file (text (argv n.other)) ∨
      Sends (argv n) (text (argv n.other)) [.rcvd (text (argv n.other))] p file)

/-- What the first process does when the second one has sent. -/
def Finishes (argv : Name → List Arg) (n : Name) (p : Process) (file : Option (List Byte)) :
    Prop :=
  p.IdidInit = true ∧
    (p.pc = .rcvPrint ∧ p.out = [.sent (text (argv n))] ∧ Holds file (text (argv n.other)) ∨
      (p.pc = .rcvPost ∨ p.pc = .cleanup ∨ p.pc = .done) ∧ p.out = lines argv n true)

/-- How far the exchange is, `f` being the process that has started first. -/
inductive Stage (argv : Name → List Arg) (w : World) : Prop where
  | clean (new : ∀ n, w.main n = .new) (semid : w.semid = none) (file : w.memmapfile = none)
  | making (f : Name) (first : w.main f = { Process.new with pc := .init, IdidInit := true })
      (second : w.main f.other = .new) (semid : w.semid.isSome) (file : w.memmapfile = none)
  | sending (f : Name) (first : Sends (argv f) [] [] (w.main f) w.memmapfile)
      (init : (w.main f).IdidInit = true)
      (second : w.main f.other = .new ∨ Waits argv f.other (w.main f.other))
      (semid : w.semid.isSome)
  | sent (f : Name) (first : (w.main f).pc = .rcvWait ∧ (w.main f).IdidInit = true ∧
        (w.main f).out = [.sent (text (argv f))])
      (second : w.main f.other = .new ∨ Waits argv f.other (w.main f.other))
      (file : Holds w.memmapfile (text (argv f))) (semid : w.semid.isSome)
  | answering (f : Name) (first : (w.main f).pc = .rcvWait ∧ (w.main f).IdidInit = true ∧
        (w.main f).out = [.sent (text (argv f))])
      (second : Answers argv f.other (w.main f.other) w.memmapfile)
  | answered (f : Name) (first : (w.main f).pc = .rcvWait ∧ (w.main f).IdidInit = true ∧
        (w.main f).out = [.sent (text (argv f))])
      (second : (w.main f.other).pc = .done ∧ (w.main f.other).IdidInit = false ∧
        (w.main f.other).out = lines argv f.other false)
      (file : Holds w.memmapfile (text (argv f.other)))
  | finishing (f : Name) (first : Finishes argv f (w.main f) w.memmapfile)
      (second : (w.main f.other).pc = .done ∧ (w.main f.other).IdidInit = false ∧
        (w.main f.other).out = lines argv f.other false)

/-- A step changes nothing in the other process. -/
theorem step_other (h : step argv w n = some w') : w'.main n.other = w.main n.other := by
  unfold step at h
  dsimp only at h
  cases pc : (w.main n).pc with
  | semget | init =>
    simp only [pc] at h
    split at h
    all_goals
      cases h
      exact set_main_other ..
  | map | sendPost | rcvPost | cleanup =>
    simp only [pc] at h
    cases h
    exact set_main_other ..
  | copy rest mb =>
    cases rest
    all_goals
      simp only [pc] at h
      cases h
      exact access_other fun _ => set_main_other ..
  | advance | rcvPrint =>
    simp only [pc] at h
    cases h
    exact access_other fun _ => set_main_other ..
  | sendWait | rcvWait =>
    simp only [pc] at h
    obtain ⟨_, -, rfl⟩ := Option.map_eq_some_iff.1 h
    exact set_main_other ..
  | done | exited | outside =>
    simp only [pc] at h
    cases h

theorem Holds.isSome {file : Option (List Byte)} {s : List Byte} (h : Holds file s) :
    file.isSome := by
  obtain ⟨rest, rfl, -⟩ := h
  rfl

theorem Sends.isSome {argv : List Arg} {old : List Byte} {out : List Line} {p : Process}
    {file : Option (List Byte)} (h : Sends argv old out p file) : file.isSome := by
  unfold Sends at h
  split at h
  · exact h.2.isSome
  · rcases h.2.2 with ⟨-, -, holds⟩ | ⟨d, -, -, holds⟩
    · exact holds.isSome
    · exact holds.isSome
  · obtain ⟨-, -, d, s, -, -, holds⟩ := h
    exact holds.isSome
  · exact h.2.isSome
  · exact h.elim

/-- A process in `SendArgs` has not sent. -/
theorem Sends.hasSent {argv : List Arg} {old : List Byte} {out : List Line} {p : Process}
    {file : Option (List Byte)} (h : Sends argv old out p file) :
    p.hasSent = false ∧ p.pc ≠ .semget := by
  unfold Sends at h
  unfold Process.hasSent
  split at h
  all_goals first
    | exact h.elim
    | (rename_i pc; rw [pc]; exact ⟨rfl, nofun⟩)

/-- The second process starts, and waits for the first one to send. -/
theorem waits_step (second : w.main n = .new ∨ Waits argv n (w.main n))
    (started : (w.main n.other).pc ≠ .semget) (semid : w.semid.isSome)
    (file : w.memmapfile.isSome) (ordered : Ordered argv w n) (h : step argv w n = some w') :
    w'.memmapfile = w.memmapfile ∧ w'.semid.isSome ∧
      (Waits argv n (w'.main n) ∨ (w.main n.other).hasSent ∧ (w'.main n).pc = .rcvPrint ∧
        (w'.main n).IdidInit = false ∧ (w'.main n).out = [] ∧
        (argv n = [] → argv n.other = [])) := by
  unfold step at h
  dsimp only at h
  unfold Ordered at ordered
  rcases second with new | waits
  · rw [new] at h ordered
    simp only [Process.new, semid, if_true, Option.some.injEq] at h
    subst h
    refine ⟨rfl, semid, .inl ?_⟩
    rw [set_main]
    exact ⟨.inl rfl, rfl, rfl, ordered.2 started⟩
  · rcases waits.pc with pc | pc
    · simp only [pc, Option.some.injEq] at h
      subst h
      obtain ⟨membuf, file⟩ := Option.isSome_iff_exists.1 file
      refine ⟨by simp [file], semid, .inl ?_⟩
      rw [set_main]
      exact ⟨.inr rfl, waits.second, waits.out, waits.args⟩
    · simp only [pc] at h ordered
      obtain ⟨semid', waited, rfl⟩ := Option.map_eq_some_iff.1 h
      refine ⟨rfl, semWait_isSome waited semid, .inr ⟨ordered, ?_⟩⟩
      rw [set_main]
      exact ⟨rfl, waits.second, waits.out, waits.args⟩

theorem answers_step (second : Answers argv n (w.main n) w.memmapfile)
    (ordered : Ordered argv w n) (h : step argv w n = some w') : Answers argv n (w'.main n) w'.memmapfile ∨
      ((w'.main n).pc = .done ∧ (w'.main n).IdidInit = false ∧
        (w'.main n).out = lines argv n false) ∧ Holds w'.memmapfile (text (argv n)) := by
  obtain ⟨init, args, second⟩ := second
  rcases second with ⟨pc, out, holds⟩ | ⟨pc, out, holds⟩ | sends
  · simp only [step, pc, holds.string (text_free _), access_some, Option.some.injEq] at h
    subst h
    left
    rw [set_main]
    exact ⟨init, args, .inr (.inl ⟨rfl, by rw [out]; rfl, holds⟩)⟩
  · simp only [step, pc, init, Option.some.injEq] at h
    subst h
    left
    rw [set_main]
    exact ⟨rfl, args, .inr (.inr ⟨out, holds⟩)⟩
  · obtain ⟨-, init', sends | ⟨holds, pc, out⟩⟩ :=
      sends_step sends (fun none' => by rw [args none']; rfl) ordered h
    · exact .inl ⟨init'.trans init, args, .inr (.inr sends)⟩
    · rw [init] at pc init'
      exact .inr ⟨⟨pc, init', out⟩, holds⟩

theorem finishes_step (first : Finishes argv n (w.main n) w.memmapfile)
    (h : step argv w n = some w') : Finishes argv n (w'.main n) w'.memmapfile := by
  obtain ⟨init, ⟨pc, out, holds⟩ | ⟨pc | pc | pc, out⟩⟩ := first
  · simp only [step, pc, holds.string (text_free _), access_some, Option.some.injEq] at h
    subst h
    rw [set_main]
    exact ⟨init, .inr ⟨.inl rfl, by rw [out]; rfl⟩⟩
  · simp only [step, pc, init, Option.some.injEq] at h
    subst h
    rw [set_main]
    exact ⟨rfl, .inr ⟨.inr (.inl rfl), out⟩⟩
  · simp only [step, pc, Option.some.injEq] at h
    subst h
    rw [set_main]
    exact ⟨init, .inr ⟨.inr (.inr rfl), out⟩⟩
  · simp only [step, pc] at h
    cases h

/-- **Step.** The exchange goes on in its order. -/
theorem step_stage (stage : Stage argv w) (ordered : Ordered argv w n)
    (h : step argv w n = some w') : Stage argv w' := by
  have other := step_other h
  cases stage with
  | clean new semid file =>
    simp only [step, new n, Process.new, semid, Option.isSome_none, Bool.false_eq_true, if_false,
      Option.some.injEq] at h
    subst h
    exact .making n (set_main ..) (other.trans (new n.other)) rfl file
  | making f first second semid file =>
    rcases n.eq_or f with rfl | rfl
    · simp only [step, first, Process.new, file, Option.isSome_none, Bool.false_eq_true, if_false,
        Option.some.injEq] at h
      subst h
      refine .sending n ?_ ?_ (.inl (other.trans second)) ?_
      · rw [set_main]
        refine ⟨rfl, List.replicate (MEMBUF - 1) 0, rfl, ?_⟩
        rw [List.nil_append, List.length_cons, List.length_replicate]
        rfl
      · rw [set_main]
      · simpa using semid
    · rw [Ordered, second] at ordered
      rw [Name.other_other, first] at ordered
      exact absurd rfl ordered.1
  | sending f first init second semid =>
    rcases n.eq_or f with rfl | rfl
    · obtain ⟨semid', init', sends | ⟨holds, pc, out⟩⟩ := sends_step first (fun _ => rfl) ordered h
      · exact .sending n sends (init'.trans init) (by rw [other]; exact second) (semid' semid)
      · rw [init] at pc init'
        exact .sent n ⟨pc, init', out⟩ (by rw [other]; exact second) holds (semid' semid)
    · rw [Name.other_other] at other
      obtain ⟨file, semid', waits | ⟨sent, -⟩⟩ := waits_step second
        (by rw [Name.other_other]; exact first.hasSent.2) semid first.isSome ordered h
      · exact .sending f (by rw [other, file]; exact first) (by rw [other]; exact init)
          (.inr waits) semid'
      · rw [Name.other_other, first.hasSent.1] at sent
        cases sent
  | sent f first second file semid =>
    rcases n.eq_or f with rfl | rfl
    · -- the second process has not sent
      rw [Ordered, first.1] at ordered
      rcases second with new | waits
      · rw [new] at ordered
        cases ordered
      · rcases waits.pc with pc | pc
        · simp [Process.hasSent, pc] at ordered
        · simp [Process.hasSent, pc, waits.second] at ordered
    · rw [Name.other_other] at other
      obtain ⟨file', semid', waits | ⟨-, pc, init, out, args⟩⟩ := waits_step second
        (by rw [Name.other_other, first.1]; nofun) semid file.isSome ordered h
      · exact .sent f (by rw [other]; exact first) (.inr waits) (by rw [file']; exact file) semid'
      · refine .answering f (by rw [other]; exact first) ⟨init, args, .inl ⟨pc, out, ?_⟩⟩
        rw [Name.other_other, file']
        exact file
  | answering f first second =>
    rcases n.eq_or f with rfl | rfl
    · rw [Ordered, first.1] at ordered
      obtain ⟨init, -, ⟨pc, -, -⟩ | ⟨pc, -, -⟩ | sends⟩ := second
      · simp [Process.hasSent, pc, init] at ordered
      · simp [Process.hasSent, pc, init] at ordered
      · rw [sends.hasSent.1] at ordered
        cases ordered
    · rw [Name.other_other] at other
      rcases answers_step second ordered h with answers | ⟨done, file⟩
      · exact .answering f (by rw [other]; exact first) answers
      · exact .answered f (by rw [other]; exact first) done file
  | answered f first second file =>
    rcases n.eq_or f with rfl | rfl
    · simp only [step, first.1] at h
      obtain ⟨semid, -, rfl⟩ := Option.map_eq_some_iff.1 h
      refine .finishing n ?_ (by rw [other]; exact second)
      rw [set_main]
      exact ⟨first.2.1, .inl ⟨rfl, first.2.2, file⟩⟩
    · simp only [step, second.1] at h
      cases h
  | finishing f first second =>
    rcases n.eq_or f with rfl | rfl
    · exact .finishing n (finishes_step first h) (by rw [other]; exact second)
    · simp only [step, second.1] at h
      cases h

theorem Sends.right {old : List Byte} {out : List Line} {p : Process} {file : Option (List Byte)}
    (h : Sends (argv n) old out p file)
    (fits : out ++ [.sent (text (argv n))] <+: lines argv n p.IdidInit) : Right argv n p := by
  refine ⟨?_, ?_, ?_⟩
  · intro outside
    rw [Sends, outside] at h
    exact h
  · unfold Sends at h
    split at h
    · exact h.1 ▸ (List.prefix_append _ _).trans fits
    · exact h.1 ▸ (List.prefix_append _ _).trans fits
    · exact h.1 ▸ (List.prefix_append _ _).trans fits
    · exact h.1 ▸ fits
    · exact h.elim
  · intro done
    have := h.hasSent.1
    rw [Process.hasSent, done] at this
    cases this

theorem Right.early {p : Process} (out : p.out = []) (pc : p.pc ≠ .done ∧ p.pc ≠ .outside) :
    Right argv n p :=
  ⟨pc.2, out ▸ List.nil_prefix, fun done => absurd done pc.1⟩

theorem waits_right {p : Process} (h : p = .new ∨ Waits argv n p) : Right argv n p := by
  rcases h with rfl | waits
  · exact .early rfl ⟨nofun, nofun⟩
  · refine .early waits.out ?_
    rcases waits.pc with pc | pc <;> rw [pc] <;> exact ⟨nofun, nofun⟩

theorem answers_right {p : Process} {file : Option (List Byte)} (h : Answers argv n p file) :
    Right argv n p := by
  obtain ⟨init, -, ⟨pc, out, -⟩ | ⟨pc, out, -⟩ | sends⟩ := h
  · exact .early out (by rw [pc]; exact ⟨nofun, nofun⟩)
  · refine ⟨by rw [pc]; nofun, ?_, by rw [pc]; nofun⟩
    rw [out, init]
    exact ⟨[_], rfl⟩
  · exact sends.right (by rw [init]; exact List.prefix_rfl)

theorem finishes_right {p : Process} {file : Option (List Byte)} (h : Finishes argv n p file) :
    Right argv n p := by
  obtain ⟨init, ⟨pc, out, -⟩ | ⟨pc, out⟩⟩ := h
  · refine ⟨by rw [pc]; nofun, ?_, by rw [pc]; nofun⟩
    rw [out, init]
    exact ⟨[_], rfl⟩
  · have whole : p.out = lines argv n p.IdidInit := by rw [out, init]
    have inside : p.pc ≠ .outside := by
      rcases pc with pc | pc | pc <;> rw [pc] <;> nofun
    exact ⟨inside, whole ▸ List.prefix_rfl, fun _ => whole⟩

/-- What has been printed at each point of the exchange. -/
theorem Stage.right (stage : Stage argv w) : BothRight argv w := by
  have both (f : Name) (first : Right argv f (w.main f))
      (second : Right argv f.other (w.main f.other)) : BothRight argv w := by
    intro n
    rcases n.eq_or f with rfl | rfl
    · exact first
    · exact second
  have sent (f : Name) (first : (w.main f).pc = .rcvWait ∧ (w.main f).IdidInit = true ∧
      (w.main f).out = [.sent (text (argv f))]) : Right argv f (w.main f) := by
    refine ⟨by rw [first.1]; nofun, ?_, by rw [first.1]; nofun⟩
    rw [first.2.2, first.2.1]
    exact ⟨[_], rfl⟩
  have done (f : Name) (second : (w.main f.other).pc = .done ∧ (w.main f.other).IdidInit = false ∧
      (w.main f.other).out = lines argv f.other false) : Right argv f.other (w.main f.other) := by
    have whole : (w.main f.other).out = lines argv f.other (w.main f.other).IdidInit := by
      rw [second.2.2, second.2.1]
    exact ⟨by rw [second.1]; nofun, whole ▸ List.prefix_rfl, fun _ => whole⟩
  cases stage with
  | clean new semid file => exact fun n => waits_right (.inl (new n))
  | making f first second semid file =>
    exact both f (.early (by rw [first]; rfl) (by rw [first]; exact ⟨nofun, nofun⟩)) (waits_right (.inl second))
  | sending f first init second semid =>
    exact both f (first.right (by rw [init]; exact ⟨[_], rfl⟩)) (waits_right second)
  | sent f first second file semid => exact both f (sent f first) (waits_right second)
  | answering f first second => exact both f (sent f first) (answers_right second)
  | answered f first second file => exact both f (sent f first) (done f second)
  | finishing f first second => exact both f (finishes_right first) (done f second)

end

/-- **Exchange.** In the runs that keep to the order, all lines are right. -/
theorem exchange {argv : Name → List Arg} {ns : List Name}
    (ordered : Along (step argv) (Ordered argv) .new ns) :
    Always (step argv) (BothRight argv) .new ns :=
  Along.always (fun _ _ _ stage ordered h => step_stage stage ordered h)
    (fun _ stage => stage.right)
    (.clean (fun _ => rfl) rfl rfl) ordered

/-- One argument each. -/
def oneEach : Name → List Arg
  | .A => [⟨[120], by decide⟩]
  | .B => [⟨[121], by decide⟩]

theorem exchange_oneEach : Always (step oneEach) (BothRight oneEach) .new
    (List.replicate 9 .A ++ List.replicate 12 .B ++ List.replicate 4 .A) :=
  exchange (by decide +kernel)

set_option maxRecDepth 2000 in
/-- The first process takes the semaphore that it has just released. -/
theorem early_breaks : ∃ w, run (step oneEach) .new
      ([.A, .A, .B, .B] ++ List.replicate 9 .A) = some w ∧
    (w.main .A).out = [.sent (text (oneEach .A)), .rcvd (text (oneEach .A))] ∧
    ¬ BothRight oneEach w := by
  refine ⟨_, rfl, by decide +kernel, fun right => ?_⟩
  exact absurd (right .A).sofar (by decide +kernel)

end UnixProgramming.Memmap
