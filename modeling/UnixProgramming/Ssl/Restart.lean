import Mathlib.Logic.Function.Iterate
import UnixProgramming.Ssl.Reread

/-!
# Reading the firewall again and restarting

* `Course`: the states of the accept loop, with the readings so far;
* `reread_settled`: with the same file and room to open it, a re-read comes to
  what a restart would, if the file settles its decisions;
* `reread_equals_restart_iff`: and only then.
-/

namespace UnixProgramming.Ssl

open Pipe Heap

/-- The files of one moment. -/
abbrev Files := List Byte → Option (List Byte)

/-- How a PortMaster is started: the host's address, what follows `-f`, the
environment, and how many files and waiting clients' Sockets it can hold open. -/
structure Launch where
  he : Option (Fin 4 → Byte)
  dashF : Option (List Byte)
  spmfirewall : Option (List Byte)
  limit : Nat

namespace Launch

variable (l : Launch)

def system (files : Files) (junk : Nat → SpmFWData) : System :=
  ⟨l.spmfirewall, files, l.limit, junk⟩

/-- The firewall of a PortMaster that is started now. -/
def fresh (files : Files) (junk : Nat → SpmFWData) : Firewall :=
  firewallStart (l.system files junk) l.he l.dashF

/-- The file that is read at the start, if any. -/
def file : Option (List Byte) :=
  match l.he with
  | none => none
  | some _ => if (l.dashF.getD []).isEmpty then l.spmfirewall else l.dashF

/-- The host's address as the PortMaster holds it. -/
def hostaddr : Fin 4 → Int8 :=
  match l.he with
  | some addr => fun i => signedHostaddr (addr i).toInt8
  | none => fun _ => 0

/-- Starting and reading again look at the same file, if at any. -/
def SameFile : Prop :=
  match l.he with
  | none => l.spmfirewall = none
  | some _ => l.dashF.getD [] = [] ∨ l.spmfirewall = some (l.dashF.getD [])

/-- The file that is read at the start settles its decisions. -/
def Settles (files : Files) : Prop := ∀ text ∈ l.file.bind files, Settled l.hostaddr text

end Launch

/-- The states of the accept loop, with the number of readings since the start,
how many clients waited at the last one, and the files then. -/
inductive Course (l : Launch) : Nat → Nat → Files → Spm → Prop where
  | start (files : Files) (junk : Nat → SpmFWData) :
      Course l 0 0 files (.start (l.fresh files junk))
  | reread {n m files st st' exit w} (v : Visit) (now : Files) (junk : Nat → SpmFWData)
      (on : Course l n m files st) (system : v.around.sys = l.system now junk)
      (run : (exec (session v.around v.peer st) v.wire).fate = .done (exit, st') w)
      (read : Rereads st v exit) : Course l (n + 1) st.waits.vals.length now st'
  | other {n m files st st' exit w} (v : Visit) (on : Course l n m files st)
      (run : (exec (session v.around v.peer st) v.wire).fate = .done (exit, st') w)
      (stay : exit ≠ .quit) (unread : ¬ Rereads st v exit) : Course l n m files st'

theorem Course.valid {l : Launch} {n m : Nat} {files : Files} {st : Spm}
    (h : Course l n m files st) : st.Valid := by
  induction h with
  | start => exact start_valid _
  | reread v _ _ _ _ run _ ih => exact (exec_all (session_keeps v.around v.peer ih) run).1
  | other v _ run _ _ ih => exact (exec_all (session_keeps v.around v.peer ih) run).1

/-- The re-read comes to what a restart would, with at most `m` clients waiting
and `n` readings before it, whatever is in the memory that either gets. -/
def RereadsLikeRestart (l : Launch) (n m : Nat) (files : Files) : Prop :=
  ∀ {k st}, k ≤ m → Course l (n + 1) k files st → ∀ junk peer,
    firewall st.fw peer = firewall (l.fresh files junk) peer

/-! ## The same file, while there is room to open it -/

theorem firewallInit_opened (sys : System) (fwfile : List Byte) (fw : Firewall) :
    (firewallInit sys fwfile fw).hostaddr = fw.hostaddr ∧
      (firewallInit sys fwfile fw).opened ≤ fw.opened + 1 := by
  unfold firewallInit
  split
  · exact ⟨rfl, Nat.le_succ _⟩
  · exact ⟨rfl, Nat.le_refl _⟩

/-- What the list comes to depends on the host's address and on the text read. -/
theorem firewallInit_some {sys : System} {file text : List Byte} {fw : Firewall}
    (read : firewallText sys file fw.opened = some text) :
    (firewallInit sys file fw).spmfw = readList sys.junk fw.hostaddr text := by
  rw [firewallInit, read]
  rfl

theorem firewallInit_none {sys : System} {file : List Byte} {fw : Firewall}
    (read : firewallText sys file fw.opened = none) : (firewallInit sys file fw).spmfw = [] := by
  rw [firewallInit, read]

theorem firewall_empty {fw : Firewall} (empty : fw.spmfw = []) (peer : Option Peer) :
    firewall fw peer = false := by
  unfold firewall
  rw [empty]
  rfl

theorem firewall_congr {fw fw' : Firewall} (h : fw.spmfw = fw'.spmfw) (peer : Option Peer) :
    firewall fw peer = firewall fw' peer := by
  unfold firewall
  rw [h]

section
variable {l : Launch} {n m : Nat} {files : Files} {st : Spm}

theorem fresh_opened (l : Launch) (files : Files) (junk : Nat → SpmFWData) :
    (l.fresh files junk).hostaddr = l.hostaddr ∧ (l.fresh files junk).opened ≤ 1 := by
  unfold Launch.fresh firewallStart Launch.hostaddr
  cases l.he with
  | none => exact ⟨rfl, Nat.zero_le _⟩
  | some addr => exact firewallInit_opened _ _ _

/-- A PortMaster that has just been started has read its file. -/
theorem fresh_spmfw (l : Launch) (room : 0 < l.limit) (files : Files) (junk : Nat → SpmFWData) :
    (l.fresh files junk).spmfw =
      ((l.file.bind files).map fun text => readList junk l.hostaddr text).getD [] := by
  unfold Launch.fresh firewallStart Launch.file Launch.hostaddr
  cases l.he with
  | none => rfl
  | some addr =>
    dsimp only
    have chosen : firewallFile (l.system files junk) (l.dashF.getD []) =
        if (l.dashF.getD []).isEmpty then l.spmfirewall else l.dashF := by
      unfold firewallFile
      split
      · rfl
      · cases dashF : l.dashF with
        | none => simp [dashF] at *
        | some f => rfl
    have text (opened : Nat) (zero : opened = 0) :
        firewallText (l.system files junk) (l.dashF.getD []) opened =
        (if (l.dashF.getD []).isEmpty then l.spmfirewall else l.dashF).bind files := by
      rw [firewallText, chosen, zero]
      exact congrArg _ (funext fun f => if_pos room)
    cases read : (if (l.dashF.getD []).isEmpty then l.spmfirewall else l.dashF).bind files with
    | none => exact firewallInit_none ((text 0 rfl).trans read)
    | some t => exact firewallInit_some ((text 0 rfl).trans read)

/-- Before the last reading the address was the one of the start and no more
files were open than there had been readings. -/
theorem course_fw (h : Course l n m files st) :
    (st.fw.hostaddr = l.hostaddr ∧ st.fw.opened ≤ n + 1) ∧
      (0 < n → ∃ (fw : Firewall) (junk : Nat → SpmFWData), fw.hostaddr = l.hostaddr ∧
        fw.opened ≤ n ∧ st.fw = fwinit (l.system files junk) m fw) := by
  induction h with
  | start files junk => exact ⟨fresh_opened l files junk, fun pos => absurd pos (Nat.lt_irrefl _)⟩
  | @reread n m files st st' exit w v now junk on system run read ih =>
    have again := (session_fw on.valid v run).1 read
    rw [system] at again
    let sys := { l.system now junk with limit := l.limit - st.waits.vals.length }
    obtain ⟨host, opened⟩ := firewallInit_opened sys [] st.fw
    refine ⟨?_, fun _ => ⟨st.fw, junk, ih.1.1, ih.1.2, again⟩⟩
    rw [again]
    exact ⟨host.trans ih.1.1, opened.trans (Nat.succ_le_succ ih.1.2)⟩
  | @other n m files st st' exit w v on run stay unread ih =>
    rw [(session_fw on.valid v run).2 unread]
    exact ih

/-- Where both look at the same file it is the one in the environment. -/
theorem Launch.SameFile.file (same : l.SameFile) : l.file = l.spmfirewall := by
  unfold SameFile at same
  unfold Launch.file
  cases he : l.he with
  | none =>
    rw [he] at same
    exact same.symm
  | some addr =>
    rw [he] at same
    dsimp only
    rcases same with empty | env
    · rw [empty]
      rfl
    · split
      · rfl
      · rw [env]
        cases dashF : l.dashF with
        | none => simp [dashF] at *
        | some f => rfl

/-- With room to open the file, the list after a re-read. -/
theorem fwinit_spmfw (files : Files) (junk : Nat → SpmFWData) {fw : Firewall}
    (room : l.spmfirewall = none ∨ fw.opened + m < l.limit) :
    (fwinit (l.system files junk) m fw).spmfw =
      ((l.spmfirewall.bind files).map fun text => readList junk fw.hostaddr text).getD [] := by
  let sys := { l.system files junk with limit := l.limit - m }
  have text : firewallText sys [] fw.opened = l.spmfirewall.bind files := by
    change (l.spmfirewall.bind fun f => if fw.opened < l.limit - m then files f else none) = _
    rcases room with none' | lt
    · rw [none']
      rfl
    · exact congrArg _ (funext fun f => if_pos (by omega))
  cases read : l.spmfirewall.bind files with
  | none => exact firewallInit_none (text.trans read)
  | some t => exact firewallInit_some (text.trans read)

/-- **A re-read comes to what a restart would** if both look at the same file,
it can be opened and settles its decisions. -/
theorem reread_settled (some' : 0 < l.limit) (same : l.SameFile)
    (room : l.spmfirewall = none ∨ n + 1 + m < l.limit) (settles : l.Settles files) :
    RereadsLikeRestart l n m files := by
  intro k st few h junk peer
  obtain ⟨fw, junk', host, opened, again⟩ := (course_fw h).2 (Nat.succ_pos n)
  have here := fresh_spmfw l some' files junk
  have there := fwinit_spmfw files junk' (room.imp_right fun lt =>
    (by omega : fw.opened + k < l.limit))
  rw [← again, host] at there
  rw [same.file] at here
  unfold Launch.Settles at settles
  rw [same.file] at settles
  cases read : l.spmfirewall.bind files with
  | none =>
    rw [read] at here there
    rw [firewall_empty here, firewall_empty there]
  | some text =>
    rw [read] at here there
    exact (settled_iff l.hostaddr text).2 (settles text read) _ _ _ _ there here peer

end

/-! ## Where it goes wrong -/

/-- Everybody whose address is known gets in. -/
def AllPass (fw : Firewall) : Prop := ∀ peer : Peer, firewall fw (some peer) = false

/-- The session comes to its end, in such a state. -/
def EndsIn (P : Spm → Prop) (r : Outcome Byte Note (Exit × Spm)) : Prop :=
  ∃ st w, r.fate = .done (.next, st) w ∧ P st

theorem endsIn_forget {P : Spm → Prop} (r : Outcome Byte Note (Exit × Spm)) :
    EndsIn P r.forget ↔ EndsIn P r := by
  obtain ⟨o, t, fate⟩ := r
  cases fate with
  | done x w =>
    constructor
    · rintro ⟨st, w', same, h⟩
      cases same
      exact ⟨st, w, rfl, h⟩
    · rintro ⟨st, w', same, h⟩
      cases same
      exact ⟨st, _, rfl, h⟩
  | blocked => exact Iff.rfl
  | spun => exact Iff.rfl

theorem keepWaiting_eq (client : Nat) (r : Exit × Spm) :
    ∃ kept, keepWaiting client r = (r.1, { r.2 with client := kept }) := by
  unfold keepWaiting
  split
  · exact ⟨none, rfl⟩
  · exact ⟨r.2.client, rfl⟩

section
variable {l : Launch} {n m : Nat} {files : Files} {st : Spm}

/-- A reading of the file, for anyone whom the firewall lets in. -/
theorem course_reread (h : Course l n m files st) (pass : AllPass st.fw) (now : Files)
    (junk : Nat → SpmFWData) :
    ∃ st', Course l (n + 1) st.waits.vals.length now st' ∧
      st'.fw = fwinit (l.system now junk) st.waits.vals.length st.fw ∧
      st'.waits = st.waits ∧ st'.ports = st.ports := by
  let a : Around := ⟨l.system now junk, List.replicate bufsize 0, rfl, 0⟩
  let v : Visit := ⟨a, some fun _ => 0, ⟨htons PM.fwinit, .closed, []⟩⟩
  have asks : request (PM.maxtry + 1) (htons PM.fwinit) = .event [] PM.fwinit [] := rfl
  have served : wp False (session a v.peer st)
      (EndsIn fun st' => st'.waits = st.waits ∧ st'.ports = st.ports) (htons PM.fwinit)
      .closed := by
    rw [wp_session a (pass _), wp_eventLoop_event a st.accepted (p := pmFwinit a.sys st.opened) rfl
      asks (fun no => no.elim), pmFwinit, wp_swrite]
    change wp False (.ret _) _ _ _
    rw [wp_ret]
    exact ⟨_, _, rfl, rfl, rfl⟩
  rw [wp_iff_exec endsIn_forget] at served
  obtain ⟨st', w, run, same⟩ := served [] (.inr (by simp))
  have read : Rereads st v .next := ⟨pass _, rfl, [], [], asks⟩
  exact ⟨st', .reread v now junk h rfl run read, (session_fw h.valid v run).1 read, same⟩

/-- A client begins to wait for a server `b`. -/
theorem course_wait (h : Course l n m files st) (pass : AllPass st.fw)
    (free : st.lookup [98] = none) :
    ∃ st', Course l n m files st' ∧ st'.fw = st.fw ∧
      st'.waits.vals.length = st.waits.vals.length + 1 ∧ st'.lookup [98] = none := by
  let v : Visit := ⟨nothingAround, some fun _ => 0, ⟨htons PM.clientwait ++ withNul [98], .silent,
    []⟩⟩
  have asks : request (PM.maxtry + 1) v.wire.queue = .event [] PM.clientwait (withNul [98]) := rfl
  obtain ⟨ws, hws⟩ := h.valid.waits
  have served : wp False (session nothingAround v.peer st)
      (EndsIn fun st' => st'.waits.vals.length = st.waits.vals.length + 1 ∧
        st'.lookup [98] = none) v.wire.queue .silent := by
    rw [wp_session nothingAround (pass _), wp_eventLoop_event nothingAround st.accepted
      (p := pmClient 0 st.accepted true st.opened >>= fun r => .ret (keepWaiting st.accepted r)) rfl
      asks (fun no => no.elim), wp_map, pmClient, wp_swrite, wp_orTimedout]
    refine ⟨fun none' => ?_, fun _ => ?_⟩
    · rcases none' with no | empty
      · exact no.elim
      · cases empty
    have field : gets (bufsize - 2) (withNul [98]) = some ([98], []) := rfl
    refine (wp_sgets_some (C := True) 0 h.valid.sktname.1 field
      (fun buf => pmClientLookup st.accepted true (st.opened.setSktname buf)) ?_).2 trivial
    intro buf t term str
    rw [iff_true, pmClientLookup, Spm.setSktname_sktname, str]
    have free' : (st.opened.setSktname buf).lookup [98] = none := free
    rw [free']
    change wp False (.ret _) _ _ _
    rw [wp_ret]
    let st' := { st.opened.setSktname buf with waits := st.waits.append ⟨st.accepted, [98]⟩ }
    obtain ⟨kept, same⟩ := keepWaiting_eq st.accepted (.next, st')
    change EndsIn _ ⟨_, _, .done (hangUp (keepWaiting st.accepted (.next, st'))) _⟩
    rw [same]
    refine ⟨_, _, rfl, ?_, free'⟩
    change (st.waits.append _).vals.length = _
    rw [DList.vals_eq (DList.append_is hws _), DList.vals_eq hws]
    simp
  rw [wp_iff_exec endsIn_forget] at served
  obtain ⟨st', w, run, more, free'⟩ := served [] (.inr (by simp))
  have unread : ¬ Rereads st v .next := by
    rintro ⟨-, -, before, rest, same⟩
    rw [asks] at same
    cases same
  exact ⟨st', .other v h run (by decide) unread, (session_fw h.valid v run).2 unread, more, free'⟩

/-- So many clients wait, and nothing has been read again. -/
theorem course_waiting (l : Launch) (files : Files) (junk : Nat → SpmFWData)
    (pass : AllPass (l.fresh files junk)) (k : Nat) :
    ∃ st, Course l 0 0 files st ∧ st.fw = l.fresh files junk ∧ st.waits.vals.length = k ∧
      st.lookup [98] = none := by
  induction k with
  | zero => exact ⟨_, .start files junk, rfl, rfl, rfl⟩
  | succ k ih =>
    obtain ⟨st, course, fw, waiting, free⟩ := ih
    obtain ⟨st', course', fw', more, free'⟩ := course_wait course (fw ▸ pass) free
    exact ⟨st', course', fw'.trans fw, by rw [more, waiting], free'⟩

/-- A course on which `k` clients wait and the files never change. -/
theorem course_iterate (junk : Nat → SpmFWData) (k : Nat)
    (pass : ∀ j, AllPass ((fwinit (l.system files junk) k)^[j] (l.fresh files junk))) :
    ∀ n, ∃ m st, Course l n m files st ∧ st.waits.vals.length = k ∧
      st.fw = (fwinit (l.system files junk) k)^[n] (l.fresh files junk) := by
  intro n
  induction n with
  | zero =>
    obtain ⟨st, course, fw, waiting, -⟩ := course_waiting l files junk (pass 0) k
    exact ⟨0, st, course, waiting, fw⟩
  | succ n ih =>
    obtain ⟨m, st, course, waiting, fw⟩ := ih
    obtain ⟨st', course', fw', same, -⟩ := course_reread course (fw ▸ pass n) files junk
    exact ⟨_, st', course', by rw [same, waiting],
      by rw [fw', fw, waiting, Function.iterate_succ_apply']⟩

end

/-- A peer that cannot be named is turned away once a file has been read. -/
theorem firewall_nobody (sys : System) (fwfile : List Byte) (fw : Firewall) :
    firewall (firewallInit sys fwfile fw) none = (firewallText sys fwfile fw.opened).isSome := by
  unfold firewallInit
  cases firewallText sys fwfile fw.opened with
  | none => rfl
  | some text =>
    unfold firewall
    rw [if_neg (by simp)]
    rfl

/-- `* * * * * *` -/
def starLine : FwLine where
  lead := []
  fields := List.replicate 5 (.any, [32]) ++ [(.any, [])]
  comment := none
  blank := blank_nil
  six := .inr ⟨rfl, .cons _ _ _ (by decide) (by decide) <| .cons _ _ _ (by decide) (by decide) <|
    .cons _ _ _ (by decide) (by decide) <| .cons _ _ _ (by decide) (by decide) <|
    .cons _ _ _ (by decide) (by decide) <| .last _ _ (by decide)⟩
  short := by decide
  oneLine := by decide

theorem starLine_matches (peer : Peer) : starLine.Matches peer :=
  ⟨rfl, fun i => match i with
    | 0 | 1 | 2 | 3 | 4 | 5 => trivial⟩

theorem allPass_star {sys : System} {fwfile : List Byte} {fw : Firewall}
    (text : ∀ t ∈ firewallText sys fwfile fw.opened, t = fileText [] starLine) :
    AllPass (firewallInit sys fwfile fw) := by
  intro peer
  unfold firewallInit
  cases read : firewallText sys fwfile fw.opened with
  | none => rfl
  | some t =>
    obtain rfl := text t read
    obtain ⟨data, entry, fits⟩ := (starLine.entry_matches peer).2 (starLine_matches peer)
    dsimp only
    rw [spmfwLines_text starLine [] sys.junk (Nat.le_refl _)]
    unfold firewall
    rw [if_neg (by simp), Bool.not_eq_false', List.any_eq_true]
    refine ⟨data, ?_, by simpa [EntryMatches] using fits⟩
    apply List.mem_append_left
    rw [List.mem_reverse, List.mem_filterMap]
    exact ⟨starLine, by simp, entry⟩

/-- The file with that line settles its decisions. -/
theorem settled_star (hostaddr : Fin 4 → Int8) : Settled hostaddr (fileText [] starLine) := by
  have stars : ∃ rule ∈ fileRules (fileText [] starLine), ∀ i, rule i = some (-1) := by
    decide +kernel
  obtain ⟨rule, hr, all⟩ := stars
  exact fun peer _ => .inl ⟨rule, hr, fun i => ⟨-1, all i, .inl rfl⟩⟩

theorem settled_nothing (hostaddr : Fin 4 → Int8) : Settled hostaddr [] := by
  rintro peer ⟨rule, hr, -⟩
  cases hr

def noFiles : Files := fun _ => none
def starFiles : Files := fun _ => some (fileText [] starLine)
def noJunk : Nat → SpmFWData := fun _ _ => 0

/-- With no file to be read nothing is ever opened. -/
theorem course_blank (l : Launch) (n : Nat) :
    ∃ m st, Course l n m noFiles st ∧ st.waits.vals.length = 0 ∧ AllPass st.fw ∧
      st.fw.opened = 0 := by
  have read (limit : Nat) (file : List Byte) (fw : Firewall) :
      AllPass (firewallInit { l.system noFiles noJunk with limit := limit } file fw) ∧
        (firewallInit { l.system noFiles noJunk with limit := limit } file fw).opened =
          fw.opened := by
    have text : firewallText { l.system noFiles noJunk with limit := limit } file fw.opened =
        none := by
      unfold firewallText
      cases firewallFile _ file with
      | none => rfl
      | some f => exact ite_self _
    refine ⟨allPass_star fun t m => ?_, ?_⟩
    · rw [text] at m
      cases m
    · rw [firewallInit, text]
  have all (k : Nat) :
      AllPass ((fwinit (l.system noFiles noJunk) 0)^[k] (l.fresh noFiles noJunk)) ∧
      ((fwinit (l.system noFiles noJunk) 0)^[k] (l.fresh noFiles noJunk)).opened = 0 := by
    induction k with
    | zero =>
      change AllPass (l.fresh noFiles noJunk) ∧ (l.fresh noFiles noJunk).opened = 0
      unfold Launch.fresh firewallStart
      cases l.he with
      | none => exact ⟨fun _ => rfl, rfl⟩
      | some addr => exact read l.limit _ _
    | succ k ih =>
      rw [Function.iterate_succ_apply']
      obtain ⟨pass, same⟩ := read (l.limit - 0) []
        ((fwinit (l.system noFiles noJunk) 0)^[k] (l.fresh noFiles noJunk))
      exact ⟨pass, same.trans ih.2⟩
  obtain ⟨m, st, course, waiting, fw⟩ := course_iterate noJunk 0 (fun k => (all k).1) n
  exact ⟨m, st, course, waiting, fw ▸ (all n).1, fw ▸ (all n).2⟩

theorem firewallText_star {l : Launch} {file : List Byte} (limit : Nat)
    (named : (firewallFile (l.system starFiles noJunk) file).isSome) (opened : Nat) :
    firewallText { l.system starFiles noJunk with limit := limit } file opened =
      if opened < limit then some (fileText [] starLine) else none := by
  obtain ⟨f, hf⟩ := Option.isSome_iff_exists.1 named
  have hf' : firewallFile { l.system starFiles noJunk with limit := limit } file = some f := hf
  rw [firewallText, hf', Option.bind_some]
  rfl

theorem read_star {l : Launch} {file : List Byte} (limit : Nat)
    (named : (firewallFile (l.system starFiles noJunk) file).isSome) (fw : Firewall) :
    AllPass (firewallInit { l.system starFiles noJunk with limit := limit } file fw) ∧
      (firewallInit { l.system starFiles noJunk with limit := limit } file fw).opened =
        if fw.opened < limit then fw.opened + 1 else fw.opened := by
  constructor
  · apply allPass_star
    intro t m
    rw [firewallText_star limit named] at m
    split at m
    · cases m; rfl
    · cases m
  · by_cases below : fw.opened < limit
    · rw [firewallInit, firewallText_star limit named, if_pos below, if_pos below]
    · rw [firewallInit, firewallText_star limit named, if_neg below, if_neg below]

section
variable {l : Launch} {g : List Byte} (env : l.spmfirewall = some g) (same : l.SameFile)
include env

theorem named_star : (firewallFile (l.system starFiles noJunk) []).isSome := by
  change l.spmfirewall.isSome = true
  rw [env]
  rfl

include same

/-- The start reads a file, too. -/
theorem fresh_star : ∃ addr,
    (firewallFile (l.system starFiles noJunk) (l.dashF.getD [])).isSome ∧
    l.fresh starFiles noJunk =
      firewallInit (l.system starFiles noJunk) (l.dashF.getD []) ⟨addr, [], 0⟩ := by
  unfold Launch.SameFile at same
  unfold Launch.fresh firewallStart
  cases he : l.he with
  | none => rw [he, env] at same; cases same
  | some addr =>
    refine ⟨_, ?_, rfl⟩
    unfold firewallFile
    split
    · exact named_star env
    · rfl

/-- With a file to be read every reading opens one more, as long as the clients
that wait leave room. -/
theorem course_star (room : 0 < l.limit) {k : Nat} (few : k < l.limit) (n : Nat) :
    ∃ m st, Course l n m starFiles st ∧ st.waits.vals.length = k ∧ AllPass st.fw ∧
      st.fw.opened = min (l.limit - k) (n + 1) := by
  have all (n : Nat) :
      AllPass ((fwinit (l.system starFiles noJunk) k)^[n] (l.fresh starFiles noJunk)) ∧
      ((fwinit (l.system starFiles noJunk) k)^[n] (l.fresh starFiles noJunk)).opened =
        min (l.limit - k) (n + 1) := by
    induction n with
    | zero =>
      obtain ⟨addr, dashF, fresh⟩ := fresh_star env same
      obtain ⟨pass, opened⟩ := read_star l.limit dashF ⟨addr, [], 0⟩
      rw [if_pos room] at opened
      rw [Function.iterate_zero_apply, fresh]
      refine ⟨pass, opened.trans ?_⟩
      change 0 + 1 = _
      omega
    | succ n ih =>
      rw [Function.iterate_succ_apply']
      obtain ⟨pass, opened⟩ := read_star (l.limit - k) (named_star env)
        ((fwinit (l.system starFiles noJunk) k)^[n] (l.fresh starFiles noJunk))
      refine ⟨pass, opened.trans ?_⟩
      rw [ih.2]
      split <;> omega
  obtain ⟨m, st, course, waiting, fw⟩ := course_iterate noJunk k (fun n => (all n).1) n
  exact ⟨m, st, course, waiting, fw ▸ (all n).1, fw ▸ (all n).2⟩

end

section
variable {l : Launch} {n m : Nat} (room : 0 < l.limit)
  (h : ∀ files, l.Settles files → RereadsLikeRestart l n m files)
include room h

/-- A moment at which the two files differ tells the two readings apart. -/
theorem sameFile_of_reread : l.SameFile := by
  obtain ⟨_, st, course, waiting, pass, opened⟩ := course_blank l n
  have agree (files : Files) (settles : l.Settles files) :
      (firewallText (l.system files noJunk) [] 0).isSome =
        firewall (l.fresh files noJunk) none := by
    obtain ⟨st', course', fw', -⟩ := course_reread course pass files noJunk
    rw [waiting] at course' fw'
    rw [← h files settles (Nat.zero_le m) course' noJunk none, fw', fwinit, firewall_nobody,
      opened]
    rfl
  unfold Launch.SameFile
  unfold Launch.fresh at agree
  cases he : l.he with
  | none =>
    rw [he] at agree
    by_contra named
    obtain ⟨g, env⟩ := Option.ne_none_iff_exists'.1 named
    have read := agree starFiles (by simp [Launch.Settles, Launch.file, he])
    have text := firewallText_star l.limit (named_star env) 0
    rw [if_pos room] at text
    change firewallText (l.system starFiles noJunk) [] 0 = _ at text
    rw [text] at read
    cases read
  | some addr =>
    rw [he] at agree
    by_contra apart
    rw [not_or] at apart
    obtain ⟨some', other⟩ := apart
    -- only the file behind -f is there
    let files : Files := fun f => if f = l.dashF.getD [] then some [] else none
    have settles : l.Settles files := by
      intro text read
      obtain ⟨f, -, read⟩ := Option.bind_eq_some_iff.1 read
      dsimp only [files] at read
      split at read
      · cases read
        exact settled_nothing _
      · cases read
    have read := agree files settles
    have env : firewallText (l.system files noJunk) [] 0 = none := by
      unfold firewallText
      change (l.spmfirewall.bind fun f => if 0 < l.limit then files f else none) = none
      cases file : l.spmfirewall with
      | none => rfl
      | some g =>
        have ne : g ≠ l.dashF.getD [] := by
          rintro rfl
          exact other file
        rw [Option.bind_some, if_pos room]
        exact if_neg ne
    have dashF : firewallText (l.system files noJunk) (l.dashF.getD []) 0 = some [] := by
      rw [firewallText, firewallFile, if_neg (by simpa using some'), Option.bind_some]
      exact (if_pos room).trans (if_pos rfl)
    rw [env, firewallStart, firewall_nobody, dashF] at read
    cases read

/-- When no more files can be held open the list is emptied and stays so. -/
theorem room_of_reread (same : l.SameFile) : l.spmfirewall = none ∨ n + 1 + m < l.limit := by
  by_contra full
  rw [not_or, Nat.not_lt] at full
  obtain ⟨named, full⟩ := full
  obtain ⟨g, env⟩ := Option.ne_none_iff_exists'.1 named
  -- as many of the clients as leave room for the start's own reading
  let k := min m (l.limit - 1)
  have few : k < l.limit := by omega
  obtain ⟨_, st, course, waiting, pass, opened⟩ := course_star env same room few n
  obtain ⟨st', course', fw', -⟩ := course_reread course pass starFiles noJunk
  rw [waiting] at course' fw'
  have settles : l.Settles starFiles := by
    intro text read
    obtain ⟨f, -, read⟩ := Option.bind_eq_some_iff.1 read
    cases read
    exact settled_star _
  have agree := h starFiles settles (Nat.min_le_left _ _) course' noJunk none
  have stuck := firewallText_star (l.limit - k) (named_star env) st.fw.opened
  rw [if_neg (by omega)] at stuck
  obtain ⟨addr, dashF, fresh⟩ := fresh_star env same
  have start := firewallText_star l.limit dashF 0
  rw [if_pos room] at start
  rw [fw', fwinit, firewall_nobody, fresh, firewall_nobody] at agree
  change (firewallText _ [] st.fw.opened).isSome =
    (firewallText { l.system starFiles noJunk with limit := l.limit } _ 0).isSome at agree
  rw [start] at agree
  change (firewallText { l.system starFiles noJunk with limit := l.limit - k } [] _).isSome = _
    at agree
  rw [stuck] at agree
  cases agree

end

/-- A file that does not settle its decisions is not read twice alike. -/
theorem settles_of_reread {l : Launch} {n m : Nat} (some' : 0 < l.limit) (same : l.SameFile)
    (room : l.spmfirewall = none ∨ n + 1 + m < l.limit) {files : Files}
    (h : RereadsLikeRestart l n m files) : l.Settles files := by
  intro text read
  rw [same.file] at read
  obtain ⟨g, env, -⟩ := Option.bind_eq_some_iff.1 read
  obtain ⟨_, st, course, waiting, pass, opened⟩ := course_star env same some' some' n
  have open' : st.fw.opened + 0 < l.limit := by
    have lt := room.resolve_left (by rw [env]; simp)
    omega
  apply (settled_iff _ _).1
  intro fw fw' junk junk' list list' peer
  obtain ⟨st', course', again, -⟩ := course_reread course pass files junk
  rw [waiting] at course' again
  have there := fwinit_spmfw files junk (.inr open')
  have here := fresh_spmfw l some' files junk'
  rw [read] at there
  rw [same.file, read] at here
  rw [← again, (course_fw course).1.1] at there
  calc firewall fw peer = firewall st'.fw peer := firewall_congr (list.trans there.symm) peer
    _ = firewall (l.fresh files junk') peer := h (Nat.zero_le m) course' junk' peer
    _ = firewall fw' peer := firewall_congr (here.trans list'.symm) peer

/-- **Reading the firewall again equals restarting** exactly for the files that
settle their decisions, exactly when both look at the same file and fewer files
have been read and clients wait than can be held open. -/
theorem reread_equals_restart_iff (l : Launch) (room : 0 < l.limit) (n m : Nat) :
    (∀ files, RereadsLikeRestart l n m files ↔ l.Settles files) ↔
      l.SameFile ∧ (l.spmfirewall = none ∨ n + 1 + m < l.limit) := by
  constructor
  · intro h
    have same := sameFile_of_reread room fun files => (h files).2
    exact ⟨same, room_of_reread room (fun files => (h files).2) same⟩
  · rintro ⟨same, open'⟩ files
    exact ⟨settles_of_reread room same open', reread_settled room same open'⟩

/-- `spm` on the host 192.168.1.2, with `SPMFIREWALL`. -/
def environmentOnly : Launch := ⟨some sampleHost, none, some [102], 256⟩

/-- The third re-read, with one client that waits. -/
theorem reread_equals_restart_environment : environmentOnly.SameFile ∧
    ∀ files, RereadsLikeRestart environmentOnly 2 1 files ↔ environmentOnly.Settles files :=
  ⟨.inl rfl,
    (reread_equals_restart_iff environmentOnly (by decide) 2 1).2 ⟨.inl rfl, .inr (by decide)⟩⟩

/-- `spm -ff` on that host, without `SPMFIREWALL`. -/
def dashFOnly : Launch := ⟨some sampleHost, some [102], none, 256⟩

/-- There is a file `f`, with the line `* * 10 0 0 7`. -/
def oneFile : Files := fun f => if f = [102] then some (fileText [] sampleLine) else none

/-- After the first `PM_FWINIT` everybody is let in. -/
theorem dashF_forgotten : ¬ RereadsLikeRestart dashFOnly 0 0 oneFile := by
  intro h
  have pass : AllPass (dashFOnly.fresh noFiles noJunk) := fun _ => rfl
  obtain ⟨st, course, again, -⟩ := course_reread (.start noFiles noJunk) pass oneFile noJunk
  have agree := h (Nat.le_refl 0) course noJunk none
  rw [again] at agree
  cases agree

end UnixProgramming.Ssl
