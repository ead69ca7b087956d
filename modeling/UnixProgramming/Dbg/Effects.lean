import UnixProgramming.Dbg.Commands
import UnixProgramming.Runs.Basic

/-!
# What the debugger's calls do

The calls of one thread as steps, and for each kind of step all that it changes.

* `edbg_enters`, `rdbg_leaves`: a frame is pushed or popped, one line is printed
  or none;
* `dbgswitch_turns`, `initdbg3_adjusts`: only the top frame changes.
-/

namespace UnixProgramming.Dbg

open Ssl (Byte)
open Heap (DList)

/-- A call of one thread. -/
inductive Act where
  | edbg (c : Call)
  | rdbg (c : Call)
  | dprintf (detail : Int) (c : Call)
  | dbgswitch (on : Int)
  | initdbg3 (u : Unset) (buf : List Byte)
  | dsetjmp (env : Nat)
  | dlongjmp (env : Nat) (c : Call)

def call (env : Env) (s : State) : Act → Result State
  | .edbg c => edbg env c s
  | .rdbg c => rdbg c s
  | .dprintf detail c => (dprintf detail c s).map Prod.snd
  | .dbgswitch on => (dbgswitch on s).map Prod.snd
  | .initdbg3 u buf => initdbg3 env u buf s
  | .dsetjmp jb => .ok (dsetjmp jb s)
  | .dlongjmp jb c => dlongjmp jb c s

/-- A call after which the program goes on. -/
def step (env : Env) (s : State) (a : Act) : Option State := (call env s a).toOption

theorem toOption_some {ε α : Type} {r : Except ε α} {a : α} (h : r.toOption = some a) :
    r = .ok a := by
  cases r with
  | error e => cases h
  | ok b => cases h; rfl

theorem bind_ok {ε α β : Type} {r : Except ε α} {f : α → Except ε β} {b : β}
    (h : r.bind f = .ok b) : ∃ a, r = .ok a ∧ f a = .ok b := by
  cases r with
  | error e => cases h
  | ok a => exact ⟨a, rfl, h⟩

theorem map_ok {ε α β : Type} {r : Except ε α} {f : α → β} {b : β} (h : r.map f = .ok b) :
    ∃ a, r = .ok a ∧ f a = b := by
  cases r with
  | error e => cases h
  | ok a => cases h; exact ⟨a, rfl, rfl⟩

theorem bind_ne {ε α β : Type} {r : Except ε α} {f : α → Except ε β} {e : ε} (first : r ≠ .error e)
    (next : ∀ a, r = .ok a → f a ≠ .error e) : r.bind f ≠ .error e := by
  cases r with
  | error e' => exact fun h => first (by cases h; rfl)
  | ok a => exact next a rfl

theorem map_ne {ε α β : Type} {r : Except ε α} {f : α → β} {e : ε} (first : r ≠ .error e) :
    r.map f ≠ .error e := by
  cases r with
  | error e' => exact fun h => first (by cases h; rfl)
  | ok a => nofun

/-! ## edbg -/

/-- The functions on the stack, the current one first. -/
def State.chain (s : State) : List (List Byte) := s.thrd.stack.map DBG.funcname

/-- The command that fires, if there is one. -/
def firing (d : Option DBGCMD) (chain : List (List Byte)) : Option DBGCMD :=
  d.filter fun d => !rejects d chain

/-- The current function behind `edbg2`. -/
def processed (d : Option DBGCMD) (chain : List (List Byte)) (prv : Option DBG) (dbgtl : DBG) :
    DBG :=
  match d with
  | none => inherited prv dbgtl
  | some d => if rejects d chain then rejected prv dbgtl else fired d prv dbgtl

/-- A command leaves the place and the name of a frame, and what is kept for it. -/
@[simp] theorem processed_frame (d : Option DBGCMD) (chain : List (List Byte))
    (prv : Option DBG) (dbgtl : DBG) :
    (processed d chain prv dbgtl).addr = dbgtl.addr ∧
      (processed d chain prv dbgtl).funcname = dbgtl.funcname ∧
      (processed d chain prv dbgtl).dbgswbuf = dbgtl.dbgswbuf := by
  unfold processed inherited
  repeat' split
  all_goals exact ⟨rfl, rfl, rfl⟩

/-- The output of the command that fires, if it has one. -/
def redirectFiring (env : Env) (d : Option DBGCMD) (s : State) : Result State :=
  match d with
  | none => .ok s
  | some d => redirect env d s

theorem edbg2_eq {env : Env} {d : Option DBGCMD} {s : State} {dbgtl : DBG} {below : List DBG}
    (stack : s.thrd.stack = dbgtl :: below) : edbg2 env d s =
      (redirectFiring env (firing d s.chain) s).map fun t =>
        t.setStack (processed d s.chain below.head? dbgtl :: below) := by
  unfold edbg2
  rw [stack]
  dsimp only
  cases d with
  | none => rfl
  | some d =>
    have chain : s.chain = (dbgtl :: below).map DBG.funcname := by rw [State.chain, stack]
    rw [chain, firing, processed, Option.filter]
    dsimp only
    by_cases h : rejects d ((dbgtl :: below).map DBG.funcname)
    · simp only [h, if_true, Bool.not_true, Bool.false_eq_true, if_false]
      rfl
    · simp only [h, Bool.not_false, if_true, Bool.false_eq_true, if_false]
      rfl

/-- A state in which only the stream and the files differ, behind warnings. -/
def State.redirected (s : State) (fp : Stream) (outs : DList DBGOUT) (ws : List Warning) : State :=
  ⟨{ s.g with outs := outs, log := s.g.log ++ ws.map .warning }, { s.thrd with dbgfp := fp }⟩

/-- The file that is open for an output. -/
def fileOf (outs : DList DBGOUT) (a : Nat) : Option Stream := (outs.val? a).bind DBGOUT.fp

/-- The file that is opened for the output of a command by the thread of this
number. -/
def opening (env : Env) (id a : Nat) (filename : List Byte) : Option Stream :=
  let fname := outName id filename
  if max filename.length fname.length ≥ FUNCBUF then none
  else if env.fopen a fname then some (.file a fname) else some .stdout

def openAs (outs : DList DBGOUT) (a : Nat) (fp : Stream) : DList DBGOUT :=
  outs.modify a fun o => { o with fp := some fp }

theorem fileOf_openAs {outs : DList DBGOUT} {a : Nat} {dbgout : DBGOUT}
    (there : outs.val? a = some dbgout) (fp : Stream) (b : Nat) :
    fileOf (openAs outs a fp) b = if b = a then some fp else fileOf outs b := by
  by_cases same : b = a
  · rw [if_pos same, same, fileOf, openAs, DList.val?_modify_self, there]
    rfl
  · rw [if_neg same, fileOf, openAs, DList.val?_modify_ne _ _ same]
    rfl

/-- What `redirect` does. -/
inductive Redirects (env : Env) (d : DBGCMD) (s : State) : State → Prop where
  | nowhere (own : d.dbgout = none) : Redirects env d s s
  | again {a : Nat} {dbgout : DBGOUT} {fp : Stream} (own : d.dbgout = some a)
      (there : s.g.outs.val? a = some dbgout) (opened : dbgout.fp = some fp) :
      Redirects env d s (s.setFp fp)
  | opens {a : Nat} {dbgout : DBGOUT} {fp : Stream} (ws : List Warning)
      (own : d.dbgout = some a) (there : s.g.outs.val? a = some dbgout) (closed : dbgout.fp = none)
      (opens : opening env s.thrd.id a dbgout.filename = some fp) :
      Redirects env d s (s.redirected fp (openAs s.g.outs a fp) ws)

/-- Where it has to open the file. -/
theorem redirect_closed {env : Env} {d : DBGCMD} {s : State} {a : Nat} {dbgout : DBGOUT}
    (own : d.dbgout = some a) (there : s.g.outs.val? a = some dbgout)
    (closed : dbgout.fp = none) : ∃ ws, redirect env d s =
      (opening env s.thrd.id a dbgout.filename).elim (.error .outside) fun fp =>
        .ok (s.redirected fp (openAs s.g.outs a fp) ws) := by
  simp only [redirect, own, there, closed, opening]
  split
  · exact ⟨[], rfl⟩
  split
  · exact ⟨[], by simp [State.redirected, State.setOuts, State.setFp, openAs]⟩
  · exact ⟨[_], rfl⟩

theorem redirect_redirects {env : Env} {d : DBGCMD} {s t : State} (h : redirect env d s = .ok t) :
    Redirects env d s t := by
  cases own : d.dbgout with
  | none =>
    rw [redirect, own] at h
    cases h
    exact .nowhere own
  | some a =>
    cases there : s.g.outs.val? a with
    | none =>
      simp only [redirect, own, there] at h
      cases h
    | some dbgout =>
      cases opened : dbgout.fp with
      | some fp =>
        simp only [redirect, own, there, opened] at h
        cases h
        exact .again own there opened
      | none =>
        obtain ⟨ws, eq⟩ := redirect_closed own there opened
        rw [eq] at h
        cases opens : opening env s.thrd.id a dbgout.filename with
        | none =>
          rw [opens] at h
          cases h
        | some fp =>
          rw [opens] at h
          cases h
          exact .opens ws own there opened opens

theorem redirect_ok {env : Env} {d : DBGCMD} {s t : State} (h : redirect env d s = .ok t) :
    ∃ fp outs ws, t = s.redirected fp outs ws := by
  cases redirect_redirects h with
  | nowhere => exact ⟨s.thrd.dbgfp, s.g.outs, [], by simp [State.redirected]⟩
  | @again _ _ fp => exact ⟨fp, s.g.outs, [], by simp [State.redirected, State.setFp]⟩
  | opens ws => exact ⟨_, _, ws, rfl⟩

theorem redirectFiring_ok {env : Env} {d : Option DBGCMD} {s t : State}
    (h : redirectFiring env d s = .ok t) : ∃ fp outs ws, t = s.redirected fp outs ws := by
  cases d with
  | none =>
    cases h
    exact ⟨s.thrd.dbgfp, s.g.outs, [], by simp [State.redirected]⟩
  | some d => exact redirect_ok h

def newFrame (env : Env) (funcname : List Byte) (s : State) : DBG :=
  { env.junk s.thrd.mallocs with
    addr := s.thrd.mallocs, funcname := funcname, dbgswbuf := none }

def Out.line : Out → Line
  | .print _ line _ => line
  | .warning _ => .other
  | .fclose _ => .other

/-- The lines among what a call has printed. -/
def Prints (lines : List Line) (log log' : List Out) : Prop :=
  ∃ outs, log' = log ++ outs ∧ (outs.map Out.line).filter (· ≠ .other) = lines

theorem Prints.nothing (log : List Out) : Prints [] log log := ⟨[], by simp, rfl⟩

theorem Prints.warnings (log : List Out) (ws : List Warning) :
    Prints [] log (log ++ ws.map .warning) :=
  ⟨_, rfl, by simp [Out.line, Function.comp_def]⟩

theorem Prints.fcloses (log : List Out) (fps : List Stream) :
    Prints [] log (log ++ fps.map .fclose) :=
  ⟨_, rfl, by simp [Out.line, Function.comp_def]⟩

theorem Prints.trans {ls ls' : List Line} {log log' log'' : List Out} (h : Prints ls log log')
    (h' : Prints ls' log' log'') : Prints (ls ++ ls') log log'' := by
  obtain ⟨outs, rfl, rfl⟩ := h
  obtain ⟨outs', rfl, rfl⟩ := h'
  exact ⟨outs ++ outs', by simp, by simp⟩

def Globals.flags (g : Globals) : Bool × Int × Bool := (g.showthrdid, g.drcdbgline, g.dbg_Nflag)

/-- What `edbg`, `dprintf` and `rdbg` print from and never change. -/
def State.marks (s : State) : (Nat × Nat) × Bool × Int × Bool :=
  ((s.thrd.self, s.thrd.id), s.g.flags)

/-- A call of `edbg` with this function name has pushed the frame `top`. -/
structure Enters (env : Env) (funcname : List Byte) (top : DBG) (s s' : State) : Prop where
  stack : s'.thrd.stack = top :: s.thrd.stack
  settings : { top with dbgswbuf := none } =
    processed (findCmd s.g.cmds funcname) (funcname :: s.chain) s.thrd.stack.head?
      (newFrame env funcname s)
  dbgswbuf : top.dbgswbuf.isSome ↔ top.status = .on ∨ top.status = .ondis
  dbglvl : s'.thrd.dbglvl = s.thrd.dbglvl + if top.status = .on then 1 else 0
  prints : Prints (if top.status = .on then [.entry top.addr] else []) s.g.log s'.g.log
  jmps : s'.thrd.jmps = s.thrd.jmps
  mallocs : s'.thrd.mallocs = s.thrd.mallocs + 1
  cmds : s'.g.cmds = s.g.cmds
  marks : s'.marks = s.marks
  redirects : ∃ t, redirectFiring env
      (firing (findCmd s.g.cmds funcname) (funcname :: s.chain)) (push env funcname s) = .ok t ∧
    s'.thrd.dbgfp = t.thrd.dbgfp ∧ s'.g.outs = t.g.outs

theorem Enters.addr {env : Env} {funcname : List Byte} {top : DBG} {s s' : State}
    (h : Enters env funcname top s s') : top.addr = s.thrd.mallocs :=
  (congrArg DBG.addr h.settings).trans (processed_frame ..).1

theorem Enters.funcname {env : Env} {funcname : List Byte} {top : DBG} {s s' : State}
    (h : Enters env funcname top s s') : top.funcname = funcname :=
  (congrArg DBG.funcname h.settings).trans (processed_frame ..).2.1

/-- What `enter` does to a state, with the top frame that it leaves. -/
theorem enter_ok {c : Call} {t s' : State} {dbgtl : DBG} {below : List DBG}
    (stack : t.thrd.stack = dbgtl :: below) (h : enter c t = .ok s') :
    ∃ dbgswbuf outs, (dbgswbuf.isSome ↔ dbgtl.status = .on ∨ dbgtl.status = .ondis) ∧
      (outs.map Out.line).filter (· ≠ .other) =
        (if dbgtl.status = .on then [.entry dbgtl.addr] else []) ∧
      s' = ⟨{ t.g with dtst1 := dbgtl.dtst1, dtst2 := dbgtl.dtst2, log := t.g.log ++ outs },
        { t.thrd with
          stack := { dbgtl with dbgswbuf := dbgswbuf } :: below
          dbglvl := t.thrd.dbglvl + if dbgtl.status = .on then 1 else 0 }⟩ := by
  unfold enter at h
  rw [stack] at h
  dsimp only at h
  by_cases active : dbgtl.status = .on ∨ dbgtl.status = .ondis
  · rw [if_pos active] at h
    split at h
    · cases h
    refine ⟨some (c.chars.take (DBGBUF - 1) ++ text "\x7b\n"), ?_⟩
    split at h
    · rename_i on
      cases h
      simp only [on, if_true]
      exact ⟨[_], by simp, rfl, rfl⟩
    · rename_i on
      cases h
      simp only [on, if_false, Int.add_zero]
      exact ⟨[], by simp [active.resolve_left on], rfl, by simp [State.setStack, State.setDtst]⟩
  · rw [if_neg active] at h
    cases h
    have on : dbgtl.status ≠ .on := fun on => active (.inl on)
    have ondis : dbgtl.status ≠ .ondis := fun ondis => active (.inr ondis)
    simp only [on, if_false, Int.add_zero]
    exact ⟨none, [], by simp [ondis], rfl, by simp [State.setStack, State.setDtst]⟩

theorem edbg_enters {env : Env} {c : Call} {s s' : State} (h : edbg env c s = .ok s') :
    ∃ funcname top, edbgName c = .ok funcname ∧ Enters env funcname top s s' := by
  unfold edbg at h
  obtain ⟨funcname, name, h⟩ := bind_ok h
  split at h
  · cases h
  obtain ⟨t, processed', h⟩ := bind_ok h
  have pushed : (push env funcname s).thrd.stack = newFrame env funcname s :: s.thrd.stack := rfl
  rw [edbg2_eq pushed] at processed'
  obtain ⟨t', redirected, rfl⟩ := map_ok processed'
  have chain : (push env funcname s).chain = funcname :: s.chain := rfl
  rw [chain] at redirected
  rw [chain] at h
  obtain ⟨fp, outs, ws, rfl⟩ := redirectFiring_ok redirected
  obtain ⟨dbgswbuf, printed, kept, lines, rfl⟩ := enter_ok rfl h
  have unset : (processed (findCmd s.g.cmds funcname) (funcname :: s.chain) s.thrd.stack.head?
      (newFrame env funcname s)).dbgswbuf = none := (processed_frame ..).2.2
  refine ⟨funcname, { processed (findCmd s.g.cmds funcname) (funcname :: s.chain)
    s.thrd.stack.head? (newFrame env funcname s) with dbgswbuf := dbgswbuf }, name, ?_⟩
  exact
    { stack := rfl
      settings := by rw [← unset]
      dbgswbuf := kept
      dbglvl := rfl
      prints := (Prints.warnings s.g.log ws).trans ⟨printed, rfl, lines⟩
      jmps := rfl
      mallocs := rfl
      cmds := rfl
      marks := rfl
      redirects := ⟨_, redirected, rfl, rfl⟩ }

/-! ## rdbg -/

/-- Whether `rdbg` prints a return line for this frame. -/
def DBG.returns (dbgtl : DBG) : Bool :=
  dbgtl.status = .on || dbgtl.status = .ondis && dbgtl.dbgswbuf.isNone

/-- A call of `rdbg` has left the frame `dbgtl`. -/
structure Leaves (dbgtl : DBG) (below : List DBG) (s s' : State) : Prop where
  stack : s.thrd.stack = dbgtl :: below
  stack' : s'.thrd.stack = if below = [] then [dbgtl] else below
  dbglvl : s'.thrd.dbglvl =
    if dbgtl.returns ∧ s.thrd.dbglvl > 0 then s.thrd.dbglvl - 1 else s.thrd.dbglvl
  prints : Prints (if dbgtl.returns then [.leave dbgtl.addr] else []) s.g.log s'.g.log
  jmps : s'.thrd.jmps = if below = [] then s.thrd.jmps else popJmps dbgtl.addr s.thrd.jmps
  mallocs : s'.thrd.mallocs = s.thrd.mallocs
  cmds : below ≠ [] → s'.g.cmds = s.g.cmds
  emptied : below = [] → s'.g.cmds.hd = none
  outs : below ≠ [] → s'.g.outs = s.g.outs
  closed : below = [] → ∀ a, s'.g.outs.val? a = none
  marks : s'.marks = s.marks
  restores : ∀ dbgprv ∈ below.head?, s'.thrd.dbgfp =
    if dbgtl.dbgout ≠ dbgprv.dbgout then
      ((dbgprv.dbgout.bind s.g.outs.val?).bind DBGOUT.fp).getD .stdout
    else s.thrd.dbgfp
  restored : below = [] → s'.thrd.dbgfp = .stderr

theorem leave_ok {c : Call} {dbgtl : DBG} {s t : State} (h : leave c dbgtl s = .ok t) :
    t = if dbgtl.returns then printReturn c dbgtl s else s := by
  unfold leave at h
  cases status : dbgtl.status with
  | ondis =>
    -- an entry line that is still kept has not been printed
    cases kept : dbgtl.dbgswbuf
    all_goals
      rw [status, kept] at h
      cases h
      simp [DBG.returns, status, kept]
  | on | keep | off =>
    rw [status] at h
    cases h
    simp [DBG.returns, status]
  | unknown =>
    rw [status] at h
    cases h

theorem restoreFp_ok {dbgtl : DBG} {dbgprv : Option DBG} {s t : State}
    (h : restoreFp dbgtl dbgprv s = .ok t) : ∃ fp, t = s.setFp fp ∧
      ∀ prv ∈ dbgprv, fp = if dbgtl.dbgout ≠ prv.dbgout then
        ((prv.dbgout.bind s.g.outs.val?).bind DBGOUT.fp).getD .stdout else s.thrd.dbgfp := by
  unfold restoreFp at h
  split at h
  · cases h
    exact ⟨_, rfl, by simp⟩
  rename_i prv
  split at h
  · rename_i differ
    split at h
    · rename_i none'
      cases h
      refine ⟨_, rfl, fun _ hp => ?_⟩
      cases hp
      rw [if_pos differ, none']
      rfl
    · rename_i a some'
      split at h
      · cases h
      · rename_i dbgout there
        cases h
        refine ⟨_, rfl, fun _ hp => ?_⟩
        cases hp
        rw [if_pos differ, some', Option.bind_some, there]
        rfl
  · rename_i same
    cases h
    refine ⟨s.thrd.dbgfp, rfl, fun _ hp => ?_⟩
    cases hp
    rw [if_neg same]

theorem rdbg_leaves {c : Call} {s s' : State} (h : rdbg c s = .ok s') :
    ∃ dbgtl below, rdbgName c = .ok dbgtl.funcname ∧ Leaves dbgtl below s s' := by
  unfold rdbg at h
  dsimp only at h
  split at h
  · cases h
  rename_i dbgtl below stack
  obtain ⟨t, left', h⟩ := bind_ok h
  obtain ⟨name, named, h⟩ := bind_ok h
  split at h
  · cases h
  rename_i same
  obtain ⟨u, restored, h⟩ := map_ok h
  obtain ⟨fp, rfl, prv⟩ := restoreFp_ok restored
  have printed := leave_ok left'
  -- what `rdbg` does before the clean-up
  have early : t.thrd.stack = dbgtl :: below ∧ t.thrd.jmps = s.thrd.jmps ∧
      t.thrd.mallocs = s.thrd.mallocs ∧ t.g.cmds = s.g.cmds ∧ t.g.outs = s.g.outs ∧
      t.thrd.dbgfp = s.thrd.dbgfp ∧ t.marks = s.marks ∧
      t.thrd.dbglvl = (if dbgtl.returns ∧ s.thrd.dbglvl > 0 then s.thrd.dbglvl - 1
        else s.thrd.dbglvl) ∧
      Prints (if dbgtl.returns then [.leave dbgtl.addr] else []) s.g.log t.g.log := by
    rw [printed]
    cases returns : dbgtl.returns with
    | true => exact ⟨stack, rfl, rfl, rfl, rfl, rfl, rfl, by simp [printReturn]; rfl, [_], rfl, rfl⟩
    | false => exact ⟨stack, rfl, rfl, rfl, rfl, rfl, rfl, by simp; rfl, .nothing _⟩
  obtain ⟨stack', jmps, mallocs, cmds, outs, dbgfp, marks, dbglvl, prints⟩ := early
  refine ⟨dbgtl, below, named.trans (by rw [Classical.not_not.1 same]), ?_⟩
  rw [outs, dbgfp] at prv
  cases below with
  | nil =>
    cases h
    exact
      { stack, jmps, mallocs, dbglvl, marks, stack' := stack'
        prints := by
          rw [← List.append_nil (ite _ _ _)]
          exact prints.trans (.fcloses t.g.log (t.g.outs.vals.filterMap DBGOUT.fp))
        cmds := fun outer => absurd rfl outer
        emptied := fun _ => rfl
        outs := fun outer => absurd rfl outer
        closed := fun _ _ => rfl
        restores := by simp
        restored := fun _ => rfl }
  | cons dbgprv below =>
    cases h
    exact
      { stack, mallocs, dbglvl, marks, prints
        stack' := rfl
        jmps := congrArg (popJmps dbgtl.addr) jmps
        cmds := fun _ => cmds
        emptied := fun inner => nomatch inner
        outs := fun _ => outs
        closed := fun inner => nomatch inner
        restores := prv
        restored := fun inner => nomatch inner }

/-! ## Calls within a function -/

/-- A call that leaves all frames below the top one as they are, and of the top
frame its place and its name. -/
structure Adjusts (s s' : State) : Prop where
  stack : s'.thrd.stack.map DBG.addr = s.thrd.stack.map DBG.addr
  chain : s'.chain = s.chain
  below : s'.thrd.stack.tail = s.thrd.stack.tail
  dbglvl : s'.thrd.dbglvl = s.thrd.dbglvl
  prints : Prints [] s.g.log s'.g.log
  jmps : s'.thrd.jmps = s.thrd.jmps
  mallocs : s'.thrd.mallocs = s.thrd.mallocs

theorem Adjusts.refl (s : State) : Adjusts s s := ⟨rfl, rfl, rfl, rfl, .nothing _, rfl, rfl⟩

theorem Adjusts.trans {s t u : State} (h : Adjusts s t) (h' : Adjusts t u) : Adjusts s u where
  stack := h'.stack.trans h.stack
  chain := h'.chain.trans h.chain
  below := h'.below.trans h.below
  dbglvl := h'.dbglvl.trans h.dbglvl
  prints := h.prints.trans h'.prints
  jmps := h'.jmps.trans h.jmps
  mallocs := h'.mallocs.trans h.mallocs

/-- Anything that leaves the thread alone and prints no entry or return line. -/
theorem Adjusts.of_thrd {s s' : State} (thrd : s'.thrd = s.thrd)
    (prints : Prints [] s.g.log s'.g.log) : Adjusts s s' := by
  refine ⟨?_, ?_, ?_, ?_, prints, ?_, ?_⟩
  all_goals simp only [State.chain, thrd]

/-- All that `edbg2` does: warnings, the stream and the files, and the current function. -/
theorem edbg2_ok {env : Env} {d : Option DBGCMD} {s s' : State} (h : edbg2 env d s = .ok s') :
    ∃ dbgtl below fp outs ws, s.thrd.stack = dbgtl :: below ∧
      s' = (s.redirected fp outs ws).setStack
        (processed d s.chain below.head? dbgtl :: below) := by
  cases stack : s.thrd.stack with
  | nil =>
    unfold edbg2 at h
    rw [stack] at h
    cases h
  | cons dbgtl below =>
    rw [edbg2_eq stack] at h
    obtain ⟨t, redirected, rfl⟩ := map_ok h
    obtain ⟨fp, outs, ws, rfl⟩ := redirectFiring_ok redirected
    exact ⟨dbgtl, below, fp, outs, ws, rfl, rfl⟩

theorem edbg2_adjusts {env : Env} {d : Option DBGCMD} {s s' : State}
    (h : edbg2 env d s = .ok s') : Adjusts s s' := by
  obtain ⟨dbgtl, below, fp, outs, ws, stack, rfl⟩ := edbg2_ok h
  exact
    { stack := by simp [State.setStack, stack]
      chain := by simp [State.chain, State.setStack, stack]
      below := by simp [State.setStack, stack]
      dbglvl := rfl
      prints := .warnings _ ws
      jmps := rfl
      mallocs := rfl }

theorem Adjusts.print (s : State) (chars : List Byte) : Adjusts s (s.print .other chars) :=
  .of_thrd rfl ⟨[_], rfl, rfl⟩

theorem Adjusts.warn (s : State) (w : Warning) : Adjusts s (s.warn w) :=
  .of_thrd rfl (.warnings s.g.log [w])

theorem Adjusts.setNestmode (s : State) (mode : Bool) : Adjusts s (s.setNestmode mode) :=
  ⟨rfl, rfl, rfl, rfl, .nothing _, rfl, rfl⟩

theorem dprintf_adjusts {detail : Int} {c : Call} {s : State} {r : Int × State}
    (h : dprintf detail c s = .ok r) : Adjusts s r.2 ∧ r.2.thrd.stack = s.thrd.stack := by
  unfold dprintf at h
  split at h
  · cases h
    exact ⟨(Adjusts.warn s _).trans (.print _ _), rfl⟩
  split at h
  · dsimp only at h
    have newlines := Adjusts.print s (c.fmt.takeWhile (· = 10))
    split at h
    · cases h
      exact ⟨newlines.trans (.setNestmode _ _), rfl⟩
    · obtain ⟨t, line, rfl⟩ := map_ok h
      unfold dprintfLine at line
      dsimp only at line
      split at line
      · cases line
      · cases line
        exact ⟨(newlines.trans (.print _ _)).trans (.setNestmode _ _), rfl⟩
  · cases h
    exact ⟨.refl s, rfl⟩

theorem dprintf_ok {detail : Int} {c : Call} {s : State} {r : Int × State}
    (h : dprintf detail c s = .ok r) : r.2.marks = s.marks ∧ r.2.g.cmds = s.g.cmds ∧
      r.2.g.outs = s.g.outs ∧ (s.thrd.stack = [] → r.2.thrd = s.thrd) := by
  unfold dprintf at h
  split at h
  · cases h
    exact ⟨rfl, rfl, rfl, fun _ => rfl⟩
  rename_i dbgtl below stack
  split at h
  · dsimp only at h
    split at h
    · cases h
      exact ⟨rfl, rfl, rfl, by simp [stack]⟩
    · obtain ⟨t, line, rfl⟩ := map_ok h
      unfold dprintfLine at line
      dsimp only at line
      split at line
      · cases line
      · cases line
        exact ⟨rfl, rfl, rfl, by simp [stack]⟩
  · cases h
    exact ⟨rfl, rfl, rfl, fun _ => rfl⟩

theorem Adjusts.setCmds (s : State) (cmds : DList DBGCMD) : Adjusts s (setCmds s cmds) :=
  .of_thrd rfl (.nothing _)

theorem parsePreqs_adjusts {turns : Nat} {d : DBGCMD} {b modebuf : List Byte} {s : State}
    {r : DBGCMD × List Byte × List Byte × State}
    (h : parsePreqs turns d b modebuf s = .ok r) : Adjusts s r.2.2.2 := by
  induction turns generalizing d b modebuf s with
  | zero =>
    cases h
    exact .refl s
  | succ turns ih =>
    rw [parsePreqs_succ] at h
    dsimp only at h
    split at h
    · cases h
      exact .refl s
    split at h
    · cases h
    split at h
    · exact (Adjusts.warn s _).trans (ih h)
    · exact ih h

theorem parseOut_adjusts {d : DBGCMD} {b modebuf : List Byte} {s : State} {r : DBGCMD × State}
    (h : parseOut d b modebuf s = .ok r) : Adjusts s r.2 := by
  unfold parseOut at h
  dsimp only at h
  split at h
  · split at h
    · cases h
    split at h
    · cases h
      exact .refl s
    · cases h
      exact .of_thrd rfl (.nothing _)
  · cases h
    exact .refl s

theorem allocCmd_adjusts (u : Unset) (fnamebuf : List Byte) (found : Option (Nat × DBGCMD))
    (s : State) : Adjusts s (allocCmd u fnamebuf found s).2.2 := by
  unfold allocCmd
  split
  · exact .setCmds s _
  · exact .refl s

theorem command_adjusts {env : Env} {u : Unset} {buf modebuf fnamebuf : List Byte} {s s' : State}
    (h : command env u buf modebuf fnamebuf s = .ok s') : Adjusts s s' := by
  have alloc := allocCmd_adjusts u fnamebuf (s.g.cmds.find fun d => d.funcname == fnamebuf) s
  unfold command at h
  dsimp only at h
  generalize allocCmd u fnamebuf _ s = pds at h alloc
  have toggle : Adjusts pds.2.2 (if modebuf = text "thrd" then
      { pds.2.2 with g := { pds.2.2.g with showthrdid := !pds.2.2.g.showthrdid } }
      else pds.2.2) := by
    split
    · exact .of_thrd rfl (.nothing _)
    · exact .refl _
  obtain ⟨⟨d, b⟩, -, h⟩ := bind_ok h
  obtain ⟨⟨d', b', modebuf', t⟩, preqs, h⟩ := bind_ok h
  obtain ⟨⟨d'', u'⟩, out, h⟩ := bind_ok h
  have parsed :=
    ((alloc.trans toggle).trans (parsePreqs_adjusts preqs)).trans (parseOut_adjusts out)
  dsimp only at h
  split at h
  · cases h
    exact parsed.trans (.setCmds _ _)
  split at h
  · exact (parsed.trans (.setCmds _ _)).trans (edbg2_adjusts h)
  · cases h
    exact parsed.trans (.setCmds _ _)

theorem initdbg3_adjusts {env : Env} {u : Unset} {buf : List Byte} {s s' : State}
    (h : initdbg3 env u buf s = .ok s') : Adjusts s s' := by
  unfold initdbg3 at h
  dsimp only at h
  split at h
  · cases h
    exact .refl s
  split at h
  · cases h
  split at h
  · cases h
    unfold del
    split
    · exact .setCmds s _
    split
    · exact .warn s _
    · exact .setCmds s _
  · exact command_adjusts h

/-- Whether `dbgswitch` prints the entry line that was kept for this frame. -/
def DBG.switchesOn (on : Int) (dbgtl : DBG) : Bool :=
  on ≠ 0 && dbgtl.status = .ondis && dbgtl.dbgswbuf.isSome

/-- A call of `dbgswitch` in the frame `dbgtl`. -/
structure Turns (on : Int) (dbgtl : DBG) (below : List DBG) (s s' : State) : Prop where
  stack : s.thrd.stack = dbgtl :: below
  stack' : ∃ top, s'.thrd.stack = top :: below ∧ top.addr = dbgtl.addr ∧
    top.funcname = dbgtl.funcname
  dbglvl : s'.thrd.dbglvl = s.thrd.dbglvl + if dbgtl.switchesOn on then 1 else 0
  prints : Prints (if dbgtl.switchesOn on then [.entry dbgtl.addr] else []) s.g.log s'.g.log
  mallocs : s'.thrd.mallocs = s.thrd.mallocs

theorem dbgswitch_turns {on : Int} {s : State} {r : Bool × State}
    (h : dbgswitch on s = .ok r) : ∃ dbgtl below, Turns on dbgtl below s r.2 := by
  unfold dbgswitch at h
  split at h
  · cases h
  rename_i dbgtl below stack
  cases h
  refine ⟨dbgtl, below, ?_⟩
  have silent (t : State) (top : DBG) (same : dbgtl.switchesOn on = false)
      (stack' : t.thrd.stack = top :: below) (addr : top.addr = dbgtl.addr)
      (funcname : top.funcname = dbgtl.funcname) (dbglvl : t.thrd.dbglvl = s.thrd.dbglvl)
      (mallocs : t.thrd.mallocs = s.thrd.mallocs) (prints : Prints [] s.g.log t.g.log) :
      Turns on dbgtl below s t :=
    ⟨stack, ⟨top, stack', addr, funcname⟩, by simp [same, dbglvl], by simpa [same], mallocs⟩
  dsimp only
  by_cases zero : on = 0
  · have same : dbgtl.switchesOn on = false := by simp [DBG.switchesOn, zero]
    rw [if_neg (by simpa using zero)]
    split
    · exact silent _ _ same rfl rfl rfl rfl rfl (.nothing _)
    · exact silent _ _ same stack rfl rfl rfl rfl (.nothing _)
  rw [if_pos zero]
  by_cases ondis : dbgtl.status = .ondis
  · rw [if_pos ondis]
    cases kept : dbgtl.dbgswbuf with
    | none =>
      have same : dbgtl.switchesOn on = false := by simp [DBG.switchesOn, kept]
      exact silent _ _ same rfl rfl rfl rfl rfl (.nothing _)
    | some chars =>
      have turned : dbgtl.switchesOn on := by simp [DBG.switchesOn, zero, ondis, kept]
      exact ⟨stack, ⟨_, rfl, rfl, rfl⟩, by rw [turned]; rfl, by rw [turned]; exact ⟨[_], rfl, rfl⟩,
        rfl⟩
  have same : dbgtl.switchesOn on = false := by simp [DBG.switchesOn, ondis]
  rw [if_neg ondis]
  split
  · exact silent _ _ same rfl rfl rfl rfl rfl (.nothing _)
  split
  · exact silent _ _ same stack rfl rfl rfl rfl (.warnings _ [_])
  · exact silent _ _ same stack rfl rfl rfl rfl (.nothing _)

/-! ## Jumps -/

/-- The frames that a jump to this frame pops, and those that it leaves. -/
def popped (target : Option Nat) (stack : List DBG) : List DBG :=
  stack.takeWhile fun dbg => target ≠ some dbg.addr

def kept (target : Option Nat) (stack : List DBG) : List DBG :=
  stack.dropWhile fun dbg => target ≠ some dbg.addr

/-- A jump has popped the frames above its target. -/
structure Unwinds (target : Option Nat) (stack : List DBG) (s s' : State) : Prop where
  stack' : s'.thrd.stack = kept target stack
  dbglvl : s'.thrd.dbglvl = s.thrd.dbglvl - (popped target stack).length
  prints : ∃ lines, Prints lines s.g.log s'.g.log ∧
    ∀ line ∈ lines, ∃ dbg ∈ popped target stack, line = .leave dbg.addr
  jmps : s'.thrd.jmps = s.thrd.jmps
  mallocs : s'.thrd.mallocs = s.thrd.mallocs

/-- A popped frame, and the line that is printed for it. -/
theorem Unwinds.cons {target : Option Nat} {dbg : DBG} {below : List DBG} {s t u : State}
    {lines : List Line} (other : target ≠ some dbg.addr) (thrd : t.thrd = s.thrd)
    (prints : Prints lines s.g.log t.g.log) (about : ∀ line ∈ lines, line = .leave dbg.addr)
    (h : Unwinds target below (t.setLvl (t.thrd.dbglvl - 1)) u) :
    Unwinds target (dbg :: below) s u := by
  obtain ⟨lines', prints', about'⟩ := h.prints
  have popped' : popped target (dbg :: below) = dbg :: popped target below := by
    simp [popped, other]
  refine ⟨?_, ?_, ⟨lines ++ lines', prints.trans prints', ?_⟩, ?_, ?_⟩
  · rw [h.stack', kept, kept, List.dropWhile_cons_of_pos (by simpa using other)]
  · rw [h.dbglvl, popped', List.length_cons]
    simp only [State.setLvl, thrd]
    omega
  · intro line hl
    rw [popped']
    rcases List.mem_append.1 hl with hl | hl
    · exact ⟨dbg, List.mem_cons_self, about line hl⟩
    · obtain ⟨dbg', hd, about'⟩ := about' line hl
      exact ⟨dbg', List.mem_cons_of_mem _ hd, about'⟩
  · exact h.jmps.trans (by rw [State.setLvl, thrd])
  · exact h.mallocs.trans (by rw [State.setLvl, thrd])

theorem unwind_unwinds (target : Option Nat) (stack : List DBG) (s : State) :
    Unwinds target stack s (unwind target stack s) := by
  induction stack generalizing s with
  | nil =>
    exact ⟨rfl, by simp [popped, unwind, State.setStack], ⟨[], .nothing _, by simp⟩, rfl, rfl⟩
  | cons dbg below ih =>
    unfold unwind
    by_cases there : target = some dbg.addr
    · rw [if_pos there]
      exact ⟨by simp [kept, there, State.setStack], by simp [popped, there, State.setStack],
        ⟨[], .nothing _, by simp⟩, rfl, rfl⟩
    · rw [if_neg there]
      dsimp only
      split
      · refine .cons there ?_ (?_ : Prints [.leave dbg.addr] _ _) (by simp) (ih _)
        · rfl
        · exact ⟨[_], rfl, rfl⟩
      · exact .cons there rfl (.nothing _) (by simp) (ih _)

theorem dlongjmp_adjusts {env : Nat} {c : Call} {s s' : State} (h : dlongjmp env c s = .ok s')
    (empty : s.thrd.stack = []) : Adjusts s s' ∧ s'.thrd.stack = [] := by
  unfold dlongjmp at h
  dsimp only at h
  split at h
  · cases h
    exact ⟨(Adjusts.setNestmode s _).trans (.warn _ _), empty⟩
  · rename_i dbgtl below stack
    exact absurd (stack.symm.trans empty) (by simp)

theorem dlongjmp_unwinds {env : Nat} {c : Call} {s s' : State} (h : dlongjmp env c s = .ok s')
    (inside : s.thrd.stack ≠ []) : ∃ jb, s.thrd.jmps.find? (fun jb => jb.env == env) = some jb ∧
      Unwinds jb.dbg s.thrd.stack s s' := by
  unfold dlongjmp at h
  dsimp only at h
  split at h
  · rename_i empty
    exact absurd empty inside
  rename_i dbgtl below stack
  replace stack : s.thrd.stack = dbgtl :: below := stack
  split at h
  · cases h
  split at h
  · cases h
  rename_i jb found
  refine ⟨jb, found, ?_⟩
  rw [stack]
  suffices unwound : Unwinds jb.dbg (dbgtl :: below) (s.setNestmode true) s' from
    ⟨unwound.stack', unwound.dbglvl, unwound.prints, unwound.jmps, unwound.mallocs⟩
  split at h
  · split at h
    · rename_i there
      cases h
      exact ⟨by simpa [kept, there, State.print, State.setNestmode] using stack,
        by simp [popped, there, State.print, State.setNestmode],
        ⟨[], ⟨[_], rfl, rfl⟩, by simp⟩, rfl, rfl⟩
    · rename_i there
      cases h
      refine .cons there ?_ (?_ : Prints [.leave dbgtl.addr] _ _) (by simp) (unwind_unwinds ..)
      · rfl
      · exact ⟨[_], rfl, rfl⟩
  · cases h
    exact unwind_unwinds ..

/-! ## Fixed inputs -/

/-- Every file can be opened, and new memory is zero. -/
def Env.zero : Env := ⟨fun _ _ => true, fun _ => ⟨0, [], none, .off, 0, false, false, 0, 0, none⟩⟩

def Unset.zero : Unset := ⟨[], [], ⟨[], 0, 0, false, false, 0, .off, 0, none, DList.empty⟩⟩

/-- A program that has started, with a thread that has not used the debugger. -/
def State.initial (dbgfp : Stream) : State where
  g := ⟨false, 0, false, DBG_DTSTOFF, DBG_DTSTOFF, DList.empty, DList.empty, []⟩
  thrd := ⟨0, 1, true, 0, [], [], dbgfp, 0⟩

def Call.of (s : String) : Call := ⟨text s, [], text s⟩

end UnixProgramming.Dbg
