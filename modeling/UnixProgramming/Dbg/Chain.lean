import UnixProgramming.Dbg.Effects

/-!
# Settings and the call chain

The settings of a frame as a function of the command database and the names of
the functions from the outermost to this one.

* `processed_settings`: of the calling frame only the settings matter;
* `chain_settings`: the settings of the frame that a history ends in.
-/

namespace UnixProgramming.Dbg

open Runs
open Ssl (Byte)
open Heap (DList)

/-- What `edbg2` decides about a frame. The detail level counts only where
debugging is on, if disabled or not. -/
structure Settings where
  status : Status
  inherit : Bool
  dbgdfl : Bool
  dtst1 : Int
  dtst2 : Int
  dbgout : Option Nat
  detail : Option Int
  deriving DecidableEq

def DBG.settings (dbg : DBG) : Settings where
  status := dbg.status
  inherit := dbg.inherit
  dbgdfl := dbg.dbgdfl
  dtst1 := dbg.dtst1
  dtst2 := dbg.dtst2
  dbgout := dbg.dbgout
  detail := if dbg.status = .on ∨ dbg.status = .ondis then some dbg.detail else none

/-! ## The calling frame -/

section
variable {prv prv' : Option DBG} {dbgtl dbgtl' : DBG}

/-- Two calling frames with the same settings are alike in all but the detail. -/
theorem settings_alike (same : prv.map DBG.settings = prv'.map DBG.settings) :
    prv.map DBG.status = prv'.map DBG.status ∧ prv.map DBG.inherit = prv'.map DBG.inherit ∧
      prv.map DBG.dbgdfl = prv'.map DBG.dbgdfl ∧ prv.map DBG.dtst1 = prv'.map DBG.dtst1 ∧
      prv.map DBG.dtst2 = prv'.map DBG.dtst2 ∧ prv.bind DBG.dbgout = prv'.bind DBG.dbgout := by
  cases prv <;> cases prv' <;> simp_all [DBG.settings]

/-- They have the same detail if debugging is on. -/
theorem settings_detail (same : prv.map DBG.settings = prv'.map DBG.settings) {status : Status}
    (here : prv.map DBG.status = some status) (active : status = .on ∨ status = .ondis) :
    prv.map DBG.detail = prv'.map DBG.detail := by
  cases prv <;> cases prv' <;> simp_all [DBG.settings]

theorem rejected_settings (same : prv.map DBG.settings = prv'.map DBG.settings) :
    (rejected prv dbgtl).settings = (rejected prv' dbgtl').settings := by
  obtain ⟨-, -, dbgdfl, -, -, dbgout⟩ := settings_alike same
  simp [DBG.settings, rejected, dbgdfl, dbgout]

theorem inherited_settings (same : prv.map DBG.settings = prv'.map DBG.settings) :
    (inherited prv dbgtl).settings = (inherited prv' dbgtl').settings := by
  cases prv with
  | none =>
    cases prv' with
    | none => rfl
    | some p' => cases same
  | some p =>
    cases prv' with
    | none => cases same
    | some p' =>
      obtain ⟨status, inherit, dbgdfl, dtst1, dtst2, dbgout⟩ := settings_alike same
      have detail : p.status = .on → p.detail = p'.detail := fun on =>
        Option.some.inj (settings_detail same (congrArg some on) (.inl rfl))
      simp only [Option.map_some, Option.some.injEq, Option.bind_some] at *
      by_cases mode : p.inherit
      · simp only [inherited, if_pos mode, DBG.settings, ← status, ← inherit, ← dbgdfl, ← dtst1,
          ← dtst2, ← dbgout]
        cases on : p.status <;> simp [on, detail]
      · have mode' : ¬ p'.inherit := inherit ▸ mode
        simp [inherited, if_neg mode, if_neg mode', DBG.settings, rejected, dbgout]

theorem fired_settings (d : DBGCMD) (same : prv.map DBG.settings = prv'.map DBG.settings) :
    (fired d prv dbgtl).settings = (fired d prv' dbgtl').settings := by
  obtain ⟨status, inherit, -, dtst1, dtst2, dbgout⟩ := settings_alike same
  simp only [DBG.settings, fired, ← status, ← inherit, ← dtst1, ← dtst2, ← dbgout]
  congr 1
  by_cases keep : d.status = .keep
  · -- the status is that of the calling frame, and so is the detail
    simp only [keep, reduceCtorEq, if_true, if_false]
    cases here : prv.map DBG.status with
    | none => simp
    | some st =>
      by_cases active : st = .on ∨ st = .ondis
      · simp [active, settings_detail same here active]
      · simp [active]
  · simp only [if_neg keep]

end

/-! ## The whole chain -/

/-- A frame for the function that this chain of calls leads to. -/
def chainFrame (cmds : DList DBGCMD) : List (List Byte) → Option DBG
  | [] => none
  | funcname :: chain =>
    some (processed (findCmd cmds funcname) (funcname :: chain) (chainFrame cmds chain)
      ⟨0, funcname, none, .off, 0, false, false, 0, 0, none⟩)

/-- The settings that a chain of calls leads to; the current function is first. -/
def settingsOf (cmds : DList DBGCMD) (chain : List (List Byte)) : Option Settings :=
  (chainFrame cmds chain).map DBG.settings

/-- **One frame.** Of the calling frame only the settings matter, and of the
memory that the frame is made of nothing. -/
theorem processed_settings (d : Option DBGCMD) (chain : List (List Byte)) {prv prv' : Option DBG}
    (same : prv.map DBG.settings = prv'.map DBG.settings) (dbgtl dbgtl' : DBG) :
    (processed d chain prv dbgtl).settings = (processed d chain prv' dbgtl').settings := by
  unfold processed
  split
  · exact inherited_settings same
  · split
    · exact rejected_settings same
    · exact fired_settings _ same

/-- Each frame has the settings that its chain leads to. -/
def ChainRight (cmds : DList DBGCMD) (stack : List DBG) : Prop :=
  ∀ rest, rest <:+ stack → rest.head?.map DBG.settings = settingsOf cmds (rest.map DBG.funcname)

theorem Enters.chainRight {env : Env} {funcname : List Byte} {top : DBG} {s s' : State}
    (h : Enters env funcname top s s') (right : ChainRight s.g.cmds s.thrd.stack) :
    ChainRight s'.g.cmds s'.thrd.stack := by
  intro rest suffix
  rw [h.stack, List.suffix_cons_iff] at suffix
  rw [h.cmds]
  rcases suffix with rfl | suffix
  · have prv := right s.thrd.stack (List.suffix_refl _)
    have settings := congrArg DBG.settings h.settings
    change top.settings = _ at settings
    rw [List.head?_cons, Option.map_some, settings, List.map_cons, h.funcname]
    exact congrArg some (processed_settings _ _ prv _ _)
  · exact right rest suffix

/-! ## Histories -/

def Act.edbgRdbg : Act → Prop
  | .edbg _ => True
  | .rdbg _ => True
  | _ => False

/-- The outermost function does not return. -/
def Inner (s : State) : Act → Prop
  | .rdbg _ => 2 ≤ s.thrd.stack.length
  | _ => True

instance (s : State) : (a : Act) → Decidable (Inner s a)
  | .rdbg _ => inferInstanceAs (Decidable (2 ≤ s.thrd.stack.length))
  | .edbg _ | .dprintf _ _ | .dbgswitch _ | .initdbg3 _ _ | .dsetjmp _ | .dlongjmp _ _ =>
    isTrue trivial

theorem step_chainRight {env : Env} {s s' : State} {a : Act} (call : a.edbgRdbg)
    (inner : Inner s a) (h : step env s a = some s') (right : ChainRight s.g.cmds s.thrd.stack) :
    s'.g.cmds = s.g.cmds ∧ ChainRight s'.g.cmds s'.thrd.stack := by
  have ok := toOption_some h
  cases a with
  | edbg c =>
    obtain ⟨funcname, top, -, enters⟩ := edbg_enters ok
    exact ⟨enters.cmds, enters.chainRight right⟩
  | rdbg c =>
    obtain ⟨dbgtl, below, -, leaves⟩ := rdbg_leaves ok
    have called : below ≠ [] := by
      rintro rfl
      simp [Inner, leaves.stack] at inner
    have stack' : s'.thrd.stack = below := by rw [leaves.stack', if_neg called]
    rw [leaves.cmds called, stack']
    refine ⟨rfl, fun rest suffix => right rest (suffix.trans ?_)⟩
    rw [leaves.stack]
    exact List.suffix_cons _ _
  | _ => exact call.elim

theorem run_chainRight {env : Env} {s s' : State} {acts : List Act}
    (calls : ∀ a ∈ acts, a.edbgRdbg) (inner : Along (step env) Inner s acts)
    (h : run (step env) s acts = some s') (right : ChainRight s.g.cmds s.thrd.stack) :
    s'.g.cmds = s.g.cmds ∧ ChainRight s'.g.cmds s'.thrd.stack := by
  induction acts generalizing s with
  | nil =>
    cases h
    exact ⟨rfl, right⟩
  | cons a acts ih =>
    obtain ⟨t, ht, h⟩ := run_cons_some h
    obtain ⟨call, calls⟩ := List.forall_mem_cons.1 calls
    obtain ⟨here, later⟩ := inner t ht
    obtain ⟨cmds, right⟩ := step_chainRight call here ht right
    obtain ⟨cmds', right'⟩ := ih calls later h right
    exact ⟨cmds'.trans cmds, right'⟩

/-- **Settings.** After every history of calls and returns in which the outermost
function has not returned, the settings of the current function are those that
the command database and the chain of the functions still active lead to. -/
theorem chain_settings {env : Env} {s s' : State} {acts : List Act} (start : s.thrd.stack = [])
    (calls : ∀ a ∈ acts, a.edbgRdbg) (inner : Along (step env) Inner s acts)
    (h : run (step env) s acts = some s') :
    s'.thrd.stack.head?.map DBG.settings = settingsOf s.g.cmds s'.chain := by
  have nothing : ChainRight s.g.cmds s.thrd.stack := by
    intro rest suffix
    rw [start, List.suffix_nil] at suffix
    rw [suffix]
    rfl
  obtain ⟨cmds, right⟩ := run_chainRight calls inner h nothing
  rw [← cmds]
  exact right _ (List.suffix_refl _)

theorem chain_settings_main : ∃ s s',
    run (step .zero) (.initial .stdout) [.initdbg3 .zero (text "on main 2"),
      .initdbg3 .zero (text "keep f :7")] = some s ∧
    run (step .zero) s [.edbg (.of "main()"), .edbg (.of "g()"), .rdbg (.of "g"),
      .edbg (.of "f(x)")] = some s' ∧
    s'.thrd.stack.head?.map DBG.settings = settingsOf s.g.cmds s'.chain ∧
    settingsOf s.g.cmds s'.chain = some ⟨.on, true, true, 7, DBG_DTSTOFF, none, some 2⟩ := by
  have h : ∀ s, run (step .zero) (.initial .stdout) [.initdbg3 .zero (text "on main 2"),
      .initdbg3 .zero (text "keep f :7")] = some s →
      Along (step .zero) Inner s [.edbg (.of "main()"), .edbg (.of "g()"), .rdbg (.of "g"),
      .edbg (.of "f(x)")] := by
    intro s hs
    cases hs
    decide
  refine ⟨_, _, rfl, rfl, ?_, ?_⟩
  · refine chain_settings rfl ?_ (h _ rfl) rfl
    simp [Act.edbgRdbg]
  · decide

end UnixProgramming.Dbg
