import UnixProgramming.Dbg.Effects

/-!
# Redirected output

The stream of a thread against the functions that are active: the file of the
innermost one whose command redirects, or the stream from before the first.

* `step_follows`: which returns keep them equal;
* `redirection`: so the runs that do;
* `stderr_breaks`: a thread whose stream was `stderr`.
-/

namespace UnixProgramming.Dbg

open Runs
open Ssl (Byte)
open Heap (DList)

/-! ## The functions that are active -/

/-- With, for each active function, the output of the command that fired for it,
and the stream from before the outermost of them. -/
structure Watched where
  s : State
  active : List (Option Nat)
  base : Stream

/-- The output of the command that fires when this call is made. -/
def State.ownOut (s : State) (c : Call) : Option Nat :=
  match edbgName c with
  | .ok funcname => (firing (findCmd s.g.cmds funcname) (funcname :: s.chain)).bind DBGCMD.dbgout
  | .error _ => none

/-- A function returns only if one is active. -/
def watchedStep (env : Env) (w : Watched) (a : Act) : Option Watched :=
  match a with
  | .edbg c => (step env w.s a).map fun s =>
    ⟨s, w.s.ownOut c :: w.active, if w.active = [] then w.s.thrd.dbgfp else w.base⟩
  | .rdbg _ =>
    if w.active = [] then none else (step env w.s a).map fun s => ⟨s, w.active.tail, w.base⟩
  | _ => none

/-- The output of the innermost function that redirects. -/
def innermost (active : List (Option Nat)) : Option Nat := active.findSome? id

@[simp] theorem innermost_nil : innermost [] = none := rfl
@[simp] theorem innermost_none (active : List (Option Nat)) :
    innermost (none :: active) = innermost active := rfl
@[simp] theorem innermost_some (a : Nat) (active : List (Option Nat)) :
    innermost (some a :: active) = some a := rfl

/-- While a function is active, the stream is the file of the innermost one that
redirects, or the stream from before. -/
def Follows (w : Watched) : Prop :=
  w.active ≠ [] →
    match innermost w.active with
    | some a => fileOf w.s.g.outs a = some w.s.thrd.dbgfp
    | none => w.s.thrd.dbgfp = w.base

/-- Where a function that redirects returns to functions that do not, the stream
before them was `stdout`. -/
def Restores (w : Watched) : Act → Prop
  | .rdbg _ =>
    match w.active with
    | some _ :: rest => rest ≠ [] → innermost rest = none → w.base = .stdout
    | _ => True
  | _ => True

/-! ## Frames -/

/-- The output of each frame is that of the innermost function up to it, and
below them that of a frame that has stayed behind its return. -/
inductive Tracks (bottom : List DBG) : List DBG → List (Option Nat) → Prop where
  | nil : Tracks bottom bottom []
  | cons {stack : List DBG} {active : List (Option Nat)} {dbg : DBG} {own : Option Nat}
      (below : Tracks bottom stack active)
      (dbgout : dbg.dbgout = (innermost (own :: active)).or (bottom.head?.bind DBG.dbgout)) :
      Tracks bottom (dbg :: stack) (own :: active)

theorem Tracks.head {bottom stack : List DBG} {active : List (Option Nat)}
    (h : Tracks bottom stack active) :
    stack.head?.bind DBG.dbgout = (innermost active).or (bottom.head?.bind DBG.dbgout) := by
  cases h with
  | nil => rfl
  | cons below dbgout => exact dbgout

theorem processed_dbgout (d : Option DBGCMD) (chain : List (List Byte)) (prv : Option DBG)
    (dbgtl : DBG) : (processed d chain prv dbgtl).dbgout =
      ((firing d chain).bind DBGCMD.dbgout).or (prv.bind DBG.dbgout) := by
  cases d with
  | none =>
    cases prv with
    | none => rfl
    | some prv =>
      by_cases mode : prv.inherit
      · simp [processed, inherited, mode, firing]
      · simp [processed, inherited, mode, firing, rejected]
  | some d =>
    by_cases out : rejects d chain
    · simp [processed, firing, out, rejected, Option.filter]
    · cases own : d.dbgout <;> simp [processed, firing, out, fired, Option.filter, own]

/-! ## Files -/

/-- The same outputs, with all files open in the second that are in the first. -/
structure Within (outs outs' : DList DBGOUT) : Prop where
  names : ∀ a, (outs.val? a).map DBGOUT.filename = (outs'.val? a).map DBGOUT.filename
  opened : ∀ a fp, fileOf outs a = some fp → fileOf outs' a = some fp

theorem Within.refl (outs : DList DBGOUT) : Within outs outs := ⟨fun _ => rfl, fun _ _ => id⟩

theorem Within.trans {outs outs' outs'' : DList DBGOUT} (h : Within outs outs')
    (h' : Within outs' outs'') : Within outs outs'' :=
  ⟨fun a => (h.names a).trans (h'.names a), fun a fp o => h'.opened a fp (h.opened a fp o)⟩

theorem names_openAs (outs : DList DBGOUT) (a : Nat) (fp : Stream) (b : Nat) :
    ((openAs outs a fp).val? b).map DBGOUT.filename = (outs.val? b).map DBGOUT.filename := by
  by_cases same : b = a
  · rw [same, openAs, DList.val?_modify_self, Option.map_map]
    rfl
  · rw [openAs, DList.val?_modify_ne _ _ same]

/-- A file is opened that was not. -/
theorem Within.grow {outs outs' : DList DBGOUT} {a : Nat} {dbgout : DBGOUT}
    (h : Within outs outs') (there : outs'.val? a = some dbgout) (closed : dbgout.fp = none)
    (fp : Stream) : Within outs (openAs outs' a fp) where
  names b := (h.names b).trans (names_openAs outs' a fp b).symm
  opened b fp' opened := by
    have opened' := h.opened b fp' opened
    rw [fileOf_openAs there]
    split
    · rename_i same
      rw [same, fileOf, there, Option.bind_some, closed] at opened'
      cases opened'
    · exact opened'

theorem redirect_grows {env : Env} {d : DBGCMD} {s t : State} (h : redirect env d s = .ok t) :
    Within s.g.outs t.g.outs := by
  cases redirect_redirects h with
  | nowhere => exact .refl _
  | again => exact .refl _
  | opens ws own there closed => exact (Within.refl _).grow there closed _

theorem redirectFiring_grows {env : Env} {d : Option DBGCMD} {s t : State}
    (h : redirectFiring env d s = .ok t) : Within s.g.outs t.g.outs := by
  cases d with
  | none =>
    cases h
    exact .refl _
  | some d => exact redirect_grows h

/-- Redirecting opens the file. -/
theorem redirectFiring_opens {env : Env} {d : Option DBGCMD} {s t : State}
    (h : redirectFiring env d s = .ok t) :
    (∀ a ∈ d.bind DBGCMD.dbgout, fileOf t.g.outs a = some t.thrd.dbgfp) ∧
      (d.bind DBGCMD.dbgout = none → t.thrd.dbgfp = s.thrd.dbgfp ∧ t.g.outs = s.g.outs) := by
  cases d with
  | none =>
    cases h
    simp
  | some d =>
    rw [Option.bind_some]
    cases redirect_redirects h with
    | nowhere own => simp [own]
    | again own there opened =>
      refine ⟨fun a ha => ?_, by simp [own]⟩
      obtain rfl := Option.some.inj (own.symm.trans ha)
      exact (congrArg (Option.bind · DBGOUT.fp) there).trans opened
    | opens ws own there =>
      refine ⟨fun a ha => ?_, by simp [own]⟩
      obtain rfl := Option.some.inj (own.symm.trans ha)
      exact (fileOf_openAs there _ _).trans (if_pos rfl)

/-! ## Steps -/

/-- What holds between calls: the frames are those of the active functions, on
nothing or on the frame of a function that has returned, without any command;
and the files of the functions that redirect are open. -/
structure Tracked (w : Watched) : Prop where
  tracks : ∃ bottom, Tracks bottom w.s.thrd.stack w.active ∧
    (bottom = [] ∨ (∃ stale, bottom = [stale]) ∧ w.s.g.cmds.hd = none ∧ innermost w.active = none)
  opened : ∀ a, some a ∈ w.active → ∃ fp, fileOf w.s.g.outs a = some fp

theorem findCmd_empty {cmds : DList DBGCMD} (empty : cmds.hd = none) (funcname : List Byte) :
    findCmd cmds funcname = none := by
  rw [findCmd, DList.find, empty]
  cases cmds.brk <;> rfl

theorem innermost_cons (own : Option Nat) (active : List (Option Nat)) :
    innermost (own :: active) = own.or (innermost active) := by
  cases own <;> rfl

theorem innermost_mem {active : List (Option Nat)} {a : Nat} (h : innermost active = some a) :
    some a ∈ active := by
  obtain ⟨own, mem, same⟩ := List.exists_of_findSome?_eq_some h
  exact (show own = some a from same) ▸ mem

section
variable {env : Env} {w : Watched} {s' : State}

/-- What `edbg` does to the stream. -/
theorem Enters.opens {c : Call} {funcname : List Byte} {top : DBG}
    (h : Enters env funcname top w.s s') (name : edbgName c = .ok funcname) :
    (∀ a ∈ w.s.ownOut c, fileOf s'.g.outs a = some s'.thrd.dbgfp) ∧
      (w.s.ownOut c = none → s'.thrd.dbgfp = w.s.thrd.dbgfp ∧ s'.g.outs = w.s.g.outs) ∧
      ∀ b fp, fileOf w.s.g.outs b = some fp → fileOf s'.g.outs b = some fp := by
  obtain ⟨t, redirected, dbgfp, outs⟩ := h.redirects
  obtain ⟨opens, unchanged⟩ := redirectFiring_opens redirected
  rw [State.ownOut, name, dbgfp, outs]
  exact ⟨opens, unchanged, (redirectFiring_grows redirected).opened⟩

theorem Enters.tracked {c : Call} {funcname : List Byte} {top : DBG} {base : Stream}
    (h : Enters env funcname top w.s s') (name : edbgName c = .ok funcname) (tracked : Tracked w) :
    Tracked ⟨s', w.s.ownOut c :: w.active, base⟩ := by
  obtain ⟨opens, -, stays⟩ := h.opens name
  have own : w.s.ownOut c =
      (firing (findCmd w.s.g.cmds funcname) (funcname :: w.s.chain)).bind DBGCMD.dbgout := by
    rw [State.ownOut, name]
  obtain ⟨bottom, tracks, phase⟩ := tracked.tracks
  refine ⟨⟨bottom, ?_, ?_⟩, ?_⟩
  · rw [h.stack]
    refine .cons tracks ?_
    have dbgout := congrArg DBG.dbgout h.settings
    change top.dbgout = _ at dbgout
    rw [dbgout, processed_dbgout, tracks.head, innermost_cons, own, Option.or_assoc]
  · rcases phase with empty | ⟨stale, none', unredirected⟩
    · exact .inl empty
    · refine .inr ⟨stale, h.cmds ▸ none', ?_⟩
      rw [own, findCmd_empty none']
      exact unredirected
  · intro a mem
    rcases List.mem_cons.1 mem with same | mem
    · exact ⟨_, opens a same.symm⟩
    · obtain ⟨fp, opened⟩ := tracked.opened a mem
      exact ⟨fp, stays a fp opened⟩

theorem Enters.follows {c : Call} {funcname : List Byte} {top : DBG}
    (h : Enters env funcname top w.s s') (name : edbgName c = .ok funcname) (follows : Follows w) :
    Follows ⟨s', w.s.ownOut c :: w.active,
      if w.active = [] then w.s.thrd.dbgfp else w.base⟩ := by
  obtain ⟨opens, unchanged, -⟩ := h.opens name
  intro _
  dsimp only
  cases own : w.s.ownOut c with
  | some a => exact opens a own
  | none =>
    obtain ⟨dbgfp, outs⟩ := unchanged own
    rw [innermost_none]
    by_cases first : w.active = []
    · rw [first, if_pos rfl]
      exact dbgfp
    · rw [if_neg first, outs, dbgfp]
      exact follows first

/-- What is tracked when a function returns. -/
theorem Leaves.tracked {dbgtl : DBG} {below : List DBG} {own : Option Nat}
    {rest : List (Option Nat)} {base : Stream} (h : Leaves dbgtl below w.s s')
    (active : w.active = own :: rest) (tracked : Tracked w) : Tracked ⟨s', rest, base⟩ := by
  obtain ⟨bottom, tracks, phase⟩ := tracked.tracks
  rw [h.stack, active] at tracks
  cases tracks with
  | cons tracks dbgout =>
    by_cases last : below = []
    · -- the outermost frame stays, without commands
      have stack' : s'.thrd.stack = [dbgtl] := by rw [h.stack', if_pos last]
      rw [last] at tracks
      cases tracks with
      | nil =>
        refine ⟨⟨[dbgtl], ?_, .inr ⟨⟨dbgtl, rfl⟩, h.emptied last, rfl⟩⟩, by simp⟩
        rw [stack']
        exact .nil
    · have stack' : s'.thrd.stack = below := by rw [h.stack', if_neg last]
      refine ⟨⟨bottom, by rwa [stack'], ?_⟩, fun a mem => ?_⟩
      · rcases phase with empty | ⟨stale, none', unredirected⟩
        · exact .inl empty
        · rw [active, innermost_cons, Option.or_eq_none_iff] at unredirected
          exact .inr ⟨stale, by rw [h.cmds last]; exact none', unredirected.2⟩
      · rw [h.outs last]
        exact tracked.opened a (by rw [active]; exact List.mem_cons_of_mem _ mem)

/-- The stream when a function returns. -/
theorem Leaves.follows_iff {dbgtl : DBG} {below : List DBG} {own : Option Nat}
    {rest : List (Option Nat)} (h : Leaves dbgtl below w.s s') (active : w.active = own :: rest)
    (tracked : Tracked w) (follows : Follows w) (c : Call) :
    Follows ⟨s', rest, w.base⟩ ↔ Restores w (.rdbg c) := by
  by_cases last : rest = []
  · refine iff_of_true (fun inner => absurd last inner) ?_
    rw [Restores, active]
    cases own with
    | none => trivial
    | some a => exact fun inner => absurd last inner
  obtain ⟨bottom, tracks, phase⟩ := tracked.tracks
  rw [h.stack, active] at tracks
  replace follows := follows (by rw [active]; simp)
  rw [active] at follows
  cases tracks with
  | cons tracks dbgout =>
    -- the calling function's frame
    obtain ⟨prv, below', rfl⟩ : ∃ prv below', below = prv :: below' := by
      cases tracks with
      | nil => exact absurd rfl last
      | cons tracks' _ => exact ⟨_, _, rfl⟩
    have prv' : prv.dbgout = (innermost rest).or (bottom.head?.bind DBG.dbgout) := tracks.head
    have dbgfp := h.restores prv rfl
    have outs := h.outs (by simp)
    cases own with
    | none =>
      have same : dbgtl.dbgout = prv.dbgout := by rw [dbgout, prv', innermost_none]
      rw [if_neg (by simpa using same)] at dbgfp
      refine iff_of_true (fun _ => ?_) (by rw [Restores, active]; trivial)
      dsimp only
      rw [outs, dbgfp]
      exact follows
    | some a =>
      have empty : bottom = [] := by
        rcases phase with empty | ⟨-, -, unredirected⟩
        · exact empty
        · rw [active] at unredirected
          cases unredirected
      rw [empty, List.head?_nil, Option.bind_none, Option.or_none] at dbgout prv'
      rw [dbgout, prv', innermost_some] at dbgfp
      have restores : Restores w (.rdbg c) ↔ (innermost rest = none → w.base = .stdout) := by
        rw [Restores, active]
        exact ⟨fun h => h last, fun h _ => h⟩
      rw [restores]
      unfold Follows
      dsimp only
      cases caller : innermost rest with
      | none =>
        rw [caller] at dbgfp
        simp [last, dbgfp, eq_comm]
      | some a' =>
        obtain ⟨fp, opened⟩ := tracked.opened a' (by simp [active, innermost_mem caller])
        refine iff_of_true (fun _ => ?_) (fun none' => nomatch none')
        dsimp only
        rw [caller] at dbgfp
        rw [outs, dbgfp]
        by_cases same : a = a'
        · rw [if_neg (by simpa using same), ← same]
          exact follows
        · have file : ((some a').bind w.s.g.outs.val?).bind DBGOUT.fp = some fp := opened
          rw [if_pos (by simpa using same), file, opened]
          rfl

end

/-- **Step.** Behind a call the stream is still the right one exactly if, where
the call is a return, it restores it. -/
theorem step_follows {env : Env} {w w' : Watched} {a : Act} (tracked : Tracked w)
    (follows : Follows w) (h : watchedStep env w a = some w') :
    (Follows w' ↔ Restores w a) ∧ Tracked w' := by
  unfold watchedStep at h
  split at h
  · rename_i c
    obtain ⟨s', hs, rfl⟩ := Option.map_eq_some_iff.1 h
    obtain ⟨funcname, top, name, enters⟩ := edbg_enters (toOption_some hs)
    exact ⟨iff_of_true (enters.follows name follows) trivial, enters.tracked name tracked⟩
  · rename_i c
    split at h
    · cases h
    · rename_i active
      obtain ⟨s', hs, rfl⟩ := Option.map_eq_some_iff.1 h
      obtain ⟨dbgtl, below, -, leaves⟩ := rdbg_leaves (toOption_some hs)
      obtain ⟨own, rest, active⟩ := List.exists_cons_of_ne_nil active
      rw [active, List.tail_cons]
      exact ⟨leaves.follows_iff active tracked follows c, leaves.tracked active tracked⟩
  · cases h

/-- **Redirection.** In the runs of calls and returns in which every return
restores, and only in these, the stream is in every state that of the innermost
active function that redirects, or the one from before the outermost. -/
theorem redirection {env : Env} {s : State} {acts : List Act} {base : Stream}
    (start : s.thrd.stack = []) :
    Always (watchedStep env) Follows ⟨s, [], base⟩ acts ↔
      Along (watchedStep env) Restores ⟨s, [], base⟩ acts := by
  have fresh : Follows ⟨s, [], base⟩ := fun inner => absurd rfl inner
  have tracked : Tracked ⟨s, [], base⟩ :=
    ⟨⟨[], by rw [start]; exact .nil, .inl rfl⟩, by simp⟩
  have steps : Throughout (watchedStep env) (fun _ _ w' => Follows w') ⟨s, [], base⟩ acts ↔
      Along (watchedStep env) Restores ⟨s, [], base⟩ acts :=
    throughout_iff (A := fun _ => True) (I := fun w => Tracked w ∧ Follows w)
      (fun _ _ _ _ hw h => (step_follows hw.1 hw.2 h).1)
      (fun _ _ _ _ hw h right => ⟨(step_follows hw.1 hw.2 h).2, right⟩)
      (fun _ _ => trivial) ⟨tracked, fresh⟩
  exact ⟨fun h => steps.1 h.2, fun h => ⟨fresh, steps.2 h⟩⟩

/-- A function with a file of its own in one that prints on `stdout`. -/
theorem redirection_main : ∃ s,
    run (step .zero) (.initial .stdout) [.initdbg3 .zero (text "on main"),
      .initdbg3 .zero (text "on f > log")] = some s ∧
    Always (watchedStep .zero) Follows ⟨s, [], .stdout⟩
      [.edbg (.of "main()"), .edbg (.of "f(x)"), .rdbg (.of "f")] := by
  refine ⟨_, rfl, (redirection rfl).2 fun w h => ⟨trivial, ?_⟩⟩
  cases h
  refine fun w h => ⟨trivial, ?_⟩
  cases h
  exact fun w h => ⟨fun _ _ => rfl, trivial⟩

/-- Without `initdbg` the stream of a thread is `stderr`; after a function with
a file of its own it is `stdout`. -/
theorem stderr_breaks : ∃ s w,
    run (step .zero) (.initial .stderr) [.initdbg3 .zero (text "on main"),
      .initdbg3 .zero (text "on f > log")] = some s ∧ s.thrd.stack = [] ∧
    run (watchedStep .zero) ⟨s, [], .stderr⟩
      [.edbg (.of "main()"), .edbg (.of "f(x)"), .rdbg (.of "f")] = some w ∧
    w.active = [none] ∧ w.base = .stderr ∧ w.s.thrd.dbgfp = .stdout ∧ ¬ Follows w := by
  refine ⟨_, _, rfl, rfl, rfl, rfl, rfl, rfl, fun follows => ?_⟩
  have same : Stream.stdout = Stream.stderr := follows (by decide)
  cases same

end UnixProgramming.Dbg
