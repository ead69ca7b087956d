import UnixProgramming.Dbg.Redirect

/-!
# What a thread's calls depend on

The calls of a thread in two states with the same thread, of which one may have
more files open than the other.

* `redirect_alike`: a file that is open already has to be the right one;
* `edbg_alike`, `rdbg_alike`, `dprintf_alike`: so both print the same.
-/

namespace UnixProgramming.Dbg

open Ssl (Byte)
open Heap (DList)

def Out.isPrint : Out → Bool
  | .print _ _ _ => true
  | .warning _ => false
  | .fclose _ => false

/-- What is printed on the streams of the debugger. -/
def debugOutput (log : List Out) : List Out := log.filter Out.isPrint

@[simp] theorem debugOutput_append (log log' : List Out) :
    debugOutput (log ++ log') = debugOutput log ++ debugOutput log' :=
  List.filter_append ..

@[simp] theorem debugOutput_fcloses (fps : List Stream) : debugOutput (fps.map .fclose) = [] := by
  simp [debugOutput, Out.isPrint]

/-! ## Alike -/

/-- The same thread, which has printed the same. The commands and files are not
compared. -/
structure Alike (s s' : State) : Prop where
  thrd : s'.thrd = s.thrd
  marks : s'.marks = s.marks
  output : debugOutput s'.g.log = debugOutput s.g.log

/-- Where the one call goes on, the other does too, and they end up alike. -/
def Agree (r r' : Result State) : Prop := ∀ t, r = .ok t → ∃ t', r' = .ok t' ∧ Alike t t'

theorem Agree.error (e : Failure) (r : Result State) : Agree (.error e) r := by
  intro t h
  cases h

theorem Agree.ok {s s' : State} (h : Alike s s') : Agree (.ok s) (.ok s') := by
  rintro t ⟨⟩
  exact ⟨s', rfl, h⟩

theorem Agree.bind {r r' : Result State} {f f' : State → Result State} (h : Agree r r')
    (next : ∀ s s', r = .ok s → r' = .ok s' → Alike s s' → Agree (f s) (f' s')) :
    Agree (r.bind f) (r'.bind f') := by
  intro t ht
  obtain ⟨s, hs, ht⟩ := bind_ok ht
  obtain ⟨s', hs', alike⟩ := h s hs
  rw [hs']
  exact next s s' hs hs' alike t ht

theorem Agree.map {r r' : Result State} {f f' : State → State} (h : Agree r r')
    (next : ∀ s s', Alike s s' → Alike (f s) (f' s')) : Agree (r.map f) (r'.map f') := by
  intro t ht
  obtain ⟨s, hs, rfl⟩ := map_ok ht
  obtain ⟨s', hs', alike⟩ := h s hs
  rw [hs']
  exact ⟨_, rfl, next s s' alike⟩

namespace Alike

variable {s s' : State}

theorem showthrdid (h : Alike s s') : s'.g.showthrdid = s.g.showthrdid :=
  congrArg (·.2.1) h.marks

theorem drcdbgline (h : Alike s s') : s'.g.drcdbgline = s.g.drcdbgline :=
  congrArg (·.2.2.1) h.marks

theorem dbg_Nflag (h : Alike s s') : s'.g.dbg_Nflag = s.g.dbg_Nflag :=
  congrArg (·.2.2.2) h.marks

theorem refl (s : State) : Alike s s := ⟨rfl, rfl, rfl⟩

theorem symm (h : Alike s s') : Alike s' s := ⟨h.thrd.symm, h.marks.symm, h.output.symm⟩

theorem trans {s'' : State} (h : Alike s s') (h' : Alike s' s'') : Alike s s'' where
  thrd := h'.thrd.trans h.thrd
  marks := h'.marks.trans h.marks
  output := h'.output.trans h.output

theorem thrdid (h : Alike s s') : s'.thrdid = s.thrdid := by
  rw [State.thrdid, State.thrdid, h.thrd, h.showthrdid]

theorem nest (h : Alike s s') : s'.nest = s.nest := by rw [State.nest, State.nest, h.thrd]

theorem chain (h : Alike s s') : s'.chain = s.chain := by rw [State.chain, State.chain, h.thrd]

/-- Any change of the thread. -/
theorem change (h : Alike s s') (thrd : DBGTHREAD) : Alike ⟨s.g, thrd⟩ ⟨s'.g, thrd⟩ :=
  ⟨rfl, Prod.ext rfl (congrArg Prod.snd h.marks : s'.marks.2 = s.marks.2), h.output⟩

theorem print (h : Alike s s') (line : Line) {chars chars' : List Byte} (same : chars' = chars) :
    Alike (s.print line chars) (s'.print line chars') := by
  obtain rfl := same
  refine ⟨h.thrd, h.marks, ?_⟩
  simp only [State.print, debugOutput_append, h.output, h.thrd]

theorem warn (h : Alike s s') (w : Warning) : Alike (s.warn w) (s'.warn w) :=
  ⟨h.thrd, h.marks, by
    simp only [State.warn, debugOutput_append, h.output]⟩

theorem setStack (h : Alike s s') (stack : List DBG) :
    Alike (s.setStack stack) (s'.setStack stack) := by
  rw [State.setStack, State.setStack, h.thrd]
  exact h.change _

theorem setLvl (h : Alike s s') {dbglvl dbglvl' : Int} (same : dbglvl' = dbglvl) :
    Alike (s.setLvl dbglvl) (s'.setLvl dbglvl') := by
  rw [State.setLvl, State.setLvl, h.thrd, same]
  exact h.change _

theorem setFp (h : Alike s s') (fp : Stream) : Alike (s.setFp fp) (s'.setFp fp) := by
  rw [State.setFp, State.setFp, h.thrd]
  exact h.change _

/-- Warnings are not debugging output. -/
theorem redirected (s : State) (fp : Stream) (outs : DList DBGOUT) (ws : List Warning) :
    Alike (s.setFp fp) (s.redirected fp outs ws) :=
  ⟨rfl, rfl, by simp [State.redirected, State.setFp, debugOutput, Out.isPrint]⟩

theorem setNestmode (h : Alike s s') (mode : Bool) :
    Alike (s.setNestmode mode) (s'.setNestmode mode) := by
  rw [State.setNestmode, State.setNestmode, h.thrd]
  exact h.change _

theorem setDtst (h : Alike s s') (a b c d : Int) : Alike (s.setDtst a b) (s'.setDtst c d) :=
  ⟨h.thrd, h.marks, h.output⟩

end Alike

/-! ## Files -/

theorem Within.there {outs outs' : DList DBGOUT} {a : Nat} {dbgout : DBGOUT}
    (h : Within outs outs') (there : outs'.val? a = some dbgout) :
    ∃ dbgout', outs.val? a = some dbgout' ∧ dbgout'.filename = dbgout.filename := by
  have names := h.names a
  rw [there] at names
  exact Option.map_eq_some_iff.1 names

/-- The same file is opened as in the second. -/
theorem Within.open' {outs outs' : DList DBGOUT} {a : Nat} {dbgout : DBGOUT} {fp : Stream}
    (h : Within outs outs') (there : outs.val? a = some dbgout)
    (opened : fileOf outs' a = some fp) : Within (openAs outs a fp) outs' where
  names b := (names_openAs outs a fp b).trans (h.names b)
  opened b fp' opened' := by
    rw [fileOf_openAs there] at opened'
    split at opened'
    · rename_i same
      cases opened'
      rw [same]
      exact opened
    · exact h.opened b fp' opened'

/-- A command's output that is open already is the file that this thread would
have opened, or was open from the start. -/
def OwnFile (env : Env) (start outs : DList DBGOUT) (id a : Nat) : Prop :=
  ∀ dbgout fp, outs.val? a = some dbgout → dbgout.fp = some fp →
    fileOf start a = some fp ∨ opening env id a dbgout.filename = some fp

/-- **Redirecting.** It makes no difference which files others have opened, if
the one for this command is the thread's own. -/
theorem redirect_alike {env : Env} {d : Option DBGCMD} {s s' : State} {start : DList DBGOUT}
    (alike : Alike s s') (own : ∀ a ∈ d.bind DBGCMD.dbgout,
      OwnFile env start s.g.outs s.thrd.id a ∧ Within start s'.g.outs ∧ Within s'.g.outs s.g.outs)
    {t : State} (h : redirectFiring env d s = .ok t) :
    ∃ t', redirectFiring env d s' = .ok t' ∧ Alike t t' ∧
      (Within s'.g.outs s.g.outs → Within t'.g.outs t.g.outs) := by
  cases d with
  | none =>
    cases h
    exact ⟨s', rfl, alike, id⟩
  | some d =>
    cases redirect_redirects h with
    | nowhere none' => exact ⟨s', by rw [redirectFiring, redirect, none'], alike, id⟩
    | @again a dbgout fp some' there opened =>
      obtain ⟨own, start', within⟩ := own a some'
      obtain ⟨dbgout', there', name⟩ := within.there there
      cases opened' : dbgout'.fp with
      | some fp' =>
        have same : fileOf s.g.outs a = some fp' :=
          within.opened a fp' (by rw [fileOf, there', Option.bind_some, opened'])
        rw [fileOf, there, Option.bind_some, opened] at same
        cases same
        exact ⟨s'.setFp fp, by simp [redirectFiring, redirect, some', there', opened'],
          alike.setFp fp, id⟩
      | none =>
        -- not yet open in the other state
        have opens : opening env s'.thrd.id a dbgout'.filename = some fp := by
          rcases own dbgout fp there opened with early | opens
          · have := start'.opened a fp early
            rw [fileOf, there', Option.bind_some, opened'] at this
            cases this
          · rw [alike.thrd, name]
            exact opens
        obtain ⟨ws, eq⟩ := @redirect_closed env _ _ _ _ some' there' opened'
        rw [opens] at eq
        refine ⟨_, eq, ?_, fun _ => within.open' there' (by rw [fileOf]; exact there ▸ opened)⟩
        exact (alike.setFp fp).trans (.redirected s' fp _ ws)
    | @opens a dbgout fp ws some' there closed opens =>
      obtain ⟨-, -, within⟩ := own a some'
      obtain ⟨dbgout', there', name⟩ := within.there there
      have closed' : dbgout'.fp = none := by
        cases opened' : dbgout'.fp with
        | none => rfl
        | some fp' =>
          have := within.opened a fp' (by rw [fileOf, there', Option.bind_some, opened'])
          rw [fileOf, there, Option.bind_some, closed] at this
          cases this
      obtain ⟨ws', eq⟩ := @redirect_closed env _ _ _ _ some' there' closed'
      rw [alike.thrd, name, opens] at eq
      refine ⟨_, eq, ?_, fun _ => ?_⟩
      · exact ((Alike.redirected s fp _ ws).symm.trans (alike.setFp fp)).trans
          (.redirected s' fp _ ws')
      · exact (within.grow there closed fp).open' there' (by simp [fileOf_openAs there])

/-! ## Calls -/

/-- What `edbg` does behind `edbg2`. -/
theorem enter_alike {s s' : State} (h : Alike s s') (c : Call) :
    Agree (enter c s) (enter c s') := by
  unfold enter
  rw [h.thrd]
  cases s.thrd.stack with
  | nil => exact .error _ _
  | cons dbgtl below =>
    dsimp only
    have h₁ := h.setDtst dbgtl.dtst1 dbgtl.dtst2 dbgtl.dtst1 dbgtl.dtst2
    split
    · split
      · exact .error _ _
      have h₂ := h₁.setStack ({ dbgtl with
        dbgswbuf := some (c.chars.take (DBGBUF - 1) ++ text "\x7b\n") } :: below)
      split
      · exact .ok ((h₂.print _ (by rw [h₂.thrdid, h₂.nest])).setLvl (by rw [h₂.thrd]))
      · exact .ok h₂
    · exact .ok (h₁.setStack _)

theorem edbg_alike {env : Env} {c : Call} {s s' t : State} {start : DList DBGOUT}
    (alike : Alike s s') (cmds : ∀ funcname, findCmd s'.g.cmds funcname = findCmd s.g.cmds funcname)
    (own : ∀ a ∈ s.ownOut c,
      OwnFile env start s.g.outs s.thrd.id a ∧ Within start s'.g.outs ∧ Within s'.g.outs s.g.outs)
    (h : edbg env c s = .ok t) :
    ∃ t', edbg env c s' = .ok t' ∧ Alike t t' ∧
      (Within s'.g.outs s.g.outs → Within t'.g.outs t.g.outs) := by
  unfold edbg at h ⊢
  obtain ⟨funcname, name, h⟩ := bind_ok h
  rw [name]
  rw [State.ownOut, name] at own
  simp only [Except.bind] at h ⊢
  split at h
  · cases h
  rename_i legal
  rw [if_neg legal, cmds]
  have pushed : Alike (push env funcname s) (push env funcname s') := by
    rw [push, push, alike.thrd]
    exact alike.change _
  have stack (s : State) :
      (push env funcname s).thrd.stack = newFrame env funcname s :: s.thrd.stack := rfl
  rw [edbg2_eq (stack s')]
  obtain ⟨u, processed', h⟩ := bind_ok h
  rw [edbg2_eq (stack s)] at processed'
  obtain ⟨v, redirected, rfl⟩ := map_ok processed'
  obtain ⟨v', redirected', alike', within'⟩ := redirect_alike pushed own redirected
  have frame : newFrame env funcname s' = newFrame env funcname s := by
    rw [newFrame, newFrame, alike.thrd]
  have chain : (push env funcname s).chain = funcname :: s.chain := rfl
  rw [pushed.chain, chain, redirected', frame, alike.thrd]
  rw [chain] at h
  have entered := enter_alike (alike'.setStack (processed (findCmd s.g.cmds funcname)
    (funcname :: s.chain) s.thrd.stack.head? (newFrame env funcname s) :: s.thrd.stack)) c
  obtain ⟨t', ht', alike''⟩ := entered t h
  refine ⟨t', ht', alike'', ?_⟩
  obtain ⟨_, _, -, -, rfl⟩ := enter_ok rfl h
  obtain ⟨_, _, -, -, rfl⟩ := enter_ok rfl ht'
  exact within'

/-- What `rdbg` reads of the files: the one of the calling function, unless it is
also that of the current one. -/
def SameFiles (s s' : State) : Prop :=
  ∀ dbgtl prv below, s.thrd.stack = dbgtl :: prv :: below → dbgtl.dbgout ≠ prv.dbgout →
    ∀ a ∈ prv.dbgout, ∃ fp, fileOf s.g.outs a = some fp ∧ fileOf s'.g.outs a = some fp

theorem leave_alike {s s' : State} (h : Alike s s') (c : Call) (dbgtl : DBG) :
    Agree (leave c dbgtl s) (leave c dbgtl s') := by
  have printed : Alike (printReturn c dbgtl s) (printReturn c dbgtl s') := by
    unfold printReturn
    rw [h.thrd, h.drcdbgline]
    exact (h.print _ (by rw [h.thrdid, h.nest])).setLvl rfl
  unfold leave
  cases dbgtl.status with
  | ondis =>
    dsimp only
    split
    · exact .ok h
    · exact .ok printed
  | on => exact .ok printed
  | keep => exact .ok h
  | off => exact .ok h
  | unknown => exact .error _ _

theorem restoreFp_alike {s s' : State} {dbgtl : DBG} {below : List DBG} (h : Alike s s')
    (stack : s.thrd.stack = dbgtl :: below) (same : SameFiles s s') :
    Agree (restoreFp dbgtl below.head? s) (restoreFp dbgtl below.head? s') := by
  unfold restoreFp
  cases below with
  | nil => exact .ok (h.setFp _)
  | cons prv below =>
    dsimp only [List.head?_cons]
    split
    · rename_i differ
      cases own : prv.dbgout with
      | none => exact .ok (h.setFp _)
      | some a =>
        obtain ⟨fp, opened, opened'⟩ := same dbgtl prv below stack differ a own
        obtain ⟨dbgout, there, fp'⟩ := Option.bind_eq_some_iff.1 opened
        obtain ⟨dbgout', there', fp''⟩ := Option.bind_eq_some_iff.1 opened'
        simp only [there, there', fp', fp'']
        exact .ok (h.setFp _)
    · exact .ok h

theorem rdbg_alike {c : Call} {s s' : State} (alike : Alike s s') (same : SameFiles s s') :
    Agree (rdbg c s) (rdbg c s') := by
  unfold rdbg
  dsimp only
  have alike₀ := alike.setNestmode true
  rw [alike₀.thrd]
  cases stack : (s.setNestmode true).thrd.stack with
  | nil => exact .error _ _
  | cons dbgtl below =>
    dsimp only
    refine (leave_alike alike₀ c dbgtl).bind fun t t' ht ht' alike₁ => ?_
    have left' (s t : State) (h : leave c dbgtl (s.setNestmode true) = .ok t) :
        t.g.outs = s.g.outs ∧ t.thrd.stack = s.thrd.stack := by
      rw [leave_ok h]
      split <;> exact ⟨rfl, rfl⟩
    cases rdbgName c with
    | error e => exact .error _ _
    | ok name =>
      simp only [Except.bind]
      split
      · exact .error _ _
      refine (restoreFp_alike alike₁ ((left' s t ht).2.trans stack) ?_).map fun u u' alike₂ => ?_
      · rw [SameFiles, (left' s t ht).1, (left' s' t' ht').1, (left' s t ht).2]
        exact same
      have alike₃ := alike₂.setDtst ((below.head?.map DBG.dtst1).getD DBG_DTSTOFF)
        ((below.head?.map DBG.dtst2).getD DBG_DTSTOFF)
        ((below.head?.map DBG.dtst1).getD DBG_DTSTOFF)
        ((below.head?.map DBG.dtst2).getD DBG_DTSTOFF)
      split
      · refine ⟨by rw [cleanUp, cleanUp, alike₃.thrd], alike₃.marks, ?_⟩
        simp only [cleanUp, debugOutput_append, debugOutput_fcloses, alike₃.output]
      · rw [alike₃.thrd]
        exact alike₃.change _

theorem dprintfLine_alike {detail : Int} {c : Call} {dbgtl : DBG} {s s' : State}
    (alike : Alike s s') :
    Agree (dprintfLine detail c dbgtl s) (dprintfLine detail c dbgtl s') := by
  unfold dprintfLine
  dsimp only
  split
  · exact .error _ _
  · refine .ok ((alike.print _ ?_).setNestmode _)
    rw [alike.thrd, alike.dbg_Nflag, alike.drcdbgline, alike.thrdid, alike.nest]

theorem map_map {ε α β γ : Type} (r : Except ε α) (f : α → β) (g : β → γ) :
    (r.map f).map g = r.map (g ∘ f) := by
  cases r <;> rfl

theorem dprintf_alike {detail : Int} {c : Call} {s s' : State} (alike : Alike s s') :
    Agree ((dprintf detail c s).map Prod.snd) ((dprintf detail c s').map Prod.snd) := by
  unfold dprintf
  rw [alike.thrd]
  cases stack : s.thrd.stack with
  | nil =>
    refine .ok ((alike.warn _).print _ ?_)
    rw [(alike.warn _).thrd]
  | cons dbgtl below =>
    dsimp only
    split
    · have alike₁ := alike.print .other (rfl : c.fmt.takeWhile (· = 10) = _)
      split
      · exact .ok (alike₁.setNestmode true)
      · rw [map_map, map_map]
        exact (dprintfLine_alike alike₁).map fun _ _ => id
    · exact .ok alike

end UnixProgramming.Dbg
