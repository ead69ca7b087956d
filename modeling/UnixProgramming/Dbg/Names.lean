import UnixProgramming.Dbg.Effects

/-!
# Function names at call and return

`edbg` and `rdbg` take the function's name out of their formats in two ways each.

* `edbgName_eq`, `rdbgName_eq`: the name that each of them takes;
* `step_chain`, `run_chain`: a frame that is not popped keeps its name.
-/

namespace UnixProgramming.Dbg

open Runs
open Ssl (Byte stpblk isspace)

/-- A legal function name: it passes the check of `edbg`, and it has none of the
characters that mean something else in a format. -/
structure FunctionName where
  chars : List Byte
  some' : chars ≠ []
  legal : ∀ c ∈ chars, c ≠ 0 ∧ c < 128 ∧ isspace c = false ∧ c ≠ 40 ∧ c ≠ 37

/-- A format that names a function: the name itself, up to the end or to one of
these characters, or `"%s.."` with the name as first argument. -/
inductive Naming (ends : List Byte) (name : List Byte) : Call → Prop where
  | literal (rest arg chars : List Byte) (behind : ∀ c ∈ rest.head?, c ∈ ends) :
      Naming ends name ⟨name ++ rest, arg, chars⟩
  | argument (rest chars : List Byte) : Naming ends name ⟨37 :: 115 :: rest, name, chars⟩

/-- `edbg("name(...)")` or `edbg("name")` -/
abbrev Enter := Naming (text "(")

/-- `rdbg("name")` or `rdbg("name text")` -/
abbrev Return := Naming (text " \t(")

/-- The function-name check of `rdbg` succeeds. -/
def Matches (c : Call) (s : State) : Prop :=
  ∃ dbgtl ∈ s.thrd.stack.head?, rdbgName c = .ok dbgtl.funcname

/-- Then the program does not end with a mismatch. -/
theorem Matches.not_mismatch {c : Call} {s : State} (h : Matches c s) (edbg rdbg' : List Byte) :
    rdbg c s ≠ .error (.mismatch edbg rdbg') := by
  obtain ⟨dbgtl, top, name⟩ := h
  intro ends
  unfold rdbg at ends
  dsimp only at ends
  split at ends
  · cases ends
  rename_i dbg below stack
  replace stack : s.thrd.stack = dbg :: below := stack
  rw [stack, List.head?_cons] at top
  cases top
  cases left : leave c dbgtl (s.setNestmode true) with
  | error e =>
    rw [left] at ends
    unfold leave at left
    split at left
    · split at left <;> cases left
    all_goals cases left
    cases ends
  | ok u =>
    rw [left, name, Except.bind, Except.bind] at ends
    rw [if_neg (by simp)] at ends
    unfold restoreFp at ends
    repeat' split at ends
    all_goals cases ends

/-! ## Taking the name out of the format -/

theorem takeWhile_take {p : Byte → Bool} {name rest : List Byte} (n : Nat) (all : ∀ c ∈ name, p c)
    (behind : ∀ c ∈ rest.head?, p c = false) :
    ((name ++ rest).take n).takeWhile p = name.take n := by
  have stop : (rest.take (n - name.length)).takeWhile p = [] := by
    cases rest with
    | nil => simp
    | cons c rest =>
      cases n - name.length with
      | zero => rfl
      | succ m => exact List.takeWhile_cons_of_neg (by simpa using behind c rfl)
  rw [List.take_append, List.takeWhile_append_of_pos fun c hc => all c (List.mem_of_mem_take hc),
    stop, List.append_nil]

/-- The first token is the name, up to the length of the array. -/
theorem dstptok_name {name rest brk : List Byte} (toklen : Nat) (some' : name ≠ [])
    (all : ∀ c ∈ name, c ∉ brk) (behind : ∀ c ∈ rest.head?, c ∈ brk) :
    (dstptok (name ++ rest) toklen brk).1 = name.take (toklen - 1) := by
  obtain ⟨c, cs, rfl⟩ := List.exists_cons_of_ne_nil some'
  have kept : ((c :: cs) ++ rest).dropWhile brk.contains = (c :: cs) ++ rest := by
    rw [List.cons_append, List.dropWhile_cons_of_neg (by simpa using all c List.mem_cons_self)]
  rw [dstptok, kept]
  exact takeWhile_take (toklen - 1) (fun c hc => by simpa using all c hc) fun c hc => by
    simpa using behind c hc

namespace FunctionName

variable (name : FunctionName)

theorem literal_fmt (rest : List Byte) : [37, 115].isPrefixOf (name.chars ++ rest) = false := by
  obtain ⟨c, cs, e⟩ := List.exists_cons_of_ne_nil name.some'
  have other := (name.legal c (by simp [e])).2.2.2.2
  rw [e, List.cons_append, List.isPrefixOf]
  simp [other.symm]

theorem stpblk_eq (rest : List Byte) : stpblk (name.chars ++ rest) = name.chars ++ rest := by
  apply Ssl.stpblk_self
  intro c hc
  rw [List.head?_append_of_ne_nil _ name.some'] at hc
  exact (name.legal c (List.mem_of_mem_head? hc)).2.2.1

theorem no_ends (c : Byte) (hc : c ∈ name.chars) : c ∉ text " \t(" := by
  obtain ⟨-, -, blank, paren, -⟩ := name.legal c hc
  rintro there
  have ends : text " \t(" = [32, 9, 40] := rfl
  rw [ends] at there
  simp only [List.mem_cons, List.not_mem_nil, or_false] at there
  rcases there with rfl | rfl | rfl
  · revert blank
    decide
  · revert blank
    decide
  · exact paren rfl

end FunctionName

/-- The name that `edbg` takes. -/
theorem edbgName_eq {name : FunctionName} {c : Call} (enter : Enter name.chars c) :
    edbgName c = .ok (name.chars.take (FUNCBUF - 1)) ∨
      FUNCBUF ≤ name.chars.length ∧ edbgName c = .error .outside := by
  cases enter with
  | literal rest arg chars behind =>
    left
    have paren (c : Byte) (hc : c ∈ name.chars) : c ∉ text "(" := by
      simpa [text] using (name.legal c hc).2.2.2.1
    rw [edbgName, name.literal_fmt, dstptok_name _ name.some' paren behind, List.take_take]
    rfl
  | argument rest chars =>
    by_cases fits : FUNCBUF ≤ name.chars.length
    · right
      refine ⟨fits, ?_⟩
      rw [edbgName]
      simp [List.isPrefixOf, fits]
    · left
      have whole : name.chars.take (FUNCBUF - 1) = name.chars :=
        List.take_of_length_le (by omega)
      rw [edbgName, whole]
      simp [List.isPrefixOf, fits]

/-- The name that `rdbg` takes. -/
theorem rdbgName_eq {name : FunctionName} {c : Call} (leaves : Return name.chars c) :
    rdbgName c = .ok (name.chars.take (DBGBUF - 1)) ∨
      DBGBUF ≤ name.chars.length ∧ rdbgName c = .error .outside := by
  cases leaves with
  | literal rest arg chars behind =>
    left
    rw [rdbgName, name.literal_fmt, name.stpblk_eq, dstptok_name _ name.some' name.no_ends behind]
    rfl
  | argument rest chars =>
    by_cases fits : DBGBUF ≤ name.chars.length
    · right
      refine ⟨fits, ?_⟩
      rw [rdbgName]
      simp [List.isPrefixOf, fits]
    · left
      have whole : name.chars.take (DBGBUF - 1) = name.chars :=
        List.take_of_length_le (by omega)
      rw [rdbgName, whole]
      simp [List.isPrefixOf, fits]

/-! ## The frame of a function -/

theorem suffix_of_eq {α : Type} {l l' : List α} (h : l = l') : l <:+ l' := h ▸ List.suffix_refl l

/-- Calls but `edbg` pop frames at most. -/
theorem step_pops {env : Env} {s s' : State} {a : Act} (other : ∀ c, a ≠ .edbg c)
    (h : step env s a = some s') : s'.chain <:+ s.chain := by
  have ok := toOption_some h
  cases a with
  | edbg c => exact absurd rfl (other c)
  | rdbg c =>
    obtain ⟨dbgtl, below, -, leaves⟩ := rdbg_leaves ok
    rw [State.chain, State.chain, leaves.stack, leaves.stack']
    split
    · rename_i outermost
      exact suffix_of_eq (by rw [outermost])
    · rw [List.map_cons]
      exact List.suffix_cons _ _
  | dprintf detail c =>
    obtain ⟨r, printed, rfl⟩ := map_ok ok
    exact suffix_of_eq (dprintf_adjusts printed).1.chain
  | dbgswitch on =>
    obtain ⟨r, switched, rfl⟩ := map_ok ok
    obtain ⟨dbgtl, below, turns⟩ := dbgswitch_turns switched
    obtain ⟨top, stack', -, funcname⟩ := turns.stack'
    refine suffix_of_eq ?_
    rw [State.chain, State.chain, turns.stack, stack', List.map_cons, List.map_cons, funcname]
  | initdbg3 u buf => exact suffix_of_eq (initdbg3_adjusts ok).chain
  | dsetjmp jb =>
    cases ok
    unfold dsetjmp State.chain
    dsimp only
    split <;> exact List.suffix_refl _
  | dlongjmp jb c =>
    by_cases inside : s.thrd.stack = []
    · exact suffix_of_eq (dlongjmp_adjusts ok inside).1.chain
    · obtain ⟨jb, -, unwinds⟩ := dlongjmp_unwinds ok inside
      rw [State.chain, State.chain, unwinds.stack']
      exact (List.dropWhile_suffix _).map _

theorem Enters.chain {env : Env} {funcname : List Byte} {top : DBG} {s s' : State}
    (h : Enters env funcname top s s') : s'.chain = funcname :: s.chain := by
  rw [State.chain, State.chain, h.stack, List.map_cons, h.funcname]

/-- A call pushes frames or pops some. -/
theorem step_chain {env : Env} {s s' : State} {a : Act} (h : step env s a = some s') :
    s'.chain <:+ s.chain ∨ s.chain <:+ s'.chain := by
  by_cases entry : ∃ c, a = .edbg c
  · obtain ⟨c, rfl⟩ := entry
    obtain ⟨funcname, top, -, enters⟩ := edbg_enters (toOption_some h)
    rw [enters.chain]
    exact .inr (List.suffix_cons _ _)
  · exact .inl (step_pops (fun c e => entry ⟨c, e⟩) h)

/-- **The frame of a function** keeps its name, and those below it theirs, in a run
that never pops it. -/
theorem run_chain {env : Env} {acts : List Act} {s t : State} {names : List (List Byte)}
    (held : names <:+ s.chain)
    (inside : Always (step env) (fun u => names.length ≤ u.thrd.stack.length) s acts)
    (h : run (step env) s acts = some t) : names <:+ t.chain := by
  induction acts generalizing s with
  | nil =>
    cases h
    exact held
  | cons a acts ih =>
    obtain ⟨u, hu, h⟩ := run_cons_some h
    obtain ⟨deep, later⟩ := inside.2 u hu
    refine ih ?_ ⟨deep, later⟩ h
    obtain pops | pushes := step_chain hu
    · exact List.suffix_of_suffix_length_le held pops (by simpa [State.chain] using deep)
    · exact held.trans pushes

/-- The frame that a call has pushed, when it is the top one again. -/
theorem called_frame {env : Env} {name : FunctionName} {c : Call} (enter : Enter name.chars c)
    {s s' t : State} {acts : List Act} (entered : edbg env c s = .ok s')
    (inside : Always (step env) (fun u => s.thrd.stack.length < u.thrd.stack.length) s' acts)
    (h : run (step env) s' acts = some t) (level : t.thrd.stack.length = s.thrd.stack.length + 1) :
    ∃ dbgtl below, t.thrd.stack = dbgtl :: below ∧
      dbgtl.funcname = name.chars.take (FUNCBUF - 1) := by
  obtain ⟨funcname, top, taken, enters⟩ := edbg_enters entered
  have cut : funcname = name.chars.take (FUNCBUF - 1) := by
    obtain taken' | ⟨-, outside⟩ := edbgName_eq enter
    · rw [taken'] at taken
      cases taken
      rfl
    · rw [outside] at taken
      cases taken
  have held : funcname :: s.chain <:+ s'.chain := suffix_of_eq enters.chain.symm
  have above : (funcname :: s.chain).length = s.thrd.stack.length + 1 := by
    rw [List.length_cons, State.chain, List.length_map]
  have kept := run_chain held (by rw [above]; exact inside) h
  have chain := kept.eq_of_length (by rw [above, State.chain, List.length_map, level])
  obtain ⟨dbgtl, below, stack⟩ : ∃ dbgtl below, t.thrd.stack = dbgtl :: below :=
    List.exists_cons_of_ne_nil fun empty => by simp [empty] at level
  refine ⟨dbgtl, below, stack, ?_⟩
  rw [State.chain, State.chain, stack, List.map_cons] at chain
  rw [← cut]
  exact (List.cons.inj chain).1.symm

/-- `rdbg` takes what `edbg` has left of the name, unless `edbg` has cut it. -/
theorem rdbgName_cut_iff {name : FunctionName} {c : Call} (leaves : Return name.chars c) :
    rdbgName c = .ok (name.chars.take (FUNCBUF - 1)) ↔ name.chars.length < FUNCBUF := by
  have sizes : 0 < FUNCBUF ∧ FUNCBUF < DBGBUF := by decide
  obtain taken | ⟨long, outside⟩ := rdbgName_eq leaves
  · rw [taken, Except.ok.injEq]
    constructor
    · intro same
      have lengths := congrArg List.length same
      simp only [List.length_take] at lengths
      omega
    · intro short
      rw [List.take_of_length_le (by omega), List.take_of_length_le (by omega)]
  · rw [outside]
    exact iff_of_false nofun (by omega)

/-- **A matching return.** The check of `rdbg` succeeds for the name with which
the function at this level of the stack has been entered, exactly if the name
fits `funcname`; `edbg` then takes the whole of it. -/
theorem matching_return {env : Env} {name : FunctionName} {c c' : Call}
    (enter : Enter name.chars c) (leaves : Return name.chars c') :
    (name.chars.length < FUNCBUF → edbgName c = .ok name.chars) ∧
    ∀ s s' t acts, edbg env c s = .ok s' →
      Always (step env) (fun u => s.thrd.stack.length < u.thrd.stack.length) s' acts →
      run (step env) s' acts = some t → t.thrd.stack.length = s.thrd.stack.length + 1 →
      (Matches c' t ↔ name.chars.length < FUNCBUF) := by
  refine ⟨fun short => ?_, fun s s' t acts entered inside h level => ?_⟩
  · obtain taken | ⟨long, -⟩ := edbgName_eq enter
    · rw [taken, List.take_of_length_le (by omega)]
    · omega
  · obtain ⟨dbgtl, below, stack, named⟩ := called_frame enter entered inside h level
    rw [← rdbgName_cut_iff leaves, Matches, stack, ← named]
    simp

theorem matching_return_f : ∃ name : FunctionName, ∃ s' t,
    edbg .zero (.of "f(x)") (.initial .stdout) = .ok s' ∧
    run (step .zero) s' [.edbg (.of "g()"), .rdbg (.of "g")] = some t ∧
    (Matches (.of "f 3") t ↔ name.chars.length < FUNCBUF) := by
  let name : FunctionName := ⟨text "f", by decide, List.forall_mem_singleton.2 (by decide)⟩
  have inside : ∀ s', edbg .zero (.of "f(x)") (.initial .stdout) = .ok s' →
      Always (step .zero) (fun u => 0 < u.thrd.stack.length) s'
        [.edbg (.of "g()"), .rdbg (.of "g")] := by
    rintro s' ⟨⟩
    refine ⟨by decide, ?_⟩
    rintro t ⟨⟩
    refine ⟨by decide, ?_⟩
    rintro u ⟨⟩
    exact ⟨by decide, trivial⟩
  refine ⟨name, _, _, rfl, rfl, ?_⟩
  have enter : Enter name.chars (.of "f(x)") :=
    .literal (text "(x)") [] (text "f(x)") fun c there => by cases there; decide
  have leaves : Return name.chars (.of "f 3") :=
    .literal (text " 3") [] (text "f 3") fun c there => by cases there; decide
  exact (@matching_return _ name _ _ enter leaves).2 _ _ _ _ rfl (inside _ rfl) rfl rfl

/-- A name that is one character too long. -/
def longName : FunctionName :=
  ⟨List.replicate FUNCBUF 97, by decide, fun c hc => by
    rw [List.eq_of_mem_replicate hc]
    decide⟩

theorem long_mismatch : ∃ s',
    edbg .zero ⟨longName.chars ++ [], [], longName.chars⟩ (.initial .stdout) = .ok s' ∧
    rdbg ⟨longName.chars ++ [], [], longName.chars⟩ s' =
      .error (.mismatch (List.replicate 65 97) longName.chars) :=
  ⟨_, rfl, rfl⟩

end UnixProgramming.Dbg
