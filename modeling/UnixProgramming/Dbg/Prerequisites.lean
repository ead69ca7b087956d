import Mathlib.Data.List.Perm.Basic
import UnixProgramming.Dbg.Effects

/-!
# The decision about prerequisites

One loop of `edbg2` decides about plain names, `!` names and `+` names. It ends
at the first `+` name that is on the stack, whatever stands behind it, and it
rejects for want of a `+` name only if the whole list are such names.

* `preqLoop_pass`, `preqLoop_stop`: how far the loop goes;
* `edbg2_decides`: when the decision is the one that the list asks for.
-/

namespace UnixProgramming.Dbg

open Ssl (Byte)
open Heap (DList)

/-! ## What a list asks for -/

section
variable (onStack : List Byte → Bool)

/-- A `!` name that is on the stack, or a plain name that is not. -/
def Bars (p : DBGPREQ) : Prop :=
  if p.select = 33 then onStack p.funcname = true
  else p.select ≠ 43 ∧ onStack p.funcname = false

/-- A `+` name that is on the stack. -/
def Accepts (p : DBGPREQ) : Prop := p.select = 43 ∧ onStack p.funcname = true

instance (p : DBGPREQ) : Decidable (Bars onStack p) := by unfold Bars; infer_instance
instance (p : DBGPREQ) : Decidable (Accepts onStack p) := inferInstanceAs (Decidable (_ ∧ _))

/-- Every plain name is on the stack, no `!` name is, and if there are `+` names
at least one of them is. -/
def Wanted (preqs : List DBGPREQ) : Prop :=
  (∀ p ∈ preqs, p.select ≠ 33 → p.select ≠ 43 → onStack p.funcname = true) ∧
    (∀ p ∈ preqs, p.select = 33 → onStack p.funcname = false) ∧
    ((∃ p ∈ preqs, p.select = 43) → ∃ p ∈ preqs, Accepts onStack p)

instance (preqs : List DBGPREQ) : Decidable (Wanted onStack preqs) := by
  unfold Wanted; infer_instance

/-- With a `+` name on the stack: something before the first of them rejects, or
nothing behind it does. Without: something rejects, or the list has no `+`
names, or it has no others. -/
def Settled (preqs : List DBGPREQ) (npreq : Nat) : Prop :=
  if ∃ p ∈ preqs, Accepts onStack p then
    (∃ p ∈ preqs.takeWhile fun p => ¬ Accepts onStack p, Bars onStack p) ∨
      ∀ p ∈ preqs, ¬ Bars onStack p
  else (∃ p ∈ preqs, Bars onStack p) ∨ (∀ p ∈ preqs, p.select ≠ 43) ∨
    npreq = preqs.length ∧ ∀ p ∈ preqs, p.select = 43

instance (preqs : List DBGPREQ) (npreq : Nat) : Decidable (Settled onStack preqs npreq) := by
  unfold Settled; infer_instance

variable {onStack}

theorem wanted_iff (preqs : List DBGPREQ) : Wanted onStack preqs ↔
    (∀ p ∈ preqs, ¬ Bars onStack p) ∧
      ((∃ p ∈ preqs, p.select = 43) → ∃ p ∈ preqs, Accepts onStack p) := by
  rw [Wanted, ← and_assoc]
  refine and_congr_left fun _ => ?_
  constructor
  · rintro ⟨plain, bang⟩ p hp
    rw [Bars]
    split
    · simpa using bang p hp ‹_›
    · simpa using plain p hp ‹_›
  · intro none'
    refine ⟨fun p hp notBang notPlus => ?_, fun p hp isBang => ?_⟩
    · simpa [Bars, notBang, notPlus] using none' p hp
    · simpa [Bars, isBang] using none' p hp

/-- The order of the list makes no difference to what it asks for. -/
theorem Wanted.perm {preqs preqs' : List DBGPREQ} (perm : preqs.Perm preqs') :
    Wanted onStack preqs ↔ Wanted onStack preqs' := by
  simp only [Wanted, perm.mem_iff]

/-! ## The loop -/

/-- Names that neither reject nor accept are passed; `+` names are counted. -/
theorem preqLoop_pass {pass : List DBGPREQ} (bars : ∀ p ∈ pass, ¬ Bars onStack p)
    (accepts : ∀ p ∈ pass, ¬ Accepts onStack p) (rest : List DBGPREQ) (rejectcnt : Nat) :
    preqLoop onStack (pass ++ rest) rejectcnt =
      preqLoop onStack rest (rejectcnt + pass.countP fun p => p.select = 43) := by
  induction pass generalizing rejectcnt with
  | nil => rfl
  | cons p pass ih =>
    have bars' := bars p List.mem_cons_self
    have accepts' := accepts p List.mem_cons_self
    have ih := ih (fun q hq => bars q (.tail _ hq)) (fun q hq => accepts q (.tail _ hq))
    rw [List.cons_append, preqLoop, List.countP_cons]
    rw [Bars] at bars'
    by_cases bang : p.select = 33
    · rw [if_pos bang] at bars' ⊢
      rw [if_neg bars', ih]
      simp [bang]
    rw [if_neg bang] at bars' ⊢
    by_cases plus : p.select = 43
    · have off : ¬ onStack p.funcname := fun on => accepts' ⟨plus, on⟩
      rw [if_pos plus, if_neg off, ih]
      simp [plus, Nat.add_assoc, Nat.add_comm 1]
    · have on : onStack p.funcname := by simpa [plus] using bars'
      rw [if_neg plus, if_pos on, ih]
      simp [plus]

/-- The first other name ends the loop. -/
theorem preqLoop_stop (p : DBGPREQ) (rest : List DBGPREQ) (rejectcnt : Nat) :
    (Bars onStack p → preqLoop onStack (p :: rest) rejectcnt = (true, rejectcnt)) ∧
      (Accepts onStack p → preqLoop onStack (p :: rest) rejectcnt = (false, rejectcnt)) := by
  rw [preqLoop, Bars, Accepts]
  constructor
  · intro bars
    by_cases bang : p.select = 33
    · rw [if_pos bang] at bars ⊢
      rw [if_pos bars]
    · rw [if_neg bang] at bars ⊢
      rw [if_neg bars.1, if_neg (by simp [bars.2])]
  · rintro ⟨plus, on⟩
    rw [if_neg (by rw [plus]; decide), if_pos plus, if_pos on]

/-- A list up to the first name that rejects or accepts. -/
theorem firstStop (preqs : List DBGPREQ) :
    ((∀ p ∈ preqs, ¬ Bars onStack p) ∧ ∀ p ∈ preqs, ¬ Accepts onStack p) ∨
    ∃ pass p rest, preqs = pass ++ p :: rest ∧ (∀ q ∈ pass, ¬ Bars onStack q) ∧
      (∀ q ∈ pass, ¬ Accepts onStack q) ∧ (Bars onStack p ∨ Accepts onStack p) := by
  induction preqs with
  | nil => exact .inl (by simp)
  | cons p preqs ih =>
    by_cases stop : Bars onStack p ∨ Accepts onStack p
    · exact .inr ⟨[], p, preqs, rfl, by simp, by simp, stop⟩
    · obtain ⟨bars, accepts⟩ := not_or.1 stop
      rcases ih with ⟨noBars, noAccepts⟩ | ⟨pass, q, rest, rfl, noBars, noAccepts, stop⟩
      · exact .inl ⟨List.forall_mem_cons.2 ⟨bars, noBars⟩,
          List.forall_mem_cons.2 ⟨accepts, noAccepts⟩⟩
      · exact .inr ⟨p :: pass, q, rest, rfl, List.forall_mem_cons.2 ⟨bars, noBars⟩,
          List.forall_mem_cons.2 ⟨accepts, noAccepts⟩, stop⟩

/-- The loop and the comparison behind it, for a list that is not empty. -/
theorem loop_settled (preqs : List DBGPREQ) {npreq : Nat} (some' : preqs ≠ [])
    (counted : preqs.length ≤ npreq) :
    (((preqLoop onStack preqs 0).1 || (preqLoop onStack preqs 0).2 == npreq) = false ↔
        Wanted onStack preqs) ↔ Settled onStack preqs npreq := by
  have pos := List.length_pos_iff.2 some'
  rw [wanted_iff, Settled]
  rcases @firstStop onStack preqs with ⟨bars, accepts⟩ |
    ⟨pass, p, rest, rfl, bars, accepts, stop⟩
  · -- no name ends the loop
    have run := preqLoop_pass bars accepts [] 0
    rw [List.append_nil, Nat.zero_add] at run
    have none' : ¬ ∃ p ∈ preqs, Accepts onStack p := fun ⟨p, hp, on⟩ => accepts p hp on
    have none'' : ¬ ∃ p ∈ preqs, Bars onStack p := fun ⟨p, hp, on⟩ => bars p hp on
    have wanted : ((∀ p ∈ preqs, ¬ Bars onStack p) ∧
        ((∃ p ∈ preqs, p.select = 43) → ∃ p ∈ preqs, Accepts onStack p)) ↔
          ∀ p ∈ preqs, p.select ≠ 43 := by
      simp only [none', imp_false, not_exists, not_and, and_iff_right bars]
    have zero : (preqs.countP fun p => p.select = 43) = 0 ↔ ∀ p ∈ preqs, p.select ≠ 43 := by
      simp [List.countP_eq_zero]
    have all : (preqs.countP fun p => p.select = 43) = preqs.length ↔
        ∀ p ∈ preqs, p.select = 43 := by
      simp [List.countP_eq_length]
    have most : (preqs.countP fun p => p.select = 43) ≤ preqs.length := List.countP_le_length
    rw [run, preqLoop, if_neg none', wanted, ← zero, ← all]
    simp only [none'', false_or, Bool.false_or, beq_eq_false_iff_ne, ne_eq]
    omega
  · have here : p ∈ pass ++ p :: rest := by simp
    rw [preqLoop_pass bars accepts]
    rcases stop with bar | accept
    · -- a name that rejects
      have notAccept : ¬ Accepts onStack p := by
        rintro ⟨plus, -⟩
        rw [Bars, if_neg (by rw [plus]; decide)] at bar
        exact bar.1 plus
      have front : p ∈ (pass ++ p :: rest).takeWhile fun p => ¬ Accepts onStack p := by
        rw [List.takeWhile_append_of_pos (by simpa using accepts)]
        simp [notAccept]
      rw [(preqLoop_stop p rest _).1 bar]
      refine iff_of_true (iff_of_false (by simp) fun wanted => wanted.1 p here bar) ?_
      split
      · exact .inl ⟨p, front, bar⟩
      · exact .inl ⟨p, here, bar⟩
    · -- a `+` name that is on the stack
      have front : (pass ++ p :: rest).takeWhile (fun p => ¬ Accepts onStack p) = pass := by
        rw [List.takeWhile_append_of_pos (by simpa using accepts)]
        simp [accept]
      have fewer : (pass.countP fun p => p.select = 43) ≤ pass.length := List.countP_le_length
      have noBar : ¬ ∃ q ∈ pass, Bars onStack q := fun ⟨q, hq, bar⟩ => bars q hq bar
      rw [(preqLoop_stop p rest _).2 accept, if_pos ⟨p, here, accept⟩, front]
      rw [List.length_append, List.length_cons] at counted
      have less : (0 + pass.countP fun p => p.select = 43) ≠ npreq := by omega
      simp only [Bool.false_or, beq_eq_false_iff_ne, less, ne_eq, not_false_eq_true, true_iff,
        noBar, false_or]
      exact and_iff_left fun _ => ⟨p, here, accept⟩

end

/-! ## edbg2 -/

/-- The prerequisites of a command as `initdbg3` makes them: a linked list, and
at least as many counted as are in it. -/
structure Listed (d : DBGCMD) : Prop where
  linked : ∃ cells, d.preqs.Is cells
  counted : d.preqs.vals.length ≤ d.npreq

theorem parsePreqs_listed : ∀ (turns : Nat) {d d' : DBGCMD} {b b' modebuf modebuf' : List Byte}
    {s s' : State}, parsePreqs turns d b modebuf s = .ok (d', b', modebuf', s') → Listed d →
    Listed d' := by
  intro turns
  induction turns with
  | zero =>
    rintro d d' b b' modebuf modebuf' s s' ⟨⟩ listed
    exact listed
  | succ turns ih =>
    intro d d' b b' modebuf modebuf' s s' parsed listed
    rw [parsePreqs_succ] at parsed
    split at parsed
    · cases parsed
      exact listed
    · dsimp only at parsed
      split at parsed
      · cases parsed
      · obtain ⟨⟨cells, linked⟩, counted⟩ := listed
        split at parsed
        · exact ih parsed ⟨⟨cells, linked⟩, Nat.le_succ_of_le counted⟩
        · refine ih parsed ⟨⟨_, Heap.DList.append_is linked _⟩, ?_⟩
          dsimp only
          rw [Heap.DList.append_vals linked, List.length_append]
          exact Nat.succ_le_succ counted

/-- `edbg2` lets the command fire. -/
def Fires (d : DBGCMD) (chain : List (List Byte)) : Prop := rejects d chain = false

instance (d : DBGCMD) (chain : List (List Byte)) : Decidable (Fires d chain) :=
  inferInstanceAs (Decidable (_ = _))

theorem edbg2_fires {env : Env} {d : DBGCMD} {s : State} {dbgtl : DBG} {below : List DBG}
    (stack : s.thrd.stack = dbgtl :: below) : edbg2 env (some d) s =
      if Fires d s.chain then
        (redirect env d s).map fun t => t.setStack (fired d below.head? dbgtl :: below)
      else .ok (s.setStack (rejected below.head? dbgtl :: below)) := by
  rw [edbg2_eq stack, firing, processed, Option.filter]
  by_cases out : rejects d s.chain
  · rw [if_neg (show ¬ Fires d s.chain by simp [Fires, out])]
    simp only [out, Bool.not_true, Bool.false_eq_true, if_false, if_true]
    rfl
  · rw [if_pos (show Fires d s.chain by simpa [Fires] using out)]
    simp only [out, Bool.not_false, if_true, Bool.false_eq_true, if_false]
    rfl

theorem fires_iff {d : DBGCMD} (listed : Listed d) (chain : List (List Byte)) :
    (Fires d chain ↔ Wanted chain.contains d.preqs.vals) ↔
      Settled chain.contains d.preqs.vals d.npreq := by
  obtain ⟨cells, linked⟩ := listed.linked
  have head := linked.hd
  rw [Fires, rejects]
  by_cases empty : d.preqs.vals = []
  · have none' : cells = [] := by simpa [Heap.DList.vals_eq linked] using empty
    rw [none'] at head
    simp [head, empty, Wanted, Settled]
  · have some' : d.preqs.hd.isSome := by
      rw [head]
      cases cells with
      | nil => exact absurd (by rw [Heap.DList.vals_eq linked]; rfl) empty
      | cons cell cells => rfl
    rw [if_pos some']
    exact loop_settled _ empty listed.counted

/-- **When `edbg2` decides as the list asks**, for any functions on the stack;
where it does for two orders of a list, it decides alike for both. -/
theorem edbg2_decides {d : DBGCMD} (listed : Listed d) (chain : List (List Byte)) :
    ((Fires d chain ↔ Wanted chain.contains d.preqs.vals) ↔
      Settled chain.contains d.preqs.vals d.npreq) ∧
    ∀ d' : DBGCMD, Listed d' → d'.preqs.vals.Perm d.preqs.vals →
      Settled chain.contains d.preqs.vals d.npreq →
      Settled chain.contains d'.preqs.vals d'.npreq → (Fires d' chain ↔ Fires d chain) := by
  refine ⟨fires_iff listed chain, fun d' listed' perm settled settled' => ?_⟩
  rw [(fires_iff listed' chain).2 settled', (fires_iff listed chain).2 settled, Wanted.perm perm]

/-- A command with these prerequisites and nothing else to say. -/
def withPreqs (preqs : List DBGPREQ) : DBGCMD :=
  ⟨text "f", DBG_DTSTOFF, DBG_DTSTOFF, true, true, preqs.length, .on, 0, none,
    preqs.foldl DList.append DList.empty⟩

theorem withPreqs_vals (preqs : List DBGPREQ) : (withPreqs preqs).preqs.vals = preqs := by
  rw [withPreqs, Heap.DList.foldl_append_vals Heap.DList.empty_is,
    Heap.DList.vals_eq Heap.DList.empty_is]
  rfl

theorem withPreqs_listed (preqs : List DBGPREQ) : Listed (withPreqs preqs) where
  linked := by
    obtain ⟨bs, -, linked⟩ := Heap.DList.foldl_append_is Heap.DList.empty_is preqs
    exact ⟨_, linked⟩
  counted := by
    rw [withPreqs_vals]
    exact Nat.le_refl _

theorem edbg2_decides_bang : Fires (withPreqs [⟨text "g", 33⟩, ⟨text "main", 32⟩])
      [text "f", text "main"] ∧
    Fires (withPreqs [⟨text "main", 32⟩, ⟨text "g", 33⟩]) [text "f", text "main"] := by
  have decided := edbg2_decides (withPreqs_listed [⟨text "g", 33⟩, ⟨text "main", 32⟩])
    [text "f", text "main"]
  have fires := (decided.1.2 (by decide)).2 (by decide)
  refine ⟨fires, (decided.2 _ (withPreqs_listed _) ?_ (by decide) (by decide)).2 fires⟩
  rw [withPreqs_vals, withPreqs_vals]
  exact List.Perm.swap _ _ _

/-- `on f ++g main`: the one `+` name is not on the stack, and still less is
rejected than the list is long. -/
theorem plus_unwanted : ∃ s d,
    initdbg3 .zero .zero (text "on f ++g main") (.initial .stdout) = .ok s ∧
    findCmd s.g.cmds (text "f") = some d ∧ Fires d [text "f", text "main"] ∧
    ¬ Wanted [text "f", text "main"].contains d.preqs.vals :=
  ⟨_, _, rfl, rfl, by decide, by decide⟩

end UnixProgramming.Dbg
