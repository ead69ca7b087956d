import Mathlib.Data.DFinsupp.WellFounded
import UnixProgramming.Calls.Prog

/-!
# Programs side by side

A `Pool` is a family of programs that make their calls on one state, in any
order. Each proves its own part, counting on what the others keep to.

* `Terms.wp`: what a program brings about while others step in before every
  call; all rules are equivalences;
* `Terms.together`: programs that keep to the terms, run in any order;
* `Terms.simulates`: they do what programs over a simpler state do;
* `Pool.wellFounded`: every run of finitely many programs comes to an end.
-/

namespace UnixProgramming.Calls

variable {C D ι σ τ γ α β : Type} {R : C → Type} {S : D → Type}

/-- What a call of program `i` may hand over, and leave. -/
abbrev Sem (ι σ : Type) (R : C → Type) := ι → (c : C) → σ → R c → σ → Prop

/-- Programs on one state. -/
structure Pool {C : Type} (R : C → Type) (ι σ β : Type) where
  state : σ
  prog : ι → Prog R β

namespace Pool

variable [DecidableEq ι]

/-- Program `i` makes its next call. -/
inductive Step (sem : Sem ι σ R) (i : ι) (P : Pool R ι σ β) : Pool R ι σ β → Prop
  | call {c : C} {k : R c → Prog R β} {r : R c} {s : σ} (next : P.prog i = .call c k)
      (does : sem i c P.state r s) : Step sem i P ⟨s, Function.update P.prog i (k r)⟩

theorem Step.prog_other {sem : Sem ι σ R} {i j : ι} {P P' : Pool R ι σ β} (h : Step sem i P P')
    (other : j ≠ i) : P'.prog j = P.prog j := by
  cases h with
  | call next does => exact Function.update_of_ne other _ _

/-- A run, of any of the programs at each step. -/
inductive Reaches (sem : Sem ι σ R) (P : Pool R ι σ β) : Pool R ι σ β → Prop
  | refl : Reaches sem P P
  | step {P' P'' : Pool R ι σ β} {i : ι} (run : Reaches sem P P') (last : Step sem i P' P'') :
      Reaches sem P P''

theorem Reaches.trans {sem : Sem ι σ R} {P P' P'' : Pool R ι σ β} (h : Reaches sem P P')
    (h' : Reaches sem P' P'') : Reaches sem P P'' := by
  induction h' with
  | refl => exact h
  | step _ last ih => exact ih.step last

/-- One program goes on, while the others stay where they are. -/
theorem Reaches.alone {sem : Sem ι σ R} {answer : (c : C) → σ → Option (R c × σ)} {i : ι}
    {I : σ → Prop}
    (does : ∀ c s x, I s → answer c s = some x → sem i c s x.1 x.2 ∧ I x.2) {n : Nat}
    {P : Pool R ι σ β} {p : Prog R β} {s : σ} (first : I P.state)
    (run : (P.prog i).steps answer n P.state = some (p, s)) :
    Reaches sem P ⟨s, Function.update P.prog i p⟩ ∧ I s := by
  induction n generalizing P with
  | zero =>
    cases run
    rw [Function.update_eq_self]
    exact ⟨.refl, first⟩
  | succ n ih =>
    cases next : P.prog i with
    | ret b =>
      rw [next] at run
      cases run
    | call c k =>
      rw [next] at run
      obtain ⟨x, answered, run⟩ := Option.bind_eq_some_iff.1 run
      obtain ⟨here, more⟩ := does c _ x first answered
      have step : Step sem i P ⟨x.2, Function.update P.prog i (k x.1)⟩ := .call next here
      have rest := ih (P := ⟨x.2, Function.update P.prog i (k x.1)⟩) more
        (by dsimp only; rwa [Function.update_self])
      rw [Function.update_idem] at rest
      exact ⟨(Reaches.step .refl step).trans rest.1, rest.2⟩

/-- Whatever `P` does, `A` can do so far that a program of it that has ended
has ended with the same value in both. One step is at most one step. -/
def Simulates (sem : Sem ι σ R) (spec : Sem ι τ S) (P : Pool R ι σ β) (A : Pool S ι τ β) : Prop :=
  ∃ Sim : Pool R ι σ β → Pool S ι τ β → Prop, Sim P A ∧ ∀ P A, Sim P A →
    (∀ i b, P.prog i = .ret b → A.prog i = .ret b) ∧
    ∀ i P', Step sem i P P' → ∃ A', (A' = A ∨ Step spec i A A') ∧ Sim P' A'

theorem Simulates.reaches {sem : Sem ι σ R} {spec : Sem ι τ S} {P P' : Pool R ι σ β}
    {A : Pool S ι τ β} (h : Simulates sem spec P A) (run : Reaches sem P P') :
    ∃ A', Reaches spec A A' ∧ ∀ i b, P'.prog i = .ret b → A'.prog i = .ret b := by
  obtain ⟨Sim, start, keeps⟩ := h
  suffices ∃ A', Reaches spec A A' ∧ Sim P' A' by
    obtain ⟨A', run', sim⟩ := this
    exact ⟨A', run', (keeps P' A' sim).1⟩
  induction run with
  | refl => exact ⟨A, .refl, start⟩
  | step run last ih =>
    obtain ⟨A', run', sim⟩ := ih
    obtain ⟨A'', same | one, sim'⟩ := (keeps _ _ sim).2 _ _ last
    · exact ⟨A', run', same ▸ sim'⟩
    · exact ⟨A'', run'.step one, sim'⟩

/-- What follows a call. -/
inductive Follows : Prog R β → Prog R β → Prop
  | call {c : C} (k : R c → Prog R β) (r : R c) : Follows (k r) (.call c k)

theorem follows_wf : WellFounded (Follows : Prog R β → Prog R β → Prop) := by
  refine ⟨fun p => ?_⟩
  induction p with
  | ret b =>
    refine ⟨_, fun q h => ?_⟩
    cases h
  | call c k ih =>
    refine ⟨_, fun q h => ?_⟩
    cases h with
    | call k r => exact ih r

/-- **Every run comes to an end**, whatever the order of the steps. -/
theorem wellFounded [Finite ι] (sem : Sem ι σ R) :
    WellFounded fun P' P : Pool R ι σ β => ∃ i, Step sem i P P' := by
  have lex : WellFounded (Pi.Lex WellOrderingRel fun {_ : ι} =>
      (Follows : Prog R β → Prog R β → Prop)) := Pi.Lex.wellFounded _ fun _ => follows_wf
  refine Subrelation.wf ?_ (InvImage.wf Pool.prog lex)
  rintro P' P ⟨i, step⟩
  cases step with
  | @call c k r s next does =>
    refine ⟨i, fun j before => Function.update_of_ne ?_ _ _, ?_⟩
    · rintro rfl
      exact irrefl_of WellOrderingRel j before
    · simp only [Function.update_self, next]
      exact .call k r

end Pool

/-! ## Counting on the others -/

/-- What program `i` counts on from all others, what it keeps to itself, and
which calls it may make. The state comes with a ghost. -/
structure Terms {C : Type} (R : C → Type) (ι σ γ : Type) where
  rely : ι → σ × γ → σ × γ → Prop
  guar : ι → σ × γ → σ × γ → Prop
  may : ι → C → σ × γ → Prop
  rely_refl : ∀ i s, rely i s s
  rely_trans : ∀ i s s' s'', rely i s s' → rely i s' s'' → rely i s s''
  kept : ∀ i j s s', i ≠ j → guar i s s' → rely j s s'

namespace Terms

/-- However the others step in before each call, `p` makes only calls it may,
keeps to the terms, and ends with what `Q` says. The ghost of a step is chosen
by the proof. -/
def wp (T : Terms R ι σ γ) (sem : Sem ι σ R) (i : ι) :
    Prog R α → (α → σ × γ → Prop) → σ × γ → Prop
  | .ret a, Q, s => ∀ s', T.rely i s s' → Q a s'
  | .call c k, Q, s => ∀ s', T.rely i s s' → T.may i c s' ∧
      ∀ r t, sem i c s'.1 r t → ∃ g, T.guar i s' (t, g) ∧ T.wp sem i (k r) Q (t, g)

variable {T : Terms R ι σ γ} {sem : Sem ι σ R} {i : ι} {s s' : σ × γ}

theorem wp.rely {p : Prog R α} {Q : α → σ × γ → Prop} (h : T.wp sem i p Q s)
    (others : T.rely i s s') : T.wp sem i p Q s' := by
  cases p with
  | ret a => exact fun s'' more => h s'' (T.rely_trans i _ _ _ others more)
  | call c k => exact fun s'' more => h s'' (T.rely_trans i _ _ _ others more)

theorem wp.mono {p : Prog R α} {Q Q' : α → σ × γ → Prop} (h : T.wp sem i p Q s)
    (imp : ∀ a s, Q a s → Q' a s) : T.wp sem i p Q' s := by
  induction p generalizing s with
  | ret a => exact fun s' others => imp a s' (h s' others)
  | call c k ih =>
    intro s' others
    obtain ⟨may, does⟩ := h s' others
    refine ⟨may, fun r t step => ?_⟩
    obtain ⟨g, guar, rest⟩ := does r t step
    exact ⟨g, guar, ih r rest⟩

/-- On other terms that leave more open. -/
theorem wp.terms {T' : Terms R ι σ γ} {p : Prog R α} {Q : α → σ × γ → Prop}
    (h : T.wp sem i p Q s) (rely : ∀ s s', T'.rely i s s' → T.rely i s s')
    (guar : ∀ s s', T.guar i s s' → T'.guar i s s')
    (may : ∀ c s, T.may i c s → T'.may i c s) : T'.wp sem i p Q s := by
  induction p generalizing s with
  | ret a => exact fun s' others => h s' (rely s s' others)
  | call c k ih =>
    intro s' others
    obtain ⟨ok, does⟩ := h s' (rely s s' others)
    refine ⟨may c s' ok, fun r t step => ?_⟩
    obtain ⟨g, kept, rest⟩ := does r t step
    exact ⟨g, guar _ _ kept, ih r rest⟩

/-- One program after another. -/
theorem wp_bind {p : Prog R α} {f : α → Prog R β} {Q : β → σ × γ → Prop} :
    T.wp sem i (p >>= f) Q s ↔ T.wp sem i p (fun a s => T.wp sem i (f a) Q s) s := by
  induction p generalizing s with
  | ret a => exact ⟨fun h s' others => h.rely others, fun h => h s (T.rely_refl i s)⟩
  | call c k ih => simp only [Prog.call_bind, wp, ih]

/-! ### Programs with a state of their own -/

/-- `wp` of a program that keeps a `δ` to itself. -/
def does {δ : Type} (T : Terms R ι σ γ) (sem : Sem ι σ R) (i : ι) (m : StateT δ (Prog R) α)
    (Q : α → δ → σ × γ → Prop) (d : δ) (s : σ × γ) : Prop :=
  T.wp sem i (m.run d) (fun x => Q x.1 x.2) s

section
variable {δ : Type} {d : δ} {m : StateT δ (Prog R) α} {f : α → StateT δ (Prog R) β}
  {Q Q' : α → δ → σ × γ → Prop} {Q₂ : β → δ → σ × γ → Prop}

theorem does.rely (h : T.does sem i m Q d s) (others : T.rely i s s') : T.does sem i m Q d s' :=
  wp.rely h others

theorem does.mono (h : T.does sem i m Q d s) (imp : ∀ a d s, Q a d s → Q' a d s) :
    T.does sem i m Q' d s :=
  wp.mono h fun x => imp x.1 x.2

theorem does_bind : T.does sem i (m >>= f) Q₂ d s ↔
    T.does sem i m (fun a d s => T.does sem i (f a) Q₂ d s) d s :=
  wp_bind

theorem does_pure {a : α} : T.does sem i (pure a) Q d s ↔ ∀ s', T.rely i s s' → Q a d s' := Iff.rfl

theorem does_get {f : δ → StateT δ (Prog R) β} :
    T.does sem i (get >>= f) Q₂ d s ↔ T.does sem i (f d) Q₂ d s :=
  Iff.rfl

theorem does_modify {g : δ → δ} {f : PUnit → StateT δ (Prog R) β} :
    T.does sem i (modify g >>= f) Q₂ d s ↔ T.does sem i (f ()) Q₂ (g d) s :=
  Iff.rfl

end

variable [DecidableEq ι] {S : D → Type}

/-- **Any order.** Programs that keep to the terms go on doing so in every run;
the ghost of each state comes from that of the state before by the terms of
the program that made the step. -/
theorem together {Q : ι → β → σ × γ → Prop} {P P' : Pool R ι σ β} {g : γ} {i : ι}
    (all : ∀ j, T.wp sem j (P.prog j) (Q j) (P.state, g)) (step : Pool.Step sem i P P') :
    ∃ g', T.guar i (P.state, g) (P'.state, g') ∧
      ∀ j, T.wp sem j (P'.prog j) (Q j) (P'.state, g') := by
  cases step with
  | @call c k r t next does =>
    have mine := all i
    rw [next] at mine
    obtain ⟨g', guar, rest⟩ := (mine _ (T.rely_refl i _)).2 r t does
    refine ⟨g', guar, fun j => ?_⟩
    rcases eq_or_ne j i with rfl | other
    · simpa only [Function.update_self] using rest
    · simp only [Function.update_of_ne other]
      exact (all j).rely (T.kept i j _ _ other.symm guar)

/-- What is proved of each program holds of the last state of a run. -/
theorem together_run {Q : ι → β → σ × γ → Prop} {P P' : Pool R ι σ β} {g : γ}
    (all : ∀ j, T.wp sem j (P.prog j) (Q j) (P.state, g)) (run : Pool.Reaches sem P P') :
    ∃ g', Relation.ReflTransGen (fun s s' => ∃ i, T.guar i s s') (P.state, g) (P'.state, g') ∧
      ∀ j, T.wp sem j (P'.prog j) (Q j) (P'.state, g') := by
  induction run with
  | refl => exact ⟨g, .refl, all⟩
  | step run last ih =>
    obtain ⟨g', before, all'⟩ := ih
    obtain ⟨g'', guar, all''⟩ := together all' last
    exact ⟨g'', before.tail ⟨_, guar⟩, all''⟩

/-- **Side by side like one at a time.** A pool read off the ghost, of which a
program makes at most one step where its program makes one, is all there is to see. -/
theorem simulates {spec : Sem ι τ S} {P : Pool R ι σ β} {g : γ} (abs : γ → Pool S ι τ β)
    (steps : ∀ i s s', T.guar i s s' →
      abs s'.2 = abs s.2 ∨ Pool.Step spec i (abs s.2) (abs s'.2))
    (all : ∀ j, T.wp sem j (P.prog j) (fun b s => (abs s.2).prog j = .ret b) (P.state, g)) :
    Pool.Simulates sem spec P (abs g) := by
  refine ⟨fun P A => ∃ g, A = abs g ∧
    ∀ j, T.wp sem j (P.prog j) (fun b s => (abs s.2).prog j = .ret b) (P.state, g),
    ⟨g, rfl, all⟩, ?_⟩
  rintro P A ⟨g, rfl, all⟩
  constructor
  · intro i b ended
    have last := all i
    rw [ended] at last
    exact last _ (T.rely_refl i _)
  · intro i P' step
    obtain ⟨g', guar, all'⟩ := together all step
    exact ⟨abs g', steps i _ _ guar, g', rfl, all'⟩

end Terms

end UnixProgramming.Calls
