import UnixProgramming.Pipe.Proc

/-!
# Two programs over one connection

* `Eats`: a program that reads a prefix of its input and writes, for every way
  the prefix is cut into pieces and whatever follows it;
* `Duplex`: two programs facing each other, each reading what the other wrote,
  in every order of their steps and for every cutting of the two streams;
* `Ends`: every run of the two ends, with both finished, in a given condition;
* `Ends.left`, `Ends.right`: what one side eats may be done first. The rest of
  the module reduces a proof about all interleavings to one straight line.
-/

namespace UnixProgramming.Pipe

variable {β ν α γ : Type}

/-- `Eats T p w o t`: reading `w`, with anything behind it, `p` makes the
writes `o` and the marks `t` and becomes one of the programs in `T`, and has
read nothing behind `w`. Which one it becomes may depend on the cutting. -/
inductive Eats (T : Proc β ν α → Prop) :
    Proc β ν α → List β → List (List β) → List ν → Prop where
  | refl {p} (there : T p) : Eats T p [] [] []
  | send {bs k w o t} : Eats T k w o t → Eats T (.send bs k) w (bs :: o) t
  | note {n k w o t} : Eats T k w o t → Eats T (.note n k) w o (n :: t)
  | recv {len k w o t} (pos : 0 < len) (inside : len ≤ w.length)
      (each : ∀ u v, u ≠ [] → u.length ≤ len → w = u ++ v → Eats T (k (some u)) v o t) :
      Eats T (.recv len k) w o t
  | peek {len k w o t} (some' : w ≠ []) (pos : 0 < len)
      (each : ∀ u e, u ≠ [] → u.length ≤ len → u <+: w ++ e → Eats T (k (some u)) w o t) :
      Eats T (.peek len k) w o t
  | await {timed k w o t} (some' : w ≠ []) : Eats T (k true) w o t →
      Eats T (.await timed k) w o t

namespace Eats

variable {T U : Proc β ν α → Prop}

theorem exists_target {p : Proc β ν α} {w : List β} {o : List (List β)} {t : List ν}
    (h : Eats T p w o t) : ∃ q, T q := by
  induction h with
  | refl there => exact ⟨_, there⟩
  | send _ ih | note _ ih | await _ _ ih => exact ih
  | @recv len k w o t pos inside _ ih =>
    obtain ⟨b, w, rfl⟩ := List.exists_cons_of_length_pos (l := w) (by omega)
    exact ih [b] w (by simp) (by simp; omega) rfl
  | @peek len k w o t some' pos _ ih =>
    obtain ⟨b, w, rfl⟩ := List.exists_cons_of_ne_nil some'
    exact ih [b] [] (by simp) (by simp; omega) (by simp)

theorem mono {p : Proc β ν α} {w : List β} {o : List (List β)} {t : List ν}
    (h : Eats T p w o t) (imp : ∀ q, T q → U q) : Eats U p w o t := by
  induction h with
  | refl there => exact .refl (imp _ there)
  | send _ ih => exact .send ih
  | note _ ih => exact .note ih
  | recv pos inside _ ih => exact .recv pos inside ih
  | peek some' pos _ ih => exact .peek some' pos ih
  | await some' _ ih => exact .await some' ih

theorem trans {p : Proc β ν α} {w₁ w₂ : List β} {o₁ o₂ : List (List β)} {t₁ t₂ : List ν}
    (h₁ : Eats T p w₁ o₁ t₁) (h₂ : ∀ q, T q → Eats U q w₂ o₂ t₂) :
    Eats U p (w₁ ++ w₂) (o₁ ++ o₂) (t₁ ++ t₂) := by
  induction h₁ with
  | refl there => exact h₂ _ there
  | send _ ih => exact .send ih
  | note _ ih => exact .note ih
  | @recv len k w o t pos inside _ ih =>
    refine .recv pos (by simp; omega) fun u v hu hl h => ?_
    obtain ⟨v', rfl, rfl⟩ : ∃ v', v = v' ++ w₂ ∧ w = u ++ v' := by
      have hp : u <+: w := List.prefix_of_prefix_length_le (h ▸ List.prefix_append u v)
        (List.prefix_append w w₂) (by omega)
      obtain ⟨v', rfl⟩ := hp
      exact ⟨v', by simpa using h.symm, rfl⟩
    exact ih u v' hu hl rfl
  | @peek len k w o t some' pos _ ih =>
    refine .peek (by simp [some']) pos fun u e hu hl h => ?_
    exact ih u (w₂ ++ e) hu hl (by simpa using h)
  | await some' _ ih => exact .await (by simp [some']) ih

end Eats

/-- `Reads R p w o t`: `p` reads exactly `w`, with the writes `o` and the
marks `t`, and returns a value in `R`. -/
def Reads (R : α → Prop) (p : Proc β ν α) (w : List β) (o : List (List β)) (t : List ν) : Prop :=
  Eats (fun q => ∃ a, R a ∧ q = .ret a) p w o t

theorem Reads.ret {R : α → Prop} {a : α} (h : R a) :
    Reads R (.ret a : Proc β ν α) [] [] [] :=
  .refl ⟨a, h, rfl⟩

/-- What follows a program that reads exactly `u` starts behind `u`. -/
theorem Reads.bind {R : α → Prop} {p : Proc β ν α} {u w : List β} {m o : List (List β)}
    {s t : List ν} (hp : Reads R p u m s) {T : Proc β ν γ → Prop} {f : α → Proc β ν γ}
    (hf : ∀ a, R a → Eats T (f a) w o t) :
    Eats T (p >>= f) (u ++ w) (m ++ o) (s ++ t) := by
  induction hp with
  | refl there =>
    obtain ⟨a, ha, rfl⟩ := there
    exact hf a ha
  | send _ ih => exact .send ih
  | note _ ih => exact .note ih
  | @recv len k u m s pos inside _ ih =>
    refine .recv pos (by simp; omega) fun x v hx hl h => ?_
    obtain ⟨v', rfl, rfl⟩ : ∃ v', v = v' ++ w ∧ u = x ++ v' := by
      have hp : x <+: u := List.prefix_of_prefix_length_le (h ▸ List.prefix_append x v)
        (List.prefix_append u w) (by omega)
      obtain ⟨v', rfl⟩ := hp
      exact ⟨v', by simpa using h.symm, rfl⟩
    exact ih x v' hx hl rfl
  | @peek len k u m s some' pos _ ih =>
    refine .peek (by simp [some']) pos fun x e hx hl h => ?_
    exact ih x (w ++ e) hx hl (by simpa using h)
  | await some' _ ih => exact .await (by simp [some']) ih

/-- What follows reads nothing more. -/
theorem Reads.finish {R : α → Prop} {p : Proc β ν α} {w : List β} {o : List (List β)}
    {t : List ν} (hp : Reads R p w o t) {T : Proc β ν γ → Prop} {f : α → Proc β ν γ}
    (hf : ∀ a, R a → Eats T (f a) [] [] []) : Eats T (p >>= f) w o t := by
  have := hp.bind hf
  rwa [List.append_nil, List.append_nil, List.append_nil] at this

/-- What a first program does with its input before it has ended. -/
theorem Eats.bind {T : Proc β ν α → Prop} {p : Proc β ν α} {w : List β} {o : List (List β)}
    {t : List ν} (hp : Eats T p w o t) (f : α → Proc β ν γ) :
    Eats (fun q => ∃ p', T p' ∧ q = p' >>= f) (p >>= f) w o t := by
  induction hp with
  | refl there => exact .refl ⟨_, there, rfl⟩
  | send _ ih => exact .send ih
  | note _ ih => exact .note ih
  | recv pos inside _ ih => exact .recv pos inside ih
  | peek some' pos _ ih => exact .peek some' pos ih
  | await some' _ ih => exact .await some' ih

/-! ## Against a given peer -/

/-- The first bytes of a peer are eaten as `Eats` says, if the peer is
punctual or the program has no timed wait. -/
theorem exec_eats {T : Proc β ν α → Prop} {p : Proc β ν α} {w : List β} {o : List (List β)}
    {t : List ν} (h : Eats T p w o t) (rest : List β) (ending : Ending) :
    ∀ ticks, 0 ∉ ticks ∨ p.Untimed → ∃ q ticks', T q ∧ (0 ∉ ticks → 0 ∉ ticks') ∧
      exec p ⟨w ++ rest, ending, ticks⟩ = (exec q ⟨rest, ending, ticks'⟩).after o t := by
  have tail {ts : List Nat} (h : 0 ∉ ts) : 0 ∉ ts.tail := fun m => h (List.mem_of_mem_tail m)
  induction h with
  | @refl p there => exact fun ts _ => ⟨p, ts, there, id, rfl⟩
  | send _ ih =>
    intro ts h0
    obtain ⟨q, ts', hq, h0', e⟩ := ih ts h0
    exact ⟨q, ts', hq, h0', by simp [e]⟩
  | note _ ih =>
    intro ts h0
    obtain ⟨q, ts', hq, h0', e⟩ := ih ts h0
    exact ⟨q, ts', hq, h0', by simp [e]⟩
  | @recv len k w o t pos inside _ ih =>
    intro ts h0
    obtain ⟨b, w, rfl⟩ := List.exists_cons_of_length_pos (l := w) (by omega)
    let W : Wire β := ⟨b :: w ++ rest, ending, ts⟩
    have hs : 0 < W.share len ∧ W.share len ≤ len := by simp only [Wire.share]; omega
    obtain ⟨q, ts', hq, h0', e⟩ := ih ((b :: w).take (W.share len))
      ((b :: w).drop (W.share len)) (by simp; omega) (by rw [List.length_take]; omega) (by simp)
      ts.tail (h0.imp tail fun hu => hu _)
    refine ⟨q, ts', hq, fun h => h0' (tail h), ?_⟩
    rw [← e]
    have hle : W.share len ≤ (b :: w).length := by omega
    change exec (k (some (List.take (W.share len) (b :: w ++ rest))))
      ⟨List.drop (W.share len) (b :: w ++ rest), ending, ts.tail⟩ = _
    rw [List.take_append_of_le_length hle, List.drop_append_of_le_length hle]
  | @peek len k w o t some' pos _ ih =>
    intro ts h0
    obtain ⟨b, w, rfl⟩ := List.exists_cons_of_ne_nil some'
    let W : Wire β := ⟨b :: w ++ rest, ending, ts⟩
    have hs : 0 < W.share len ∧ W.share len ≤ len := by simp only [Wire.share]; omega
    obtain ⟨q, ts', hq, h0', e⟩ := ih ((b :: w ++ rest).take (W.share len)) rest
      (by simp; omega) (by rw [List.length_take]; omega) (List.take_prefix _ _) ts.tail
      (h0.imp tail fun hu => hu _)
    exact ⟨q, ts', hq, fun h => h0' (tail h), e⟩
  | @await timed k w o t some' _ ih =>
    intro ts h0
    obtain ⟨b, w, rfl⟩ := List.exists_cons_of_ne_nil some'
    obtain ⟨q, ts', hq, h0', e⟩ := ih ts.tail (h0.imp tail fun hu => hu.2 _)
    refine ⟨q, ts', hq, fun h => h0' (tail h), ?_⟩
    have late : (timed && ts.headD 1 == 0) = false := by
      rcases h0 with h0 | h0
      · cases ts with
        | nil => simp
        | cons n ts =>
          simp only [List.mem_cons, not_or] at h0
          simp [Ne.symm h0.1]
      · simp [h0.1]
    simp only [exec, late]
    exact e

/-- A program without timed waits that reads exactly `w` does so from any
peer whose next bytes are `w`. -/
theorem exec_reads {R : α → Prop} {p : Proc β ν α} {w : List β} {o : List (List β)} {t : List ν}
    (h : Reads R p w o t) (hu : p.Untimed) (rest : List β) (ending : Ending) (ticks : List Nat) :
    ∃ a ticks', R a ∧ (0 ∉ ticks → 0 ∉ ticks') ∧
      exec p ⟨w ++ rest, ending, ticks⟩ = ⟨o, t, .done a ⟨rest, ending, ticks'⟩⟩ := by
  obtain ⟨q, ticks', ⟨a, ha, rfl⟩, h0, e⟩ := exec_eats h rest ending ticks (.inr hu)
  exact ⟨a, ticks', ha, h0, by simp [e, Outcome.after]⟩

/-! ## Facing each other -/

/-- What a program has written so far, write by write, and its marks. -/
@[ext] structure Log (β ν : Type) where
  wrote : List (List β)
  notes : List ν

namespace Log

def empty : Log β ν := ⟨[], []⟩

def add (l : Log β ν) (o : List (List β)) (t : List ν) : Log β ν := ⟨l.wrote ++ o, l.notes ++ t⟩

@[simp] theorem add_wrote (l : Log β ν) (o : List (List β)) (t : List ν) :
    (l.add o t).wrote = l.wrote ++ o := rfl
@[simp] theorem add_notes (l : Log β ν) (o : List (List β)) (t : List ν) :
    (l.add o t).notes = l.notes ++ t := rfl
@[simp] theorem empty_add (o : List (List β)) (t : List ν) :
    (empty.add o t : Log β ν) = ⟨o, t⟩ := by simp [empty, add]
@[simp] theorem add_nil (l : Log β ν) : l.add [] [] = l := by simp [add]
@[simp] theorem add_add (l : Log β ν) (o o' : List (List β)) (t t' : List ν) :
    (l.add o t).add o' t' = l.add (o ++ o') (t ++ t') := by simp [add]

end Log

/-- One system call of a program whose unread input is the second argument;
`finished` says that the other side has finished, so that its stream has an end.
Timed waits do not expire. -/
inductive Move (finished : Bool) : Proc β ν α → List β → Proc β ν α → List β →
    List (List β) → List ν → Prop where
  | send (bs k q) : Move finished (.send bs k) q k q [bs] []
  | note (n k q) : Move finished (.note n k) q k q [] [n]
  | recv (len k) {u : List β} (v) (some' : u ≠ []) (fits : u.length ≤ len) :
      Move finished (.recv len k) (u ++ v) (k (some u)) v [] []
  | recvEnd (len k) (ended : finished) : Move finished (.recv len k) [] (k (some [])) [] [] []
  | peek (len k) {u : List β} (v) (some' : u ≠ []) (fits : u.length ≤ len) :
      Move finished (.peek len k) (u ++ v) (k (some u)) (u ++ v) [] []
  | peekEnd (len k) (ended : finished) : Move finished (.peek len k) [] (k (some [])) [] [] []
  | await (timed k) {q : List β} (some' : q ≠ []) :
      Move finished (.await timed k) q (k true) q [] []
  | awaitEnd (timed k) (ended : finished) : Move finished (.await timed k) [] (k true) [] [] []

/-- More input takes no move away, unless the move saw the end of the stream. -/
theorem Move.more {p p' : Proc β ν α} {i i' : List β} {o : List (List β)} {t : List ν}
    (h : Move false p i p' i' o t) (finished : Bool) (e : List β) :
    Move finished p (i ++ e) p' (i' ++ e) o t := by
  cases h with
  | send => exact .send ..
  | note => exact .note ..
  | recv len k _ hu hl => rw [List.append_assoc]; exact .recv len k (i' ++ e) hu hl
  | peek len k v hu hl => rw [List.append_assoc]; exact .peek len k (v ++ e) hu hl
  | await timed k hq => exact .await timed k (by simp [hq])
  | recvEnd _ _ ended | peekEnd _ _ ended | awaitEnd _ _ ended => cases ended

/-- A move leads to no value that the program could not return before. -/
theorem Move.all {finished : Bool} {P : α → Prop} {p p' : Proc β ν α} {i i' : List β}
    {o : List (List β)} {t : List ν} (move : Move finished p i p' i' o t) (h : p.All P) :
    p'.All P := by
  have fits {len : Nat} {u : List β} (hl : u.length ≤ len) : Proc.Fits len (some u) := by
    rintro bs ⟨⟩
    exact hl
  cases move with
  | send | note => exact h
  | recv _ _ _ _ hl | peek _ _ _ _ hl => exact h _ (fits hl)
  | recvEnd | peekEnd => exact h _ (fits (Nat.zero_le _))
  | await | awaitEnd => exact h _

def Proc.finished : Proc β ν α → Bool
  | .ret _ => true
  | _ => false

/-- Two programs, their logs, and the bytes under way to each of them. -/
structure Duplex (β ν α γ : Type) where
  left : Proc β ν α
  right : Proc β ν γ
  leftLog : Log β ν
  rightLog : Log β ν
  toLeft : List β
  toRight : List β

namespace Duplex

def start (p : Proc β ν α) (q : Proc β ν γ) : Duplex β ν α γ := ⟨p, q, .empty, .empty, [], []⟩

def swap (d : Duplex β ν α γ) : Duplex β ν γ α :=
  ⟨d.right, d.left, d.rightLog, d.leftLog, d.toRight, d.toLeft⟩

inductive Step : Duplex β ν α γ → Duplex β ν α γ → Prop where
  | left {p q l r i j p' i' o t} (move : Move q.finished p i p' i' o t) :
      Step ⟨p, q, l, r, i, j⟩ ⟨p', q, l.add o t, r, i', j ++ o.flatten⟩
  | right {p q l r i j q' j' o t} (move : Move p.finished q j q' j' o t) :
      Step ⟨p, q, l, r, i, j⟩ ⟨p, q', l, r.add o t, i ++ o.flatten, j'⟩

theorem Step.swap {d e : Duplex β ν α γ} (h : Step d e) : Step d.swap e.swap := by
  cases h with
  | left move => exact .right move
  | right move => exact .left move

end Duplex

open Duplex (Step)

/-- Every run from the given state is finite and gets both programs to their
end, with the two values and logs in `Q`. -/
inductive Ends (Q : α → γ → Log β ν → Log β ν → Prop) : Duplex β ν α γ → Prop where
  | done {a c l r i j} (post : Q a c l r) : Ends Q ⟨.ret a, .ret c, l, r, i, j⟩
  | step {d} (moves : ∃ e, Step d e) (next : ∀ e, Step d e → Ends Q e) : Ends Q d

namespace Ends

variable {Q Q' : α → γ → Log β ν → Log β ν → Prop}

theorem swap {d : Duplex β ν α γ} (h : Ends Q d) : Ends (fun c a r l => Q a c l r) d.swap := by
  induction h with
  | done post => exact .done post
  | step moves _ ih =>
    obtain ⟨e, he⟩ := moves
    exact .step ⟨e.swap, he.swap⟩ fun f hf => ih f.swap hf.swap

theorem mono (h : ∀ a c l r, Q a c l r → Q' a c l r) {d : Duplex β ν α γ} (hd : Ends Q d) :
    Ends Q' d := by
  induction hd with
  | done post => exact .done (h _ _ _ _ post)
  | step moves _ ih => exact .step moves ih

/-- What every value of the right program has shows in the end. -/
theorem all_right {P : γ → Prop} {d : Duplex β ν α γ} (h : d.right.All P) (hd : Ends Q d) :
    Ends (fun a c l r => P c ∧ Q a c l r) d := by
  induction hd with
  | done post => exact .done ⟨h, post⟩
  | step moves _ ih =>
    refine .step moves fun e he => ih e he ?_
    cases he with
    | left => exact h
    | right move => exact move.all h

/-- Two results of the same start hold together of some run. -/
theorem both {d : Duplex β ν α γ} (h : Ends Q d) (h' : Ends Q' d) :
    ∃ a c l r, Q a c l r ∧ Q' a c l r := by
  induction h with
  | done post =>
    cases h' with
    | done post' => exact ⟨_, _, _, _, post, post'⟩
    | step moves =>
      obtain ⟨e, he⟩ := moves
      cases he with
      | left move => cases move
      | right move => cases move
  | step moves _ ih =>
    obtain ⟨e, he⟩ := moves
    cases h' with
    | done =>
      cases he with
      | left move => cases move
      | right move => cases move
    | step _ next => exact ih e he (next e he)

/-- The inner induction of `left`: `h` ends the run once everything is eaten
and `others` ends it after any move of the right side on the way there. -/
theorem left_of_others {T : Proc β ν α → Prop} {q : Proc β ν γ} {L r : Log β ν}
    {rest J : List β} (h : ∀ p', T p' → Ends Q ⟨p', q, L, r, rest, J⟩)
    (others : ∀ p w o t l j, Eats T p w o t → l.add o t = L → j ++ o.flatten = J →
      ∀ q' j' o' t', Move false q j q' j' o' t' →
        Ends Q ⟨p, q', l, r.add o' t', w ++ rest ++ o'.flatten, j'⟩)
    {p : Proc β ν α} {w : List β} {o : List (List β)} {t : List ν} (he : Eats T p w o t) :
    ∀ l j, l.add o t = L → j ++ o.flatten = J → Ends Q ⟨p, q, l, r, w ++ rest, j⟩ := by
  induction he with
  | refl there => rintro l j rfl rfl; simpa using h _ there
  | @send bs k w o t he ih =>
    intro l j hL hJ
    refine .step ⟨_, .left (.send ..)⟩ fun e hs => ?_
    cases hs with
    | right m => exact others _ w _ _ l j (.send he) hL hJ _ _ _ _ m
    | left m =>
      cases m
      exact ih _ _ (by simpa using hL) (by simpa using hJ)
  | @note n k w o t he ih =>
    intro l j hL hJ
    refine .step ⟨_, .left (.note ..)⟩ fun e hs => ?_
    cases hs with
    | right m => exact others _ w _ _ l j (.note he) hL hJ _ _ _ _ m
    | left m =>
      cases m
      exact ih _ _ (by simpa using hL) (by simpa using hJ)
  | @recv len k w o t pos inside each ih =>
    intro l j hL hJ
    obtain ⟨b, w', hw⟩ := List.exists_cons_of_length_pos (l := w) (by omega)
    have can : Move q.finished (.recv len k) (w ++ rest) (k (some [b])) (w' ++ rest) [] [] :=
      hw ▸ .recv len k (u := [b]) (w' ++ rest) (by simp) (by simp; omega)
    refine .step ⟨_, .left can⟩ fun e hs => ?_
    cases hs with
    | right m => exact others _ w _ _ l j (.recv pos inside each) hL hJ _ _ _ _ m
    | @left _ _ _ _ _ _ _ i₂ _ _ m =>
      generalize hq : w ++ rest = x at m
      cases m with
      | @recv _ _ u _ hu hl =>
        have hp : u <+: w := List.prefix_of_prefix_length_le
          (hq ▸ List.prefix_append u i₂) (List.prefix_append w rest) (by omega)
        obtain ⟨v, rfl⟩ := hp
        obtain rfl : i₂ = v ++ rest := by simpa using hq.symm
        simpa using ih u v hu hl rfl l j hL hJ
      | recvEnd =>
        obtain ⟨rfl, -⟩ := List.append_eq_nil_iff.1 hq
        cases hw
  | @peek len k w o t some' pos each ih =>
    intro l j hL hJ
    obtain ⟨b, w', hw⟩ := List.exists_cons_of_ne_nil some'
    have can : Move q.finished (.peek len k) (w ++ rest) (k (some [b])) (w ++ rest) [] [] :=
      hw ▸ .peek len k (u := [b]) (w' ++ rest) (by simp) (by simp; omega)
    refine .step ⟨_, .left can⟩ fun e hs => ?_
    cases hs with
    | right m => exact others _ w _ _ l j (.peek some' pos each) hL hJ _ _ _ _ m
    | left m =>
      generalize hq : w ++ rest = x at m
      cases m with
      | @peek _ _ u v hu hl =>
        have hp : u <+: w ++ rest := hq ▸ List.prefix_append u v
        rw [← hq]
        exact ih u rest hu hl hp _ _ (by simpa using hL) (by simpa using hJ)
      | peekEnd => exact absurd (List.append_eq_nil_iff.1 hq).1 some'
  | @await timed k w o t some' he ih =>
    intro l j hL hJ
    refine .step ⟨_, .left (.await timed k (by simp [some']))⟩ fun e hs => ?_
    cases hs with
    | right m => exact others _ w _ _ l j (.await some' he) hL hJ _ _ _ _ m
    | left m =>
      generalize hq : w ++ rest = x at m
      cases m with
      | await =>
        rw [← hq]
        exact ih _ _ (by simpa using hL) (by simpa using hJ)
      | awaitEnd => exact absurd (List.append_eq_nil_iff.1 hq).1 some'

theorem next_of_step {d e : Duplex β ν α γ} (h : Ends Q d) (hs : Step d e) : Ends Q e := by
  cases h with
  | step _ next => exact next e hs
  | done =>
    cases hs with
    | left move => cases move
    | right move => cases move

/-- **What the left side eats may be done first.** If every run ends well
once the left program has read `w` and written `o`, every run from before
ends well, whatever the right side does in between. -/
theorem left {T : Proc β ν α → Prop} {p : Proc β ν α} {w : List β} {o : List (List β)}
    {t : List ν} (he : Eats T p w o t) {q : Proc β ν γ} {l r : Log β ν} {rest j : List β}
    (h : ∀ p', T p' → Ends Q ⟨p', q, l.add o t, r, rest, j ++ o.flatten⟩) :
    Ends Q ⟨p, q, l, r, w ++ rest, j⟩ := by
  -- outside on the run from one of the eaten states, inside on the meal
  obtain ⟨p₀, h₀⟩ := he.exists_target
  have run := h p₀ h₀
  generalize hS : (⟨p₀, q, l.add o t, r, rest, j ++ o.flatten⟩ : Duplex β ν α γ) = S at run
  induction run generalizing p w o t q l r rest j with
  | done post =>
    cases hS
    refine left_of_others h ?_ he l j rfl rfl
    intro _ _ _ _ _ _ _ _ _ _ _ _ _ m
    cases m
  | step _ _ ih =>
    subst hS
    refine left_of_others h ?_ he l j rfl rfl
    intro p w o t l j he hL hJ q' j' o' t' m
    have m' (p' : Proc β ν α) := m.more p'.finished o.flatten
    rw [hJ] at m'
    have later : Ends Q ⟨p, q', l, r.add o' t', w ++ (rest ++ o'.flatten), j'⟩ :=
      ih _ (.right (m' p₀)) he
        (fun p' hp => hL ▸ (h p' hp).next_of_step (.right (m' p'))) (by rw [hL])
    simpa using later

/-- The same for the right side. -/
theorem right {T : Proc β ν γ → Prop} {q : Proc β ν γ} {w : List β} {o : List (List β)}
    {t : List ν} (he : Eats T q w o t) {p : Proc β ν α} {l r : Log β ν} {rest i : List β}
    (h : ∀ q', T q' → Ends Q ⟨p, q', l, r.add o t, i ++ o.flatten, rest⟩) :
    Ends Q ⟨p, q, l, r, i, w ++ rest⟩ :=
  (left he fun q' hq => (h q' hq).swap).swap

/-- The left side takes all that has come. -/
theorem left_all {T : Proc β ν α → Prop} {p : Proc β ν α} {w : List β} {o : List (List β)}
    {t : List ν} (he : Eats T p w o t) {q : Proc β ν γ} {l r : Log β ν} {j : List β}
    (h : ∀ p', T p' → Ends Q ⟨p', q, l.add o t, r, [], j ++ o.flatten⟩) :
    Ends Q ⟨p, q, l, r, w, j⟩ :=
  List.append_nil w ▸ left he h

/-- The right side takes all that has come. -/
theorem right_all {T : Proc β ν γ → Prop} {q : Proc β ν γ} {w : List β} {o : List (List β)}
    {t : List ν} (he : Eats T q w o t) {p : Proc β ν α} {l r : Log β ν} {i : List β}
    (h : ∀ q', T q' → Ends Q ⟨p, q', l, r.add o t, i ++ o.flatten, []⟩) :
    Ends Q ⟨p, q, l, r, i, w⟩ :=
  List.append_nil w ▸ right he h

end Ends

end UnixProgramming.Pipe
