import Mathlib.Data.List.Basic

/-!
# Programs that talk over one connection

A `Proc` is a sequential program that writes to one byte stream and reads from
another, at the level of system calls. It has no state of its own: what a
program keeps between calls it passes along.

* `Proc.All`: a property of every value a program can return, whatever it reads;
* `exec`: a run against a peer whose bytes are given, cut anywhere by `ticks`;
* `Eats`: what a program does with a prefix of its input, for every cutting.
-/

namespace UnixProgramming.Pipe

/-- A program over a connection. `recv` and `peek` hand over `none` for an
error and `some []` at the end of the stream; `await` is a select for reading,
with or without a time limit, and hands over whether the connection is ready.
`note` is a ghost mark for the reader of a run and `spin` a loop without end. -/
inductive Proc (β ν α : Type) where
  | ret (a : α)
  | send (bs : List β) (k : Proc β ν α)
  | recv (len : Nat) (k : Option (List β) → Proc β ν α)
  | peek (len : Nat) (k : Option (List β) → Proc β ν α)
  | await (timed : Bool) (k : Bool → Proc β ν α)
  | note (n : ν) (k : Proc β ν α)
  | spin

namespace Proc

variable {β ν α γ δ : Type}

def bind : Proc β ν α → (α → Proc β ν γ) → Proc β ν γ
  | ret a, f => f a
  | send bs k, f => send bs (k.bind f)
  | recv len k, f => recv len fun u => (k u).bind f
  | peek len k, f => peek len fun u => (k u).bind f
  | await timed k, f => await timed fun ready => (k ready).bind f
  | note n k, f => note n (k.bind f)
  | spin, _ => spin

instance : Monad (Proc β ν) where
  pure := ret
  bind := bind

@[simp] theorem pure_eq (a : α) : (pure a : Proc β ν α) = ret a := rfl
@[simp] theorem bind_eq (p : Proc β ν α) (f : α → Proc β ν γ) : p.bind f = p >>= f := rfl
@[simp] theorem ret_bind (a : α) (f : α → Proc β ν γ) : ret a >>= f = f a := rfl
@[simp] theorem send_bind (bs : List β) (k : Proc β ν α) (f : α → Proc β ν γ) :
    send bs k >>= f = send bs (k >>= f) := rfl
@[simp] theorem recv_bind (len : Nat) (k : Option (List β) → Proc β ν α) (f : α → Proc β ν γ) :
    recv len k >>= f = recv len fun u => k u >>= f := rfl
@[simp] theorem peek_bind (len : Nat) (k : Option (List β) → Proc β ν α) (f : α → Proc β ν γ) :
    peek len k >>= f = peek len fun u => k u >>= f := rfl
@[simp] theorem await_bind (timed : Bool) (k : Bool → Proc β ν α) (f : α → Proc β ν γ) :
    await timed k >>= f = await timed fun ready => k ready >>= f := rfl
@[simp] theorem note_bind (n : ν) (k : Proc β ν α) (f : α → Proc β ν γ) :
    note n k >>= f = note n (k >>= f) := rfl
@[simp] theorem spin_bind (f : α → Proc β ν γ) : (spin : Proc β ν α) >>= f = spin := rfl

@[simp] theorem bind_assoc' (p : Proc β ν α) (f : α → Proc β ν γ) (g : γ → Proc β ν δ) :
    p >>= f >>= g = p >>= fun a => f a >>= g := by
  induction p with
  | ret a => rfl
  | send bs k ih => simp only [send_bind, ih]
  | recv len k ih => simp only [recv_bind, ih]
  | peek len k ih => simp only [peek_bind, ih]
  | await timed k ih => simp only [await_bind, ih]
  | note n k ih => simp only [note_bind, ih]
  | spin => rfl

/-- What a call that asks for `len` bytes can hand over. -/
def Fits (len : Nat) (u : Option (List β)) : Prop := ∀ bs, u = some bs → bs.length ≤ len

/-- Every value the program can return satisfies `P`, whatever is read,
whatever times out and wherever it stops. -/
def All (P : α → Prop) : Proc β ν α → Prop
  | ret a => P a
  | send _ k => k.All P
  | recv len k => ∀ u, Fits len u → (k u).All P
  | peek len k => ∀ u, Fits len u → (k u).All P
  | await _ k => ∀ ready, (k ready).All P
  | note _ k => k.All P
  | spin => True

theorem All.bind {P : α → Prop} {Q : γ → Prop} {f : α → Proc β ν γ} {p : Proc β ν α}
    (hp : p.All P) (hf : ∀ a, P a → (f a).All Q) : (p >>= f).All Q := by
  induction p with
  | ret a => exact hf a hp
  | send bs k ih => exact ih hp
  | recv len k ih => exact fun u hu => ih u (hp u hu)
  | peek len k ih => exact fun u hu => ih u (hp u hu)
  | await timed k ih => exact fun ready => ih ready (hp ready)
  | note n k ih => exact ih hp
  | spin => trivial

theorem All.mono {P Q : α → Prop} {p : Proc β ν α} (hp : p.All P) (h : ∀ a, P a → Q a) :
    p.All Q := by
  induction p with
  | ret a => exact h a hp
  | send bs k ih => exact ih hp
  | recv len k ih => exact fun u hu => ih u (hp u hu)
  | peek len k ih => exact fun u hu => ih u (hp u hu)
  | await timed k ih => exact fun ready => ih ready (hp ready)
  | note n k ih => exact ih hp
  | spin => trivial

theorem all_true : ∀ p : Proc β ν α, p.All fun _ => True
  | ret _ => trivial
  | send _ k => all_true k
  | recv _ k => fun u _ => all_true (k u)
  | peek _ k => fun u _ => all_true (k u)
  | await _ k => fun ready => all_true (k ready)
  | note _ k => all_true k
  | spin => trivial

/-- Reading first says nothing about what follows. -/
theorem All.after {Q : γ → Prop} {f : α → Proc β ν γ} (p : Proc β ν α)
    (hf : ∀ a, (f a).All Q) : (p >>= f).All Q :=
  (all_true p).bind fun a _ => hf a

/-- The program has no timed wait. -/
def Untimed : Proc β ν α → Prop
  | ret _ => True
  | send _ k => k.Untimed
  | recv _ k => ∀ u, (k u).Untimed
  | peek _ k => ∀ u, (k u).Untimed
  | await timed k => timed = false ∧ ∀ ready, (k ready).Untimed
  | note _ k => k.Untimed
  | spin => True

theorem Untimed.bind {p : Proc β ν α} (hp : p.Untimed) {f : α → Proc β ν γ}
    (hf : ∀ a, (f a).Untimed) : (p >>= f).Untimed := by
  induction p with
  | ret a => exact hf a
  | send bs k ih => exact ih hp
  | recv len k ih => exact fun u => ih u (hp u)
  | peek len k ih => exact fun u => ih u (hp u)
  | await timed k ih => exact ⟨hp.1, fun ready => ih ready (hp.2 ready)⟩
  | note n k ih => exact ih hp
  | spin => trivial

end Proc

/-! ## A run against a given peer -/

/-- What the peer does after its last byte: nothing, or close its end. -/
inductive Ending where
  | silent
  | closed
  deriving DecidableEq, Repr

/-- The peer's side of a run: the bytes not yet read, its ending, and for each
system call to come how many bytes have arrived for it. A tick of 0 says that
nothing arrives within the limit of a timed wait. -/
structure Wire (β : Type) where
  queue : List β
  ending : Ending
  ticks : List Nat

namespace Wire

variable {β : Type}

/-- No timed wait expires while there are bytes to come. -/
def Punctual (w : Wire β) : Prop := 0 ∉ w.ticks

def next (w : Wire β) : Wire β := { w with ticks := w.ticks.tail }

/-- How many bytes the next call finds, at least one and at most `len`. -/
def share (w : Wire β) (len : Nat) : Nat := min len (max 1 (w.ticks.headD 1))

def drop (w : Wire β) (n : Nat) : Wire β := { w with queue := w.queue.drop n }

end Wire

/-- How a run ends: with a value, in a call that waits for ever, or looping. -/
inductive Fate (β α : Type) where
  | done (a : α) (w : Wire β)
  | blocked
  | spun

def Fate.value {β α : Type} : Fate β α → Option α
  | .done a _ => some a
  | .blocked => none
  | .spun => none

/-- A finished run: the writes in order, the ghost marks in order, the fate. -/
structure Outcome (β ν α : Type) where
  wrote : List (List β)
  notes : List ν
  fate : Fate β α

namespace Outcome

variable {β ν α : Type}

/-- The run `r` after the writes `o` and the marks `t`. -/
def after (o : List (List β)) (t : List ν) (r : Outcome β ν α) : Outcome β ν α :=
  ⟨o ++ r.wrote, t ++ r.notes, r.fate⟩

@[simp] theorem after_wrote (o : List (List β)) (t : List ν) (r : Outcome β ν α) :
    (r.after o t).wrote = o ++ r.wrote := rfl
@[simp] theorem after_notes (o : List (List β)) (t : List ν) (r : Outcome β ν α) :
    (r.after o t).notes = t ++ r.notes := rfl
@[simp] theorem after_fate (o : List (List β)) (t : List ν) (r : Outcome β ν α) :
    (r.after o t).fate = r.fate := rfl

theorem after_nil (r : Outcome β ν α) : r.after [] [] = r := rfl

@[simp] theorem after_after (o o' : List (List β)) (t t' : List ν) (r : Outcome β ν α) :
    (r.after o' t').after o t = r.after (o ++ o') (t ++ t') := by
  simp [after]

end Outcome

/-- Run a program against a peer. Reading at the end of the stream returns at
once when the peer has closed and never when it is silent. -/
def exec {β ν α : Type} : Proc β ν α → Wire β → Outcome β ν α
  | .ret a, w => ⟨[], [], .done a w⟩
  | .send bs k, w => (exec k w).after [bs] []
  | .note n k, w => (exec k w).after [] [n]
  | .recv len k, w =>
    match w.queue, w.ending with
    | [], .closed => exec (k (some [])) w.next
    | [], .silent => ⟨[], [], .blocked⟩
    | q@(_ :: _), _ => exec (k (some (q.take (w.share len)))) (w.drop (w.share len)).next
  | .peek len k, w =>
    match w.queue, w.ending with
    | [], .closed => exec (k (some [])) w.next
    | [], .silent => ⟨[], [], .blocked⟩
    | q@(_ :: _), _ => exec (k (some (q.take (w.share len)))) w.next
  | .await timed k, w =>
    if timed && w.ticks.headD 1 == 0 then exec (k false) w.next
    else match w.queue, w.ending with
      | [], .silent => if timed then exec (k false) w.next else ⟨[], [], .blocked⟩
      | _, _ => exec (k true) w.next
  | .spin, _ => ⟨[], [], .spun⟩

section
variable {β ν α : Type}

@[simp] theorem exec_ret (a : α) (w : Wire β) :
    exec (.ret a : Proc β ν α) w = ⟨[], [], .done a w⟩ := rfl
@[simp] theorem exec_send (bs : List β) (k : Proc β ν α) (w : Wire β) :
    exec (.send bs k) w = (exec k w).after [bs] [] := rfl
@[simp] theorem exec_note (n : ν) (k : Proc β ν α) (w : Wire β) :
    exec (.note n k) w = (exec k w).after [] [n] := rfl
@[simp] theorem exec_spin (w : Wire β) :
    exec (.spin : Proc β ν α) w = ⟨[], [], .spun⟩ := rfl

/-- Peeking at unread bytes shows some of the first of them. -/
theorem exec_peek_some {q : List β} (some' : q ≠ []) (len : Nat) (pos : 0 < len)
    (ending : Ending) (ticks : List Nat) : ∃ u, u ≠ [] ∧ u.length ≤ len ∧ u <+: q ∧
      ∀ k : Option (List β) → Proc β ν α, exec (.peek len k) ⟨q, ending, ticks⟩ =
        exec (k (some u)) ⟨q, ending, ticks.tail⟩ := by
  obtain ⟨b, q, rfl⟩ := List.exists_cons_of_ne_nil some'
  let W : Wire β := ⟨b :: q, ending, ticks⟩
  have hs : 0 < W.share len ∧ W.share len ≤ len := by simp only [Wire.share]; omega
  exact ⟨(b :: q).take (W.share len), by simp; omega, by rw [List.length_take]; omega,
    List.take_prefix _ _, fun k => rfl⟩

@[simp] theorem exec_peek_closed (len : Nat) (k : Option (List β) → Proc β ν α)
    (ticks : List Nat) : exec (.peek len k) ⟨[], .closed, ticks⟩ =
      exec (k (some [])) ⟨[], .closed, ticks.tail⟩ := rfl
@[simp] theorem exec_peek_silent (len : Nat) (k : Option (List β) → Proc β ν α)
    (ticks : List Nat) : exec (.peek len k) ⟨[], .silent, ticks⟩ = ⟨[], [], .blocked⟩ := rfl
@[simp] theorem exec_recv_closed (len : Nat) (k : Option (List β) → Proc β ν α)
    (ticks : List Nat) : exec (.recv len k) ⟨[], .closed, ticks⟩ =
      exec (k (some [])) ⟨[], .closed, ticks.tail⟩ := rfl
@[simp] theorem exec_recv_silent (len : Nat) (k : Option (List β) → Proc β ν α)
    (ticks : List Nat) : exec (.recv len k) ⟨[], .silent, ticks⟩ = ⟨[], [], .blocked⟩ := rfl

/-- Reading unread bytes takes some of the first of them. -/
theorem exec_recv_some {q : List β} (some' : q ≠ []) (len : Nat) (pos : 0 < len)
    (ending : Ending) (ticks : List Nat) : ∃ u v, u ≠ [] ∧ u.length ≤ len ∧ q = u ++ v ∧
      ∀ k : Option (List β) → Proc β ν α, exec (.recv len k) ⟨q, ending, ticks⟩ =
        exec (k (some u)) ⟨v, ending, ticks.tail⟩ := by
  obtain ⟨b, q, rfl⟩ := List.exists_cons_of_ne_nil some'
  let W : Wire β := ⟨b :: q, ending, ticks⟩
  have hs : 0 < W.share len ∧ W.share len ≤ len := by simp only [Wire.share]; omega
  exact ⟨(b :: q).take (W.share len), (b :: q).drop (W.share len), by simp; omega,
    by rw [List.length_take]; omega, by simp, fun k => rfl⟩

theorem exec_await_some {q : List β} (some' : q ≠ []) (ending : Ending) (ticks : List Nat)
    (k : Bool → Proc β ν α) :
    exec (.await false k) ⟨q, ending, ticks⟩ = exec (k true) ⟨q, ending, ticks.tail⟩ := by
  obtain ⟨b, q, rfl⟩ := List.exists_cons_of_ne_nil some'
  rfl

@[simp] theorem exec_await_closed (ticks : List Nat) (k : Bool → Proc β ν α) :
    exec (.await false k) ⟨[], .closed, ticks⟩ = exec (k true) ⟨[], .closed, ticks.tail⟩ := rfl
@[simp] theorem exec_await_silent (ticks : List Nat) (k : Bool → Proc β ν α) :
    exec (.await false k) ⟨[], .silent, ticks⟩ = ⟨[], [], .blocked⟩ := rfl

/-- A timed wait either finds bytes or the end of the stream, or gives up. It
gives up on a punctual peer only when that has fallen silent. -/
theorem exec_await_timed (w : Wire β) (k : Bool → Proc β ν α) :
    exec (.await true k) w = exec (k true) w.next ∧ (w.queue = [] → w.ending = .closed) ∨
    exec (.await true k) w = exec (k false) w.next ∧
      (w.Punctual → w.queue = [] ∧ w.ending = .silent) := by
  obtain ⟨q, ending, ticks⟩ := w
  by_cases late : ticks.headD 1 = 0
  · have wait : (true && ticks.headD 1 == 0) = true := by rw [late]; rfl
    refine .inr ⟨by simp only [exec, wait]; rfl, fun h => absurd ?_ h⟩
    cases ticks with
    | nil => simp at late
    | cons n ts => simp [show n = 0 from late]
  · cases q with
    | cons b q => exact .inl ⟨by simp only [exec, beq_iff_eq, late, Bool.true_and]; rfl, by simp⟩
    | nil =>
      cases ending with
      | closed => exact .inl ⟨by simp only [exec, beq_iff_eq, late, Bool.true_and]; rfl, by simp⟩
      | silent => exact .inr ⟨by simp only [exec, beq_iff_eq, late, Bool.true_and]; rfl, by simp⟩

/-- A sequence of two programs runs as one after the other. -/
theorem exec_bind {γ : Type} (p : Proc β ν α) (f : α → Proc β ν γ) (w : Wire β) :
    exec (p >>= f) w = match (exec p w).fate with
      | .done a w' => (exec (f a) w').after (exec p w).wrote (exec p w).notes
      | .blocked => ⟨(exec p w).wrote, (exec p w).notes, .blocked⟩
      | .spun => ⟨(exec p w).wrote, (exec p w).notes, .spun⟩ := by
  induction p generalizing w with
  | ret a => exact (Outcome.after_nil _).symm
  | send bs k ih =>
    simp only [Proc.send_bind, exec_send, ih, Outcome.after_fate]
    cases (exec k w).fate <;> simp [Outcome.after]
  | note n k ih =>
    simp only [Proc.note_bind, exec_note, ih, Outcome.after_fate]
    cases (exec k w).fate <;> simp [Outcome.after]
  | spin => rfl
  | recv len k ih =>
    simp only [Proc.recv_bind, exec]
    split
    · exact ih _ _
    · rfl
    · exact ih _ _
  | peek len k ih =>
    simp only [Proc.peek_bind, exec]
    split
    · exact ih _ _
    · rfl
    · exact ih _ _
  | await timed k ih =>
    simp only [Proc.await_bind, exec]
    split
    · exact ih _ _
    · split
      · split
        · exact ih _ _
        · rfl
      · exact ih _ _

theorem exec_bind_done {γ : Type} {p : Proc β ν α} {w w' : Wire β} {o : List (List β)}
    {t : List ν} {a : α} (h : exec p w = ⟨o, t, .done a w'⟩) (f : α → Proc β ν γ) :
    exec (p >>= f) w = (exec (f a) w').after o t := by
  simp only [exec_bind, h]

/-- A sequence comes to an end when both programs do. -/
theorem exec_bind_fate {γ : Type} {p : Proc β ν α} {f : α → Proc β ν γ} {w w'' : Wire β} {c : γ} :
    (exec (p >>= f) w).fate = .done c w'' ↔
      ∃ a w', (exec p w).fate = .done a w' ∧ (exec (f a) w').fate = .done c w'' := by
  rw [exec_bind]
  cases (exec p w).fate with
  | done a w' =>
    constructor
    · exact fun ends => ⟨a, w', rfl, ends⟩
    · rintro ⟨_, _, same, ends⟩
      cases same
      exact ends
  | blocked => simp
  | spun => simp

theorem Wire.share_le (w : Wire β) (len : Nat) : w.share len ≤ len := Nat.min_le_left ..

theorem fits_take (w : Wire β) (len : Nat) : Proc.Fits len (some (w.queue.take (w.share len))) := by
  rintro bs ⟨⟩
  have := w.share_le len
  simp only [List.length_take]
  omega

/-- A run returns only values the program can return. -/
theorem exec_all {P : α → Prop} {p : Proc β ν α} (hp : p.All P) {w w' : Wire β} {a : α}
    (h : (exec p w).fate = .done a w') : P a := by
  have ended (len : Nat) : Proc.Fits len (some ([] : List β)) := by rintro bs ⟨⟩; simp
  induction p generalizing w with
  | ret b =>
    simp only [exec_ret, Fate.done.injEq] at h
    exact h.1 ▸ hp
  | send bs k ih => exact ih hp h
  | note n k ih => exact ih hp h
  | spin => cases h
  | recv len k ih =>
    obtain ⟨q, ending, ticks⟩ := w
    cases q with
    | cons b q => exact ih _ (hp _ (fits_take ⟨b :: q, ending, ticks⟩ len)) h
    | nil =>
      cases ending with
      | closed => exact ih _ (hp _ (ended len)) h
      | silent => cases h
  | peek len k ih =>
    obtain ⟨q, ending, ticks⟩ := w
    cases q with
    | cons b q => exact ih _ (hp _ (fits_take ⟨b :: q, ending, ticks⟩ len)) h
    | nil =>
      cases ending with
      | closed => exact ih _ (hp _ (ended len)) h
      | silent => cases h
  | await timed k ih =>
    simp only [exec] at h
    split at h
    · exact ih _ (hp _) h
    · split at h
      · split at h
        · exact ih _ (hp _) h
        · cases h
      · exact ih _ (hp _) h

end

end UnixProgramming.Pipe
