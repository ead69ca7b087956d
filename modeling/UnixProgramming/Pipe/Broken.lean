import UnixProgramming.Pipe.Proc

/-!
# Writes to a peer that has gone

A peer that has closed its end still takes so many writes; at the next one the
program is ended by a signal.

* `Proc.upTo`: the program up to that write;
* `exec_upTo`: it runs as before, if it writes no more than gets through, and
  else is ended.
-/

namespace UnixProgramming.Pipe

variable {β ν α : Type}

/-- The program up to the write behind the first `through`; `none` when it is
ended there. -/
def Proc.upTo : Nat → Proc β ν α → Proc β ν (Option α)
  | _, ret a => ret (some a)
  | 0, send _ _ => ret none
  | through + 1, send bs k => send bs (k.upTo through)
  | through, recv len k => recv len fun u => (k u).upTo through
  | through, peek len k => peek len fun u => (k u).upTo through
  | through, await timed k => await timed fun ready => (k ready).upTo through
  | through, note n k => note n (k.upTo through)
  | _, spin => spin

/-- The program before a peer that keeps its end or closes it. -/
def Proc.before (e : Ending) (through : Nat) (p : Proc β ν α) : Proc β ν (Option α) :=
  match e with
  | .silent => p >>= fun a => ret (some a)
  | .closed => p.upTo through

def Fate.some : Fate β α → Fate β (Option α)
  | .done a w => .done (.some a) w
  | .blocked => .blocked
  | .spun => .spun

/-- What becomes of a run: if no more is written than gets through, nothing is
different, and else the program is ended. -/
structure Broken (through : Nat) (r : Outcome β ν α) (r' : Outcome β ν (Option α)) : Prop where
  whole : r.wrote.length ≤ through → r' = ⟨r.wrote, r.notes, r.fate.some⟩
  ended : through < r.wrote.length → ∃ w, r'.fate = .done none w

theorem Broken.quiet (through : Nat) (fate : Fate β α) :
    Broken through (⟨[], [], fate⟩ : Outcome β ν α) ⟨[], [], fate.some⟩ :=
  ⟨fun _ => rfl, fun more => by simp at more⟩

theorem Broken.send {through : Nat} {r : Outcome β ν α} {r' : Outcome β ν (Option α)}
    (h : Broken through r r') (bs : List β) :
    Broken (through + 1) (r.after [bs] []) (r'.after [bs] []) := by
  constructor
  · intro few
    rw [h.whole (by simpa using few)]
    rfl
  · intro more
    exact h.ended (by simpa using more)

theorem Broken.note {through : Nat} {r : Outcome β ν α} {r' : Outcome β ν (Option α)}
    (h : Broken through r r') (n : ν) : Broken through (r.after [] [n]) (r'.after [] [n]) := by
  constructor
  · intro few
    rw [h.whole few]
    rfl
  · exact h.ended

theorem exec_upTo (p : Proc β ν α) :
    ∀ (through : Nat) (w : Wire β), Broken through (exec p w) (exec (p.upTo through) w) := by
  induction p with
  | ret a => intro through w; cases through <;> exact .quiet _ _
  | spin => intro through w; cases through <;> exact .quiet _ _
  | send bs k ih =>
    intro through w
    cases through with
    | zero => exact ⟨fun few => by simp at few, fun _ => ⟨w, rfl⟩⟩
    | succ through => exact (ih through w).send bs
  | note n k ih => intro through w; rw [Proc.upTo]; exact (ih through w).note n
  | recv len k ih =>
    intro through w
    rw [Proc.upTo]
    simp only [exec]
    split
    · exact ih _ through _
    · exact .quiet _ _
    · exact ih _ through _
  | peek len k ih =>
    intro through w
    rw [Proc.upTo]
    simp only [exec]
    split
    · exact ih _ through _
    · exact .quiet _ _
    · exact ih _ through _
  | await timed k ih =>
    intro through w
    rw [Proc.upTo]
    simp only [exec]
    split
    · exact ih _ through _
    · split
      · split
        · exact ih _ through _
        · exact .quiet _ _
      · exact ih _ through _

end UnixProgramming.Pipe
