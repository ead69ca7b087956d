import UnixProgramming.Pipe.Duplex

/-!
# Runs in which what has arrived stays

`exec` lets every call find any part of the bytes to come. Here the bytes
arrive in deliveries, one at the latest with each call, and a call finds all
that have arrived and are not yet read. A delivery may be empty: then nothing
has arrived in the meantime.

* `deliver`: how a run over deliveries ends;
* `exec_deliver`: it is one of the runs of `exec`;
* `deliver_of_exec`: what holds of all runs of `exec` holds of it;
* `deliver_reads`: a program that reads its part of the stream reads it, however
  it arrives.
-/

namespace UnixProgramming.Pipe

/-- What has arrived and what is still to arrive, in that order. -/
structure Arrivals (β : Type) where
  here : List β
  coming : List (List β)
  ending : Ending

namespace Arrivals

variable {β : Type} (w : Arrivals β)

/-- All unread bytes. -/
def bytes : List β := w.here ++ w.coming.flatten

/-- The next delivery. -/
def land : Arrivals β := ⟨w.here ++ w.coming.headD [], w.coming.tail, w.ending⟩

/-- The first deliveries of which one is not empty. -/
def awaited : List (List β) → List β × List (List β)
  | [] => ([], [])
  | [] :: ds => awaited ds
  | d :: ds => (d, ds)

/-- Wait until there are bytes, or none to come. -/
def settle : Arrivals β :=
  if w.here = [] then ⟨(awaited w.coming).1, (awaited w.coming).2, w.ending⟩ else w

/-- The stream has come to its end. -/
def Over : Prop := w.here = [] ∧ w.coming = [] ∧ w.ending = .closed

instance : Decidable w.Over :=
  inferInstanceAs (Decidable (w.here = [] ∧ w.coming = [] ∧ w.ending = .closed))

end Arrivals

namespace Arrivals

variable {β : Type} {w : Arrivals β}

@[simp] theorem land_bytes (w : Arrivals β) : w.land.bytes = w.bytes := by
  obtain ⟨here, coming, ending⟩ := w
  cases coming <;> simp [land, bytes]

@[simp] theorem land_ending (w : Arrivals β) : w.land.ending = w.ending := rfl

theorem awaited_flatten (ds : List (List β)) :
    (awaited ds).1 ++ (awaited ds).2.flatten = ds.flatten := by
  induction ds with
  | nil => rfl
  | cons d ds ih =>
    cases d with
    | nil => exact ih
    | cons b d => rfl

theorem awaited_empty {ds : List (List β)} (none' : (awaited ds).1 = []) : (awaited ds).2 = [] := by
  induction ds with
  | nil => rfl
  | cons d ds ih =>
    cases d with
    | nil => exact ih none'
    | cons b d => cases none'

theorem awaited_suffix (ds : List (List β)) : (awaited ds).2 <:+ ds := by
  induction ds with
  | nil => exact List.suffix_refl _
  | cons d ds ih =>
    cases d with
    | nil => exact ih.trans (List.suffix_cons _ _)
    | cons b d => exact List.suffix_cons _ _

@[simp] theorem settle_bytes (w : Arrivals β) : w.settle.bytes = w.bytes := by
  unfold settle
  split
  · rename_i none'
    simp [bytes, awaited_flatten, none']
  · rfl

@[simp] theorem settle_ending (w : Arrivals β) : w.settle.ending = w.ending := by
  unfold settle
  split <;> rfl

/-- A wait without limit goes on as long as there are bytes to come. -/
theorem settle_empty (none' : w.settle.here = []) : w.bytes = [] := by
  rw [← settle_bytes]
  unfold settle at none' ⊢
  split at none'
  · rename_i empty
    rw [if_pos empty, bytes, none', awaited_empty none']
    rfl
  · exact absurd none' ‹_›

/-- What a wait without limit finds: nothing more to read, or the first of it. -/
theorem settled (w : Arrivals β) : w.land.settle.here = [] ∧ w.bytes = [] ∨
    ∃ b h, w.land.settle.here = b :: h ∧ w.bytes = b :: h ++ w.land.settle.coming.flatten := by
  cases here : w.land.settle.here with
  | nil => exact .inl ⟨rfl, by rw [← land_bytes, settle_empty here]⟩
  | cons b h => exact .inr ⟨b, h, rfl, by rw [← land_bytes, ← settle_bytes, bytes, here]⟩

theorem land_suffix (w : Arrivals β) : w.land.coming <:+ w.coming := List.tail_suffix _

theorem settle_suffix (w : Arrivals β) : w.settle.coming <:+ w.coming := by
  unfold settle
  split
  · exact awaited_suffix _
  · exact List.suffix_refl _

end Arrivals

/-- How a run over deliveries ends. -/
inductive End (β α : Type) where
  | done (a : α) (w : Arrivals β)
  | blocked
  | spun

/-- Run a program while the bytes arrive. A wait without limit, `recv` and
`peek` wait for a byte or the end of the stream; a wait with a limit gives up
when the next delivery brings nothing. -/
def deliver {β ν α : Type} : Proc β ν α → Arrivals β → End β α
  | .ret a, w => .done a w
  | .send _ k, w => deliver k w
  | .note _ k, w => deliver k w
  | .recv len k, w =>
    match w.land.settle.here, w.ending with
    | [], .closed => deliver (k (some [])) w.land.settle
    | [], .silent => .blocked
    | q@(_ :: _), _ =>
      deliver (k (some (q.take len))) { w.land.settle with here := q.drop len }
  | .peek len k, w =>
    match w.land.settle.here, w.ending with
    | [], .closed => deliver (k (some [])) w.land.settle
    | [], .silent => .blocked
    | q@(_ :: _), _ => deliver (k (some (q.take len))) w.land.settle
  | .await timed k, w =>
    if timed then
      if w.land.here = [] ∧ ¬ w.land.Over then deliver (k false) w.land else deliver (k true) w.land
    else match w.land.settle.here, w.ending with
      | [], .silent => .blocked
      | _, _ => deliver (k true) w.land.settle
  | .spin, _ => .spun

/-- The same end with nothing said about how the rest arrives. -/
def End.onWire {β α : Type} : End β α → Fate β α
  | .done a w => .done a ⟨w.bytes, w.ending, []⟩
  | .blocked => .blocked
  | .spun => .spun

section
variable {β ν α : Type}

theorem deliver_bind {γ : Type} (p : Proc β ν α) (f : α → Proc β ν γ) (w : Arrivals β) :
    deliver (p >>= f) w = match deliver p w with
      | .done a w' => deliver (f a) w'
      | .blocked => .blocked
      | .spun => .spun := by
  induction p generalizing w with
  | ret a => rfl
  | send bs k ih => exact ih w
  | note n k ih => exact ih w
  | spin => rfl
  | recv len k ih =>
    simp only [Proc.recv_bind, deliver]
    split
    · exact ih _ _
    · rfl
    · exact ih _ _
  | peek len k ih =>
    simp only [Proc.peek_bind, deliver]
    split
    · exact ih _ _
    · rfl
    · exact ih _ _
  | await timed k ih =>
    simp only [Proc.await_bind, deliver]
    split
    · split
      · exact ih _ _
      · exact ih _ _
    · split
      · rfl
      · exact ih _ _

theorem deliver_bind_done {γ : Type} {p : Proc β ν α} {w w' : Arrivals β} {a : α}
    (h : deliver p w = .done a w') (f : α → Proc β ν γ) :
    deliver (p >>= f) w = deliver (f a) w' := by
  rw [deliver_bind, h]

/-- What one call takes of the bytes that are here. -/
theorem take_share (here rest : List β) (len : Nat) :
    (here ++ rest).take (min len here.length) = here.take len := by
  rw [List.take_append_of_le_length (Nat.min_le_right ..), List.take_eq_take_iff]
  omega

theorem drop_share (here rest : List β) (len : Nat) :
    (here ++ rest).drop (min len here.length) = here.drop len ++ rest := by
  rw [List.drop_append_of_le_length (Nat.min_le_right ..)]
  congr 1
  rcases Nat.le_total len here.length with le | le
  · rw [Nat.min_eq_left le]
  · rw [Nat.min_eq_right le, List.drop_length, List.drop_of_length_le le]

/-- With a tick for each byte that is here, a call finds just these. -/
theorem share_here (b : β) (here rest : List β) (e : Ending) (ticks : List Nat) (len : Nat) :
    (⟨b :: here ++ rest, e, (b :: here).length :: ticks⟩ : Wire β).share len =
      min len (b :: here).length := by
  simp [Wire.share]

/-- Waiting takes no bytes away. -/
theorem exec_settled {p : Proc β ν α} (ih : ∀ w : Arrivals β,
    ∃ ticks, (exec p ⟨w.bytes, w.ending, ticks⟩).fate = (deliver p w).onWire) (w : Arrivals β) :
    ∃ ticks, (exec p ⟨w.bytes, w.ending, ticks⟩).fate = (deliver p w.land.settle).onWire := by
  simpa using ih w.land.settle

/-- **A run over deliveries is a run of `exec`**, with the ticks that say how
many bytes are there for each call. -/
theorem exec_deliver (p : Proc β ν α) : ∀ w : Arrivals β,
    ∃ ticks, (exec p ⟨w.bytes, w.ending, ticks⟩).fate = (deliver p w).onWire := by
  induction p with
  | ret a => exact fun w => ⟨[], rfl⟩
  | send bs k ih => exact ih
  | note n k ih => exact ih
  | spin => exact fun w => ⟨[], rfl⟩
  | recv len k ih =>
    intro w
    simp only [deliver]
    rcases w.settled with ⟨here, none'⟩ | ⟨b, h, here, bytes⟩
    · rw [here, none']
      cases closed : w.ending with
      | closed =>
        obtain ⟨ts, run⟩ := exec_settled (ih (some [])) w
        rw [none', closed] at run
        exact ⟨1 :: ts, run⟩
      | silent => exact ⟨[], rfl⟩
    · obtain ⟨ts, run⟩ := ih (some ((b :: h).take len))
        { w.land.settle with here := (b :: h).drop len }
      refine ⟨(b :: h).length :: ts, ?_⟩
      rw [here, bytes, ← run]
      simp only [exec, List.cons_append]
      rw [← List.cons_append, share_here, take_share]
      simp only [Wire.drop, Wire.next, drop_share, Arrivals.settle_ending, Arrivals.land_ending]
      rfl
  | peek len k ih =>
    intro w
    simp only [deliver]
    rcases w.settled with ⟨here, none'⟩ | ⟨b, h, here, bytes⟩
    · rw [here, none']
      cases closed : w.ending with
      | closed =>
        obtain ⟨ts, run⟩ := exec_settled (ih (some [])) w
        rw [none', closed] at run
        exact ⟨1 :: ts, run⟩
      | silent => exact ⟨[], rfl⟩
    · obtain ⟨ts, run⟩ := exec_settled (ih (some ((b :: h).take len))) w
      refine ⟨(b :: h).length :: ts, ?_⟩
      rw [bytes] at run
      rw [here, bytes, ← run]
      simp only [exec, List.cons_append]
      rw [← List.cons_append, share_here, take_share]
      rfl
  | await timed k ih =>
    intro w
    cases timed with
    | true =>
      simp only [deliver, if_true]
      by_cases nothing : w.land.here = [] ∧ ¬ w.land.Over
      · obtain ⟨ts, run⟩ := ih false w.land
        rw [Arrivals.land_bytes, Arrivals.land_ending] at run
        rw [if_pos nothing]
        exact ⟨0 :: ts, run⟩
      · obtain ⟨ts, run⟩ := ih true w.land
        rw [if_neg nothing, ← run]
        refine ⟨1 :: ts, ?_⟩
        rw [Arrivals.land_bytes, Arrivals.land_ending]
        cases unread : w.bytes with
        | cons b q => rfl
        | nil =>
          have here : w.land.here = [] := by
            rw [← Arrivals.land_bytes] at unread
            exact (List.append_eq_nil_iff.1 unread).1
          have closed : w.ending = .closed := by
            by_contra open'
            exact nothing ⟨here, fun ended => open' ended.2.2⟩
          rw [closed]
          rfl
    | false =>
      obtain ⟨ts, run⟩ := exec_settled (ih true) w
      simp only [deliver]
      rcases w.settled with ⟨here, none'⟩ | ⟨b, h, here, bytes⟩
      · rw [here]
        rw [none'] at run ⊢
        cases closed : w.ending with
        | closed =>
          rw [closed] at run
          exact ⟨1 :: ts, run⟩
        | silent => exact ⟨[], rfl⟩
      · rw [here]
        rw [bytes] at run ⊢
        exact ⟨1 :: ts, run⟩

theorem deliver_suffix (p : Proc β ν α) : ∀ {w w' : Arrivals β} {a : α},
    deliver p w = .done a w' → w'.coming <:+ w.coming := by
  have settle (w : Arrivals β) : w.land.settle.coming <:+ w.coming :=
    w.land.settle_suffix.trans w.land_suffix
  induction p with
  | ret a =>
    rintro w w' _ ⟨⟩
    exact List.suffix_refl _
  | send bs k ih => exact ih
  | note n k ih => exact ih
  | spin => intro w w' a run; cases run
  | recv len k ih =>
    intro w w' a run
    simp only [deliver] at run
    split at run
    · exact (ih _ run).trans (settle w)
    · cases run
    · exact (ih _ run).trans (settle w)
  | peek len k ih =>
    intro w w' a run
    simp only [deliver] at run
    split at run
    · exact (ih _ run).trans (settle w)
    · cases run
    · exact (ih _ run).trans (settle w)
  | await timed k ih =>
    intro w w' a run
    simp only [deliver] at run
    split at run
    · split at run
      · exact (ih _ run).trans w.land_suffix
      · exact (ih _ run).trans w.land_suffix
    · split at run
      · cases run
      · exact (ih _ run).trans (settle w)

/-- What every run of `exec` comes to, a run over deliveries comes to. -/
theorem deliver_of_exec {p : Proc β ν α} {P : α → Prop} {w : Arrivals β} {q : List β} {e : Ending}
    (runs : ∀ ticks, ∃ a ticks', P a ∧
      (exec p ⟨w.bytes, w.ending, ticks⟩).fate = .done a ⟨q, e, ticks'⟩) :
    ∃ a w', P a ∧ deliver p w = .done a w' ∧
      w'.bytes = q ∧ w'.ending = e ∧ w'.coming <:+ w.coming := by
  obtain ⟨ticks, same⟩ := exec_deliver p w
  obtain ⟨a, ticks', post, run⟩ := runs ticks
  rw [run] at same
  cases fate : deliver p w with
  | done a' w' =>
    rw [fate] at same
    cases same
    exact ⟨a, w', post, rfl, rfl, rfl, deliver_suffix p fate⟩
  | blocked => rw [fate] at same; cases same
  | spun => rw [fate] at same; cases same

theorem deliver_reads {R : α → Prop} {p : Proc β ν α} {u rest : List β} {o : List (List β)}
    {t : List ν} (h : Reads R p u o t) (hu : p.Untimed) {w : Arrivals β}
    (unread : w.bytes = u ++ rest) :
    ∃ a w', R a ∧ deliver p w = .done a w' ∧
      w'.bytes = rest ∧ w'.ending = w.ending ∧ w'.coming <:+ w.coming := by
  apply deliver_of_exec
  intro ticks
  obtain ⟨a, ticks', post, -, run⟩ := exec_reads h hu rest w.ending ticks
  rw [unread, run]
  exact ⟨a, ticks', post, rfl⟩

end

end UnixProgramming.Pipe
