import UnixProgramming.Pipe.Duplex

/-!
# Weakest preconditions over a given peer

`wp late p P q e`: every run of `p` against a peer that sends `q` and then
falls silent or closes ends in `P`, however the bytes are cut and, if `late`,
however long they take. All rules are equivalences, so a proof about all runs
is a calculation.

* `wp_bind`: one program after another;
* `wp_map`: a last step that only changes the value.
-/

namespace UnixProgramming.Pipe

variable {β ν α γ : Type}

/-- An outcome with nothing said about bytes still to arrive. -/
def Fate.forget : Fate β α → Fate β α
  | .done a w => .done a ⟨w.queue, w.ending, []⟩
  | .blocked => .blocked
  | .spun => .spun

def Outcome.forget (r : Outcome β ν α) : Outcome β ν α := ⟨r.wrote, r.notes, r.fate.forget⟩

@[simp] theorem Outcome.forget_wrote (r : Outcome β ν α) : r.forget.wrote = r.wrote := rfl
@[simp] theorem Outcome.forget_notes (r : Outcome β ν α) : r.forget.notes = r.notes := rfl
@[simp] theorem Outcome.forget_fate (r : Outcome β ν α) : r.forget.fate = r.fate.forget := rfl
@[simp] theorem Outcome.after_forget (r : Outcome β ν α) (o : List (List β)) (t : List ν) :
    (r.after o t).forget = r.forget.after o t := rfl

def wp (late : Prop) (p : Proc β ν α) (P : Outcome β ν α → Prop) (q : List β) (e : Ending) : Prop :=
  ∀ ticks, late ∨ 0 ∉ ticks → P (exec p ⟨q, e, ticks⟩).forget

/-- How long the bytes have taken for the calls of a run that has ended; with
the same ticks and any others behind them it goes the same way. -/
theorem exec_lead (p : Proc β ν α) : ∀ {q : List β} {e : Ending} {ticks : List Nat}
    {o : List (List β)} {t : List ν} {a : α} {w : Wire β},
    exec p ⟨q, e, ticks⟩ = ⟨o, t, .done a w⟩ →
    w.ending = e ∧ (0 ∉ ticks → 0 ∉ w.ticks) ∧ ∃ lead, (0 ∉ ticks → 0 ∉ lead) ∧
      ∀ ts, exec p ⟨q, e, lead ++ ts⟩ = ⟨o, t, .done a ⟨w.queue, e, ts⟩⟩ := by
  have tail {ts : List Nat} (h : 0 ∉ ts) : 0 ∉ ts.tail := fun m => h (List.mem_of_mem_tail m)
  have cons {ts lead : List Nat} (h : 0 ∉ ts) (hl : 0 ∉ lead) : 0 ∉ ts.headD 1 :: lead := by
    cases ts with
    | nil => simpa using hl
    | cons n ts => simp only [List.mem_cons, not_or] at h ⊢; exact ⟨h.1, hl⟩
  induction p with
  | ret b =>
    intro q e ticks o t a w h
    cases h
    exact ⟨rfl, id, [], by simp, fun ts => rfl⟩
  | send bs k ih =>
    intro q e ticks o t a w h
    cases hk : exec k ⟨q, e, ticks⟩ with
    | mk o' t' f =>
      rw [exec_send, hk] at h
      cases h
      obtain ⟨he, h0, lead, hl, run⟩ := ih hk
      exact ⟨he, h0, lead, hl, fun ts => by rw [exec_send, run ts]; rfl⟩
  | note n k ih =>
    intro q e ticks o t a w h
    cases hk : exec k ⟨q, e, ticks⟩ with
    | mk o' t' f =>
      rw [exec_note, hk] at h
      cases h
      obtain ⟨he, h0, lead, hl, run⟩ := ih hk
      exact ⟨he, h0, lead, hl, fun ts => by rw [exec_note, run ts]; rfl⟩
  | spin => intro q e ticks o t a w h; cases h
  | recv len k ih =>
    intro q e ticks o t a w h
    cases q with
    | cons b q =>
      obtain ⟨he, h0, lead, hl, run⟩ := ih _ h
      exact ⟨he, fun h => h0 (tail h), ticks.headD 1 :: lead, fun h => cons h (hl (tail h)), run⟩
    | nil =>
      cases e with
      | silent => cases h
      | closed =>
        obtain ⟨he, h0, lead, hl, run⟩ := ih _ h
        exact ⟨he, fun h => h0 (tail h), ticks.headD 1 :: lead, fun h => cons h (hl (tail h)), run⟩
  | peek len k ih =>
    intro q e ticks o t a w h
    cases q with
    | cons b q =>
      obtain ⟨he, h0, lead, hl, run⟩ := ih _ h
      exact ⟨he, fun h => h0 (tail h), ticks.headD 1 :: lead, fun h => cons h (hl (tail h)), run⟩
    | nil =>
      cases e with
      | silent => cases h
      | closed =>
        obtain ⟨he, h0, lead, hl, run⟩ := ih _ h
        exact ⟨he, fun h => h0 (tail h), ticks.headD 1 :: lead, fun h => cons h (hl (tail h)), run⟩
  | await timed k ih =>
    intro q e ticks o t a w h
    have next {ready : Bool} (h : exec (k ready) ⟨q, e, ticks.tail⟩ = ⟨o, t, .done a w⟩)
        (same : ∀ ts, exec (.await timed k) ⟨q, e, ticks.headD 1 :: ts⟩ =
          exec (k ready) ⟨q, e, ts⟩) :
        w.ending = e ∧ (0 ∉ ticks → 0 ∉ w.ticks) ∧ ∃ lead, (0 ∉ ticks → 0 ∉ lead) ∧
          ∀ ts, exec (.await timed k) ⟨q, e, lead ++ ts⟩ = ⟨o, t, .done a ⟨w.queue, e, ts⟩⟩ := by
      obtain ⟨he, h0, lead, hl, run⟩ := ih _ h
      exact ⟨he, fun h => h0 (tail h), ticks.headD 1 :: lead, fun h => cons h (hl (tail h)),
        fun ts => by rw [List.cons_append, same, run]⟩
    by_cases late : (timed && ticks.headD 1 == 0) = true
    · rw [exec, if_pos late] at h
      exact next h fun ts => by rw [exec, List.headD_cons, if_pos late]; rfl
    · rw [exec, if_neg late] at h
      cases q with
      | cons b q => exact next h fun ts => by rw [exec, List.headD_cons, if_neg late]; rfl
      | nil =>
        cases e with
        | closed => exact next h fun ts => by rw [exec, List.headD_cons, if_neg late]; rfl
        | silent =>
          cases timed with
          | false => cases h
          | true => exact next h fun ts => by rw [exec, List.headD_cons, if_neg late]; rfl

section
variable {late : Prop} {P : Outcome β ν α → Prop} {q : List β} {e : Ending}

theorem wp_ret (a : α) : wp late (.ret a) P q e ↔ P ⟨[], [], .done a ⟨q, e, []⟩⟩ :=
  ⟨fun h => h [] (.inr (by simp)), fun h _ _ => h⟩

theorem wp_spin : wp late .spin P q e ↔ P ⟨[], [], .spun⟩ :=
  ⟨fun h => h [] (.inr (by simp)), fun h _ _ => h⟩

theorem wp_send (bs : List β) (k : Proc β ν α) :
    wp late (.send bs k) P q e ↔ wp late k (fun r => P (r.after [bs] [])) q e :=
  Iff.rfl

theorem wp_note (n : ν) (k : Proc β ν α) :
    wp late (.note n k) P q e ↔ wp late k (fun r => P (r.after [] [n])) q e :=
  Iff.rfl

/-- A property that does not look at bytes still to arrive. -/
theorem wp_iff_exec {p : Proc β ν α} (hP : ∀ r, P (Outcome.forget r) ↔ P r) :
    wp late p P q e ↔ ∀ ticks, late ∨ 0 ∉ ticks → P (exec p ⟨q, e, ticks⟩) :=
  forall_congr' fun _ => imp_congr_right fun _ => hP _

theorem wp.mono {P' : Outcome β ν α → Prop} {p : Proc β ν α} (h : wp late p P q e)
    (imp : ∀ r, P r → P' r) : wp late p P' q e :=
  fun ticks ok => imp _ (h ticks ok)

theorem wp_congr {P' : Outcome β ν α → Prop} {p : Proc β ν α} (h : ∀ r, P r ↔ P' r) :
    wp late p P q e ↔ wp late p P' q e :=
  ⟨fun hp => hp.mono fun r => (h r).1, fun hp => hp.mono fun r => (h r).2⟩

/-- What is the same for all outcomes that there can be. -/
theorem wp_iff_of {Q : Outcome β ν α → Prop} {p : Proc β ν α} {C : Prop} (h : wp late p Q q e)
    (same : ∀ r, Q r → (P r ↔ C)) : wp late p P q e ↔ C := by
  constructor
  · intro run
    have ok : late ∨ 0 ∉ ([] : List Nat) := .inr (by simp)
    exact (same _ (h [] ok)).1 (run [] ok)
  · exact fun c ticks ok => (same _ (h ticks ok)).2 c

/-- A program that always comes to the same outcome. -/
theorem wp_of_run {p : Proc β ν α} {r : Outcome β ν α}
    (run : ∀ ticks, late ∨ 0 ∉ ticks → (exec p ⟨q, e, ticks⟩).forget = r) :
    wp late p P q e ↔ P r := by
  constructor
  · intro h
    have ok : late ∨ 0 ∉ ([] : List Nat) := .inr (by simp)
    exact run [] ok ▸ h [] ok
  · intro h ticks ok
    exact (run ticks ok).symm ▸ h

end

/-- What holds of the runs of the rest, once a first program has ended. -/
def Then (late : Prop) (f : α → Proc β ν γ) (P : Outcome β ν γ → Prop) (r : Outcome β ν α) : Prop :=
  match r.fate with
  | .done a w => wp late (f a) (fun r' => P (r'.after r.wrote r.notes)) w.queue w.ending
  | .blocked => P ⟨r.wrote, r.notes, .blocked⟩
  | .spun => P ⟨r.wrote, r.notes, .spun⟩

/-- **One program after another.** -/
theorem wp_bind {late : Prop} {P : Outcome β ν γ → Prop} {q : List β} {e : Ending}
    (p : Proc β ν α) (f : α → Proc β ν γ) :
    wp late (p >>= f) P q e ↔ wp late p (Then late f P) q e := by
  constructor
  · intro h ticks ok
    cases hp : exec p ⟨q, e, ticks⟩ with
    | mk o t fate =>
      have whole := h ticks ok
      rw [exec_bind, hp] at whole
      cases fate with
      | blocked => exact whole
      | spun => exact whole
      | done a w =>
        -- the same first run with any later arrivals behind it
        obtain ⟨he, -, lead, hl, run⟩ := exec_lead p hp
        intro ts okts
        have ok' : late ∨ 0 ∉ lead ++ ts := by
          rcases ok with l | ok
          · exact .inl l
          · refine okts.imp_right fun hts => ?_
            simp only [List.mem_append, not_or]
            exact ⟨hl ok, hts⟩
        have whole := h _ ok'
        rw [exec_bind_done (run ts)] at whole
        rw [he]
        exact whole
  · intro h ticks ok
    have first := h ticks ok
    cases hp : exec p ⟨q, e, ticks⟩ with
    | mk o t fate =>
      rw [hp] at first
      rw [exec_bind, hp]
      cases fate with
      | blocked => exact first
      | spun => exact first
      | done a w =>
        obtain ⟨-, h0, -⟩ := exec_lead p hp
        exact first w.ticks (ok.imp_right h0)

/-- A first program without a choice of outcomes. -/
theorem wp_bind_of_run {late : Prop} {P : Outcome β ν γ → Prop} {q : List β} {e : Ending}
    {p : Proc β ν α} (f : α → Proc β ν γ) {r : Outcome β ν α}
    (run : ∀ ticks, late ∨ 0 ∉ ticks → (exec p ⟨q, e, ticks⟩).forget = r) :
    wp late (p >>= f) P q e ↔ Then late f P r := by
  rw [wp_bind, wp_of_run run]

def Fate.map (g : α → γ) : Fate β α → Fate β γ
  | .done a w => .done (g a) w
  | .blocked => .blocked
  | .spun => .spun

def Outcome.map (g : α → γ) (r : Outcome β ν α) : Outcome β ν γ := ⟨r.wrote, r.notes, r.fate.map g⟩

theorem exec_map (p : Proc β ν α) (g : α → γ) (w : Wire β) :
    exec (p >>= fun a => .ret (g a)) w = (exec p w).map g := by
  rw [exec_bind]
  obtain ⟨o, t, fate⟩ := exec p w
  cases fate with
  | done a w' => simp [Outcome.after, Outcome.map, Fate.map]
  | blocked => rfl
  | spun => rfl

/-- A last step that only changes the value. -/
theorem wp_map {late : Prop} {P : Outcome β ν γ → Prop} {q : List β} {e : Ending}
    (p : Proc β ν α) (g : α → γ) :
    wp late (p >>= fun a => .ret (g a)) P q e ↔ wp late p (fun r => P (r.map g)) q e := by
  have forget (r : Outcome β ν α) : (r.map g).forget = r.forget.map g := by
    obtain ⟨o, t, fate⟩ := r
    cases fate <;> rfl
  unfold wp
  simp only [exec_map, forget]

end UnixProgramming.Pipe
