import UnixProgramming.Ssl.Spm

/-!
# Waking the clients that wait

The loop of `pm_server` over the ClientWaiting list sets its advance pointer
only for a client that it wakes.

* `wakeup_all`: if every client waits for the new server, all are woken;
* `wakeup_skips`: if the first one does not, nobody is;
* `wakeup_stuck`: at one that does not, behind one that does, the loop stays;
* `wakeup_iff`: so it does its work exactly when all or none match.
-/

namespace UnixProgramming.Ssl

open Heap

theorem wakeup_unlinked {st : Spm} {w : Nat × ClientWaiting} {ws : List (Nat × ClientWaiting)}
    (h : st.waits.Is (w :: ws)) (p : PortTable) :
    (wake p w.1 w.2.client st).waits.Is ws := by
  have apart := DList.Is.apart (l := []) h
  exact DList.free_is (DList.unlink_is (l := []) h) apart.2

/-- At a client that waits for another server the loop comes round for ever,
if the advance pointer is that client already. -/
theorem wakeup_stuck {p : PortTable} {st : Spm} {w : Nat × ClientWaiting}
    {ws : List (Nat × ClientWaiting)} (h : st.waits.Is (w :: ws))
    (other : w.2.sktname ≠ cstr st.sktname) (turns : Nat) :
    wakeup p turns (some w.1) (some w.1) st = none := by
  have cell := h.links [] w ws rfl
  induction turns with
  | zero => rfl
  | succ turns ih => simp only [wakeup, cell, other, if_false, ih]

/-- If the first client waits for another server the loop is over at once. -/
theorem wakeup_skips {p : PortTable} {st : Spm} {w : Nat × ClientWaiting}
    {ws : List (Nat × ClientWaiting)} (h : st.waits.Is (w :: ws))
    (other : w.2.sktname ≠ cstr st.sktname) (turns : Nat) :
    wakeup p (turns + 1) (some w.1) none st = some st := by
  have cell := h.links [] w ws rfl
  simp only [wakeup, cell, other, if_false]

theorem wakeup_next {p : PortTable} {st : Spm} {w : Nat × ClientWaiting}
    {ws : List (Nat × ClientWaiting)} (h : st.waits.Is (w :: ws))
    (mine : w.2.sktname = cstr st.sktname) (turns : Nat) (cwnxt : Option Nat) :
    wakeup p (turns + 1) (some w.1) cwnxt st =
      wakeup p turns (ws.head?.map Prod.fst) (ws.head?.map Prod.fst)
        (wake p w.1 w.2.client st) := by
  have cell := h.links [] w ws rfl
  simp only [wakeup, cell, mine, if_true]

/-- What the pass owes the clients in `ws`, of which `mine` wait for the new
server: an answer to each of these and its connection closed. -/
structure Woken (p : PortTable) (st st' : Spm) (mine others : List (Nat × ClientWaiting)) :
    Prop where
  waits : st'.waits.Is others
  sent : st'.sent = st.sent ++ mine.flatMap fun w => p.reply.map fun buf => (w.2.client, buf)
  closed : st'.closed = st.closed ++ mine.map fun w => w.2.client
  ports : st'.ports = st.ports
  sktname : st'.sktname = st.sktname
  sharehost : st'.sharehost = st.sharehost
  fw : st'.fw = st.fw

theorem Woken.refl {p : PortTable} {st : Spm} {ws : List (Nat × ClientWaiting)}
    (h : st.waits.Is ws) : Woken p st st [] ws := ⟨h, by simp, by simp, rfl, rfl, rfl, rfl⟩

theorem Woken.cons {p : PortTable} {st st' : Spm} {w : Nat × ClientWaiting}
    {mine others : List (Nat × ClientWaiting)}
    (h : Woken p (wake p w.1 w.2.client st) st' mine others) :
    Woken p st st' (w :: mine) others := by
  refine ⟨h.waits, ?_, ?_, h.ports, h.sktname, h.sharehost, h.fw⟩
  · rw [h.sent]; simp [wake]
  · rw [h.closed]; simp [wake]

/-- A list of clients that all wait for the new server is emptied. -/
theorem wakeup_all {p : PortTable} {ws : List (Nat × ClientWaiting)} : ∀ {st : Spm} {turns : Nat}
    (cwnxt : Option Nat), st.waits.Is ws → (∀ w ∈ ws, w.2.sktname = cstr st.sktname) →
    ws.length ≤ turns →
    ∃ st', wakeup p turns (ws.head?.map Prod.fst) cwnxt st = some st' ∧ Woken p st st' ws [] := by
  induction ws with
  | nil =>
    intro st turns cwnxt h _ _
    exact ⟨st, by cases turns <;> rfl, Woken.refl h⟩
  | cons w ws ih =>
    intro st turns cwnxt h mine enough
    obtain ⟨turns, rfl⟩ : ∃ n, turns = n + 1 := ⟨turns - 1, by simp at enough; omega⟩
    obtain ⟨st', run, woken⟩ := ih (ws.head?.map Prod.fst) (wakeup_unlinked h p)
      (fun x hx => mine x (by simp [hx])) (by simpa using enough)
    refine ⟨st', ?_, woken.cons⟩
    rw [List.head?_cons, Option.map_some, wakeup_next h (mine w (by simp)), run]

/-- Behind one client that is woken, one that waits for another server keeps
the loop for ever. -/
theorem wakeup_mixed {p : PortTable} {ws : List (Nat × ClientWaiting)} : ∀ {st : Spm} (turns : Nat),
    st.waits.Is ws → (∃ w ∈ ws, w.2.sktname ≠ cstr st.sktname) →
    wakeup p turns (ws.head?.map Prod.fst) (ws.head?.map Prod.fst) st = none := by
  induction ws with
  | nil => rintro st turns _ ⟨w, hw, -⟩; simp at hw
  | cons w ws ih =>
    intro st turns h other
    by_cases mine : w.2.sktname = cstr st.sktname
    · cases turns with
      | zero => rfl
      | succ turns =>
        rw [List.head?_cons, Option.map_some, wakeup_next h mine]
        apply ih turns (wakeup_unlinked h p)
        obtain ⟨x, hx, hne⟩ := other
        rcases List.mem_cons.1 hx with rfl | hx
        · exact absurd mine hne
        · exact ⟨x, hx, hne⟩
    · exact wakeup_stuck h mine turns

/-- The three ways the pass can go: everybody is woken, nobody is, or it does
not end. -/
theorem wakeup_cases (p : PortTable) {st : Spm} {ws : List (Nat × ClientWaiting)}
    (h : st.waits.Is ws) :
    (∀ w ∈ ws, w.2.sktname = cstr st.sktname) ∧
        (∀ turns, ws.length ≤ turns → ∃ st', wakeup p turns st.waits.hd none st = some st' ∧
          Woken p st st' ws []) ∨
      (∃ w ∈ ws.head?, w.2.sktname ≠ cstr st.sktname) ∧
        (∀ turns, 0 < turns → wakeup p turns st.waits.hd none st = some st) ∨
      (∃ w ∈ ws.head?, w.2.sktname = cstr st.sktname) ∧
        (∃ w ∈ ws, w.2.sktname ≠ cstr st.sktname) ∧
        ∀ turns, wakeup p turns st.waits.hd none st = none := by
  rw [h.hd]
  by_cases all : ∀ w ∈ ws, w.2.sktname = cstr st.sktname
  · exact .inl ⟨all, fun turns enough => wakeup_all none h all enough⟩
  right
  have other : ∃ w ∈ ws, w.2.sktname ≠ cstr st.sktname := by simpa using all
  cases ws with
  | nil => simp at all
  | cons w ws =>
    by_cases mine : w.2.sktname = cstr st.sktname
    · refine .inr ⟨⟨w, rfl, mine⟩, other, fun turns => ?_⟩
      cases turns with
      | zero => rfl
      | succ turns =>
        rw [List.head?_cons, Option.map_some, wakeup_next h mine]
        apply wakeup_mixed turns (wakeup_unlinked h p)
        obtain ⟨x, hx, hne⟩ := other
        rcases List.mem_cons.1 hx with rfl | hx
        · exact absurd mine hne
        · exact ⟨x, hx, hne⟩
    · refine .inl ⟨⟨w, rfl, mine⟩, fun turns pos => ?_⟩
      obtain ⟨turns, rfl⟩ : ∃ n, turns = n + 1 := ⟨turns - 1, by omega⟩
      exact wakeup_skips h mine turns

/-- The clients that wait for the server whose name is in `sktname`. -/
def Spm.waitingFor (st : Spm) : List (Nat × ClientWaiting) :=
  st.waits.toList.filter fun w => w.2.sktname = cstr st.sktname

def Spm.waitingForOthers (st : Spm) : List (Nat × ClientWaiting) :=
  st.waits.toList.filter fun w => w.2.sktname ≠ cstr st.sktname

/-- The pass ends, and has answered and closed exactly the clients that wait
for the new server and left the others on the list, in their order. -/
def WakesWaiters (p : PortTable) (st : Spm) : Prop :=
  ∃ turns st', wakeup p turns st.waits.hd none st = some st' ∧
    Woken p st st' st.waitingFor st.waitingForOthers

/-- A pass that ends as it began has woken nobody. -/
theorem Woken.none_mine {p : PortTable} {st : Spm} {mine others : List (Nat × ClientWaiting)}
    (h : Woken p st st mine others) : mine = [] := by
  have closed := h.closed
  simpa using closed

/-- **The pass does its work exactly when all waiting clients wait for the new
server or none of them does.** -/
theorem wakeup_iff (p : PortTable) {st : Spm} {ws : List (Nat × ClientWaiting)}
    (h : st.waits.Is ws) :
    WakesWaiters p st ↔
      (∀ w ∈ ws, w.2.sktname = cstr st.sktname) ∨ ∀ w ∈ ws, w.2.sktname ≠ cstr st.sktname := by
  have list := DList.toList_eq h
  constructor
  · rintro ⟨turns, st', run, woken⟩
    rcases wakeup_cases p h with ⟨all, -⟩ | ⟨⟨w, first, other⟩, skips⟩ | ⟨-, -, never⟩
    · exact .inl all
    · right
      cases turns with
      | zero =>
        rw [h.hd, Option.mem_def.1 first] at run
        cases run
      | succ turns =>
        rw [skips _ (Nat.succ_pos _)] at run
        cases run
        have none := woken.none_mine
        rw [Spm.waitingFor, list, List.filter_eq_nil_iff] at none
        simpa using none
    · rw [never] at run
      cases run
  · rintro (all | none)
    · rcases wakeup_cases p h with ⟨-, runs⟩ | ⟨⟨w, first, other⟩, -⟩ | ⟨-, ⟨w, hw, other⟩, -⟩
      · obtain ⟨st', run, woken⟩ := runs _ (Nat.le_refl _)
        refine ⟨_, st', run, ?_⟩
        have mine : st.waitingFor = ws := by
          rw [Spm.waitingFor, list, List.filter_eq_self]
          simpa using all
        have others : st.waitingForOthers = [] := by
          rw [Spm.waitingForOthers, list, List.filter_eq_nil_iff]
          simpa using all
        rw [mine, others]
        exact woken
      · exact absurd (all w (List.mem_of_mem_head? first)) other
      · exact absurd (all w hw) other
    · have mine : st.waitingFor = [] := by
        rw [Spm.waitingFor, list, List.filter_eq_nil_iff]
        simpa using none
      have others : st.waitingForOthers = ws := by
        rw [Spm.waitingForOthers, list, List.filter_eq_self]
        simpa using none
      refine ⟨1, st, ?_, by rw [mine, others]; exact Woken.refl h⟩
      cases ws with
      | nil => rw [h.hd]; rfl
      | cons w ws => rw [h.hd]; exact wakeup_skips h (none w (by simp)) 0

/-- A server `a` registers while one client waits for `b` and, behind it, one
for `a`. -/
def twoWaiting : Spm :=
  { Spm.start ⟨fun _ => 0, [], 0⟩ with
    waits := (DList.empty.append ⟨1, [98]⟩).append ⟨2, [97]⟩
    sktname := [97, 0] }

theorem twoWaiting_is : twoWaiting.waits.Is [(0, ⟨1, [98]⟩), (1, ⟨2, [97]⟩)] :=
  DList.append_is (DList.append_is DList.empty_is _) _

theorem wakeup_iff_twoWaiting : WakesWaiters ⟨[97], none, 5⟩ twoWaiting ↔
    (∀ w ∈ [(0, (⟨1, [98]⟩ : ClientWaiting)), (1, ⟨2, [97]⟩)], w.2.sktname = [97]) ∨
      ∀ w ∈ [(0, (⟨1, [98]⟩ : ClientWaiting)), (1, ⟨2, [97]⟩)], w.2.sktname ≠ [97] :=
  wakeup_iff ⟨[97], none, 5⟩ twoWaiting_is

/-- The client that waits for `a` is not woken. -/
theorem waiting_client_lost : ¬ WakesWaiters ⟨[97], none, 5⟩ twoWaiting := by
  rintro ⟨turns, st', run, woken⟩
  cases turns with
  | zero => cases run
  | succ turns =>
    rw [twoWaiting_is.hd, List.head?_cons, Option.map_some,
      wakeup_skips twoWaiting_is (by decide)] at run
    cases run
    have mine : twoWaiting.waitingFor = [(1, ⟨2, [97]⟩)] := by
      rw [Spm.waitingFor, DList.toList_eq twoWaiting_is]
      decide
    rw [mine] at woken
    cases woken.none_mine

end UnixProgramming.Ssl
