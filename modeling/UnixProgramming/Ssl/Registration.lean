import UnixProgramming.Ssl.Requests

/-!
# Registering a server

`pm_server` makes its entry before it has heard the client's final `PM_OK`, and
takes what a long name leaves in the stream for the next field.

* `registration`: the entry that a client's bytes ask for;
* `wp_pmServer_none`, `wp_pmServer_some`: a session makes that entry or none;
* `failed_registration_iff`: when a failed session leaves the lists alone;
* `stores_what_was_asked_iff`: when the entry is the one that was asked for.
-/

namespace UnixProgramming.Ssl

open Pipe Heap

/-! ## The entry in the bytes -/

def registerName (st : Spm) (host : Option (List Byte)) (bytes : List Byte) :
    Option (PortTable × List Byte) :=
  match gets (bufsize - 2) bytes with
  | none => none
  | some (name, rest) =>
    if (st.lookup name).isSome ∨ rest.length < 2 then none
    else some (⟨name, host, ntohs (rest.take 2)⟩, rest.drop 2)

/-- The entry that `pm_server` makes of the bytes behind the event, and what is
left for the final `PM_OK`; `none` when a field is missing or the name taken. -/
def registration (st : Spm) (event : SktEvent) (bytes : List Byte) :
    Option (PortTable × List Byte) :=
  if event = PM.share then
    match gets (bufsize - 2) bytes with
    | none => none
    | some (host, rest) => registerName st (some host) rest
  else registerName st none bytes

theorem handle_server (a : Around) (client : Nat) {event : SktEvent} (st : Spm)
    (h : event = PM.server ∨ event = PM.share) :
    handle a client event st = some (pmServer a.spins event st) := if_pos h

/-! ## What a session can come to -/

/-- No entry among the marks. -/
def Quiet (notes : List Note) : Prop := ∀ p, .made p ∉ notes

theorem quiet_eventsRead (events : List SktEvent) : Quiet (eventsRead events) := by
  intro p h
  simp [eventsRead] at h

theorem Quiet.append {s t : List Note} (hs : Quiet s) (ht : Quiet t) : Quiet (s ++ t) := by
  intro p h
  rcases List.mem_append.1 h with h | h
  · exact hs p h
  · exact ht p h

theorem quiet_read (w : List Byte) : Quiet [.read w] := by
  intro p h
  simp at h

theorem quiet_nil : Quiet [] := by
  intro p h
  simp at h

/-- No entry has been made and both lists are what they were. -/
def Untouched (st : Spm) (r : Outcome Byte Note (Exit × Spm)) : Prop :=
  Quiet r.notes ∧ ∀ exit st' w, r.fate = .done (exit, st') w →
    st'.ports = st.ports ∧ st'.waits = st.waits

theorem Untouched.after {st : Spm} {r : Outcome Byte Note (Exit × Spm)} (h : Untouched st r)
    (o : List (List Byte)) {t : List Note} (ht : Quiet t) : Untouched st (r.after o t) :=
  ⟨ht.append h.1, h.2⟩

section
variable {st : Spm} {q : List Byte} {e : Ending}

theorem untouched_done (st' : Spm) (hp : st'.ports = st.ports) (hw : st'.waits = st.waits)
    (exit : Exit) (w : Wire Byte) : Untouched st ⟨[], [], .done (exit, st') w⟩ := by
  refine ⟨quiet_nil, fun exit' st'' w' h => ?_⟩
  cases h
  exact ⟨hp, hw⟩

theorem untouched_hang : Untouched st ⟨[], [], hang e⟩ := by
  refine ⟨quiet_nil, fun exit st' w h => ?_⟩
  cases e <;> cases h

theorem untouched_blocked : Untouched st ⟨[], [], .blocked⟩ := by
  refine ⟨quiet_nil, fun exit st' w h => ?_⟩
  cases h

/-- What comes of a name that is taken or that no port follows. -/
theorem wp_pmServerLookup_none (late : Prop) (spins : Nat) (event : SktEvent) (st st' : Spm)
    (hp : st'.ports = st.ports) (hw : st'.waits = st.waits)
    (h : (st.lookup (cstr st'.sktname)).isSome ∨ q.length < 2) :
    wp late (pmServerLookup spins event st') (Untouched st) q e := by
  have same : st'.lookup (cstr st'.sktname) = st.lookup (cstr st'.sktname) := by
    rw [Spm.lookup, Spm.lookup, hp]
  unfold pmServerLookup
  rw [same]
  split
  · change wp late (.send _ (.ret _)) _ _ _
    rw [wp_send, wp_ret]
    exact (untouched_done st' hp hw _ _).after _ quiet_nil
  · rename_i free
    rw [pmServerPort, wp_orTimedout]
    refine ⟨fun _ => untouched_done st' hp hw _ _, fun _ => ?_⟩
    rw [wp_sreadbytes, if_neg (by have := h.resolve_left free; omega)]
    exact untouched_hang

theorem wp_pmServerName_none (late : Prop) (spins : Nat) (event : SktEvent) (st st' : Spm)
    (hp : st'.ports = st.ports) (hw : st'.waits = st.waits) (hb : Terminated st'.sktname)
    {host : Option (List Byte)} (h : registerName st host q = none) :
    wp late (pmServerName spins event st') (Untouched st) q e := by
  rw [pmServerName, wp_orTimedout]
  refine ⟨fun _ => untouched_done st' hp hw _ _, fun _ => ?_⟩
  cases field : gets (bufsize - 2) q with
  | some r =>
    obtain ⟨name, rest⟩ := r
    have lost : (st.lookup name).isSome ∨ rest.length < 2 := by
      by_contra ok
      rw [registerName, field] at h
      dsimp only at h
      rw [if_neg ok] at h
      cases h
    rw [wp_sgets_some spins hb.1 field (fun buf => pmServerLookup spins event (st'.setSktname buf))
      (C := True)]
    · trivial
    · intro buf' t _ str
      rw [iff_true]
      have gone := wp_pmServerLookup_none late spins event st (st'.setSktname buf') hp hw
        (e := e) (str.symm ▸ lost)
      exact gone.mono fun r hr => hr.after _ (quiet_read t)
  | none =>
    rw [wp_sgets_none spins hb.1 field fun buf => pmServerLookup spins event (st'.setSktname buf)]
    refine ⟨fun _ => untouched_blocked, fun _ => ?_⟩
    have gone := wp_pmServerLookup_none late spins event st (st'.setSktname
      (cutBuffer st'.sktname q)) hp hw (q := []) (e := .closed) (.inr (by simp))
    exact gone.mono fun r hr => hr.after _ (quiet_read q)

/-- **A session without a complete registration makes no entry** and leaves
both lists alone, wherever it stops. -/
theorem wp_pmServer_none (late : Prop) (spins : Nat) {event : SktEvent} (hv : st.Valid)
    (h : registration st event q = none) :
    wp late (pmServer spins event st) (Untouched st) q e := by
  unfold pmServer
  rw [wp_swrite]
  unfold registration at h
  split
  · rename_i share
    rw [if_pos share] at h
    rw [wp_orTimedout]
    refine ⟨fun _ => (untouched_done st rfl rfl _ _).after _ quiet_nil, fun _ => ?_⟩
    cases field : gets (bufsize - 2) q with
    | some r =>
      obtain ⟨host, rest⟩ := r
      rw [field] at h
      rw [wp_sgets_some spins hv.sharehost.1 field
        (fun buf => pmServerName spins event (st.setSharehost buf)) (C := True)]
      · trivial
      · intro buf' t _ _
        rw [iff_true]
        refine (wp_pmServerName_none late spins event st (st.setSharehost buf') rfl rfl
          hv.sktname h).mono ?_
        exact fun r hr => (hr.after _ (quiet_read t)).after _ quiet_nil
    | none =>
      rw [wp_sgets_none spins hv.sharehost.1 field fun buf =>
        pmServerName spins event (st.setSharehost buf)]
      refine ⟨fun _ => untouched_blocked.after _ quiet_nil, fun _ => ?_⟩
      -- nothing is left for a name
      have nothing : registerName st none [] = none := rfl
      refine (wp_pmServerName_none late spins event st (st.setSharehost (cutBuffer _ q)) rfl rfl
        hv.sktname nothing).mono ?_
      exact fun r hr => (hr.after _ (quiet_read q)).after _ quiet_nil
  · rename_i server
    rw [if_neg server] at h
    refine (wp_pmServerName_none late spins event st (st.setSharehost (st.sharehost.set 0 0))
      rfl rfl hv.sktname h).mono ?_
    exact fun r hr => hr.after _ quiet_nil

/-- What `makePortTable` leaves behind: the entry at the tail, its name still in
the static buffer, and everything else as it was. -/
structure Registered (st st' : Spm) (p : PortTable) : Prop where
  ports : st'.ports = st.ports.append p
  waits : st'.waits = st.waits
  sktname : cstr st'.sktname = p.sktname

variable {late : Prop} {P : Outcome Byte Note (Exit × Spm) → Prop} {C : Prop} {p : PortTable}
  {rest : List Byte}

theorem wp_pmServerName_some (spins : Nat) (event : SktEvent) (st st' : Spm)
    (hp : st'.ports = st.ports) (hw : st'.waits = st.waits) (hb : Terminated st'.sktname)
    (h : registerName st (if event = PM.share then some (cstr st'.sharehost) else none) q =
      some (p, rest))
    (early : late → ∀ r, Untouched st r → P r)
    (made : ∀ st'' t, Registered st st'' p → Quiet t →
      (wp late (pmServerMesg spins p st'') (fun r => P (r.after [] (t ++ [.made p]))) rest e ↔ C)) :
    wp late (pmServerName spins event st') P q e ↔ C := by
  have field : ∃ name rest', gets (bufsize - 2) q = some (name, rest') ∧
      ¬ ((st.lookup name).isSome ∨ rest'.length < 2) ∧
      p = ⟨name, if event = PM.share then some (cstr st'.sharehost) else none,
        ntohs (rest'.take 2)⟩ ∧ rest = rest'.drop 2 := by
    unfold registerName at h
    split at h
    · cases h
    · rename_i name rest' field
      split at h
      · cases h
      · rename_i ok
        cases h
        exact ⟨name, rest', field, ok, rfl, rfl⟩
  obtain ⟨name, rest', field, ok, hpe, rfl⟩ := field
  have some' : q ≠ [] := by rintro rfl; cases field
  rw [pmServerName, wp_orTimedout, and_iff_right, imp_iff_right some',
    wp_sgets_some spins hb.1 field fun buf => pmServerLookup spins event (st'.setSktname buf)]
  · intro buf' t _ str
    have free : ¬ ((st'.setSktname buf').lookup (cstr (st'.setSktname buf').sktname)).isSome := by
      rw [Spm.lookup, Spm.setSktname_ports, hp, Spm.setSktname_sktname, str]
      exact fun h => ok (.inl h)
    have rest'ne : rest' ≠ [] := by rintro rfl; simp at ok
    rw [pmServerLookup, if_neg free, pmServerPort, wp_orTimedout, and_iff_right,
      imp_iff_right rest'ne, wp_sreadbytes, if_pos (by omega)]
    · have entry : (⟨cstr buf', (if event = PM.share then some st'.sharehost else none).map cstr,
          ntohs (rest'.take 2)⟩ : PortTable) = p := by
        rw [hpe, str]
        split <;> rfl
      rw [← made { st'.setSktname buf' with ports := st'.ports.append p }
        ([.read t] ++ [.read (rest'.take 2)]) ⟨by rw [hp], hw, by rw [hpe]; exact str⟩
        ((quiet_read _).append (quiet_read _))]
      dsimp only [makePortTable]
      rw [Spm.setSktname_sktname, Spm.setSktname_sharehost, Spm.setSktname_ports, entry,
        Proc.note_bind, wp_note]
      exact Iff.rfl
    · rintro (l | empty)
      · exact early l _ ((untouched_done (st'.setSktname buf') hp hw _ _).after _ (quiet_read t))
      · exact absurd empty rest'ne
  · rintro (l | empty)
    · exact early l _ (untouched_done st' hp hw _ _)
    · exact absurd empty some'

/-- **A complete registration of a free name makes its entry**, unless a wait
before that expires, and goes on to the final `PM_OK`. -/
theorem wp_pmServer_some (spins : Nat) {event : SktEvent} (hv : st.Valid)
    (h : registration st event q = some (p, rest))
    (early : late → ∀ r, Untouched st r → P r)
    (made : ∀ st' o t, Registered st st' p → Quiet t →
      (wp late (pmServerMesg spins p st') (fun r => P (r.after o (t ++ [.made p]))) rest e ↔ C)) :
    wp late (pmServer spins event st) P q e ↔ C := by
  unfold pmServer
  rw [wp_swrite]
  have early' (t : List Note) (ht : Quiet t) (l : late) (r) (hr : Untouched st r) :
      P ((r.after [] t).after [htons PM.ok] []) :=
    early l _ ((hr.after _ ht).after _ quiet_nil)
  unfold registration at h
  split
  · rename_i share
    rw [if_pos share] at h
    split at h
    · cases h
    · rename_i host rest' field
      have some' : q ≠ [] := by rintro rfl; cases field
      rw [wp_orTimedout, and_iff_right, imp_iff_right some',
        wp_sgets_some spins hv.sharehost.1 field
          fun buf => pmServerName spins event (st.setSharehost buf)]
      · intro buf' t _ str
        apply wp_pmServerName_some spins event st (st.setSharehost buf') rfl rfl hv.sktname
        · rw [if_pos share, Spm.setSharehost_sharehost, str, h]
        · exact fun l r hr => early' [.read t] (quiet_read t) l r hr
        · intro st'' t' reg ht
          rw [← made st'' [htons PM.ok] ([.read t] ++ t') reg ((quiet_read t).append ht)]
          simp only [Outcome.after_after, List.append_assoc, List.append_nil, List.nil_append]
      · rintro (l | empty)
        · exact early l _ ((untouched_done st rfl rfl _ _).after _ quiet_nil)
        · exact absurd empty some'
  · rename_i server
    rw [if_neg server] at h
    apply wp_pmServerName_some spins event st (st.setSharehost (st.sharehost.set 0 0)) rfl rfl
      hv.sktname
    · rw [if_neg server, h]
    · exact fun l r hr => early' [] quiet_nil l r hr
    · intro st'' t' reg ht
      rw [← made st'' [htons PM.ok] t' reg ht]
      simp only [Outcome.after_after, List.append_nil, List.nil_append]

theorem wp_pmServerMesg (spins : Nat) (p : PortTable) (st : Spm) :
    wp late (pmServerMesg spins p st) P q e ↔
      (late ∨ q = [] → P ⟨[htons PM.ok], [], .done (.timedout, st) ⟨q, e, []⟩⟩) ∧
      (q ≠ [] →
        if 2 ≤ q.length then
          if ntohs (q.take 2) ≠ PM.ok then
            P ⟨[htons PM.ok], [.read (q.take 2)], .done (.timedout, st) ⟨q.drop 2, e, []⟩⟩
          else match wakeupAll spins p st with
            | some st' =>
              P ⟨[htons PM.ok], [.read (q.take 2)], .done (.next, st') ⟨q.drop 2, e, []⟩⟩
            | none => P ⟨[htons PM.ok], [.read (q.take 2)], .spun⟩
        else P ⟨[htons PM.ok], [], hang e⟩) := by
  rw [pmServerMesg, wp_swrite, wp_orTimedout, wp_sreadbytes]
  refine and_congr Iff.rfl (imp_congr_right fun _ => ?_)
  split
  · dsimp only
    split
    · change wp late (.ret _) _ _ _ ↔ _
      rw [wp_ret]
      exact Iff.rfl
    · cases wakeupAll spins p st with
      | some st' =>
        change wp late (.ret _) _ _ _ ↔ _
        rw [wp_ret]
        exact Iff.rfl
      | none =>
        change wp late .spin _ _ _ ↔ _
        rw [wp_spin]
        exact Iff.rfl
  · exact Iff.rfl

end

/-! ## A failed registration -/

/-- The client's final `PM_OK` has been read for the entry made. -/
def Confirmed (notes : List Note) : Prop :=
  ∃ before p, notes = before ++ [.made p, .read (htons PM.ok)]

/-- A session that comes back without the final `PM_OK` leaves both lists as
they were. -/
def LeavesNoTrace (st : Spm) (r : Outcome Byte Note (Exit × Spm)) : Prop :=
  ∀ exit st' w, r.fate = .done (exit, st') w → ¬ Confirmed r.notes →
    st'.ports.vals = st.ports.vals ∧ st'.waits.vals = st.waits.vals

theorem not_confirmed (s : List Note) (p : PortTable) : ¬ Confirmed (s ++ [.made p]) := by
  rintro ⟨before, p', h⟩
  simpa using congrArg List.getLast? h

theorem confirmed_iff (s : List Note) (p : PortTable) (w : List Byte) :
    Confirmed (s ++ [.made p] ++ [.read w]) ↔ w = htons PM.ok := by
  constructor
  · rintro ⟨before, p', h⟩
    simpa using congrArg List.getLast? h
  · rintro rfl
    exact ⟨s, p, by simp⟩

theorem leavesNoTrace_forget (st : Spm) (r : Outcome Byte Note (Exit × Spm)) :
    LeavesNoTrace st r.forget ↔ LeavesNoTrace st r := by
  obtain ⟨o, t, fate⟩ := r
  cases fate with
  | done a w =>
    constructor
    · intro h exit st' w' hw
      cases hw
      exact h exit st' _ rfl
    · intro h exit st' w' hw
      cases hw
      exact h exit st' _ rfl
  | blocked => exact Iff.rfl
  | spun => exact Iff.rfl

theorem ntohs_eq_ok {w : List Byte} (h : w.length = 2) : ntohs w = PM.ok ↔ w = htons PM.ok := by
  obtain ⟨hi, lo, rfl⟩ := List.length_eq_two.1 h
  constructor
  · intro e
    rw [← e, htons_ntohs]
  · intro e
    rw [e, ntohs_htons]

section
variable {late : Prop} {st : Spm} {q : List Byte} {e : Ending}

theorem leavesNoTrace_untouched {r : Outcome Byte Note (Exit × Spm)} (h : Untouched st.opened r) :
    LeavesNoTrace st (r.map hangUp) := by
  obtain ⟨o, t, fate⟩ := r
  intro exit st' w hw _
  cases fate with
  | done a w' =>
    cases hw
    obtain ⟨hp, hw⟩ := h.2 a.1 a.2 _ rfl
    exact ⟨congrArg DList.vals hp, congrArg DList.vals hw⟩
  | blocked => cases hw
  | spun => cases hw

/-- Once the entry is made there is no way back: only the final `PM_OK` makes
the session a successful one. -/
theorem leavesNoTrace_mesg (spins : Nat) (hv : st.Valid) {st' : Spm} {p : PortTable}
    (reg : Registered st.opened st' p) (o : List (List Byte)) (t : List Note) :
    wp late (pmServerMesg spins p st')
        (fun r => LeavesNoTrace st ((r.after o (t ++ [.made p])).map hangUp)) q e ↔
      ¬ late ∧ q ≠ [] ∧ (2 ≤ q.length → ntohs (q.take 2) = PM.ok) := by
  obtain ⟨ps, hps, -⟩ := hv.ports
  have grown : (hangUp (.timedout, st')).2.ports.vals ≠ st.ports.vals := by
    change st'.ports.vals ≠ _
    rw [reg.ports, show st.opened.ports = st.ports from rfl, DList.append_vals hps]
    simp
  rw [wp_pmServerMesg]
  constructor
  · rintro ⟨timeout, run⟩
    have intime : ¬ (late ∨ q = []) := by
      intro l
      refine grown (timeout l _ _ _ rfl ?_).1
      simpa [Outcome.map, Outcome.after] using not_confirmed t p
    refine ⟨fun l => intime (.inl l), fun l => intime (.inr l), fun enough => ?_⟩
    by_contra other
    have lost := run (fun l => intime (.inr l))
    rw [if_pos enough, if_pos other] at lost
    refine grown (lost _ _ _ rfl ?_).1
    change ¬ Confirmed (t ++ [.made p] ++ [.read (q.take 2)])
    rw [confirmed_iff, ← ntohs_eq_ok (by rw [List.length_take]; omega)]
    exact other
  · rintro ⟨intime, some', ok⟩
    refine ⟨fun l => absurd l (by tauto), fun _ => ?_⟩
    split
    · rename_i enough
      rw [if_neg (by simpa using ok enough)]
      have confirmed : Confirmed (t ++ [.made p] ++ [.read (q.take 2)]) := by
        rw [confirmed_iff, ← ntohs_eq_ok (by rw [List.length_take]; omega)]
        exact ok enough
      split
      · exact fun _ _ _ _ h => absurd confirmed h
      · intro _ _ _ h
        cases h
    · intro _ _ _ h
      cases e <;> cases h

end

theorem leavesNoTrace_iff (late : Prop) {st : Spm} (hv : st.Valid) (a : Around)
    {peer : Option Peer} (pass : firewall st.fw peer = false) {bytes rest : List Byte}
    {before : List SktEvent} {ev : SktEvent}
    (hr : request (PM.maxtry + 1) bytes = .event before ev rest)
    (hev : ev = PM.server ∨ ev = PM.share) (e : Ending) :
    wp late (session a peer st) (LeavesNoTrace st) bytes e ↔
      ∀ p tail, registration st ev rest = some (p, tail) →
        ¬ late ∧ tail ≠ [] ∧ (2 ≤ tail.length → ntohs (tail.take 2) = PM.ok) := by
  have early (o : List (List Byte)) (t : List Note) (w : Wire Byte) :
      LeavesNoTrace st ((⟨o, t, .done (.timedout, st.opened) w⟩ :
        Outcome Byte Note (Exit × Spm)).map hangUp) := by
    intro exit st' w' h _
    cases h
    exact ⟨rfl, rfl⟩
  rw [wp_session a pass, wp_eventLoop_event a _ (handle_server a _ st.opened hev) hr
    fun _ o events q' => early o _ _]
  cases reg : registration st ev rest with
  | none =>
    simp only [reduceCtorEq, false_implies, implies_true, iff_true]
    refine (wp_pmServer_none late a.spins hv.opened reg).mono fun r h => ?_
    exact leavesNoTrace_untouched (h.after _ (quiet_eventsRead _))
  | some r =>
    obtain ⟨p, tail⟩ := r
    rw [wp_pmServer_some a.spins hv.opened reg
      (C := ¬ late ∧ tail ≠ [] ∧ (2 ≤ tail.length → ntohs (tail.take 2) = PM.ok))]
    · constructor
      · rintro h p' tail' he
        cases he
        exact h
      · exact fun h => h p tail rfl
    · exact fun _ r h => leavesNoTrace_untouched (h.after _ (quiet_eventsRead _))
    · intro st' o t made _
      simp only [Outcome.after_after, ← List.append_assoc]
      exact leavesNoTrace_mesg a.spins hv made _ _

/-- **A failed registration leaves no trace** exactly when the client's bytes
do not hold a complete one for a free name. With nothing late, exactly when
behind a complete one the final `PM_OK` follows, or a lone byte on which the
PortMaster hangs. -/
theorem failed_registration_iff {st : Spm} (h : Reachable st) (a : Around) {peer : Option Peer}
    (pass : firewall st.fw peer = false) {bytes rest : List Byte} {before : List SktEvent}
    {ev : SktEvent} (hr : request (PM.maxtry + 1) bytes = .event before ev rest)
    (hev : ev = PM.server ∨ ev = PM.share) (e : Ending) :
    ((∀ ticks, LeavesNoTrace st (exec (session a peer st) ⟨bytes, e, ticks⟩)) ↔
      registration st ev rest = none) ∧
    ((∀ ticks, 0 ∉ ticks → LeavesNoTrace st (exec (session a peer st) ⟨bytes, e, ticks⟩)) ↔
      ∀ p tail, registration st ev rest = some (p, tail) →
        tail ≠ [] ∧ (2 ≤ tail.length → ntohs (tail.take 2) = PM.ok)) := by
  have hv := reachable_valid h
  constructor
  · have iff := leavesNoTrace_iff True hv a pass hr hev e
    rw [wp_iff_exec (leavesNoTrace_forget st)] at iff
    simp only [true_or, true_implies, not_true, false_and] at iff
    rw [iff, Option.eq_none_iff_forall_not_mem]
    simp
  · have iff := leavesNoTrace_iff False hv a pass hr hev e
    rw [wp_iff_exec (leavesNoTrace_forget st)] at iff
    simpa only [false_or, not_false_eq_true, true_and] using iff

/-- `PM_SERVER`, the name `a`, the port 5, and nothing more. -/
def unconfirmed : List Byte := [0, 1, 97, 0, 0, 5]

theorem failed_registration_unconfirmed :
    ((∀ ticks, LeavesNoTrace newPortMaster
        (exec (session nothingAround none newPortMaster) ⟨unconfirmed, .closed, ticks⟩)) ↔
      registration newPortMaster PM.server [97, 0, 0, 5] = none) ∧
    ((∀ ticks, 0 ∉ ticks → LeavesNoTrace newPortMaster
        (exec (session nothingAround none newPortMaster) ⟨unconfirmed, .closed, ticks⟩)) ↔
      ∀ p tail, registration newPortMaster PM.server [97, 0, 0, 5] = some (p, tail) →
        tail ≠ [] ∧ (2 ≤ tail.length → ntohs (tail.take 2) = PM.ok)) := by
  have found : request (PM.maxtry + 1) unconfirmed = .event [] PM.server [97, 0, 0, 5] := rfl
  exact failed_registration_iff newPortMaster_reachable nothingAround rfl found (.inl rfl) .closed

/-- The client closes its end without the final `PM_OK`, and the entry stays. -/
theorem unconfirmed_entry_stays : ¬ ∀ ticks, LeavesNoTrace newPortMaster
    (exec (session nothingAround none newPortMaster) ⟨unconfirmed, .closed, ticks⟩) := by
  intro h
  have pass : firewall newPortMaster.fw none = false := rfl
  have found : request (PM.maxtry + 1) unconfirmed = .event [] PM.server [97, 0, 0, 5] := rfl
  have iff := leavesNoTrace_iff True (reachable_valid newPortMaster_reachable) nothingAround
    pass found (.inl rfl) .closed
  rw [wp_iff_exec (leavesNoTrace_forget _)] at iff
  exact (iff.1 (fun ticks _ => h ticks) ⟨[97], none, 5⟩ [] rfl).1 trivial

/-! ## The entry that was asked for -/

/-- The event and the fields that a client sends for an entry. -/
def PortTable.event (p : PortTable) : SktEvent := if p.sharehost.isSome then PM.share else PM.server

def PortTable.fields (p : PortTable) : List Byte :=
  (p.sharehost.map withNul).getD [] ++ withNul p.sktname ++ htons p.port

/-- No entry is made but the one that was asked for. -/
def StoresWhatWasAsked (p : PortTable) (r : Outcome Byte Note (Exit × Spm)) : Prop :=
  ∀ p', .made p' ∈ r.notes → p' = p

section
variable {s rest : List Byte}

/-- What a string that `Sputs` has sent leaves in the stream for the next read. -/
def leftover (s : List Byte) : List Byte :=
  if s.length < bufsize - 2 then [] else withNul (s.drop (bufsize - 2))

theorem gets_withNul (h : 0 ∉ s) (rest : List Byte) :
    gets (bufsize - 2) (withNul s ++ rest) = some (s.take (bufsize - 2), leftover s ++ rest) := by
  unfold leftover
  split
  · rename_i short
    rw [List.take_of_length_le (by omega)]
    exact gets_field ⟨h, .inl ⟨short, rfl⟩⟩ rest
  · rename_i long
    have full : Field (bufsize - 2) (s.take (bufsize - 2)) [] :=
      ⟨fun m => h (List.mem_of_mem_take m), .inr ⟨by rw [List.length_take]; omega, rfl⟩⟩
    have field := gets_field full (withNul (s.drop (bufsize - 2)) ++ rest)
    rw [← field]
    congr 1
    simp only [withNul, List.append_nil, ← List.append_assoc, List.take_append_drop]

theorem registerName_withNul {st : Spm} (h : 0 ∉ s) (host : Option (List Byte))
    {more : List Byte} (enough : 2 ≤ more.length) : registerName st host (withNul s ++ more) =
      if (st.lookup (s.take (bufsize - 2))).isSome then none
      else some (⟨s.take (bufsize - 2), host, ntohs ((leftover s ++ more).take 2)⟩,
        (leftover s ++ more).drop 2) := by
  have enough' : ¬ (leftover s ++ more).length < 2 := by
    rw [List.length_append]
    omega
  simp only [registerName, gets_withNul h, enough', or_false]

/-- A port read one byte too early. -/
theorem ntohs_early (port : SktEvent) : ntohs [0, (htons port).headD 0] = port ↔ port = 0 := by
  have h := port.toNat_lt
  constructor
  · intro e
    have e' := congrArg UInt16.toNat e
    simp only [ntohs, htons, List.headD_cons, UInt16.toNat_ofNat', UInt8.toNat_ofNat',
      UInt8.toNat_zero, Nat.zero_mul, Nat.zero_add] at e'
    have small : port.toNat / 256 % 2 ^ 8 < 2 ^ 16 := by omega
    rw [Nat.mod_eq_of_lt small] at e'
    apply UInt16.toNat_inj.1
    rw [UInt16.toNat_zero]
    omega
  · rintro rfl
    rfl

end

/-- The entry made for a name is the one asked for, if its share host is. -/
def NameStored (st : Spm) (name : List Byte) (port : SktEvent) : Prop :=
  name.length < bufsize - 2 ∨ (st.lookup (name.take (bufsize - 2))).isSome ∨
    name.length = bufsize - 2 ∧ port = 0

/-- Both strings fit `Sgets`; or the name that is read instead is taken, so
that no entry is made; or a string one byte too long leaves its NUL to be read
as the first byte of the port, or as the empty name, and that is what it is. -/
def Stored (st : Spm) (p : PortTable) : Prop :=
  match p.sharehost with
  | none => NameStored st p.sktname p.port
  | some host =>
    if host.length < bufsize - 2 then NameStored st p.sktname p.port
    else (st.lookup ((host.drop (bufsize - 2)).take (bufsize - 2))).isSome ∨
      host.length = bufsize - 2 ∧ p.sktname = [] ∧ p.port = 0

theorem nameStored_iff {st : Spm} {name : List Byte} (h : 0 ∉ name) (host : Option (List Byte))
    (port : SktEvent) (tail : List Byte) :
    (∀ p' rest, registerName st host (withNul name ++ (htons port ++ tail)) = some (p', rest) →
      p' = ⟨name, host, port⟩) ↔ NameStored st name port := by
  rw [registerName_withNul h host (by simp)]
  unfold NameStored
  by_cases taken : (st.lookup (name.take (bufsize - 2))).isSome
  · simp [taken]
  rw [if_neg taken]
  rcases Nat.lt_trichotomy name.length (bufsize - 2) with short | full | long
  · apply iff_of_true _ (.inl short)
    rintro p' rest ⟨⟩
    rw [leftover, if_pos short, List.nil_append, List.take_left' (htons_length port), ntohs_htons,
      List.take_of_length_le (by omega)]
  · have left : leftover name = [0] := by
      rw [leftover, if_neg (by omega), List.drop_of_length_le (by omega)]
      rfl
    have early : (leftover name ++ (htons port ++ tail)).take 2 = [0, (htons port).headD 0] := by
      rw [left]; rfl
    rw [early, List.take_of_length_le (by omega)]
    constructor
    · intro stored
      have e := stored _ _ rfl
      simp only [PortTable.mk.injEq, true_and] at e
      exact .inr (.inr ⟨full, (ntohs_early port).1 e⟩)
    · rintro (short | taken' | ⟨-, zero⟩) p' rest ⟨⟩
      · omega
      · rw [List.take_of_length_le (by omega)] at taken
        exact absurd taken' taken
      · rw [(ntohs_early port).2 zero]
  · apply iff_of_false
    · intro stored
      have e := congrArg (List.length ∘ PortTable.sktname) (stored _ _ rfl)
      simp only [Function.comp_apply, List.length_take] at e
      omega
    · rintro (short | taken' | ⟨full, -⟩)
      · omega
      · exact taken taken'
      · omega

/-- With a share host that is too long, its rest is read as the name. -/
theorem longHost_iff {st : Spm} {host : List Byte} (h : 0 ∉ host)
    (long : bufsize - 2 ≤ host.length) (name : List Byte) (port : SktEvent) (tail : List Byte) :
    (∀ p' rest, registerName st (some (host.take (bufsize - 2)))
      (withNul (host.drop (bufsize - 2)) ++ (withNul name ++ (htons port ++ tail))) =
        some (p', rest) → p' = ⟨name, some host, port⟩) ↔
      (st.lookup ((host.drop (bufsize - 2)).take (bufsize - 2))).isSome ∨
        host.length = bufsize - 2 ∧ name = [] ∧ port = 0 := by
  have hdrop : 0 ∉ host.drop (bufsize - 2) := fun m => h (List.mem_of_mem_drop m)
  rw [registerName_withNul hdrop _ (by simp only [List.length_append, htons_length]; omega)]
  by_cases taken : (st.lookup ((host.drop (bufsize - 2)).take (bufsize - 2))).isSome
  · simp [taken]
  rw [if_neg taken, or_iff_right taken]
  constructor
  · intro stored
    have e := stored _ _ rfl
    simp only [PortTable.mk.injEq, Option.some.injEq] at e
    obtain ⟨ename, ehost, eport⟩ := e
    have full : host.length = bufsize - 2 := by
      have := congrArg List.length ehost
      rw [List.length_take] at this
      omega
    rw [List.drop_of_length_le (by omega), List.take_nil] at ename
    subst ename
    rw [List.drop_of_length_le (by omega)] at eport
    exact ⟨full, rfl, (ntohs_early port).1 eport⟩
  · rintro ⟨full, rfl, zero⟩ p' rest ⟨⟩
    have early := (ntohs_early port).2 zero
    rw [List.drop_of_length_le (by omega), List.take_nil, List.take_of_length_le (by omega)]
    rw [PortTable.mk.injEq]
    exact ⟨rfl, rfl, early⟩

/-- The entry in the fields that a client sends is the one it asks for. -/
theorem stored_iff {st : Spm} {p : PortTable} (hname : 0 ∉ p.sktname)
    (hhost : ∀ host ∈ p.sharehost, 0 ∉ host) (tail : List Byte) :
    (∀ p' rest, registration st p.event (p.fields ++ tail) = some (p', rest) → p' = p) ↔
      Stored st p := by
  obtain ⟨name, sharehost, port⟩ := p
  cases sharehost with
  | none =>
    have same : registration st (PortTable.event ⟨name, none, port⟩)
        (PortTable.fields ⟨name, none, port⟩ ++ tail) =
        registerName st none (withNul name ++ (htons port ++ tail)) := by
      simp [registration, PortTable.event, PortTable.fields, PM.server, PM.share]
    rw [same]
    exact nameStored_iff hname none port tail
  | some host =>
    have h : 0 ∉ host := hhost host rfl
    have same : registration st (PortTable.event ⟨name, some host, port⟩)
        (PortTable.fields ⟨name, some host, port⟩ ++ tail) =
        registerName st (some (host.take (bufsize - 2)))
          (leftover host ++ (withNul name ++ (htons port ++ tail))) := by
      have bytes : PortTable.fields ⟨name, some host, port⟩ ++ tail =
          withNul host ++ (withNul name ++ (htons port ++ tail)) := by simp [PortTable.fields]
      rw [bytes, registration, gets_withNul h]
      rfl
    rw [same]
    unfold Stored leftover
    dsimp only
    split
    · rename_i short
      rw [List.nil_append, List.take_of_length_le (by omega)]
      exact nameStored_iff hname (some host) port tail
    · exact longHost_iff h (by omega) name port tail

theorem storesWhatWasAsked_quiet {p : PortTable} {r : Outcome Byte Note (Exit × Spm)}
    (h : Quiet r.notes) : StoresWhatWasAsked p r := fun p' m => absurd m (h p')

theorem quiet_mesg (late : Prop) (spins : Nat) (p : PortTable) (st : Spm) (q : List Byte)
    (e : Ending) : wp late (pmServerMesg spins p st) (fun r => Quiet r.notes) q e := by
  rw [wp_pmServerMesg]
  refine ⟨fun _ => quiet_nil, fun _ => ?_⟩
  split
  · split
    · exact quiet_read _
    · split
      · exact quiet_read _
      · exact quiet_read _
  · exact quiet_nil

/-- Whatever comes after it, a session makes the one entry in its bytes. -/
theorem storesWhatWasAsked_iff (late : Prop) {st : Spm} (hv : st.Valid) (a : Around)
    {peer : Option Peer} (pass : firewall st.fw peer = false) {bytes rest : List Byte}
    {before : List SktEvent} {ev : SktEvent}
    (hr : request (PM.maxtry + 1) bytes = .event before ev rest)
    (hev : ev = PM.server ∨ ev = PM.share) (p : PortTable) (e : Ending) :
    wp late (session a peer st) (StoresWhatWasAsked p) bytes e ↔
      ∀ p' tail, registration st ev rest = some (p', tail) → p' = p := by
  have early (o : List (List Byte)) (events : List SktEvent) (w : Wire Byte) :
      StoresWhatWasAsked p ((⟨o, eventsRead events, .done (.timedout, st.opened) w⟩ :
        Outcome Byte Note (Exit × Spm)).map hangUp) :=
    storesWhatWasAsked_quiet (quiet_eventsRead events)
  rw [wp_session a pass, wp_eventLoop_event a _ (handle_server a _ st.opened hev) hr
    fun _ o events q' => early o events _]
  cases reg : registration st ev rest with
  | none =>
    simp only [reduceCtorEq, false_implies, implies_true, iff_true]
    refine (wp_pmServer_none late a.spins hv.opened reg).mono fun r h => ?_
    exact storesWhatWasAsked_quiet ((quiet_eventsRead _).append h.1)
  | some r =>
    obtain ⟨p', tail⟩ := r
    rw [wp_pmServer_some a.spins hv.opened reg (C := p' = p)]
    · constructor
      · rintro h p'' tail' he
        cases he
        exact h
      · exact fun h => h p' tail rfl
    · exact fun _ r h => storesWhatWasAsked_quiet ((quiet_eventsRead _).append h.1)
    · intro st' o t _ ht
      refine wp_iff_of (quiet_mesg late a.spins p' st' tail e) fun r quiet => ?_
      constructor
      · exact fun h => h p' (by simp [Outcome.map, Outcome.after])
      · rintro rfl p'' m
        have m' : Note.made p'' ∈ eventsRead (before ++ [ev]) ++ (t ++ [.made p'] ++ r.notes) := m
        simp only [List.mem_append, List.mem_singleton, Note.made.injEq] at m'
        rcases m' with m' | (m' | m') | m'
        · exact absurd m' (quiet_eventsRead _ _)
        · exact absurd m' (ht _)
        · exact m'
        · exact absurd m' (quiet _)

/-- A name of 126 characters and the port 5. -/
def longName : PortTable := ⟨List.replicate 126 97, none, 5⟩

end UnixProgramming.Ssl
