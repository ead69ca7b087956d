import UnixProgramming.Pipe.Wp
import UnixProgramming.Ssl.Store

/-!
# What a client's bytes mean to the PortMaster

The bytes of a session cut into fields, and for each function that reads from
the client what it does with them: a rule of the `wp` calculus.

* `gets`, `request`: the fields `Sgets` and the event loop find;
* `wp_orTimedout`, `wp_sreadbytes`, `wp_sgets`: the reading functions;
* `wp_session`, `wp_eventLoop`: how a session gets to its handler.
-/

namespace UnixProgramming.Ssl

open Pipe

/-! ## Fields -/

/-- The string `Sgets` takes off the stream, with room for `room` characters,
and the bytes behind it; `none` when the stream ends or falls silent first. -/
def gets (room : Nat) (bytes : List Byte) : Option (List Byte × List Byte) :=
  let s := (cstr bytes).take room
  if s.length = room then some (s, bytes.drop room)
  else if s.length < bytes.length then some (s, bytes.drop (s.length + 1))
  else none

/-- What stops a C string inside a longer list is its NUL. -/
theorem cstr_stop {bytes : List Byte} (h : (cstr bytes).length < bytes.length) :
    bytes = cstr bytes ++ 0 :: bytes.drop ((cstr bytes).length + 1) := by
  induction bytes with
  | nil => simp at h
  | cons b bytes ih =>
    by_cases nul : b = 0
    · subst nul; simp [cstr]
    · have e : cstr (b :: bytes) = b :: cstr bytes := by simp [cstr, nul]
      rw [e] at h ⊢
      have tail := ih (by simpa using h)
      simpa using tail

theorem gets_field {room : Nat} {s z : List Byte} (h : Field room s z) (rest : List Byte) :
    gets room (s ++ z ++ rest) = some (s, rest) := by
  unfold gets
  rcases h with ⟨hs, ⟨short, rfl⟩ | ⟨full, rfl⟩⟩
  · have e : (cstr (s ++ [0] ++ rest)).take room = s := by
      rw [List.append_assoc, List.singleton_append, cstr_append_nul hs,
        List.take_of_length_le (by omega)]
    simp only [e, if_neg (show ¬ s.length = room by omega)]
    rw [if_pos (by simp), List.append_assoc, ← List.drop_drop, List.drop_left]
    rfl
  · have e : (cstr (s ++ [] ++ rest)).take room = s := by
      rw [List.append_nil, cstr_append hs, ← full, List.take_left]
    simp only [e, if_pos full]
    rw [List.append_nil, ← full, List.drop_left]

theorem gets_some {room : Nat} {bytes s rest : List Byte} (h : gets room bytes = some (s, rest)) :
    ∃ z, Field room s z ∧ bytes = s ++ z ++ rest := by
  have noNul : 0 ∉ (cstr bytes).take room := fun m => cstr_noNul bytes (List.mem_of_mem_take m)
  have short : ((cstr bytes).take room).length ≤ room := List.length_take_le _ _
  unfold gets at h
  dsimp only at h
  split at h
  · rename_i full
    cases h
    refine ⟨[], ⟨noNul, .inr ⟨full, rfl⟩⟩, ?_⟩
    have pre : (cstr bytes).take room <+: bytes :=
      (List.take_prefix _ _).trans (List.takeWhile_prefix _)
    have e := List.prefix_iff_eq_append.1 pre
    rw [full] at e
    rw [List.append_nil, e]
  · rename_i notFull
    split at h
    · rename_i more
      cases h
      have whole : (cstr bytes).take room = cstr bytes := by
        rw [List.length_take] at notFull
        exact List.take_of_length_le (by omega)
      refine ⟨[0], ⟨noNul, .inl ⟨by omega, rfl⟩⟩, ?_⟩
      rw [whole] at more ⊢
      rw [List.append_assoc, List.singleton_append]
      exact cstr_stop more
    · cases h

theorem gets_none {room : Nat} {bytes : List Byte} (h : gets room bytes = none) :
    0 ∉ bytes ∧ bytes.length < room := by
  unfold gets at h
  dsimp only at h
  split at h
  · cases h
  · rename_i notFull
    split at h
    · cases h
    · rename_i noMore
      rw [List.length_take] at notFull noMore
      have pre : cstr bytes <+: bytes := List.takeWhile_prefix _
      have whole : cstr bytes = bytes := pre.eq_of_length (by have := pre.length_le; omega)
      rw [whole] at notFull noMore
      exact ⟨whole ▸ cstr_noNul bytes, by omega⟩

/-- What the event loop finds: no byte, a lone byte, too many events that it
does not know, or one that it knows behind those it does not. -/
inductive Request where
  | nothing (before : List SktEvent)
  | half (before : List SktEvent)
  | worn
  | event (before : List SktEvent) (event : SktEvent) (rest : List Byte)

def known (event : SktEvent) : Bool :=
  event ∈ [PM.server, PM.share, PM.clientwait, PM.client, PM.close, PM.quit, PM.table,
    PM.rmserver, PM.fwinit]

def Request.behind (event : SktEvent) : Request → Request
  | .nothing before => .nothing (event :: before)
  | .half before => .half (event :: before)
  | .worn => .worn
  | .event before ev rest => .event (event :: before) ev rest

def request : Nat → List Byte → Request
  | 0, _ => .worn
  | _ + 1, [] => .nothing []
  | _ + 1, [_] => .half []
  | left + 1, hi :: lo :: rest =>
    if known (ntohs [hi, lo]) then .event [] (ntohs [hi, lo]) rest
    else (request left rest).behind (ntohs [hi, lo])

theorem handle_isSome (a : Around) (client : Nat) (event : SktEvent) (st : Spm) :
    (handle a client event st).isSome = known event := by
  unfold handle known
  simp only [List.mem_cons, List.not_mem_nil, or_false]
  split_ifs <;> simp <;> tauto

/-- An event that is known is the request. -/
theorem request_known {a : Around} {client : Nat} {st : Spm} {hi lo : Byte}
    {p : Proc (Exit × Spm)} (hp : handle a client (ntohs [hi, lo]) st = some p) (left : Nat)
    (q : List Byte) : request (left + 1) (hi :: lo :: q) = .event [] (ntohs [hi, lo]) q := by
  have found : known (ntohs [hi, lo]) = true := by
    rw [← handle_isSome a client _ st, hp]
    rfl
  exact if_pos found

/-- Behind one that is not known comes the rest. -/
theorem request_unknown {a : Around} {client : Nat} {st : Spm} {hi lo : Byte}
    (hp : handle a client (ntohs [hi, lo]) st = none) (left : Nat) (q : List Byte) :
    request (left + 1) (hi :: lo :: q) = (request left q).behind (ntohs [hi, lo]) := by
  have other : ¬ known (ntohs [hi, lo]) = true := by
    rw [← handle_isSome a client _ st, hp]
    simp
  exact if_neg other

theorem Request.behind_event {r : Request} {ev event : SktEvent} {before : List SktEvent}
    {rest : List Byte} (h : r.behind ev = .event before event rest) :
    ∃ before', before = ev :: before' ∧ r = .event before' event rest := by
  cases r with
  | event before' event' rest' => cases h; exact ⟨before', rfl, rfl⟩
  | nothing => cases h
  | half => cases h
  | worn => cases h

/-! ## The functions that read -/

section
variable {late : Prop} {α : Type} {P : Outcome Byte Note α → Prop} {q : List Byte} {e : Ending}

theorem wp_swrite (bs : List Byte) (f : Unit → Proc α) :
    wp late (swrite bs >>= f) P q e ↔ wp late (f ()) (fun r => P (r.after [bs] [])) q e :=
  Iff.rfl

theorem wp_swriteAll (bufs : List (List Byte)) : ∀ {P : Outcome Byte Note α → Prop}
    (f : Unit → Proc α), wp late (swriteAll bufs >>= f) P q e ↔
      wp late (f ()) (fun r => P (r.after bufs [])) q e := by
  induction bufs with
  | nil => intro P f; exact Iff.rfl
  | cons buf bufs ih =>
    intro P f
    have h := ih (P := fun r => P (r.after [buf] [])) f
    simp only [Outcome.after_after, List.singleton_append, List.append_nil] at h
    exact h

theorem wp_orTimedout {P : Outcome Byte Note (Exit × Spm) → Prop} (st : Spm)
    (k : Proc (Exit × Spm)) : wp late (orTimedout st k) P q e ↔
      (late ∨ q = [] → P ⟨[], [], .done (.timedout, st) ⟨q, e, []⟩⟩) ∧
        (q ≠ [] → wp late k P q e) := by
  have gone {n : Int} (neg : n < 0) (o : List (List Byte)) :
      Then late (fun n => if n < 0 then Proc.ret (.timedout, st) else k) P
        ⟨[], [], .done n ⟨q, e, []⟩⟩ ↔ P ⟨[], [], .done (.timedout, st) ⟨q, e, []⟩⟩ := by
    simp only [Then, if_pos neg, wp_ret]
    exact Iff.rfl
  have here {n : Int} (pos : 0 < n) :
      Then late (fun n => if n < 0 then Proc.ret (.timedout, st) else k) P
        ⟨[], [], .done n ⟨q, e, []⟩⟩ ↔ wp late k P q e := by
    simp only [Then, if_neg (show ¬ n < 0 by omega)]
    exact Iff.rfl
  change wp late (stimeoutwait >>= fun n => if n < 0 then Proc.ret (.timedout, st) else k) P q e ↔ _
  rw [wp_bind]
  constructor
  · intro h
    constructor
    · rintro (l | rfl)
      · have first := h [0] (.inl l)
        exact (gone (n := -2) (by decide) []).1 first
      · cases e with
        | closed => exact (gone (n := -1) (by decide) []).1 (h [] (.inr (by simp)))
        | silent => exact (gone (n := -2) (by decide) []).1 (h [] (.inr (by simp)))
    · intro some'
      obtain ⟨b, q, rfl⟩ := List.exists_cons_of_ne_nil some'
      exact (here (n := 1) (by decide)).1 (h [] (.inr (by simp)))
  · rintro ⟨timeout, run⟩ ticks ok
    obtain ⟨n, ticks', -, same, ⟨pos, some'⟩ | ⟨neg, empty⟩⟩ := exec_stimeoutwait ⟨q, e, ticks⟩
    · rw [same]
      exact (here pos).2 (run some')
    · rw [same]
      exact (gone neg []).2 (timeout (ok.imp_right empty))

theorem wp_sreadbytes (spins n : Nat) (f : List Byte → Proc α) :
    wp late (sreadbytes spins n >>= f) P q e ↔
      if n ≤ q.length then
        wp late (f (q.take n)) (fun r => P (r.after [] [.read (q.take n)])) (q.drop n) e
      else P ⟨[], [], hang e⟩ := by
  split
  · rename_i enough
    have reads := reads_sreadbytes spins (q.take n)
    have hn : (q.take n).length = n := by rw [List.length_take]; omega
    rw [hn] at reads
    have run (ticks : List Nat) (_ : late ∨ 0 ∉ ticks) :
        (exec (sreadbytes spins n) ⟨q, e, ticks⟩).forget =
          ⟨[], [.read (q.take n)], .done (q.take n) ⟨q.drop n, e, []⟩⟩ := by
      obtain ⟨_, ticks', rfl, -, same⟩ :=
        exec_reads reads (untimed_sreadbytes spins n) (q.drop n) e ticks
      rw [List.take_append_drop] at same
      rw [same]
      rfl
    rw [wp_bind_of_run f run]
    exact Iff.rfl
  · rename_i cut
    have run (ticks : List Nat) (_ : late ∨ 0 ∉ ticks) :
        (exec (sreadbytes spins n) ⟨q, e, ticks⟩).forget = ⟨[], [], hang e⟩ := by
      rw [exec_sreadbytes_cut e ticks spins (by omega)]
      cases e <;> rfl
    rw [wp_bind_of_run f run]
    cases e <;> exact Iff.rfl

/-- A whole string ends up in the buffer, with the bytes behind its NUL left open. -/
theorem exec_sgets_field (spins : Nat) {buf s rest : List Byte} (hb : buf.length = bufsize)
    (field : gets (bufsize - 2) q = some (s, rest)) (ticks : List Nat) :
    ∃ ok buf' t ticks', (Terminated buf → Terminated buf') ∧ cstr buf' = s ∧
      exec (sgets spins buf bufsize) ⟨q, e, ticks⟩ =
        ⟨[], [.read t], .done (ok, buf') ⟨rest, e, ticks'⟩⟩ := by
  obtain ⟨z, hf, rfl⟩ := gets_some field
  obtain ⟨⟨ok, buf'⟩, ticks', ⟨-, str, -⟩, -, same⟩ :=
    exec_reads (reads_sgets spins hf (by decide) hb) (untimed_sgets spins buf bufsize) rest e ticks
  refine ⟨ok, buf', _, ticks', fun term => ?_, str, same⟩
  exact exec_all (all_sgets spins term) (by rw [same])

/-- What follows a whole string sees it in the buffer. -/
theorem wp_sgets_some (spins : Nat) {buf s rest : List Byte} (hb : buf.length = bufsize)
    (field : gets (bufsize - 2) q = some (s, rest)) (f : List Byte → Proc α) {C : Prop}
    (h : ∀ buf' t, (Terminated buf → Terminated buf') → cstr buf' = s →
      (wp late (f buf') (fun r => P (r.after [] [.read t])) rest e ↔ C)) :
    wp late (sgets spins buf bufsize >>= fun r => f r.2) P q e ↔ C := by
  rw [wp_bind]
  constructor
  · intro run
    obtain ⟨ok, buf', t, ticks', term, str, same⟩ := exec_sgets_field spins hb field (e := e) []
    have there := run [] (.inr (by simp))
    rw [same] at there
    exact (h buf' t term str).1 there
  · intro c ticks _
    obtain ⟨ok, buf', t, ticks', term, str, same⟩ := exec_sgets_field spins hb field (e := e) ticks
    rw [same]
    exact (h buf' t term str).2 c

/-- The buffer after a string cut short. -/
def cutBuffer (buf s : List Byte) : List Byte := overlay ((buf.set 0 0).set (bufsize - 1) 0) 0 s

theorem Terminated.cut {buf s : List Byte} (h : Terminated buf) (short : s.length < bufsize - 2) :
    Terminated (cutBuffer buf s) := by
  have hc := h.cleared
  unfold cutBuffer
  constructor
  · rw [overlay_length (by rw [hc.1]; simp only [bufsize] at short ⊢; omega), hc.1]
  · rw [overlay_drop_behind (by omega) (by rw [hc.1]; decide), hc.2]

/-- A string cut short: a read without end on a silent stream, and at the end
of the stream a null pointer that no handler looks at. -/
theorem wp_sgets_none (spins : Nat) {buf : List Byte} (hb : buf.length = bufsize)
    (cut : gets (bufsize - 2) q = none) (f : List Byte → Proc α) :
    wp late (sgets spins buf bufsize >>= fun r => f r.2) P q e ↔
      (e = .silent → P ⟨[], [], .blocked⟩) ∧
      (e = .closed →
        wp late (f (cutBuffer buf q)) (fun r => P (r.after [] [.read q])) [] .closed) := by
  obtain ⟨hq, hl⟩ := gets_none cut
  have run (ticks : List Nat) (_ : late ∨ 0 ∉ ticks) :
      (exec (sgets spins buf bufsize) ⟨q, e, ticks⟩).forget =
        ⟨[], if e = .closed then [.read q] else [], cutShort (false, cutBuffer buf q) [] e⟩ := by
    obtain ⟨ticks', -, same⟩ := exec_sgets_cut e ticks spins hq hl hb
    rw [same]
    cases e <;> rfl
  rw [wp_bind_of_run _ run]
  cases e with
  | silent => simp [Then, cutShort]
  | closed => simp [Then, cutShort]

end

/-! ## The way to a handler -/

section
variable {late : Prop} {P : Outcome Byte Note (Exit × Spm) → Prop} {q : List Byte} {e : Ending}

theorem wp_eventLoop (a : Around) (client left : Nat) (st : Spm) :
    wp late (eventLoop a client (left + 1) st) P q e ↔
      (late ∨ q = [] → P ⟨[], [], .done (.timedout, st) ⟨q, e, []⟩⟩) ∧
      (q ≠ [] →
        if 2 ≤ q.length then
          match handle a client (ntohs (q.take 2)) st with
          | some p => wp late p (fun r => P (r.after [] [.read (q.take 2)])) (q.drop 2) e
          | none => wp late (eventLoop a client left st)
              (fun r => P (r.after [htons PM.resend] [.read (q.take 2)])) (q.drop 2) e
        else P ⟨[], [], hang e⟩) := by
  rw [eventLoop, wp_orTimedout, wp_sreadbytes]
  refine and_congr_right fun _ => imp_congr_right fun _ => ?_
  split
  · dsimp only
    cases handle a client (ntohs (q.take 2)) st with
    | some p => exact Iff.rfl
    | none => exact Iff.rfl
  · exact Iff.rfl

/-- The ghost marks of the events that the loop has read. -/
def eventsRead (events : List SktEvent) : List Note := events.map fun ev => .read (htons ev)

theorem eventsRead_cons (hi lo : Byte) (events : List SktEvent) :
    eventsRead (ntohs [hi, lo] :: events) = .read [hi, lo] :: eventsRead events := by
  rw [eventsRead, List.map_cons, htons_ntohs]
  rfl

/-- **A known event gets to its handler**, behind a `PM_RESEND` for each one
that is not known. -/
theorem wp_eventLoop_event (a : Around) (client : Nat) {st : Spm} {p : Proc (Exit × Spm)}
    {ev : SktEvent} (hp : handle a client ev st = some p) {rest : List Byte} :
    ∀ {left : Nat} {q : List Byte} {before : List SktEvent}
    {P : Outcome Byte Note (Exit × Spm) → Prop}, request left q = .event before ev rest →
    (late → ∀ o events q', P ⟨o, eventsRead events, .done (.timedout, st) ⟨q', e, []⟩⟩) →
    (wp late (eventLoop a client left st) P q e ↔
      wp late p (fun r => P (r.after (before.map fun _ => htons PM.resend)
        (eventsRead (before ++ [ev])))) rest e) := by
  intro left
  induction left with
  | zero => intro q before P h _; cases h
  | succ left ih =>
    intro q before P h early
    match q, h with
    | hi :: lo :: q, h =>
      have timeout : late ∨ hi :: lo :: q = [] →
          P ⟨[], [], .done (.timedout, st) ⟨hi :: lo :: q, e, []⟩⟩ := by
        rintro (l | empty)
        · exact early l [] [] _
        · cases empty
      rw [wp_eventLoop, and_iff_right timeout, imp_iff_right (by simp), if_pos (by simp)]
      simp only [List.take_succ_cons, List.take_zero, List.drop_succ_cons, List.drop_zero]
      cases here : handle a client (ntohs [hi, lo]) st with
      | some p' =>
        rw [request_known here] at h
        cases h
        cases here.symm.trans hp
        rw [List.nil_append, eventsRead_cons]
        exact Iff.rfl
      | none =>
        rw [request_unknown here] at h
        obtain ⟨before', rfl, hr⟩ := Request.behind_event h
        dsimp only
        rw [ih hr]
        · rw [List.cons_append, eventsRead_cons]
          simp only [Outcome.after_after]
          exact Iff.rfl
        · intro l o events q'
          have := early l (htons PM.resend :: o) (ntohs [hi, lo] :: events) q'
          rw [eventsRead_cons] at this
          exact this

/-- The state in which a new client is served. -/
def Spm.opened (st : Spm) : Spm :=
  { st with client := some st.accepted, accepted := st.accepted + 1 }

theorem Spm.Valid.opened {st : Spm} (h : st.Valid) : st.opened.Valid :=
  ⟨h.ports, h.waits, h.sktname, h.sharehost⟩

/-- The end of a turn of the accept loop. -/
def hangUp (r : Exit × Spm) : Exit × Spm := (r.1, closeClient r.2)

theorem wp_session (a : Around) {peer : Option Peer} {st : Spm}
    (pass : firewall st.fw peer = false) : wp late (session a peer st) P q e ↔
      wp late (eventLoop a st.accepted (PM.maxtry + 1) st.opened)
        (fun r => P (r.map hangUp)) q e := by
  rw [← wp_map]
  unfold session
  dsimp only
  rw [pass]
  exact Iff.rfl

theorem wp_session_rejected (a : Around) {peer : Option Peer} {st : Spm}
    (stop : firewall st.fw peer = true) : wp late (session a peer st) P q e ↔
      P ⟨[htons PM.sorryReply], [], .done (.next, closeClient st.opened) ⟨q, e, []⟩⟩ := by
  unfold session
  dsimp only
  rw [stop]
  change wp late (.send _ (.ret _)) P q e ↔ _
  rw [wp_send, wp_ret]
  exact Iff.rfl

end

end UnixProgramming.Ssl
