import UnixProgramming.Pipe.Broken
import UnixProgramming.Ssl.Wedge

/-!
# Clients that end the PortMaster

`Swrite` sends without flags and `Spm.c` leaves `SIGPIPE` as it is. The first
write to a client that has closed its end still gets through, the second one
may end the PortMaster.

* `WritesTwice`: the bytes of a client that is written to more than once;
* `few_session`: how often a session writes;
* `never_wedged_iff`: when the PortMaster comes back, for every state of the
  accept loop.
-/

namespace UnixProgramming.Ssl

open Pipe Heap

/-! ## The bytes -/

/-- A new server's name that is in the table, or that has a port behind it. -/
def NameAnswered (st : Spm) (bytes : List Byte) : Prop :=
  bytes ≠ [] ∧ ((st.lookup (nameRead st bytes)).isSome ∨
    ∃ name rest, gets (bufsize - 2) bytes = some (name, rest) ∧ 2 ≤ rest.length)

/-- The bytes behind an event for which its handler writes more to the client
than the `PM_OK` that it begins with. -/
def HandlerWrites (st : Spm) (event : SktEvent) (bytes : List Byte) : Prop :=
  if event = PM.server then NameAnswered st bytes
  else if event = PM.share then
    ∃ host rest, gets (bufsize - 2) bytes = some (host, rest) ∧ NameAnswered st rest
  else if event = PM.clientwait then bytes ≠ [] ∧ (st.lookup (nameRead st bytes)).isSome
  else if event = PM.close then 2 ≤ bytes.length
  else if event = PM.quit then bytes ≠ [] ∧ nameRead st bytes ≠ portMaster
  else if event = PM.table then True
  else if event = PM.fwinit then False
  else bytes ≠ []

/-- The bytes of a client that is written to more than once. -/
def WritesTwice (st : Spm) (bytes : List Byte) : Prop :=
  match request (PM.maxtry + 1) bytes with
  | .nothing before => 2 ≤ before.length
  | .half before => 2 ≤ before.length
  | .worn => True
  | .event before ev rest => before ≠ [] ∨ HandlerWrites st ev rest

/-! ## The functions that read and write -/

/-- A session that writes no more than `n` times. -/
def Few (n : Nat) (r : Outcome Byte Note (Exit × Spm)) : Prop := r.wrote.length ≤ n

section
variable {late : Prop} {n : Nat} {q : List Byte}

theorem few_ret (x : Exit × Spm) : wp late (.ret x) (Few n) q .closed :=
  (wp_ret x).2 (Nat.zero_le n)

theorem few_swrite (bs : List Byte) (f : Unit → Proc (Exit × Spm)) :
    wp late (swrite bs >>= f) (Few (n + 1)) q .closed ↔ wp late (f ()) (Few n) q .closed := by
  rw [wp_swrite]
  apply wp_congr fun r => ?_
  simp only [Few, Outcome.after_wrote, List.length_append, List.length_singleton]
  omega

/-- A write is one too many where there is to be none. -/
theorem not_few_swrite (bs : List Byte) (f : Unit → Proc (Exit × Spm)) :
    ¬ wp late (swrite bs >>= f) (Few 0) q .closed := by
  intro quiet
  have first := quiet [] (.inr (by simp))
  simp [Few, swrite] at first

theorem few_orTimedout (st : Spm) (k : Proc (Exit × Spm)) :
    wp late (orTimedout st k) (Few n) q .closed ↔ (q ≠ [] → wp late k (Few n) q .closed) := by
  rw [wp_orTimedout, and_iff_right]
  exact fun _ => Nat.zero_le n

theorem few_word (spins : Nat) (st : Spm) (f : List Byte → Proc (Exit × Spm)) :
    wp late (orTimedout st (sreadbytes spins 2 >>= f)) (Few n) q .closed ↔
      (2 ≤ q.length → wp late (f (q.take 2)) (Few n) (q.drop 2) .closed) := by
  rw [few_orTimedout, wp_sreadbytes]
  split
  · rename_i two
    have some' : q ≠ [] := by rintro rfl; simp at two
    rw [imp_iff_right some', imp_iff_right two]
    exact Iff.rfl
  · rename_i cut
    exact iff_of_true (fun _ => Nat.zero_le n) fun two => absurd two cut

/-- `D` is asked for the string that ends up in the buffer. -/
theorem few_string (spins : Nat) (st : Spm) {buf : List Byte} (hb : buf.length = bufsize)
    (f : List Byte → Proc (Exit × Spm)) (D : List Byte → List Byte → Prop)
    (rest : ∀ buf' q', wp late (f buf') (Few n) q' .closed ↔ D (cstr buf') q') :
    wp late (orTimedout st (sgets spins buf bufsize >>= fun r => f r.2)) (Few n) q .closed ↔
      (q ≠ [] → match gets (bufsize - 2) q with
        | none => D (cstr (cutBuffer buf q)) []
        | some (s, q') => D s q') := by
  rw [few_orTimedout]
  apply imp_congr_right fun some' => ?_
  cases field : gets (bufsize - 2) q with
  | some r =>
    obtain ⟨s, q'⟩ := r
    apply wp_sgets_some spins hb field f
    rintro buf' t - rfl
    exact rest buf' q'
  | none =>
    rw [wp_sgets_none spins hb field f, and_iff_right nofun, imp_iff_right rfl]
    exact rest _ _

/-! ## The handlers -/

/-- Behind the `PM_OK` that the handler has begun with. -/
theorem few_pmServerName (spins : Nat) (event : SktEvent) {st : Spm}
    (hb : st.sktname.length = bufsize) :
    wp late (pmServerName spins event st) (Few 0) q .closed ↔ ¬ NameAnswered st q := by
  have port (name : List Byte) (st : Spm) (q : List Byte) (is : cstr st.sktname = name) :
      wp late (pmServerLookup spins event st) (Few 0) q .closed ↔
        ¬ ((st.lookup name).isSome ∨ 2 ≤ q.length) := by
    rw [pmServerLookup, is]
    by_cases found : (st.lookup name).isSome
    · rw [if_pos found]
      exact iff_of_false (not_few_swrite _ _) fun fresh => fresh (.inl found)
    · rw [if_neg found, pmServerPort]
      apply (few_word spins st _).trans
      rw [not_or, and_iff_right found]
      apply imp_congr_right fun _ => ?_
      exact iff_of_false (fun quiet => not_few_swrite _ _ ((wp_note _ _).1 quiet)) id
  apply (few_string spins st hb (fun buf => pmServerLookup spins event (st.setSktname buf))
    (fun name q => ¬ ((st.lookup name).isSome ∨ 2 ≤ q.length))
    fun buf' q' => port _ (st.setSktname buf') q' rfl).trans
  rw [NameAnswered, not_and]
  apply imp_congr_right fun some' => ?_
  unfold nameRead
  cases field : gets (bufsize - 2) q with
  | none => simp
  | some r =>
    obtain ⟨name, rest⟩ := r
    simp

theorem few_pmClientLookup (client : Nat) (waiting : Bool) (st : Spm) :
    wp late (pmClientLookup client waiting st) (Few 0) q .closed ↔
      ¬ (waiting = true → (st.lookup (cstr st.sktname)).isSome) := by
  unfold pmClientLookup
  cases found : st.lookup (cstr st.sktname) with
  | some x =>
    obtain ⟨_, p⟩ := x
    obtain ⟨buf, bufs, reply⟩ := p.reply_some
    apply iff_of_false
    · dsimp only
      intro quiet
      have written := (wp_ret _).1 ((wp_swriteAll _ fun _ => .ret (Exit.next, st)).1 quiet)
      rw [reply] at written
      simp [Few] at written
    · simp
  | none =>
    cases waiting with
    | true => exact iff_of_true (few_ret _) (by simp)
    | false => exact iff_of_false (not_few_swrite _ _) (by simp)

/-- One handler that reads a name and looks it up. -/
theorem few_named (spins : Nat) {st : Spm} (hb : st.sktname.length = bufsize)
    (f : Spm → Proc (Exit × Spm)) (D : List Byte → Prop)
    (rest : ∀ buf' q', wp late (f (st.setSktname buf')) (Few 0) q' .closed ↔ D (cstr buf')) :
    wp late (orTimedout st (sgets spins st.sktname bufsize >>= fun r => f (st.setSktname r.2)))
      (Few 0) q .closed ↔ (q ≠ [] → D (nameRead st q)) := by
  apply (few_string spins st hb (fun buf => f (st.setSktname buf)) (fun name _ => D name) rest).trans
  apply imp_congr_right fun _ => ?_
  unfold nameRead
  cases gets (bufsize - 2) q with
  | none => exact Iff.rfl
  | some r => exact Iff.rfl

theorem few_pmServer (spins : Nat) (event : SktEvent) {st : Spm} (hv : st.Valid) :
    wp late (pmServer spins event st) (Few 1) q .closed ↔
      ¬ if event = PM.share then
          ∃ host rest, gets (bufsize - 2) q = some (host, rest) ∧ NameAnswered st rest
        else NameAnswered st q := by
  rw [pmServer, few_swrite]
  split
  · apply (few_string spins st hv.sharehost.1
      (fun buf => pmServerName spins event (st.setSharehost buf)) (fun _ q => ¬ NameAnswered st q)
      fun buf' q' => few_pmServerName spins event hv.sktname.1).trans
    cases field : gets (bufsize - 2) q with
    | none => simp [NameAnswered]
    | some r =>
      obtain ⟨host, rest⟩ := r
      have some' : q ≠ [] := by rintro rfl; cases field
      simp [some']
  · exact few_pmServerName spins event hv.sktname.1

theorem few_pmClient (spins client : Nat) (waiting : Bool) {st : Spm} (hv : st.Valid) :
    wp late (pmClient spins client waiting st) (Few 1) q .closed ↔
      ¬ (q ≠ [] ∧ (waiting = true → (st.lookup (nameRead st q)).isSome)) := by
  rw [pmClient, few_swrite, not_and]
  exact few_named spins hv.sktname.1 (pmClientLookup client waiting)
    (fun name => ¬ (waiting = true → (st.lookup name).isSome))
    fun buf' q' => few_pmClientLookup client waiting (st.setSktname buf')

theorem few_pmClose (spins : Nat) (st : Spm) :
    wp late (pmClose spins st) (Few 1) q .closed ↔ ¬ 2 ≤ q.length := by
  rw [pmClose, few_swrite]
  apply (few_word spins st _).trans
  apply imp_congr_right fun _ => ?_
  rw [iff_false]
  dsimp only
  split
  · exact not_few_swrite _ _
  · exact not_few_swrite _ _

theorem few_pmQuit (spins : Nat) {st : Spm} (hv : st.Valid) :
    wp late (pmQuit spins st) (Few 1) q .closed ↔ ¬ (q ≠ [] ∧ nameRead st q ≠ portMaster) := by
  rw [pmQuit, few_swrite, not_and]
  apply few_named spins hv.sktname.1 pmQuitLookup (fun name => ¬ name ≠ portMaster)
  intro buf' q'
  rw [pmQuitLookup, Spm.setSktname_sktname]
  split
  · rename_i mine
    exact iff_of_true (few_ret _) (not_not.2 mine)
  · rename_i other
    exact iff_of_false (not_few_swrite _ _) (not_not.2 other)

theorem few_pmRmserver (spins : Nat) {locbuf : List Byte} (hb : locbuf.length = bufsize)
    (st : Spm) : wp late (pmRmserver spins locbuf st) (Few 1) q .closed ↔ ¬ q ≠ [] := by
  rw [pmRmserver, few_swrite]
  apply (few_string spins st hb (fun buf => pmRmserverLookup buf st) (fun _ _ => False)
    fun buf' q' => ?_).trans
  · apply imp_congr_right fun _ => ?_
    split
    · exact Iff.rfl
    · exact Iff.rfl
  · rw [pmRmserverLookup, iff_false]
    split
    · exact not_few_swrite _ _
    · exact not_few_swrite _ _

theorem few_handle (a : Around) (client : Nat) {event : SktEvent} {st : Spm} (hv : st.Valid)
    {p : Proc (Exit × Spm)} (hp : handle a client event st = some p) :
    wp late p (Few 1) q .closed ↔ ¬ HandlerWrites st event q := by
  cases handle_cases hp with
  | server server =>
    apply (few_pmServer a.spins event hv).trans
    rw [HandlerWrites]
    rcases server with rfl | rfl
    · rw [if_neg (by decide), if_pos rfl]
    · rw [if_pos rfl, if_neg (by decide), if_pos rfl]
  | clientwait =>
    apply (wp_map _ (keepWaiting client)).trans
    apply (few_pmClient a.spins client true hv).trans
    rw [imp_iff_right rfl]
    exact Iff.rfl
  | client =>
    apply (few_pmClient a.spins client false hv).trans
    rw [and_iff_left (by simp)]
    exact Iff.rfl
  | close => exact few_pmClose a.spins st
  | quit => exact few_pmQuit a.spins hv
  | table =>
    apply iff_of_false
    · rw [pmTable, few_swrite]
      exact not_few_swrite _ _
    · exact not_not.2 trivial
  | rmserver => exact few_pmRmserver a.spins a.size st
  | fwinit =>
    apply iff_of_true
    · exact (few_swrite _ _).2 (few_ret _)
    · exact id

/-- Every handler begins with a write. -/
theorem handle_writes (a : Around) (client : Nat) {event : SktEvent} {st : Spm}
    {p : Proc (Exit × Spm)} (hp : handle a client event st = some p) :
    ¬ wp late p (Few 0) q .closed := by
  cases handle_cases hp with
  | server => exact not_few_swrite _ _
  | clientwait => exact fun quiet => not_few_swrite _ _ ((wp_map _ (keepWaiting client)).1 quiet)
  | client => exact not_few_swrite _ _
  | close => exact not_few_swrite _ _
  | quit => exact not_few_swrite _ _
  | table => exact not_few_swrite _ _
  | rmserver => exact not_few_swrite _ _
  | fwinit => exact not_few_swrite _ _

/-! ## The event loop -/

/-- With nothing written, no event is read. -/
theorem quiet_eventLoop (a : Around) (client left : Nat) (st : Spm) :
    wp late (eventLoop a client (left + 1) st) (Few 0) q .closed ↔ ¬ 2 ≤ q.length := by
  rw [eventLoop]
  apply (few_word a.spins st _).trans
  apply imp_congr_right fun _ => ?_
  dsimp only
  cases hp : handle a client (ntohs (q.take 2)) st with
  | some p => exact iff_of_false (handle_writes a client hp) id
  | none => exact iff_of_false (not_few_swrite _ _) id

theorem few_eventLoop (a : Around) (client left : Nat) {st : Spm} (hv : st.Valid) :
    wp late (eventLoop a client (left + 2) st) (Few 1) q .closed ↔
      match request (left + 2) q with
      | .nothing before => ¬ 2 ≤ before.length
      | .half before => ¬ 2 ≤ before.length
      | .worn => False
      | .event before ev rest => ¬ (before ≠ [] ∨ HandlerWrites st ev rest) := by
  rw [eventLoop]
  apply (few_word a.spins st _).trans
  rcases q with _ | ⟨hi, _ | ⟨lo, q⟩⟩
  · simp [request]
  · simp [request]
  · rw [imp_iff_right (by simp)]
    simp only [List.take_succ_cons, List.take_zero, List.drop_succ_cons, List.drop_zero]
    cases hp : handle a client (ntohs [hi, lo]) st with
    | some p =>
      rw [request_known hp]
      apply (few_handle a client hv hp).trans
      simp
    | none =>
      rw [request_unknown hp]
      dsimp only
      rw [few_swrite]
      apply (quiet_eventLoop a client left st).trans
      rcases q with _ | ⟨hi', _ | ⟨lo', q⟩⟩
      · simp [request, Request.behind]
      · simp [request, Request.behind]
      · apply iff_of_false (by simp)
        cases hp' : handle a client (ntohs [hi', lo']) st with
        | some p =>
          rw [request_known hp']
          simp [Request.behind]
        | none =>
          rw [request_unknown hp']
          cases request left q <;> simp [Request.behind]

theorem few_session (a : Around) {peer : Option Peer} {st : Spm} (hv : st.Valid) :
    wp late (session a peer st) (Few 1) q .closed ↔
      (firewall st.fw peer = false → ¬ WritesTwice st q) := by
  cases pass : firewall st.fw peer with
  | true =>
    rw [wp_session_rejected a pass]
    exact iff_of_true (Nat.le_refl 1) (by simp)
  | false =>
    rw [wp_session a pass, imp_iff_right rfl]
    apply (few_eventLoop a st.accepted (PM.maxtry - 1) hv.opened).trans
    rw [WritesTwice, show PM.maxtry - 1 + 2 = PM.maxtry + 1 from rfl]
    cases request (PM.maxtry + 1) q with
    | nothing => exact Iff.rfl
    | half => exact Iff.rfl
    | worn => simp
    | event => exact Iff.rfl

end

/-! ## Every client -/

/-- A client's session comes to an end, in a way that is `ok`: no signal has ended
the PortMaster at a write to the client or to one that waits and has gone. -/
def ComesBack (ok : Exit → Prop) (gone : Nat → Prop) (sent : Nat)
    (r : Outcome Byte Note (Option (Exit × Spm))) : Prop :=
  ∃ exit st w, r.fate = .done (some (exit, st)) w ∧ ok exit ∧ Spares gone sent st

section
variable {ok : Exit → Prop} {gone : Nat → Prop} {sent : Nat}

theorem comesBack_iff (p : Proc (Exit × Spm)) (through : Nat) (bytes : List Byte) (e : Ending)
    (ticks : List Nat) : ComesBack ok gone sent (exec (p.before e through) ⟨bytes, e, ticks⟩) ↔
      Comes ok gone sent (exec p ⟨bytes, e, ticks⟩) ∧
        (e = .closed → (exec p ⟨bytes, e, ticks⟩).wrote.length ≤ through) := by
  have whole (r : Outcome Byte Note (Exit × Spm)) :
      ComesBack ok gone sent ⟨r.wrote, r.notes, r.fate.some⟩ ↔ Comes ok gone sent r := by
    obtain ⟨o, t, fate⟩ := r
    cases fate with
    | done x w =>
      constructor
      · rintro ⟨exit, st, w', same, fine⟩
        cases same
        exact ⟨exit, st, w, rfl, fine⟩
      · rintro ⟨exit, st, w', same, fine⟩
        cases same
        exact ⟨exit, st, w, rfl, fine⟩
    | blocked => exact iff_of_false nofun nofun
    | spun => exact iff_of_false nofun nofun
  cases e with
  | silent =>
    rw [and_iff_left nofun, ← whole, Proc.before, exec_map]
    exact Iff.rfl
  | closed =>
    rw [imp_iff_right rfl, Proc.before]
    have broken := exec_upTo p through ⟨bytes, .closed, ticks⟩
    by_cases few : (exec p ⟨bytes, .closed, ticks⟩).wrote.length ≤ through
    · rw [broken.whole few, and_iff_left few, whole]
    · obtain ⟨w, ended⟩ := broken.ended (by omega)
      apply iff_of_false
      · rintro ⟨exit, st, w', same, -⟩
        rw [ended] at same
        cases same
      · exact fun both => few both.2

end

theorem comesBack_session (ok : Exit → Prop) (timedout : ok .timedout) (next : ok .next) {st : Spm}
    (h : Reachable st) (a : Around) (peer : Option Peer) (gone : Nat → Prop) (bytes : List Byte)
    (e : Ending) :
    (∀ ticks through, 0 < through → ComesBack ok gone st.sent.length
      (exec ((session a peer st).before e through) ⟨bytes, e, ticks⟩)) ↔
      (firewall st.fw peer = false → ¬ Wedges gone st bytes e ∧ (Quits st bytes → ok .quit) ∧
        (e = .closed → ¬ WritesTwice st bytes)) := by
  have valid := reachable_valid h
  simp only [comesBack_iff]
  have ends : (∀ ticks, Comes ok gone st.sent.length (exec (session a peer st) ⟨bytes, e, ticks⟩)) ↔
      (firewall st.fw peer = false → ¬ Wedges gone st bytes e ∧ (Quits st bytes → ok .quit)) := by
    rw [← comes_session timedout next a valid rfl, wp_iff_exec comes_forget]
    exact forall_congr' fun _ => (imp_iff_right (.inl trivial)).symm
  have quiet : e = .closed → ((∀ ticks, Few 1 (exec (session a peer st) ⟨bytes, e, ticks⟩)) ↔
      (firewall st.fw peer = false → ¬ WritesTwice st bytes)) := by
    rintro rfl
    rw [← few_session a valid, wp_iff_exec fun _ => Iff.rfl]
    exact forall_congr' fun _ => (imp_iff_right (.inl trivial)).symm
  constructor
  · intro all pass
    have comes := ends.1 fun ticks => (all ticks 1 Nat.one_pos).1
    exact ⟨(comes pass).1, (comes pass).2, fun closed =>
      (quiet closed).1 (fun ticks => (all ticks 1 Nat.one_pos).2 closed) pass⟩
  · intro fine ticks through pos
    refine ⟨ends.2 (fun pass => ⟨(fine pass).1, (fine pass).2.1⟩) ticks, fun closed => ?_⟩
    have few : Few 1 _ := (quiet closed).2 (fun pass => (fine pass).2.2 closed) ticks
    exact few.trans pos

end UnixProgramming.Ssl
