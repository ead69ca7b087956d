import UnixProgramming.Ssl.Requests

/-!
# Clients that keep the PortMaster

Only the first byte of a field is waited for with a time limit. Behind it
`Sreadbytes` waits, or turns on the spot, and so does `Sgets` on a stream that
has fallen silent. A waiting client that has gone is written to twice when its
server comes, and `Spm.c` has no handler for the signal of the second write.

* `Wedges`: the bytes on which the PortMaster hangs, or writes to such a client;
* `comes_session`: when a session comes to an end.
-/

namespace UnixProgramming.Ssl

open Pipe Heap

/-! ## The bytes -/

/-- A string that has begun and whose NUL does not come. -/
def Hanging (bytes : List Byte) (e : Ending) : Prop :=
  e = .silent ∧ bytes ≠ [] ∧ gets (bufsize - 2) bytes = none

/-- The names that clients wait for. -/
def Spm.waiting (st : Spm) : List (List Byte) := st.waits.vals.map ClientWaiting.sktname

/-- The wake-up loop for this server has no end: the first waiting client is
one to be woken, and there is another one that is not. -/
def Endless (waiting : List (List Byte)) (name : List Byte) : Prop :=
  waiting.head? = some name ∧ ∃ other ∈ waiting, other ≠ name

/-- The wake-up loop for this server writes to a client that has gone: the first
one is to be woken, and of all that then are one has gone. -/
def WakesGone (gone : Nat → Prop) (st : Spm) (name : List Byte) : Prop :=
  st.waiting.head? = some name ∧ ∃ w ∈ st.waits.vals, gone w.client

/-- Half a port, half a final answer, or one that starts a wake-up loop that has
no end or writes to a client that has gone. -/
def PortWedges (gone : Nat → Prop) (st : Spm) (name : List Byte) (bytes : List Byte) : Prop :=
  bytes.length = 1 ∨ bytes.length = 3 ∨
    4 ≤ bytes.length ∧ ntohs ((bytes.drop 2).take 2) = PM.ok ∧
      (Endless st.waiting name ∨ WakesGone gone st name)

def NameWedges (gone : Nat → Prop) (st : Spm) (bytes : List Byte) (e : Ending) : Prop :=
  match gets (bufsize - 2) bytes with
  | none => Hanging bytes e
  | some (name, rest) => st.lookup name = none ∧ PortWedges gone st name rest

/-- The bytes behind an event on which its handler hangs. -/
def HandlerWedges (gone : Nat → Prop) (st : Spm) (event : SktEvent) (bytes : List Byte)
    (e : Ending) : Prop :=
  if event = PM.server then NameWedges gone st bytes e
  else if event = PM.share then
    match gets (bufsize - 2) bytes with
    | none => Hanging bytes e
    | some (_, rest) => NameWedges gone st rest e
  else if event = PM.close then bytes.length = 1
  else if event = PM.table ∨ event = PM.fwinit then False
  else Hanging bytes e

/-- The bytes of a client on which the PortMaster hangs, or writes to a waiting
client that has gone. -/
def Wedges (gone : Nat → Prop) (st : Spm) (bytes : List Byte) (e : Ending) : Prop :=
  match request (PM.maxtry + 1) bytes with
  | .nothing _ => False
  | .half _ => True
  | .worn => False
  | .event _ ev rest => HandlerWedges gone st ev rest e

/-- The name that a handler reads into `sktname`: of a name cut short by the end of the
stream, what has come, in the buffer as it was. -/
def nameRead (st : Spm) (bytes : List Byte) : List Byte :=
  match gets (bufsize - 2) bytes with
  | none => cstr (cutBuffer st.sktname bytes)
  | some (name, _) => name

/-- The bytes of a client that tells the PortMaster to end. -/
def Quits (st : Spm) (bytes : List Byte) : Prop :=
  ∃ before rest, request (PM.maxtry + 1) bytes = .event before PM.quit rest ∧ rest ≠ [] ∧
    nameRead st rest = portMaster

/-! ## The functions that read -/

/-- Behind the first `sent` writes to waiting clients there is none to a client
that has gone. -/
def Spares (gone : Nat → Prop) (sent : Nat) (st : Spm) : Prop :=
  ∀ m ∈ st.sent.drop sent, ¬ gone m.1

theorem Spares.start {gone : Nat → Prop} {sent : Nat} {st : Spm} (h : st.sent.length = sent) :
    Spares gone sent st := by
  rw [Spares, List.drop_of_length_le h.le]
  nofun

/-- A session comes to an end, in a way that is `ok`, and has spared the clients
that have gone. -/
def Comes (ok : Exit → Prop) (gone : Nat → Prop) (sent : Nat)
    (r : Outcome Byte Note (Exit × Spm)) : Prop :=
  ∃ exit st w, r.fate = .done (exit, st) w ∧ ok exit ∧ Spares gone sent st

section
variable {late : Prop} {ok : Exit → Prop} {gone : Nat → Prop} {sent : Nat} {q : List Byte}
  {e : Ending}

theorem comes_forget (r : Outcome Byte Note (Exit × Spm)) :
    Comes ok gone sent r.forget ↔ Comes ok gone sent r := by
  obtain ⟨o, t, fate⟩ := r
  cases fate with
  | done x w =>
    constructor
    · rintro ⟨exit, st, w', same, h⟩
      cases same
      exact ⟨exit, st, w, rfl, h⟩
    · rintro ⟨exit, st, w', same, h⟩
      cases same
      exact ⟨exit, st, _, rfl, h⟩
  | blocked => exact Iff.rfl
  | spun => exact Iff.rfl

theorem comes_done (o : List (List Byte)) (t : List Note) (exit : Exit) (st : Spm)
    (w : Wire Byte) :
    Comes ok gone sent ⟨o, t, .done (exit, st) w⟩ ↔ ok exit ∧ Spares gone sent st := by
  constructor
  · rintro ⟨exit', st', w', same, h⟩
    cases same
    exact h
  · exact fun h => ⟨exit, st, w, rfl, h⟩

theorem not_comes_hang (o : List (List Byte)) (t : List Note) :
    ¬ Comes ok gone sent ⟨o, t, hang e⟩ := by
  rintro ⟨exit, st, w, same, -⟩
  cases e <;> cases same

theorem not_comes_blocked (o : List (List Byte)) (t : List Note) :
    ¬ Comes ok gone sent ⟨o, t, .blocked⟩ := by
  rintro ⟨exit, st, w, same, -⟩
  cases same

theorem not_comes_spun (o : List (List Byte)) (t : List Note) :
    ¬ Comes ok gone sent ⟨o, t, .spun⟩ := by
  rintro ⟨exit, st, w, same, -⟩
  cases same

/-- A last step that leaves the kind of end as it is, and what has been sent. -/
theorem comes_map {g : Exit × Spm → Exit × Spm} (hg : ∀ x, (g x).1 = x.1)
    (hs : ∀ x, (g x).2.sent = x.2.sent) (r : Outcome Byte Note (Exit × Spm)) :
    Comes ok gone sent (r.map g) ↔ Comes ok gone sent r := by
  obtain ⟨o, t, fate⟩ := r
  cases fate with
  | done x w =>
    apply (comes_done ..).trans
    rw [hg x, Spares, hs x]
    exact (comes_done ..).symm
  | blocked => exact iff_of_false (not_comes_blocked _ _) (not_comes_blocked _ _)
  | spun => exact iff_of_false (not_comes_spun _ _) (not_comes_spun _ _)

theorem comes_ret (exit : Exit) (st : Spm) :
    wp late (.ret (exit, st)) (Comes ok gone sent) q e ↔ ok exit ∧ Spares gone sent st := by
  rw [wp_ret, comes_done]

theorem comes_still {exit : Exit} (is : ok exit) {st : Spm} (hs : st.sent.length = sent) :
    wp late (.ret (exit, st)) (Comes ok gone sent) q e :=
  (comes_ret ..).2 ⟨is, .start hs⟩

/-- A wait that may expire does no harm. -/
theorem comes_orTimedout (timedout : ok .timedout) (st : Spm) (hs : st.sent.length = sent)
    (k : Proc (Exit × Spm)) : wp late (orTimedout st k) (Comes ok gone sent) q e ↔
      (q ≠ [] → wp late k (Comes ok gone sent) q e) := by
  rw [wp_orTimedout, and_iff_right]
  exact fun _ => (comes_done ..).2 ⟨timedout, .start hs⟩

/-- Two bytes, waited for with a time limit: they must not be cut in the middle. -/
theorem comes_word (timedout : ok .timedout) (spins : Nat) {st : Spm}
    (hs : st.sent.length = sent) (f : List Byte → Proc (Exit × Spm)) :
    wp late (orTimedout st (sreadbytes spins 2 >>= f)) (Comes ok gone sent) q e ↔
      q.length ≠ 1 ∧
        (2 ≤ q.length → wp late (f (q.take 2)) (Comes ok gone sent) (q.drop 2) e) := by
  rw [comes_orTimedout timedout _ hs, wp_sreadbytes]
  by_cases two : 2 ≤ q.length
  · have some' : q ≠ [] := by rintro rfl; simp at two
    rw [if_pos two, imp_iff_right some', and_iff_right (by omega), imp_iff_right two]
    exact Iff.rfl
  · rw [if_neg two, iff_false_intro (not_comes_hang [] [])]
    cases q with
    | nil => simp
    | cons b q =>
      simp only [List.length_cons] at two ⊢
      simp only [ne_eq, reduceCtorEq, not_false_eq_true, true_implies, false_iff]
      omega

/-- A string, waited for with a time limit, for a rest that does the same with
every buffer that holds it. -/
theorem comes_string (timedout : ok .timedout) (spins : Nat) {st : Spm}
    (hs : st.sent.length = sent) {buf : List Byte} (hb : buf.length = bufsize)
    (f : List Byte → Proc (Exit × Spm)) (D : List Byte → List Byte → Prop) (D' : Prop)
    (whole : ∀ s rest buf', gets (bufsize - 2) q = some (s, rest) →
      (Terminated buf → Terminated buf') → cstr buf' = s →
        (wp late (f buf') (Comes ok gone sent) rest e ↔ D s rest))
    (cut : gets (bufsize - 2) q = none → q ≠ [] →
      (wp late (f (cutBuffer buf q)) (Comes ok gone sent) [] .closed ↔ D')) :
    wp late (orTimedout st (sgets spins buf bufsize >>= fun r => f r.2)) (Comes ok gone sent) q e ↔
      match gets (bufsize - 2) q with
      | none => ¬ Hanging q e ∧ (q ≠ [] → e = .closed → D')
      | some (s, rest) => D s rest := by
  rw [comes_orTimedout timedout _ hs]
  cases field : gets (bufsize - 2) q with
  | some r =>
    obtain ⟨s, rest⟩ := r
    have some' : q ≠ [] := by rintro rfl; cases field
    rw [imp_iff_right some']
    apply wp_sgets_some spins hb field f
    exact fun buf' t term str => whole s rest buf' field term str
  | none =>
    unfold Hanging
    by_cases empty : q = []
    · simp [empty]
    rw [imp_iff_right empty, wp_sgets_none spins hb field f,
      iff_false_intro (not_comes_blocked _ _)]
    cases e with
    | silent => simp [empty, field]
    | closed =>
      simp only [reduceCtorEq, false_implies, true_and, true_implies, false_and, not_false_eq_true,
        ne_eq, empty]
      exact cut field empty

/-! ## The handlers -/

theorem PortTable.reply_some (p : PortTable) : ∃ buf bufs, p.reply = buf :: bufs := by
  unfold PortTable.reply
  split
  · exact ⟨_, _, rfl⟩
  · exact ⟨_, _, rfl⟩

/-- Each client that is woken is written to. -/
theorem Woken.spares {p : PortTable} {st st' : Spm} {mine others : List (Nat × ClientWaiting)}
    (woken : Woken p st st' mine others) (hs : st.sent.length = sent) :
    Spares gone sent st' ↔ ∀ w ∈ mine, ¬ gone w.2.client := by
  obtain ⟨buf, bufs, reply⟩ := p.reply_some
  rw [Spares, woken.sent, ← hs, List.drop_left, reply]
  simp only [List.map_cons, List.mem_flatMap, List.mem_cons, forall_exists_index, and_imp]
  constructor
  · exact fun all w hw => all (w.2.client, buf) w hw (.inl rfl)
  · rintro all m w hw (rfl | more)
    · exact all w hw
    · obtain ⟨buf', -, rfl⟩ := List.mem_map.1 more
      exact all w hw

/-- The wake-up loop comes to an end and spares the clients that have gone. -/
theorem wakeupAll_comes (spins : Nat) (p : PortTable) {st : Spm} (hv : st.Valid)
    (hs : st.sent.length = sent) :
    (∃ st', wakeupAll spins p st = some st' ∧ Spares gone sent st') ↔
      ¬ (Endless st.waiting (cstr st.sktname) ∨ WakesGone gone st (cstr st.sktname)) := by
  obtain ⟨ws, hws⟩ := hv.waits
  have few := hws.length_le
  have clients : st.waits.vals = ws.map Prod.snd := DList.vals_eq hws
  have names : st.waiting = ws.map fun w => w.2.sktname := by
    rw [Spm.waiting, clients, List.map_map]
    rfl
  have others : (∃ other ∈ st.waiting, other ≠ cstr st.sktname) ↔
      ∃ w ∈ ws, w.2.sktname ≠ cstr st.sktname := by
    rw [names]
    simp only [List.mem_map, exists_exists_and_eq_and]
  have first : st.waiting.head? = some (cstr st.sktname) ↔
      ∃ w ∈ ws.head?, w.2.sktname = cstr st.sktname := by
    rw [names, List.head?_map]
    simp only [Option.mem_def, Option.map_eq_some_iff]
  have away : (∃ w ∈ st.waits.vals, gone w.client) ↔ ∃ w ∈ ws, gone w.2.client := by
    rw [clients]
    simp only [List.mem_map, exists_exists_and_eq_and]
  unfold Endless WakesGone
  rw [first, others, away, wakeupAll]
  rcases wakeup_cases p hws with ⟨all, runs⟩ | ⟨⟨w, hw, other⟩, runs⟩ | ⟨mine, other, never⟩
  · obtain ⟨st', run, woken⟩ := runs (st.waits.brk + 1 + spins) (by omega)
    rw [run]
    constructor
    · rintro ⟨_, ⟨⟩, spared⟩ (⟨-, w, hw, other⟩ | ⟨-, w, hw, away⟩)
      · exact other (all w hw)
      · exact (woken.spares hs).1 spared w hw away
    · intro fine
      refine ⟨st', rfl, (woken.spares hs).2 fun w hw away => fine (.inr ⟨?_, w, hw, away⟩)⟩
      cases ws with
      | nil => cases hw
      | cons w' ws => exact ⟨w', rfl, all w' List.mem_cons_self⟩
  · rw [runs (st.waits.brk + 1 + spins) (by omega)]
    apply iff_of_true ⟨st, rfl, .start hs⟩
    have notMine : ¬ ∃ w' ∈ ws.head?, w'.2.sktname = cstr st.sktname := by
      rintro ⟨w', hw', mine⟩
      rw [Option.mem_def.1 hw] at hw'
      cases hw'
      exact other mine
    rintro (⟨mine, -⟩ | ⟨mine, -⟩)
    · exact notMine mine
    · exact notMine mine
  · rw [never]
    apply iff_of_false
    · rintro ⟨_, ⟨⟩, -⟩
    · exact fun h => h (.inl ⟨mine, other⟩)

theorem wakeupAll_isSome (spins : Nat) (p : PortTable) {st : Spm} (hv : st.Valid) :
    (wakeupAll spins p st).isSome ↔ ¬ Endless st.waiting (cstr st.sktname) := by
  have comes := @wakeupAll_comes (fun _ => False) _ spins p st hv rfl
  have nobody : ¬ WakesGone (fun _ => False) st (cstr st.sktname) := fun ⟨_, _, _, away⟩ => away
  rw [or_iff_left nobody] at comes
  rw [← comes, Option.isSome_iff_exists]
  exact exists_congr fun _ => (and_iff_left fun _ _ => id).symm

section
variable (next : ok .next)
include next

theorem comes_pmClientLookup (client : Nat) (waiting : Bool) {st : Spm}
    (hs : st.sent.length = sent) :
    wp late (pmClientLookup client waiting st) (Comes ok gone sent) q e := by
  unfold pmClientLookup
  split
  · rw [wp_swriteAll]
    exact comes_still next hs
  · split
    · exact comes_still next hs
    · exact comes_still next hs

theorem comes_pmTable {st : Spm} (hs : st.sent.length = sent) :
    wp late (pmTable st) (Comes ok gone sent) q e := by
  rw [pmTable, wp_swrite, wp_swrite, wp_swriteAll]
  exact comes_still next hs

theorem comes_pmRmserverLookup (locbuf : List Byte) {st : Spm} (hs : st.sent.length = sent) :
    wp late (pmRmserverLookup locbuf st) (Comes ok gone sent) q e := by
  unfold pmRmserverLookup
  split
  · exact comes_still next hs
  · exact comes_still next hs

end

variable (timedout : ok .timedout) (next : ok .next)
include timedout next

theorem comes_pmServerMesg (spins : Nat) (p : PortTable) {st : Spm} (hv : st.Valid)
    (hs : st.sent.length = sent) :
    wp late (pmServerMesg spins p st) (Comes ok gone sent) q e ↔ q.length ≠ 1 ∧
      (2 ≤ q.length → ntohs (q.take 2) = PM.ok →
        ¬ (Endless st.waiting (cstr st.sktname) ∨ WakesGone gone st (cstr st.sktname))) := by
  rw [pmServerMesg, wp_swrite]
  apply (comes_word timedout spins hs _).trans
  apply and_congr_right fun _ => imp_congr_right fun _ => ?_
  dsimp only
  by_cases final : ntohs (q.take 2) = PM.ok
  · rw [if_neg (not_not.2 final), imp_iff_right final, ← wakeupAll_comes spins p hv hs]
    cases wakeupAll spins p st with
    | some st' =>
      apply (comes_ret ..).trans
      simp [next]
    | none =>
      change wp late .spin _ _ _ ↔ _
      rw [wp_spin]
      exact iff_of_false (not_comes_spun _ _) (by simp)
  · rw [if_pos final]
    exact iff_of_true (comes_still timedout hs) fun h => absurd h final

theorem comes_pmServerPort (spins : Nat) (event : SktEvent) {st : Spm} (hv : st.Valid)
    (hs : st.sent.length = sent) (free : st.lookup (cstr st.sktname) = none) :
    wp late (pmServerPort spins event st) (Comes ok gone sent) q e ↔
      ¬ PortWedges gone st (cstr st.sktname) q := by
  rw [pmServerPort]
  apply (comes_word timedout spins hs _).trans
  have entry (port : SktEvent) (host : Option (List Byte)) :
      wp late (makePortTable port host st >>= fun r => pmServerMesg spins r.1 r.2)
        (Comes ok gone sent) (q.drop 2) e ↔ (q.drop 2).length ≠ 1 ∧ (2 ≤ (q.drop 2).length →
          ntohs ((q.drop 2).take 2) = PM.ok →
            ¬ (Endless st.waiting (cstr st.sktname) ∨ WakesGone gone st (cstr st.sktname))) := by
    rw [makePortTable, Proc.note_bind, wp_note]
    exact comes_pmServerMesg timedout next spins _ (hv.register free) hs
  rw [PortWedges]
  by_cases two : 2 ≤ q.length
  · rw [imp_iff_right two]
    apply (and_congr_right fun _ => entry _ _).trans
    rw [List.length_drop]
    constructor
    · rintro ⟨one, three, final⟩ (h | h | ⟨four, same, wakes⟩)
      · exact one h
      · exact three (by omega)
      · exact final (by omega) same wakes
    · intro h
      rw [not_or, not_or] at h
      exact ⟨h.1, fun three => h.2.1 (by omega),
        fun four same wakes => h.2.2 ⟨by omega, same, wakes⟩⟩
  · constructor
    · rintro ⟨one, -⟩ (h | h | ⟨four, -⟩)
      · exact one h
      · omega
      · omega
    · exact fun h => ⟨fun one => h (.inl one), fun enough => absurd enough two⟩

/-- `NameWedges` asks the lookup of the state as the session found it. -/
theorem comes_pmServerName (spins : Nat) (event : SktEvent) {st : Spm} (hv : st.Valid)
    (hs : st.sent.length = sent) :
    wp late (pmServerName spins event st) (Comes ok gone sent) q e ↔
      ¬ NameWedges gone st q e := by
  apply (comes_string timedout spins hs hv.sktname.1
    (fun buf => pmServerLookup spins event (st.setSktname buf))
    (fun name rest => ¬ (st.lookup name = none ∧ PortWedges gone st name rest)) True ?_ ?_).trans
  · unfold NameWedges
    cases gets (bufsize - 2) q with
    | none => simp
    | some r => exact Iff.rfl
  · rintro s rest buf' - term rfl
    have hv' : (st.setSktname buf').Valid := hv.setSktname (term hv.sktname)
    rw [pmServerLookup, Spm.setSktname_sktname]
    have same : (st.setSktname buf').lookup (cstr buf') = st.lookup (cstr buf') := rfl
    rw [same]
    cases found : st.lookup (cstr buf') with
    | some p => exact iff_of_true (comes_still next hs) (by simp)
    | none =>
      rw [eq_self, true_and]
      exact comes_pmServerPort timedout next spins event hv' hs found
  · intro _ _
    rw [iff_true, pmServerLookup]
    split
    · exact comes_still next hs
    · exact (comes_orTimedout timedout (st.setSktname (cutBuffer st.sktname q)) hs _).2
        fun some' => absurd rfl some'

theorem comes_pmServer (spins : Nat) (event : SktEvent) {st : Spm} (hv : st.Valid)
    (hs : st.sent.length = sent) :
    wp late (pmServer spins event st) (Comes ok gone sent) q e ↔
      ¬ if event = PM.share then
          match gets (bufsize - 2) q with
          | none => Hanging q e
          | some (_, rest) => NameWedges gone st rest e
        else NameWedges gone st q e := by
  rw [pmServer, wp_swrite]
  split
  · apply (comes_string timedout spins hs hv.sharehost.1
      (fun buf => pmServerName spins event (st.setSharehost buf))
      (fun _ rest => ¬ NameWedges gone st rest e) True ?_ ?_).trans
    · cases gets (bufsize - 2) q with
      | none => simp
      | some r => exact Iff.rfl
    · rintro s rest buf' - term -
      exact comes_pmServerName timedout next spins event (hv.setSharehost (term hv.sharehost)) hs
    · intro _ _
      rw [iff_true]
      exact (comes_orTimedout timedout (st.setSharehost (cutBuffer st.sharehost q)) hs _).2
        fun some' => absurd rfl some'
  · exact comes_pmServerName timedout next spins event (hv.setSharehost hv.sharehost.emptied) hs

theorem comes_pmClient (spins client : Nat) (waiting : Bool) {st : Spm} (hv : st.Valid)
    (hs : st.sent.length = sent) :
    wp late (pmClient spins client waiting st) (Comes ok gone sent) q e ↔ ¬ Hanging q e := by
  rw [pmClient, wp_swrite]
  apply (comes_string timedout spins hs hv.sktname.1
    (fun buf => pmClientLookup client waiting (st.setSktname buf))
    (fun _ _ => True) True ?_ ?_).trans
  · unfold Hanging
    cases gets (bufsize - 2) q <;> simp
  · exact fun _ _ _ _ _ _ => iff_true_intro (comes_pmClientLookup next client waiting hs)
  · exact fun _ _ => iff_true_intro (comes_pmClientLookup next client waiting hs)

theorem comes_pmClose (spins : Nat) {st : Spm} (hs : st.sent.length = sent) :
    wp late (pmClose spins st) (Comes ok gone sent) q e ↔ q.length ≠ 1 := by
  rw [pmClose, wp_swrite]
  apply (comes_word timedout spins hs _).trans
  apply and_iff_left fun _ => ?_
  dsimp only
  split
  · exact comes_still next hs
  · exact comes_still next hs

/-- Told to by its name, the PortMaster ends. -/
theorem comes_pmQuit (spins : Nat) {st : Spm} (hv : st.Valid) (hs : st.sent.length = sent) :
    wp late (pmQuit spins st) (Comes ok gone sent) q e ↔
      ¬ Hanging q e ∧ (q ≠ [] → nameRead st q = portMaster → ok .quit) := by
  have named (buf : List Byte) (q : List Byte) (e : Ending) :
      wp late (pmQuitLookup (st.setSktname buf)) (Comes ok gone sent) q e ↔
        (cstr buf = portMaster → ok .quit) := by
    rw [pmQuitLookup, Spm.setSktname_sktname]
    split
    · rename_i mine
      rw [imp_iff_right mine]
      exact (comes_ret ..).trans (and_iff_left (.start hs))
    · rename_i other
      exact iff_of_true (comes_still next hs) fun h => absurd h other
  rw [pmQuit, wp_swrite]
  apply (comes_string timedout spins hs hv.sktname.1
    (fun buf => pmQuitLookup (st.setSktname buf)) (fun name _ => name = portMaster → ok .quit)
    (cstr (cutBuffer st.sktname q) = portMaster → ok .quit) ?_ ?_).trans
  · unfold Hanging nameRead
    cases field : gets (bufsize - 2) q with
    | none => by_cases empty : q = [] <;> cases e <;> simp [empty]
    | some r =>
      have some' : q ≠ [] := by rintro rfl; cases field
      simp [some']
  · rintro s rest buf' - - rfl
    exact named buf' rest e
  · intro _ _
    exact named _ [] .closed

theorem comes_pmRmserver (spins : Nat) {locbuf : List Byte} (hb : locbuf.length = bufsize)
    {st : Spm} (hs : st.sent.length = sent) :
    wp late (pmRmserver spins locbuf st) (Comes ok gone sent) q e ↔ ¬ Hanging q e := by
  rw [pmRmserver, wp_swrite]
  apply (comes_string timedout spins hs hb (fun buf => pmRmserverLookup buf st) (fun _ _ => True)
    True ?_ ?_).trans
  · unfold Hanging
    cases gets (bufsize - 2) q <;> simp
  · exact fun _ _ _ _ _ _ => iff_true_intro (comes_pmRmserverLookup next _ hs)
  · exact fun _ _ => iff_true_intro (comes_pmRmserverLookup next _ hs)

/-- **A handler comes to an end exactly when the bytes do not wedge it**, and
as it should unless it is told to quit. -/
theorem comes_handle (a : Around) (client : Nat) {event : SktEvent} {st : Spm} (hv : st.Valid)
    (hs : st.sent.length = sent) {p : Proc (Exit × Spm)} (hp : handle a client event st = some p) :
    wp late p (Comes ok gone sent) q e ↔ ¬ HandlerWedges gone st event q e ∧
      (event = PM.quit → q ≠ [] → nameRead st q = portMaster → ok .quit) := by
  have other {A : Prop} (h : wp late p (Comes ok gone sent) q e ↔ A) (notQuit : event ≠ PM.quit) :
      wp late p (Comes ok gone sent) q e ↔
        A ∧ (event = PM.quit → q ≠ [] → nameRead st q = portMaster → ok .quit) :=
    h.trans (and_iff_left fun same => absurd same notQuit).symm
  cases handle_cases hp with
  | server server =>
    apply other _ (by rintro rfl; revert server; decide)
    apply (comes_pmServer timedout next a.spins event hv hs).trans
    rw [HandlerWedges]
    rcases server with rfl | rfl
    · rw [if_neg (by decide), if_pos rfl]
    · rw [if_pos rfl, if_neg (by decide), if_pos rfl]
  | clientwait =>
    apply other _ (by decide)
    apply (wp_map _ (keepWaiting client)).trans
    have same (r : Exit × Spm) :
        (keepWaiting client r).1 = r.1 ∧ (keepWaiting client r).2.sent = r.2.sent := by
      unfold keepWaiting
      split
      · exact ⟨rfl, rfl⟩
      · exact ⟨rfl, rfl⟩
    exact (wp_congr (comes_map (fun r => (same r).1) fun r => (same r).2)).trans
      (comes_pmClient timedout next a.spins client true hv hs)
  | client => exact other (comes_pmClient timedout next a.spins client false hv hs) (by decide)
  | close => exact other (comes_pmClose timedout next a.spins hs) (by decide)
  | quit =>
    rw [imp_iff_right rfl]
    exact comes_pmQuit timedout next a.spins hv hs
  | table => exact other (iff_of_true (comes_pmTable next hs) id) (by decide)
  | rmserver => exact other (comes_pmRmserver timedout next a.spins a.size hs) (by decide)
  | fwinit => exact other (iff_of_true (comes_still next hs) id) (by decide)

theorem comes_eventLoop (a : Around) (client : Nat) {st : Spm} (hv : st.Valid)
    (hs : st.sent.length = sent) : ∀ {left : Nat} {q : List Byte},
    wp late (eventLoop a client left st) (Comes ok gone sent) q e ↔
      match request left q with
      | .nothing _ => True
      | .half _ => False
      | .worn => True
      | .event _ ev rest => ¬ HandlerWedges gone st ev rest e ∧
          (ev = PM.quit → rest ≠ [] → nameRead st rest = portMaster → ok .quit) := by
  intro left
  induction left with
  | zero =>
    intro q
    exact iff_of_true (comes_still next hs) trivial
  | succ left ih =>
    intro q
    rw [eventLoop]
    apply (comes_word timedout a.spins hs _).trans
    rcases q with _ | ⟨hi, _ | ⟨lo, q⟩⟩
    · simp [request]
    · simp [request]
    · rw [and_iff_right (by simp), imp_iff_right (by simp)]
      simp only [List.take_succ_cons, List.take_zero, List.drop_succ_cons, List.drop_zero]
      cases hp : handle a client (ntohs [hi, lo]) st with
      | some p =>
        rw [request_known hp]
        exact comes_handle timedout next a client hv hs hp
      | none =>
        rw [request_unknown hp]
        dsimp only
        rw [wp_swrite]
        apply ih.trans
        cases request left q <;> exact Iff.rfl

theorem comes_session (a : Around) {peer : Option Peer} {st : Spm} (hv : st.Valid)
    (hs : st.sent.length = sent) :
    wp late (session a peer st) (Comes ok gone sent) q e ↔ (firewall st.fw peer = false →
      ¬ Wedges gone st q e ∧ (Quits st q → ok .quit)) := by
  cases pass : firewall st.fw peer with
  | true =>
    rw [wp_session_rejected a pass]
    exact iff_of_true ((comes_done ..).2 ⟨next, .start hs⟩) (by simp)
  | false =>
    rw [wp_session a pass, wp_congr (comes_map (g := hangUp) (fun _ => rfl) fun _ => rfl)]
    apply (comes_eventLoop timedout next a st.accepted hv.opened hs).trans
    rw [imp_iff_right rfl]
    unfold Wedges Quits
    cases request (PM.maxtry + 1) q with
    | nothing => simp
    | half => simp
    | worn => simp
    | event before ev rest =>
      apply and_congr Iff.rfl
      constructor
      · rintro quits ⟨_, _, ⟨⟩, some', name⟩
        exact quits rfl some' name
      · rintro quits rfl some' name
        exact quits ⟨before, rest, rfl, some', name⟩

end

end UnixProgramming.Ssl
