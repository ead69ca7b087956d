import UnixProgramming.Ssl.Library
import UnixProgramming.Ssl.Registration

/-!
# The library and the PortMaster face to face

What each side of a connection eats and writes, and from that how the four
kinds of connection end.

* `ends_opening`: up to the first `PM_OK`;
* `ends_register`, `ends_find`, `ends_remove`, `ends_closePort`: all of it.
-/

namespace UnixProgramming.Ssl

open Pipe Heap

/-! ## Fields -/

section
variable {α : Type} {T : Proc α → Prop} {w : List Byte} {o : List (List Byte)} {t : List Note}

theorem eats_sreadbytes (spins : Nat) (x : SktEvent) {k : List Byte → Proc α}
    (h : Eats T (k (htons x)) w o t) :
    Eats T (sreadbytes spins 2 >>= k) (htons x ++ w) o (.read (htons x) :: t) := by
  apply (reads_sreadbytes spins (htons x)).bind
  rintro _ rfl
  exact h

/-- A string that `Sgets` has room for. -/
def Short (s : List Byte) : Prop := 0 ∉ s ∧ s.length < bufsize - 2

instance (s : List Byte) : Decidable (Short s) :=
  inferInstanceAs (Decidable (0 ∉ s ∧ s.length < bufsize - 2))

theorem eats_sgets (spins : Nat) {s buf : List Byte} (hs : Short s) (hb : buf.length = bufsize)
    {k : Bool × List Byte → Proc α} (h : ∀ b, cstr b = s → Eats T (k (true, b)) w o t) :
    Eats T (sgets spins buf bufsize >>= k) (withNul s ++ w) o (.read (withNul s) :: t) := by
  have field : Field (bufsize - 2) s [0] := ⟨hs.1, .inl ⟨hs.2, rfl⟩⟩
  apply (reads_sgets spins field (by decide) hb).bind
  rintro ⟨ok, b⟩ ⟨rfl, str, -⟩
  exact h b str

theorem eats_swriteAll (bufs : List (List Byte)) {k : Unit → Proc α} (h : Eats T (k ()) w o t) :
    Eats T (swriteAll bufs >>= k) w (bufs ++ o) t := by
  induction bufs with
  | nil => exact h
  | cons buf bufs ih => exact .send ih

/-- A timed wait with something to come is over in time. -/
theorem eats_inTime {z k : Proc α} (some' : w ≠ []) (h : Eats T k w o t) :
    Eats T (stimeoutwait >>= fun n => if n < 0 then z else k) w o t := by
  apply eats_stimeoutwait some'
  intro n hn
  rw [if_neg (by omega)]
  exact h

/-- A message behind a timed wait. -/
theorem eats_mesg (spins : Nat) (x : SktEvent) {z : Proc α} {k : List Byte → Proc α}
    (h : Eats T (k (htons x)) w o t) :
    Eats T (stimeoutwait >>= fun n => if n < 0 then z else sreadbytes spins 2 >>= k) (htons x ++ w)
      o (.read (htons x) :: t) :=
  eats_inTime (by simp [htons]) (eats_sreadbytes spins x h)

end

/-! ## Up to the first PM_OK -/

/-- The library asks and then waits for the `PM_OK`. -/
theorem eats_untilOk (spins : Nat) (event : SktEvent) (checks minds : Bool) (left : Nat) :
    Eats (fun p => Reads (· = Greeting.ok) p (htons PM.ok) [] [.read (htons PM.ok)])
      (untilOk spins event checks minds (left + 2)) [] [htons event] [] := by
  unfold untilOk
  apply eats_swrite
  apply Eats.refl
  apply eats_mesg spins PM.ok (w := [])
  have unread : ¬ (checks = true ∧ htons PM.ok = []) := by simp [htons]
  have refused : ¬ (left + 1 = 0 ∨ minds = true ∧ PM.ok = PM.sorryReply) := by
    rintro (none' | ⟨-, sorry'⟩)
    · omega
    · exact absurd sorry' (by decide)
  dsimp only
  rw [if_neg unread, ntohs_htons, if_neg refused, if_pos rfl]
  exact Reads.ret rfl

theorem session_eq (a : Around) {peer : Option Peer} {st : Spm}
    (pass : firewall st.fw peer = false) : session a peer st =
      eventLoop a st.accepted (PM.maxtry + 1) st.opened >>= fun r => .ret (hangUp r) := by
  unfold session
  dsimp only
  rw [pass]
  rfl

/-- The PortMaster takes the request. -/
theorem eats_session (a : Around) {peer : Option Peer} {st : Spm}
    (pass : firewall st.fw peer = false) {event : SktEvent} {p : Proc (Exit × Spm)}
    (hp : handle a st.accepted event st.opened = some (swrite (htons PM.ok) >>= fun _ => p)) :
    Eats (· = p >>= fun r => .ret (hangUp r)) (session a peer st) (htons event) [htons PM.ok]
      [.read (htons event)] := by
  have loop : Eats (· = p) (eventLoop a st.accepted (PM.maxtry + 1) st.opened)
      (htons event ++ []) [htons PM.ok] [.read (htons event)] := by
    rw [eventLoop]
    apply eats_mesg
    dsimp only
    rw [ntohs_htons, hp]
    exact .send (.refl rfl)
  rw [session_eq a pass]
  apply (loop.bind _).mono
  rintro _ ⟨_, rfl, rfl⟩
  rfl

/-- The library and the PortMaster when the `PM_OK` has come. -/
theorem ends_opening {α : Type} {Q : α → Exit × Spm → Log Byte Note → Log Byte Note → Prop}
    (spins : Nat) (checks minds : Bool) (left : Nat) {k : Greeting → Proc α} (a : Around)
    {peer : Option Peer} {st : Spm} (pass : firewall st.fw peer = false) {event : SktEvent}
    {p : Proc (Exit × Spm)}
    (hp : handle a st.accepted event st.opened = some (swrite (htons PM.ok) >>= fun _ => p))
    (h : Ends Q ⟨k .ok, p >>= fun r => .ret (hangUp r), ⟨[htons event], [.read (htons PM.ok)]⟩,
      ⟨[htons PM.ok], [.read (htons event)]⟩, [], []⟩) :
    Ends Q (.start (untilOk spins event checks minds (left + 2) >>= k) (session a peer st)) := by
  apply Ends.left_all ((eats_untilOk spins event checks minds left).bind k)
  rintro _ ⟨asked, hears, rfl⟩
  apply Ends.right_all (eats_session a pass hp)
  rintro _ rfl
  have goes : Eats (· = k .ok) (asked >>= k) (htons PM.ok) [] [.read (htons PM.ok)] := by
    apply hears.finish
    rintro _ rfl
    exact .refl rfl
  apply Ends.left_all goes
  rintro _ rfl
  exact h

/-- How a connection leaves the PortMaster. -/
structure Leaves (st : Spm) (table : List PortTable) (r : Exit × Spm) : Prop where
  exit : r.1 = .next
  ports : r.2.ports.vals = table
  waits : r.2.waits = st.waits
  fw : r.2.fw = st.fw

theorem Leaves.hangUp {st : Spm} {table : List PortTable} {r : Exit × Spm}
    (h : Leaves st.opened table r) : Leaves st table (hangUp r) := ⟨h.exit, h.ports, h.waits, h.fw⟩

/-! ## Registering -/

/-- The share host that the library sends. -/
def Machine.sharehost (m : Machine) : Option (List Byte) :=
  if m.pmshare.isSome then some m.hostname else none

/-- The registration that a machine's library asks for. -/
def Machine.entry (m : Machine) (sktname : List Byte) (port : SktEvent) : PortTable :=
  ⟨sktname, m.sharehost, port⟩

theorem Machine.entry_event (m : Machine) (sktname : List Byte) (port : SktEvent) :
    (m.entry sktname port).event = if m.pmshare.isSome then PM.share else PM.server := by
  unfold PortTable.event Machine.entry Machine.sharehost
  by_cases share : m.pmshare.isSome
  · rw [if_pos share, if_pos share, Option.isSome_some, if_pos rfl]
  · rw [if_neg share, if_neg share, Option.isSome_none, if_neg (by decide)]

/-- The strings of a registration, as they are sent. -/
def PortTable.strings (p : PortTable) : List (List Byte) :=
  (p.sharehost.map withNul).toList ++ [withNul p.sktname]

section
variable {st : Spm} {p : PortTable}

theorem eats_sopenServerHost (spins : Nat) (m : Machine) (sktname : List Byte) (port : SktEvent) :
    Eats (· = sopenServerMesg spins) (sopenServerHost spins m sktname port) []
      ((m.entry sktname port).strings ++ [htons port]) [] := by
  unfold sopenServerHost PortTable.strings Machine.entry Machine.sharehost
  by_cases share : m.pmshare.isSome
  · rw [if_pos share, if_pos share]
    exact .send (.send (.send (.refl rfl)))
  · rw [if_neg share, if_neg share]
    exact .send (.send (.refl rfl))

/-- `pm_server` reads the strings of a registration. -/
theorem eats_pmServerName (spins : Nat) (event : SktEvent) (hname : Short p.sktname)
    (hs : st.sktname.length = bufsize) :
    Eats (fun q => ∃ nb, cstr nb = p.sktname ∧ q = pmServerLookup spins event (st.setSktname nb))
      (pmServerName spins event st) [withNul p.sktname].flatten [] [.read (withNul p.sktname)] := by
  apply eats_inTime (by simp [withNul])
  apply eats_sgets spins hname hs
  intro nb str
  exact .refl ⟨nb, str, rfl⟩

/-- `pm_server` behind its `PM_OK`. -/
def pmServerStrings (spins : Nat) (event : SktEvent) (st : Spm) : Proc (Exit × Spm) :=
  if event = PM.share then
    orTimedout st do
      let r ← sgets spins st.sharehost bufsize
      pmServerName spins event (st.setSharehost r.2)
  else pmServerName spins event (st.setSharehost (st.sharehost.set 0 0))

theorem handle_strings (a : Around) (client : Nat) (st : Spm) (p : PortTable) :
    handle a client p.event st =
      some (swrite (htons PM.ok) >>= fun _ => pmServerStrings a.spins p.event st) := by
  unfold PortTable.event
  by_cases share : p.sharehost.isSome
  · rw [if_pos share]; rfl
  · rw [if_neg share]; rfl

theorem eats_pmServerStrings (spins : Nat) (hname : Short p.sktname)
    (hhost : ∀ host ∈ p.sharehost, Short host) (hv : st.Valid) :
    Eats (fun q => ∃ sh nb, cstr nb = p.sktname ∧
        (if p.event = PM.share then some sh else none).map cstr = p.sharehost ∧
        q = pmServerLookup spins p.event ((st.setSharehost sh).setSktname nb))
      (pmServerStrings spins p.event st) p.strings.flatten [] (p.strings.map Note.read) := by
  obtain ⟨name, sharehost, port⟩ := p
  have there (event : SktEvent) (sh : List Byte) :=
    @eats_pmServerName (st.setSharehost sh) _ spins event hname hv.sktname.1
  cases sharehost with
  | none =>
    apply (there PM.server (st.sharehost.set 0 0)).mono
    rintro q ⟨nb, str, rfl⟩
    exact ⟨_, nb, str, rfl, rfl⟩
  | some host =>
    apply eats_inTime (by simp [PortTable.strings, withNul])
    apply eats_sgets spins (hhost host rfl) hv.sharehost.1
    intro sh str'
    apply (there PM.share sh).mono
    rintro q ⟨nb, str, rfl⟩
    exact ⟨sh, nb, str, congrArg some str', rfl⟩

/-- A free name gets its entry, and the PortMaster waits for the last `PM_OK`. -/
theorem eats_pmServerLookup_free (spins : Nat) {event : SktEvent}
    (free : st.lookup (cstr st.sktname) = none) (nobody : st.waits.hd = none)
    (entry : p = ⟨cstr st.sktname, (if event = PM.share then some st.sharehost else none).map cstr,
      p.port⟩) :
    Eats (fun q => Reads (· = (.next, { st with ports := st.ports.append p })) q (htons PM.ok) []
        [.read (htons PM.ok)])
      (pmServerLookup spins event st) [htons p.port].flatten [htons PM.ok]
      [.read (htons p.port), .made p] := by
  have free' : ¬ (st.lookup (cstr st.sktname)).isSome := by rw [free]; simp
  unfold pmServerLookup
  rw [if_neg free']
  apply eats_mesg
  have made : makePortTable p.port (if event = PM.share then some st.sharehost else none) st =
      .note (.made p) (.ret (p, { st with ports := st.ports.append p })) := by
    unfold makePortTable
    dsimp only
    rw [← entry]
  dsimp only
  rw [ntohs_htons, made]
  apply Eats.note
  apply Eats.send
  apply Eats.refl
  apply eats_mesg spins PM.ok (w := [])
  dsimp only
  rw [ntohs_htons, if_neg (by simp)]
  have nobody' : wakeupAll spins p { st with ports := st.ports.append p } =
      some { st with ports := st.ports.append p } := by
    unfold wakeupAll
    rw [nobody, wakeup]
  rw [nobody']
  exact Reads.ret rfl

/-- A name that is taken does not. -/
theorem eats_pmServerLookup_taken (spins : Nat) {event : SktEvent}
    (taken : (st.lookup (cstr st.sktname)).isSome) :
    Eats (· = .ret (.next, st)) (pmServerLookup spins event st) [] [htons PM.sorryReply] [] := by
  unfold pmServerLookup
  rw [if_pos taken]
  exact .send (.refl rfl)

theorem eats_sopenServerMesg (spins : Nat) :
    Eats (· = .ret true) (sopenServerMesg spins) [htons PM.ok].flatten [htons PM.ok]
        [.read (htons PM.ok)] ∧
      Eats (· = .ret false) (sopenServerMesg spins) [htons PM.sorryReply].flatten []
        [.read (htons PM.sorryReply)] := by
  constructor
  · apply eats_mesg
    dsimp only
    rw [ntohs_htons, if_neg (by simp)]
    exact .send (.refl rfl)
  · apply eats_mesg
    dsimp only
    rw [ntohs_htons, if_pos (by decide)]
    exact .refl rfl

/-- A registration from the search for the name on, when it is taken. -/
theorem ends_taken {Q : Bool → Exit × Spm → Log Byte Note → Log Byte Note → Prop}
    (spins pmSpins : Nat) {event : SktEvent} {lib pm : Log Byte Note} {rest : List Byte}
    (taken : (st.lookup (cstr st.sktname)).isSome)
    (post : Q false (hangUp (.next, st)) (lib.add [] [.read (htons PM.sorryReply)])
      (pm.add [htons PM.sorryReply] [])) :
    Ends Q ⟨sopenServerMesg spins, pmServerLookup pmSpins event st >>= fun r => .ret (hangUp r),
      lib, pm, [], rest⟩ := by
  apply Ends.right ((eats_pmServerLookup_taken pmSpins taken).bind _)
  rintro _ ⟨_, rfl, rfl⟩
  apply Ends.left_all (eats_sopenServerMesg spins).2
  rintro _ rfl
  exact .done post

/-- The same when it is free. -/
theorem ends_free {Q : Bool → Exit × Spm → Log Byte Note → Log Byte Note → Prop}
    (spins pmSpins : Nat) {event : SktEvent} {lib pm : Log Byte Note}
    (free : st.lookup (cstr st.sktname) = none) (nobody : st.waits.hd = none)
    (entry : p = ⟨cstr st.sktname, (if event = PM.share then some st.sharehost else none).map cstr,
      p.port⟩)
    (post : Q true (hangUp (.next, { st with ports := st.ports.append p }))
      (lib.add [htons PM.ok] [.read (htons PM.ok)])
      ((pm.add [htons PM.ok] [.read (htons p.port), .made p]).add [] [.read (htons PM.ok)])) :
    Ends Q ⟨sopenServerMesg spins, pmServerLookup pmSpins event st >>= fun r => .ret (hangUp r),
      lib, pm, [], [htons p.port].flatten⟩ := by
  apply Ends.right_all ((eats_pmServerLookup_free pmSpins free nobody entry).bind _)
  rintro _ ⟨q, hears, rfl⟩
  apply Ends.left_all (eats_sopenServerMesg spins).1
  rintro _ rfl
  have last : Eats (· = .ret (hangUp (.next, { st with ports := st.ports.append p })))
      (q >>= fun r => .ret (hangUp r)) (htons PM.ok) [] [.read (htons PM.ok)] := by
    apply hears.finish
    rintro _ rfl
    exact .refl rfl
  apply Ends.right_all last
  rintro _ rfl
  exact .done post

end

/-- **A registration.** The library gets its entry exactly when the name is
free. -/
theorem ends_register (spins : Nat) (a : Around) {peer : Option Peer} {st : Spm}
    (pass : firewall st.fw peer = false) (hv : st.Valid) (nobody : st.waits.hd = none) (m : Machine)
    {sktname : List Byte} (hname : Short sktname) (hhost : ∀ host ∈ m.sharehost, Short host)
    (port : SktEvent) :
    Ends (fun (made : Bool) r lib pm => Orderly lib pm ∧
        (made ↔ entryFor st.ports.vals sktname = none) ∧ Leaves st
          (if made then st.ports.vals ++ [m.entry sktname port] else st.ports.vals) r)
      (.start (sopenServerTalk spins m sktname port) (session a peer st)) := by
  have known := handle_strings a st.accepted st.opened (m.entry sktname port)
  unfold sopenServerTalk
  rw [← m.entry_event sktname port]
  apply ends_opening spins true true 18 a pass known
  apply Ends.left_all (eats_sopenServerHost spins m sktname port)
  rintro _ rfl
  rw [List.nil_append, List.flatten_append]
  apply Ends.right ((eats_pmServerStrings (p := m.entry sktname port) a.spins hname hhost
    hv.opened).bind _)
  rintro _ ⟨_, ⟨sh, nb, str, host, rfl⟩, rfl⟩
  have same : st.lookup (cstr nb) = st.lookup sktname := congrArg st.lookup str
  by_cases taken : (st.lookup sktname).isSome
  · have isTaken : entryFor st.ports.vals sktname ≠ none := by
      rw [← Option.isSome_iff_ne_none, ← lookup_isSome hv]
      exact taken
    apply ends_taken
    · rw [← same] at taken
      exact taken
    · refine ⟨⟨?_, ?_⟩, by simp [isTaken], rfl, rfl, rfl, rfl⟩
      · simp [Log.add]
      · simp [Log.add]
  · have isFree : entryFor st.ports.vals sktname = none := by
      rw [← Option.not_isSome_iff_eq_none, ← lookup_isSome hv]
      exact taken
    obtain ⟨ps, hps, -⟩ := hv.ports
    apply ends_free (p := m.entry sktname port)
    · rw [Option.not_isSome_iff_eq_none, ← same] at taken
      exact taken
    · exact nobody
    · change m.entry sktname port = ⟨cstr nb, _, port⟩
      rw [str, Spm.setSktname_sharehost, Spm.setSharehost_sharehost, host]
      rfl
    · refine ⟨⟨?_, ?_⟩, by simp [isFree], rfl, DList.append_vals hps _, rfl, rfl⟩
      · simp [Log.add]
      · simp [Log.add, Machine.entry]

/-! ## Asking for a server -/

/-- What `Sopen_client` learns about a server. -/
def PortTable.told (p : PortTable) : List Byte × SktEvent := (p.sharehost.getD [], p.port)

section
variable {st : Spm}

/-- `pm_client` behind its `PM_OK`. -/
def pmClientString (spins client : Nat) (st : Spm) : Proc (Exit × Spm) :=
  orTimedout st do
    let r ← sgets spins st.sktname bufsize
    pmClientLookup client false (st.setSktname r.2)

/-- What `pm_client` answers to a name. -/
def PortTable.answer (p : Option PortTable) : List (List Byte) :=
  (p.map PortTable.reply).getD [htons PM.sorryReply]

theorem eats_pmClientString (spins client : Nat) {sktname : List Byte} (hname : Short sktname)
    (hv : st.Valid) :
    Eats (fun q => ∃ nb, q = .ret (.next, st.setSktname nb)) (pmClientString spins client st)
      [withNul sktname].flatten (PortTable.answer (entryFor st.ports.vals sktname))
      [.read (withNul sktname)] := by
  apply eats_inTime (by simp [withNul])
  apply eats_sgets spins hname hv.sktname.1
  intro nb str
  have found := lookup_entryFor hv sktname
  have look : (st.setSktname nb).lookup (cstr nb) = st.lookup sktname := congrArg st.lookup str
  unfold pmClientLookup
  rw [Spm.setSktname_sktname, look]
  cases hp : st.lookup sktname with
  | some p =>
    rw [hp] at found
    rw [← found, ← List.append_nil (PortTable.answer _)]
    apply eats_swriteAll
    exact .refl ⟨nb, rfl⟩
  | none =>
    rw [hp] at found
    rw [← found]
    exact .send (.refl ⟨nb, rfl⟩)

theorem eats_sopenClientPort (spins : Nat) (skthost : List Byte) (port : SktEvent) :
    Eats (· = .ret (some (skthost, port))) (sopenClientPort spins skthost) [htons port].flatten []
      [.read (htons port)] := by
  apply eats_mesg
  rw [ntohs_htons]
  exact .refl rfl

/-- The library understands the answer. -/
theorem eats_sopenClientMesg (f : Frame) (p : Option PortTable)
    (hhost : ∀ e ∈ p, ∀ host ∈ e.sharehost, Short host) :
    Eats (· = .ret (p.map PortTable.told)) (sopenClientMesg f) (PortTable.answer p).flatten []
      ((PortTable.answer p).map Note.read) := by
  cases p with
  | none =>
    apply eats_mesg f.spins PM.sorryReply
    dsimp only
    rw [ntohs_htons, if_neg (by decide), if_pos (by decide)]
    exact .refl rfl
  | some p =>
    obtain ⟨name, sharehost, port⟩ := p
    cases sharehost with
    | none =>
      apply eats_mesg f.spins PM.ok
      dsimp only
      rw [ntohs_htons, if_neg (by decide), if_neg (by simp)]
      exact eats_sopenClientPort f.spins [] port
    | some host =>
      apply eats_mesg f.spins PM.okshare
      dsimp only
      rw [ntohs_htons, if_pos rfl]
      apply eats_inTime (by simp [withNul])
      apply eats_sgets f.spins (hhost _ rfl host rfl) (by rw [List.length_set, f.size])
      intro b str
      dsimp only
      rw [str]
      exact eats_sopenClientPort f.spins host port

end

/-- **Asking for a server.** The library learns what the PortTable has under
the name, and nothing changes. -/
theorem ends_find (f : Frame) (a : Around) {peer : Option Peer} {st : Spm}
    (pass : firewall st.fw peer = false) (hv : st.Valid) {sktname : List Byte}
    (hname : Short sktname)
    (hhost : ∀ e ∈ entryFor st.ports.vals sktname, ∀ host ∈ e.sharehost, Short host) :
    Ends (fun told r lib pm => Orderly lib pm ∧
        told = (entryFor st.ports.vals sktname).map PortTable.told ∧ Leaves st st.ports.vals r)
      (.start (sopenClientTalk f sktname false) (session a peer st)) := by
  have known : handle a st.accepted PM.client st.opened = some (swrite (htons PM.ok) >>= fun _ =>
      pmClientString a.spins st.accepted st.opened) := rfl
  unfold sopenClientTalk
  apply ends_opening f.spins false true 18 a pass known
  have asks : Eats (· = sopenClientMesg f) (sopenClientName f sktname false) [] [withNul sktname]
      [] := .send (.refl rfl)
  apply Ends.left_all asks
  rintro _ rfl
  apply Ends.right_all ((eats_pmClientString a.spins st.accepted hname hv.opened).bind _)
  rintro _ ⟨_, ⟨nb, rfl⟩, rfl⟩
  apply Ends.left_all (eats_sopenClientMesg f _ hhost)
  rintro _ rfl
  apply Ends.done
  refine ⟨⟨?_, ?_⟩, rfl, rfl, rfl, rfl, rfl⟩
  · simp [Log.add, Spm.opened]
  · simp [Log.add]

/-! ## Taking a server out -/

section
variable {st : Spm}

/-- `pm_rmserver` behind its `PM_OK`. -/
def pmRmserverString (spins : Nat) (locbuf : List Byte) (st : Spm) : Proc (Exit × Spm) :=
  orTimedout st do
    let r ← sgets spins locbuf bufsize
    pmRmserverLookup r.2 st

theorem eats_pmRmserverString (spins : Nat) {locbuf sktname : List Byte} (hname : Short sktname)
    (hl : locbuf.length = bufsize) (hv : st.Valid) :
    Eats (fun q => ∃ r,
        Leaves st (st.ports.vals.eraseP fun p => p.sktname = sktname) r ∧ q = .ret r)
      (pmRmserverString spins locbuf st) [withNul sktname].flatten
      [htons (if (entryFor st.ports.vals sktname).isSome then PM.ok else PM.sorryReply)]
      [.read (withNul sktname)] := by
  apply eats_inTime (by simp [withNul])
  apply eats_sgets spins hname hl
  intro b str
  rw [← lookup_isSome hv]
  unfold pmRmserverLookup
  rw [str]
  cases hp : st.lookup sktname with
  | some p =>
    apply Eats.send
    apply Eats.refl
    exact ⟨_, ⟨rfl, delPortTable_vals hv hp, rfl, rfl⟩, rfl⟩
  | none =>
    have absent : ∀ p ∈ st.ports.vals, ¬ decide (p.sktname = sktname) := by
      have found := lookup_entryFor hv sktname
      rw [hp] at found
      exact List.find?_eq_none.1 found.symm
    apply Eats.send
    apply Eats.refl
    exact ⟨_, ⟨rfl, (List.eraseP_of_forall_not absent).symm, rfl, rfl⟩, rfl⟩

/-- `pm_close` behind its `PM_OK`. -/
def pmClosePort (spins : Nat) (st : Spm) : Proc (Exit × Spm) :=
  orTimedout st do
    let port := ntohs (← sreadbytes spins 2)
    match st.ports.find fun p => p.port = port with
    | some (p, _) => do
      swrite (htons PM.ok)
      return (.next, delPortTable p st)
    | none => do
      swrite (htons PM.sorryReply)
      return (.next, st)

theorem eats_pmClosePort (spins : Nat) (port : SktEvent) (hv : st.Valid) :
    ∃ mesg, Eats (fun q => ∃ r,
        Leaves st (st.ports.vals.eraseP fun p => p.port = port) r ∧ q = .ret r)
      (pmClosePort spins st) [htons port].flatten [htons mesg] [.read (htons port)] := by
  cases hp : st.ports.find fun p => p.port = port with
  | some p =>
    refine ⟨PM.ok, ?_⟩
    apply eats_mesg
    dsimp only
    rw [ntohs_htons, hp]
    apply Eats.send
    apply Eats.refl
    exact ⟨_, ⟨rfl, delPortTable_vals hv hp, rfl, rfl⟩, rfl⟩
  | none =>
    refine ⟨PM.sorryReply, ?_⟩
    have absent : ∀ p ∈ st.ports.vals, ¬ decide (p.port = port) := by
      obtain ⟨ps, hps, -⟩ := hv.ports
      rw [DList.find_eq, DList.toList_eq hps, List.find?_eq_none] at hp
      rw [DList.vals_eq hps]
      intro p hm
      obtain ⟨x, hx, rfl⟩ := List.mem_map.1 hm
      exact hp x hx
    apply eats_mesg
    dsimp only
    rw [ntohs_htons, hp]
    apply Eats.send
    apply Eats.refl
    exact ⟨_, ⟨rfl, (List.eraseP_of_forall_not absent).symm, rfl, rfl⟩, rfl⟩

end

/-- **Removing a server by name** tells whether there was one. -/
theorem ends_remove (spins : Nat) (a : Around) {peer : Option Peer} {st : Spm}
    (pass : firewall st.fw peer = false) (hv : st.Valid) {sktname : List Byte}
    (hname : Short sktname) :
    Ends (fun answer r lib pm => Orderly lib pm ∧
        answer = (.ok, if (entryFor st.ports.vals sktname).isSome then PM.ok else PM.sorryReply) ∧
        Leaves st (st.ports.vals.eraseP fun p => p.sktname = sktname) r)
      (.start (srmsrvrTalk spins sktname) (session a peer st)) := by
  have known : handle a st.accepted PM.rmserver st.opened = some (swrite (htons PM.ok) >>= fun _ =>
      pmRmserverString a.spins a.locbuf st.opened) := rfl
  unfold srmsrvrTalk
  apply ends_opening spins true false 18 a pass known
  have asks : Eats (· = sreadbytes spins 2 >>= fun buf => .ret (Greeting.ok, ntohs buf))
      (sputs sktname >>= fun _ =>
        sreadbytes spins 2 >>= fun buf => .ret (Greeting.ok, ntohs buf)) []
      [withNul sktname] [] := .send (.refl rfl)
  apply Ends.left_all asks
  rintro _ rfl
  apply Ends.right_all ((eats_pmRmserverString a.spins hname a.size hv.opened).bind _)
  rintro _ ⟨_, ⟨r, leaves, rfl⟩, rfl⟩
  apply Ends.left_all (eats_sreadbytes spins _ (w := []) (.refl rfl))
  rintro _ rfl
  apply Ends.done
  refine ⟨⟨?_, ?_⟩, ?_, leaves.hangUp⟩
  · simp [Log.add]
  · simp [Log.add]
  · rw [ntohs_htons]
    rfl

/-- **Closing a server** takes out the first entry with its port. -/
theorem ends_closePort (spins : Nat) (a : Around) {peer : Option Peer} {st : Spm}
    (pass : firewall st.fw peer = false) (hv : st.Valid) (port : SktEvent) :
    Ends (fun _ r lib pm => Orderly lib pm ∧
        Leaves st (st.ports.vals.eraseP fun p => p.port = port) r)
      (.start (scloseTalk spins port) (session a peer st)) := by
  have known : handle a st.accepted PM.close st.opened = some (swrite (htons PM.ok) >>= fun _ =>
      pmClosePort a.spins st.opened) := rfl
  unfold scloseTalk
  apply ends_opening spins true false 18 a pass known
  obtain ⟨mesg, answers⟩ := eats_pmClosePort a.spins port hv.opened
  have asks : Eats (fun q => Eats (· = .ret ()) q (htons mesg) [] [.read (htons mesg)])
      (swrite (htons port) >>= fun _ => do
        if (← stimeoutwait) < 0 then return ()
        let _ ← sreadbytes spins 2
        return ()) [] [htons port] [] := by
    apply Eats.send
    apply Eats.refl
    exact eats_mesg spins mesg (w := []) (.refl rfl)
  apply Ends.left_all asks
  intro closing hears
  apply Ends.right_all (answers.bind _)
  rintro _ ⟨_, ⟨r, leaves, rfl⟩, rfl⟩
  apply Ends.left_all (List.append_nil (htons mesg) ▸ hears)
  rintro _ rfl
  apply Ends.done
  refine ⟨⟨?_, ?_⟩, leaves.hangUp⟩
  · simp [Log.add]
  · simp [Log.add]

end UnixProgramming.Ssl
