import UnixProgramming.Ssl.Wedge

/-!
# Names of earlier clients

When the stream ends in the middle of a name `Sgets` returns a null pointer and
leaves what has come in front of what was in the buffer. No handler looks at
the null pointer.

* `Alike`: two PortMasters that differ in their buffers alone;
* `twin_session`: they answer alike unless a name is cut short;
* `no_leak_iff`: exactly when they do.
-/

namespace UnixProgramming.Ssl

open Pipe Heap

/-! ## Two PortMasters -/

/-- What a client sees, and the PortTable afterwards, if there is an afterwards. -/
def seen (r : Outcome Byte Note (Exit × Spm)) : List (List Byte) × Option (List PortTable) :=
  (r.wrote, match r.fate with
    | .done (_, st) _ => some st.ports.vals
    | _ => none)

/-- The same servers and the same names waited for. -/
structure Alike (st st' : Spm) : Prop where
  ports : st.ports.vals = st'.ports.vals
  waiting : st.waiting = st'.waiting
  valid : st.Valid
  valid' : st'.Valid

/-- Facing the same client the two programs cannot be told apart. -/
def Twin (p p' : Proc (Exit × Spm)) (q : List Byte) (e : Ending) : Prop :=
  ∀ ticks, seen (exec p ⟨q, e, ticks⟩) = seen (exec p' ⟨q, e, ticks⟩)

theorem seen_after (r r' : Outcome Byte Note (Exit × Spm)) (o : List (List Byte))
    (t t' : List Note) (h : seen r = seen r') : seen (r.after o t) = seen (r'.after o t') := by
  obtain ⟨w, n, f⟩ := r
  obtain ⟨w', n', f'⟩ := r'
  simp only [seen, Outcome.after, Prod.mk.injEq] at h ⊢
  exact ⟨by rw [h.1], h.2⟩

section
variable {q : List Byte} {e : Ending} {st st' : Spm}

theorem twin_ret (exit exit' : Exit) (h : st.ports.vals = st'.ports.vals) :
    Twin (.ret (exit, st)) (.ret (exit', st')) q e := by
  intro ticks
  simp only [exec_ret, seen, h]

theorem twin_swrite (bs : List Byte) {f f' : Unit → Proc (Exit × Spm)}
    (h : Twin (f ()) (f' ()) q e) : Twin (swrite bs >>= f) (swrite bs >>= f') q e :=
  fun ticks => seen_after _ _ [bs] [] [] (h ticks)

theorem twin_swriteAll {f f' : Unit → Proc (Exit × Spm)} (h : Twin (f ()) (f' ()) q e)
    (bufs : List (List Byte)) : Twin (swriteAll bufs >>= f) (swriteAll bufs >>= f') q e := by
  induction bufs with
  | nil => exact h
  | cons buf bufs ih => exact fun ticks => seen_after _ _ [buf] [] [] (ih ticks)

theorem twin_orTimedout (ports : st.ports.vals = st'.ports.vals) {k k' : Proc (Exit × Spm)}
    (h : q ≠ [] → Twin k k' q e) : Twin (orTimedout st k) (orTimedout st' k') q e := by
  intro ticks
  obtain ⟨n, ticks', -, same, ready⟩ := exec_stimeoutwait ⟨q, e, ticks⟩
  have both (k : Proc (Exit × Spm)) (st : Spm) : exec (orTimedout st k) ⟨q, e, ticks⟩ =
      (exec (if n < 0 then .ret (.timedout, st) else k) ⟨q, e, ticks'⟩).after [] [] :=
    exec_bind_done same _
  rw [both, both]
  apply seen_after
  rcases ready with ⟨pos, some'⟩ | ⟨neg, -⟩
  · rw [if_neg (by omega), if_neg (by omega)]
    exact h some' ticks'
  · rw [if_pos neg, if_pos neg]
    exact twin_ret _ _ ports ticks'

theorem twin_sreadbytes (spins n : Nat) {f f' : List Byte → Proc (Exit × Spm)}
    (h : n ≤ q.length → Twin (f (q.take n)) (f' (q.take n)) (q.drop n) e) :
    Twin (sreadbytes spins n >>= f) (sreadbytes spins n >>= f') q e := by
  intro ticks
  by_cases enough : n ≤ q.length
  · have reads := reads_sreadbytes spins (q.take n)
    have hn : (q.take n).length = n := by rw [List.length_take]; omega
    rw [hn] at reads
    obtain ⟨_, ticks', rfl, -, same⟩ :=
      exec_reads reads (untimed_sreadbytes spins n) (q.drop n) e ticks
    rw [List.take_append_drop] at same
    rw [exec_bind_done same, exec_bind_done same]
    exact seen_after _ _ _ _ _ (h enough ticks')
  · have cut := exec_sreadbytes_cut e ticks spins (Nat.lt_of_not_le enough)
    rw [exec_bind, exec_bind, cut]
    cases e <;> rfl

/-- A string read into two buffers: either both hold it, or both hold a part
of it in front of what they held before. -/
theorem twin_sgets (spins : Nat) {buf buf' : List Byte} (hb : buf.length = bufsize)
    (hb' : buf'.length = bufsize) {f g : List Byte → Proc (Exit × Spm)}
    (whole : ∀ s rest b b', gets (bufsize - 2) q = some (s, rest) → cstr b = s → cstr b' = s →
      (Terminated buf → Terminated b) → (Terminated buf' → Terminated b') →
      Twin (f b) (g b') rest e)
    (cut : gets (bufsize - 2) q = none → e = .closed →
      Twin (f (cutBuffer buf q)) (g (cutBuffer buf' q)) [] .closed) :
    Twin (sgets spins buf bufsize >>= fun r => f r.2) (sgets spins buf' bufsize >>= fun r => g r.2)
      q e := by
  intro ticks
  have project := congrArg (exec · ⟨q, e, ticks⟩) (sgets_project spins buf buf' bufsize)
  simp only [exec_map] at project
  cases field : gets (bufsize - 2) q with
  | some r =>
    obtain ⟨s, rest⟩ := r
    obtain ⟨ok, b, t, ticks₁, term, str, run⟩ := exec_sgets_field spins hb field (e := e) ticks
    obtain ⟨ok', b', t', ticks₂, term', str', run'⟩ :=
      exec_sgets_field spins hb' field (e := e) ticks
    rw [run, run'] at project
    cases project
    rw [exec_bind_done run, exec_bind_done run']
    exact seen_after _ _ _ _ _ (whole s rest b b' field str str' term term' ticks₁)
  | none =>
    obtain ⟨hq, hl⟩ := gets_none field
    obtain ⟨ticks₁, -, run⟩ := exec_sgets_cut e ticks spins hq hl hb
    obtain ⟨ticks₂, -, run'⟩ := exec_sgets_cut e ticks spins hq hl hb'
    rw [run, run'] at project
    cases e with
    | silent => rw [exec_bind, exec_bind, run, run']; rfl
    | closed =>
      cases project
      rw [exec_bind_done run, exec_bind_done run']
      exact seen_after _ _ _ _ _ (cut field rfl ticks₁)

end

/-! ## The handlers -/

section
variable {q : List Byte} {e : Ending} {st st' : Spm}

theorem Alike.setSktname (h : Alike st st') {b b' : List Byte}
    (hb : Terminated st.sktname → Terminated b) (hb' : Terminated st'.sktname → Terminated b') :
    Alike (st.setSktname b) (st'.setSktname b') :=
  ⟨h.ports, h.waiting, h.valid.setSktname (hb h.valid.sktname),
    h.valid'.setSktname (hb' h.valid'.sktname)⟩

theorem Alike.setSharehost (h : Alike st st') {b b' : List Byte}
    (hb : Terminated st.sharehost → Terminated b) (hb' : Terminated st'.sharehost → Terminated b') :
    Alike (st.setSharehost b) (st'.setSharehost b') :=
  ⟨h.ports, h.waiting, h.valid.setSharehost (hb h.valid.sharehost),
    h.valid'.setSharehost (hb' h.valid'.sharehost)⟩

theorem Alike.lookup (h : Alike st st') (name : List Byte) :
    (st.lookup name).isSome = (st'.lookup name).isSome := by
  rw [lookup_isSome h.valid, lookup_isSome h.valid', h.ports]

theorem twin_pmServerMesg (spins : Nat) (p : PortTable) (h : Alike st st')
    (name : cstr st.sktname = cstr st'.sktname) :
    Twin (pmServerMesg spins p st) (pmServerMesg spins p st') q e := by
  apply twin_swrite
  apply twin_orTimedout h.ports
  intro _
  apply twin_sreadbytes
  intro _
  dsimp only
  by_cases final : ntohs (q.take 2) = PM.ok
  · rw [if_neg (not_not.2 final), if_neg (not_not.2 final)]
    have ends := wakeupAll_isSome spins p h.valid
    have ends' := wakeupAll_isSome spins p h.valid'
    rw [h.waiting, name, ← ends'] at ends
    cases run : wakeupAll spins p st with
    | some t =>
      cases run' : wakeupAll spins p st' with
      | some t' =>
        obtain ⟨_, _, woken⟩ := wakeupAll_woken h.valid run
        obtain ⟨_, _, woken'⟩ := wakeupAll_woken h.valid' run'
        exact twin_ret _ _ (by rw [woken.ports, woken'.ports, h.ports])
      | none => simp [run, run'] at ends
    | none =>
      cases run' : wakeupAll spins p st' with
      | some t' => simp [run, run'] at ends
      | none => exact fun ticks => rfl
  · rw [if_pos final, if_pos final]
    exact twin_ret _ _ h.ports

theorem twin_pmServerPort (spins : Nat) (event : SktEvent) (h : Alike st st')
    (name : cstr st.sktname = cstr st'.sktname)
    (host : event = PM.share → cstr st.sharehost = cstr st'.sharehost)
    (free : st.lookup (cstr st.sktname) = none) :
    Twin (pmServerPort spins event st) (pmServerPort spins event st') q e := by
  have free' : st'.lookup (cstr st'.sktname) = none := by
    rw [← Option.not_isSome_iff_eq_none, ← name, ← h.lookup, free]
    simp
  have hosts : (if event = PM.share then some st.sharehost else none).map cstr =
      (if event = PM.share then some st'.sharehost else none).map cstr := by
    split
    · rename_i share
      rw [Option.map_some, Option.map_some, host share]
    · rfl
  obtain ⟨ps, hps, -⟩ := h.valid.ports
  obtain ⟨ps', hps', -⟩ := h.valid'.ports
  apply twin_orTimedout h.ports
  intro _
  apply twin_sreadbytes
  intro _
  dsimp only [makePortTable]
  rw [← hosts, ← name, Proc.note_bind, Proc.note_bind]
  have added (p : PortTable) (hp : p.sktname = cstr st.sktname) :
      Alike { st with ports := st.ports.append p } { st' with ports := st'.ports.append p } :=
    ⟨by rw [DList.append_vals hps, DList.append_vals hps', h.ports], h.waiting,
      h.valid.register (by rw [hp]; exact free), h.valid'.register (by rw [hp, name]; exact free')⟩
  intro ticks
  exact seen_after _ _ [] _ _ (twin_pmServerMesg spins _ (added _ rfl) name ticks)

theorem twin_pmServerLookup (spins : Nat) (event : SktEvent) (h : Alike st st')
    (host : event = PM.share → cstr st.sharehost = cstr st'.sharehost)
    (taken : (st.lookup (cstr st.sktname)).isSome = (st'.lookup (cstr st'.sktname)).isSome)
    (name : q ≠ [] → cstr st.sktname = cstr st'.sktname) :
    Twin (pmServerLookup spins event st) (pmServerLookup spins event st') q e := by
  unfold pmServerLookup
  rw [← taken]
  split
  · apply twin_swrite
    exact twin_ret _ _ h.ports
  · rename_i free
    by_cases nothing : q = []
    · exact twin_orTimedout h.ports fun some' => absurd nothing some'
    · exact twin_pmServerPort spins event h (name nothing) host (by simpa using free)

/-- A cut name may stand for two different ones, both of them taken or not. -/
theorem twin_pmServerName (spins : Nat) (event : SktEvent) (h : Alike st st')
    (host : event = PM.share → cstr st.sharehost = cstr st'.sharehost)
    (cut : gets (bufsize - 2) q = none → e = .closed → q ≠ [] →
      (entryFor st.ports.vals (cstr (cutBuffer st.sktname q))).isSome =
        (entryFor st.ports.vals (cstr (cutBuffer st'.sktname q))).isSome) :
    Twin (pmServerName spins event st) (pmServerName spins event st') q e := by
  apply twin_orTimedout h.ports
  intro some'
  apply twin_sgets spins h.valid.sktname.1 h.valid'.sktname.1
    (f := fun b => pmServerLookup spins event (st.setSktname b))
    (g := fun b => pmServerLookup spins event (st'.setSktname b))
  · intro s rest b b' _ str str' term term'
    have alike := h.setSktname term term'
    apply twin_pmServerLookup spins event alike host
    · rw [Spm.setSktname_sktname, Spm.setSktname_sktname, str, str']
      exact alike.lookup s
    · intro _
      exact str.trans str'.symm
  · intro field closed
    have short := (gets_none field).2
    have alike := h.setSktname (fun term => term.cut short) (fun term => term.cut short)
    apply twin_pmServerLookup spins event alike host
    · rw [lookup_isSome alike.valid, lookup_isSome alike.valid', ← alike.ports]
      exact cut field closed some'
    · exact fun no => absurd rfl no

/-! ## A session -/

/-- What a handler answers to a name once it has it. -/
def SameAnswer (event : SktEvent) (table : List PortTable) (name name' : List Byte) : Prop :=
  if event = PM.client then
    (entryFor table name).map PortTable.reply = (entryFor table name').map PortTable.reply
  else if event = PM.quit then name = portMaster ↔ name' = portMaster
  else (entryFor table name).isSome = (entryFor table name').isSome

/-- The name at which the stream ends, behind the bytes of the event. -/
def CutName (event : SktEvent) (bytes : List Byte) (e : Ending) (s : List Byte) : Prop :=
  e = .closed ∧ s ≠ [] ∧ gets (bufsize - 2) s = none ∧
    if event = PM.share then ∃ host, gets (bufsize - 2) bytes = some (host, s) else s = bytes

theorem twin_pmServer (spins : Nat) {event : SktEvent} (h : Alike st st')
    (hev : event = PM.server ∨ event = PM.share)
    (cut : ∀ s, CutName event q e s → SameAnswer event st.ports.vals
      (cstr (cutBuffer st.sktname s)) (cstr (cutBuffer st'.sktname s))) :
    Twin (pmServer spins event st) (pmServer spins event st') q e := by
  apply twin_swrite
  rcases hev with rfl | rfl
  · rw [if_neg (by decide), if_neg (by decide)]
    have alike := h.setSharehost Terminated.emptied Terminated.emptied
    apply twin_pmServerName spins PM.server alike fun share => absurd share (by decide)
    intro field closed some'
    exact cut q ⟨closed, some', field, rfl⟩
  · rw [if_pos rfl, if_pos rfl]
    apply twin_orTimedout h.ports
    intro _
    apply twin_sgets spins h.valid.sharehost.1 h.valid'.sharehost.1
      (f := fun b => pmServerName spins PM.share (st.setSharehost b))
      (g := fun b => pmServerName spins PM.share (st'.setSharehost b))
    · intro s rest b b' field str str' term term'
      apply twin_pmServerName spins PM.share (h.setSharehost term term')
        fun _ => str.trans str'.symm
      intro cutField closed some'
      exact cut rest ⟨closed, some', cutField, s, field⟩
    · intro _ _
      unfold pmServerName
      apply twin_orTimedout
      · exact h.ports
      · exact fun some' => absurd rfl some'

theorem twin_pmClient (spins client client' : Nat) (h : Alike st st')
    (cut : ∀ s, CutName PM.client q e s → SameAnswer PM.client st.ports.vals
      (cstr (cutBuffer st.sktname s)) (cstr (cutBuffer st'.sktname s))) :
    Twin (pmClient spins client false st) (pmClient spins client' false st') q e := by
  have answer {b b' : List Byte} {q : List Byte} {e : Ending}
      (same : (entryFor st.ports.vals (cstr b)).map PortTable.reply =
        (entryFor st.ports.vals (cstr b')).map PortTable.reply) :
      Twin (pmClientLookup client false (st.setSktname b))
        (pmClientLookup client' false (st'.setSktname b')) q e := by
    have found : (st.lookup (cstr b)).map Prod.snd = entryFor st.ports.vals (cstr b) :=
      lookup_entryFor h.valid (cstr b)
    have found' : (st'.lookup (cstr b')).map Prod.snd = entryFor st.ports.vals (cstr b') :=
      h.ports ▸ lookup_entryFor h.valid' (cstr b')
    rw [← found, ← found'] at same
    have look : (st.setSktname b).lookup (cstr b) = st.lookup (cstr b) := rfl
    have look' : (st'.setSktname b').lookup (cstr b') = st'.lookup (cstr b') := rfl
    unfold pmClientLookup
    rw [Spm.setSktname_sktname, Spm.setSktname_sktname, look, look']
    cases hp : st.lookup (cstr b) with
    | some p =>
      cases hp' : st'.lookup (cstr b') with
      | some p' =>
        rw [hp, hp'] at same
        have reply : p.2.reply = p'.2.reply := Option.some.inj same
        dsimp only
        rw [reply]
        apply twin_swriteAll
        exact twin_ret _ _ h.ports
      | none => rw [hp, hp'] at same; cases same
    | none =>
      cases hp' : st'.lookup (cstr b') with
      | some p' => rw [hp, hp'] at same; cases same
      | none =>
        apply twin_swrite
        exact twin_ret _ _ h.ports
  apply twin_swrite
  apply twin_orTimedout h.ports
  intro some'
  apply twin_sgets spins h.valid.sktname.1 h.valid'.sktname.1
    (f := fun b => pmClientLookup client false (st.setSktname b))
    (g := fun b => pmClientLookup client' false (st'.setSktname b))
  · intro s rest b b' _ str str' _ _
    exact answer (by rw [str, str'])
  · intro field closed
    exact answer (cut q ⟨closed, some', field, rfl⟩)

theorem twin_pmQuit (spins : Nat) (h : Alike st st')
    (cut : ∀ s, CutName PM.quit q e s → SameAnswer PM.quit st.ports.vals
      (cstr (cutBuffer st.sktname s)) (cstr (cutBuffer st'.sktname s))) :
    Twin (pmQuit spins st) (pmQuit spins st') q e := by
  have answer {b b' : List Byte} {q : List Byte} {e : Ending}
      (same : cstr b = portMaster ↔ cstr b' = portMaster) :
      Twin (pmQuitLookup (st.setSktname b)) (pmQuitLookup (st'.setSktname b')) q e := by
    unfold pmQuitLookup
    rw [Spm.setSktname_sktname, Spm.setSktname_sktname]
    by_cases mine : cstr b = portMaster
    · rw [if_pos mine, if_pos (same.1 mine)]
      exact twin_ret _ _ h.ports
    · rw [if_neg mine, if_neg fun mine' => mine (same.2 mine')]
      apply twin_swrite
      exact twin_ret _ _ h.ports
  apply twin_swrite
  apply twin_orTimedout h.ports
  intro some'
  apply twin_sgets spins h.valid.sktname.1 h.valid'.sktname.1
    (f := fun b => pmQuitLookup (st.setSktname b)) (g := fun b => pmQuitLookup (st'.setSktname b))
  · intro s rest b b' _ str str' _ _
    exact answer (by rw [str, str'])
  · intro field closed
    exact answer (cut q ⟨closed, some', field, rfl⟩)

/-- The requests that name a server. -/
def NamesServer (event : SktEvent) : Prop :=
  event = PM.server ∨ event = PM.share ∨ event = PM.client ∨ event = PM.quit

theorem twin_handle (a : Around) (client client' : Nat) {event : SktEvent} (h : Alike st st')
    (hev : NamesServer event) {p p' : Proc (Exit × Spm)} (hp : handle a client event st = some p)
    (hp' : handle a client' event st' = some p')
    (cut : ∀ s, CutName event q e s → SameAnswer event st.ports.vals
      (cstr (cutBuffer st.sktname s)) (cstr (cutBuffer st'.sktname s))) : Twin p p' q e := by
  rcases hev with rfl | rfl | rfl | rfl
  · cases hp; cases hp'
    exact twin_pmServer a.spins h (.inl rfl) cut
  · cases hp; cases hp'
    exact twin_pmServer a.spins h (.inr rfl) cut
  · cases hp; cases hp'
    exact twin_pmClient a.spins client client' h cut
  · cases hp; cases hp'
    exact twin_pmQuit a.spins h cut

theorem twin_eventLoop (a : Around) (client client' : Nat) {event : SktEvent} (h : Alike st st')
    (hev : NamesServer event) {rest : List Byte}
    (cut : ∀ s, CutName event rest e s → SameAnswer event st.ports.vals
      (cstr (cutBuffer st.sktname s)) (cstr (cutBuffer st'.sktname s))) :
    ∀ {left : Nat} {q : List Byte} {before : List SktEvent},
      request left q = .event before event rest →
      Twin (eventLoop a client left st) (eventLoop a client' left st') q e := by
  intro left
  induction left with
  | zero => intro q before hr; cases hr
  | succ left ih =>
    intro q before hr
    apply twin_orTimedout h.ports
    intro _
    apply twin_sreadbytes
    intro _
    match q, hr with
    | hi :: lo :: q, hr =>
      simp only [List.take_succ_cons, List.take_zero, List.drop_succ_cons, List.drop_zero]
      cases hp : handle a client (ntohs [hi, lo]) st with
      | some p =>
        obtain ⟨p', hp'⟩ : ∃ p', handle a client' (ntohs [hi, lo]) st' = some p' := by
          rw [← Option.isSome_iff_exists, handle_isSome, ← handle_isSome a client _ st, hp]
          rfl
        rw [request_known hp] at hr
        rw [hp']
        cases hr
        exact twin_handle a client client' h hev hp hp' cut
      | none =>
        have hp' : handle a client' (ntohs [hi, lo]) st' = none := by
          rw [← Option.not_isSome_iff_eq_none, handle_isSome, ← handle_isSome a client _ st, hp]
          simp
        rw [request_unknown hp] at hr
        obtain ⟨before', -, hr'⟩ := Request.behind_event hr
        rw [hp']
        apply twin_swrite
        exact ih hr'

/-- **Two PortMasters that differ in their buffers alone answer alike** unless
the stream ends in a name that they complete to names with different answers. -/
theorem twin_session (a : Around) {peer : Option Peer} (h : Alike st st')
    (pass : firewall st.fw peer = false) (pass' : firewall st'.fw peer = false)
    {event : SktEvent} (hev : NamesServer event) {before : List SktEvent} {rest : List Byte}
    (hr : request (PM.maxtry + 1) q = .event before event rest)
    (cut : ∀ s, CutName event rest e s → SameAnswer event st.ports.vals
      (cstr (cutBuffer st.sktname s)) (cstr (cutBuffer st'.sktname s))) :
    Twin (session a peer st) (session a peer st') q e := by
  have opened : Alike st.opened st'.opened := ⟨h.ports, h.waiting, h.valid.opened, h.valid'.opened⟩
  have loop := twin_eventLoop a st.accepted st'.accepted opened hev cut hr
  have closing (r : Outcome Byte Note (Exit × Spm)) : seen (r.map hangUp) = seen r := by
    obtain ⟨o, t, fate⟩ := r
    cases fate <;> rfl
  have ends {st : Spm} (pass : firewall st.fw peer = false) (ticks : List Nat) :
      exec (session a peer st) ⟨q, e, ticks⟩ =
        (exec (eventLoop a st.accepted (PM.maxtry + 1) st.opened) ⟨q, e, ticks⟩).map hangUp := by
    rw [← exec_map]
    unfold session
    dsimp only
    rw [pass]
    rfl
  intro ticks
  rw [ends pass, ends pass', closing, closing]
  exact loop ticks

end

/-! ## The cut name shows -/

/-- What the client is told about the name, behind the first `PM_OK`. -/
def lastReply (event : SktEvent) (table : List PortTable) (name : List Byte) : List (List Byte) :=
  if event = PM.client then
    match entryFor table name with
    | some p => p.reply
    | none => [htons PM.sorryReply]
  else if event = PM.quit then if name = portMaster then [] else [htons PM.sorryReply]
  else if (entryFor table name).isSome then [htons PM.sorryReply] else []

theorem sameAnswer_of_lastReply {event : SktEvent} {table : List PortTable} {name name' : List Byte}
    (h : lastReply event table name = lastReply event table name') :
    SameAnswer event table name name' := by
  unfold lastReply at h
  unfold SameAnswer
  have long (p : PortTable) : p.reply ≠ [htons PM.sorryReply] := by
    unfold PortTable.reply
    split <;> simp
  by_cases client : event = PM.client
  · rw [if_pos client] at h ⊢
    rw [if_pos client] at h
    cases hp : entryFor table name with
    | some p =>
      cases hp' : entryFor table name' with
      | some p' => rw [hp, hp'] at h; exact congrArg some h
      | none => rw [hp, hp'] at h; exact absurd h (long p)
    | none =>
      cases hp' : entryFor table name' with
      | some p' => rw [hp, hp'] at h; exact absurd h.symm (long p')
      | none => rfl
  rw [if_neg client] at h ⊢
  rw [if_neg client] at h
  by_cases quit : event = PM.quit
  · rw [if_pos quit] at h ⊢
    rw [if_pos quit] at h
    by_cases mine : name = portMaster
    · by_cases mine' : name' = portMaster
      · exact iff_of_true mine mine'
      · rw [if_pos mine, if_neg mine'] at h; cases h
    · by_cases mine' : name' = portMaster
      · rw [if_neg mine, if_pos mine'] at h; cases h
      · exact iff_of_false mine mine'
  · rw [if_neg quit] at h ⊢
    rw [if_neg quit] at h
    cases hp : (entryFor table name).isSome with
    | true =>
      cases hp' : (entryFor table name').isSome with
      | true => rfl
      | false => simp [hp, hp'] at h
    | false =>
      cases hp' : (entryFor table name').isSome with
      | true => simp [hp, hp'] at h
      | false => rfl

section
variable {st : Spm} {q s : List Byte} {e : Ending} {late : Prop}

/-- The reads of a name that is cut short. -/
theorem wp_cutName {P : Outcome Byte Note (Exit × Spm) → Prop} (spins : Nat) (st' : Spm)
    {buf : List Byte} (hb : buf.length = bufsize) (some' : s ≠ [])
    (field : gets (bufsize - 2) s = none) (f : List Byte → Proc (Exit × Spm)) :
    wp False (orTimedout st' (sgets spins buf bufsize >>= fun r => f r.2)) P s .closed ↔
      wp False (f (cutBuffer buf s)) (fun r => P (r.after [] [.read s])) [] .closed := by
  rw [wp_orTimedout, false_or, and_iff_right fun nothing => absurd nothing some',
    imp_iff_right some', wp_sgets_none spins hb field f]
  simp

theorem seen_pmServerLookup (spins : Nat) (event : SktEvent) {st : Spm} (hv : st.Valid) :
    wp False (pmServerLookup spins event st) (fun r => seen r =
      (if (entryFor st.ports.vals (cstr st.sktname)).isSome then [htons PM.sorryReply] else [],
        some st.ports.vals)) [] .closed := by
  unfold pmServerLookup
  rw [lookup_isSome hv]
  split
  · rw [wp_swrite]
    change wp False (.ret _) _ _ _
    rw [wp_ret]
    rfl
  · rw [pmServerPort, wp_orTimedout]
    exact ⟨fun _ => rfl, fun some' => absurd rfl some'⟩

theorem seen_pmServerName (spins : Nat) (event : SktEvent) {st : Spm} (hv : st.Valid)
    (some' : s ≠ []) (field : gets (bufsize - 2) s = none) :
    wp False (pmServerName spins event st) (fun r => seen r =
      (if (entryFor st.ports.vals (cstr (cutBuffer st.sktname s))).isSome
        then [htons PM.sorryReply] else [], some st.ports.vals)) s .closed := by
  rw [pmServerName, wp_cutName spins st hv.sktname.1 some' field fun buf =>
    pmServerLookup spins event (st.setSktname buf)]
  exact seen_pmServerLookup spins event (hv.setSktname (hv.sktname.cut (gets_none field).2))

/-- The `PM_OK` comes before the rest. -/
theorem seen_behind_ok {W : List (List Byte)} {T : Option (List PortTable)} (t : List Note)
    {r : Outcome Byte Note (Exit × Spm)} (h : seen r = (W, T)) :
    seen ((r.after [] t).after [htons PM.ok] []) = (htons PM.ok :: W, T) := by
  obtain ⟨o, n, f⟩ := r
  simp only [seen, Outcome.after, Prod.mk.injEq] at h ⊢
  exact ⟨by rw [h.1]; rfl, h.2⟩

theorem seen_pmServer_cut (hv : st.Valid) (spins : Nat) {event : SktEvent}
    (hev : event = PM.server ∨ event = PM.share) (cut : CutName event q e s) :
    wp False (pmServer spins event st) (fun r => seen r = (htons PM.ok :: lastReply event
      st.ports.vals (cstr (cutBuffer st.sktname s)), some st.ports.vals)) q e := by
  obtain ⟨rfl, some', field, place⟩ := cut
  rcases hev with rfl | rfl
  · obtain rfl : s = q := place
    rw [pmServer, wp_swrite, if_neg (by decide)]
    have there := seen_pmServerName spins PM.server (hv.setSharehost hv.sharehost.emptied) some'
      field
    exact there.mono fun r h => seen_behind_ok [] h
  · obtain ⟨host, hostField⟩ := place
    have begun : q ≠ [] := by rintro rfl; cases hostField
    rw [pmServer, wp_swrite, if_pos rfl, wp_orTimedout, false_or,
      and_iff_right fun nothing => absurd nothing begun, imp_iff_right begun]
    rw [wp_sgets_some spins hv.sharehost.1 hostField
      (fun buf => pmServerName spins PM.share (st.setSharehost buf)) (C := True)]
    · trivial
    · intro buf' t term _
      rw [iff_true]
      have there := seen_pmServerName spins PM.share (hv.setSharehost (term hv.sharehost)) some'
        field
      exact there.mono fun r h => seen_behind_ok [.read t] h

theorem seen_pmClient_cut (hv : st.Valid) (spins client : Nat) (cut : CutName PM.client q e s) :
    wp False (pmClient spins client false st) (fun r => seen r = (htons PM.ok :: lastReply PM.client
      st.ports.vals (cstr (cutBuffer st.sktname s)), some st.ports.vals)) q e := by
  obtain ⟨rfl, some', field, place⟩ := cut
  obtain rfl : s = q := place
  rw [pmClient, wp_swrite, wp_cutName spins st hv.sktname.1 some' field fun buf =>
    pmClientLookup client false (st.setSktname buf)]
  have found := lookup_entryFor hv (cstr (cutBuffer st.sktname s))
  have look : (st.setSktname (cutBuffer st.sktname s)).lookup (cstr (cutBuffer st.sktname s)) =
    st.lookup (cstr (cutBuffer st.sktname s)) := rfl
  unfold pmClientLookup lastReply
  rw [Spm.setSktname_sktname, look, if_pos rfl, ← found]
  cases st.lookup (cstr (cutBuffer st.sktname s)) with
  | some p =>
    dsimp only
    rw [wp_swriteAll]
    change wp False (.ret _) _ _ _
    rw [wp_ret]
    apply seen_behind_ok [.read s]
    simp only [seen, Outcome.after, List.append_nil, Spm.setSktname_ports]
    rfl
  | none =>
    change wp False (.send _ (.ret _)) _ _ _
    rw [wp_send, wp_ret]
    exact seen_behind_ok [.read s] rfl

theorem seen_pmQuit_cut (hv : st.Valid) (spins : Nat) (cut : CutName PM.quit q e s) :
    wp False (pmQuit spins st) (fun r => seen r = (htons PM.ok :: lastReply PM.quit
      st.ports.vals (cstr (cutBuffer st.sktname s)), some st.ports.vals)) q e := by
  obtain ⟨rfl, some', field, place⟩ := cut
  obtain rfl : s = q := place
  have reply : lastReply PM.quit st.ports.vals (cstr (cutBuffer st.sktname s)) =
      if cstr (cutBuffer st.sktname s) = portMaster then [] else [htons PM.sorryReply] := by
    rw [lastReply, if_neg (by decide), if_pos rfl]
  rw [reply, pmQuit, wp_swrite, wp_cutName spins st hv.sktname.1 some' field fun buf =>
    pmQuitLookup (st.setSktname buf), pmQuitLookup, Spm.setSktname_sktname]
  by_cases mine : cstr (cutBuffer st.sktname s) = portMaster
  · rw [if_pos mine, if_pos mine]
    change wp False (.ret _) _ _ _
    rw [wp_ret]
    exact seen_behind_ok [.read s] rfl
  · rw [if_neg mine, if_neg mine]
    change wp False (.send _ (.ret _)) _ _ _
    rw [wp_send, wp_ret]
    exact seen_behind_ok [.read s] rfl

theorem seen_cut (hv : st.Valid) (a : Around) (client : Nat) {event : SktEvent}
    (hev : NamesServer event) {p : Proc (Exit × Spm)} (hp : handle a client event st = some p)
    (cut : CutName event q e s) :
    wp False p (fun r => seen r = (htons PM.ok :: lastReply event st.ports.vals
      (cstr (cutBuffer st.sktname s)), some st.ports.vals)) q e := by
  rcases hev with rfl | rfl | rfl | rfl
  · cases hp
    exact seen_pmServer_cut hv a.spins (.inl rfl) cut
  · cases hp
    exact seen_pmServer_cut hv a.spins (.inr rfl) cut
  · cases hp
    exact seen_pmClient_cut hv a.spins client cut
  · cases hp
    exact seen_pmQuit_cut hv a.spins cut

/-- What the client sees of a name that it has cut short. -/
theorem seen_session_cut (hv : st.Valid) (a : Around) {peer : Option Peer}
    (pass : firewall st.fw peer = false) {event : SktEvent} (hev : NamesServer event)
    {before : List SktEvent} {bytes rest : List Byte}
    (hr : request (PM.maxtry + 1) bytes = .event before event rest)
    (cut : CutName event rest e s) :
    seen (exec (session a peer st) ⟨bytes, e, []⟩) =
      (before.map (fun _ => htons PM.resend) ++ htons PM.ok :: lastReply event st.ports.vals
        (cstr (cutBuffer st.sktname s)), some st.ports.vals) := by
  obtain ⟨p, hp⟩ : ∃ p, handle a st.accepted event st.opened = some p := by
    rw [← Option.isSome_iff_exists, handle_isSome]
    rcases hev with rfl | rfl | rfl | rfl <;> decide
  have forget (r : Outcome Byte Note (Exit × Spm)) : seen r.forget = seen r := by
    obtain ⟨o, t, fate⟩ := r
    cases fate <;> rfl
  have whole : wp False (session a peer st) (fun r => seen r =
      (before.map (fun _ => htons PM.resend) ++ htons PM.ok :: lastReply event st.ports.vals
        (cstr (cutBuffer st.sktname s)), some st.ports.vals)) bytes e := by
    rw [wp_session a pass, wp_eventLoop_event a _ hp hr fun no => no.elim]
    refine (seen_cut hv.opened a st.accepted hev hp cut).mono fun r h => ?_
    obtain ⟨o, t, fate⟩ := r
    simp only [seen, Prod.mk.injEq] at h
    obtain ⟨rfl, table⟩ := h
    simp only [seen, Outcome.map, Outcome.after, Prod.mk.injEq]
    refine ⟨rfl, ?_⟩
    cases fate with
    | done x w => exact table
    | blocked => cases table
    | spun => cases table
  rw [wp_iff_exec fun r => by rw [forget]] at whole
  exact whole [] (.inr (by simp))

end

/-- **Nothing of earlier sessions shows** to a client that names a server
exactly when it does not end its stream in the middle of the name, or the names
that the two buffers complete it to have the same answer. -/
theorem no_leak_iff {st st' : Spm} (h : Reachable st) (h' : Reachable st')
    (ports : st.ports.vals = st'.ports.vals) (waiting : st.waiting = st'.waiting) (a : Around)
    {peer : Option Peer} (pass : firewall st.fw peer = false)
    (pass' : firewall st'.fw peer = false) {bytes rest : List Byte} {before : List SktEvent}
    {event : SktEvent} (hev : NamesServer event)
    (hr : request (PM.maxtry + 1) bytes = .event before event rest) (e : Ending) :
    (∀ ticks, seen (exec (session a peer st) ⟨bytes, e, ticks⟩) =
      seen (exec (session a peer st') ⟨bytes, e, ticks⟩)) ↔
    ∀ s, CutName event rest e s → SameAnswer event st.ports.vals
      (cstr (cutBuffer st.sktname s)) (cstr (cutBuffer st'.sktname s)) := by
  have alike : Alike st st' := ⟨ports, waiting, reachable_valid h, reachable_valid h'⟩
  constructor
  · intro same s cut
    have now := same []
    rw [seen_session_cut alike.valid a pass hev hr cut, seen_session_cut alike.valid' a pass' hev
      hr cut, ← ports, Prod.mk.injEq, List.append_cancel_left_eq, List.cons.injEq] at now
    exact sameAnswer_of_lastReply now.1.2
  · exact twin_session a alike pass pass' hev hr

/-- A client that asks for a server by the PortMaster's own name. -/
def asksForPortMaster : Visit :=
  ⟨nothingAround, none, ⟨htons PM.client ++ withNul portMaster, .closed, []⟩⟩

/-- The PortMaster after such a client. -/
def askedPortMaster : Spm := (asksForPortMaster.leaves newPortMaster).getD newPortMaster

theorem askedPortMaster_reachable : Reachable askedPortMaster := by
  have on : (asksForPortMaster.leaves newPortMaster).isSome := by decide +kernel
  obtain ⟨st, leaves⟩ := Option.isSome_iff_exists.1 on
  have same : askedPortMaster = st := by rw [askedPortMaster, leaves, Option.getD_some]
  rw [same]
  exact newPortMaster_reachable.leaves _ leaves

/-- `PM_QUIT` and the first letter of the name. -/
def cutQuit : List Byte := htons PM.quit ++ [80]

theorem no_leak_cutQuit :
    (∀ ticks, seen (exec (session nothingAround none askedPortMaster)
        ⟨cutQuit, .closed, ticks⟩) =
      seen (exec (session nothingAround none newPortMaster) ⟨cutQuit, .closed, ticks⟩)) ↔
    ∀ s, CutName PM.quit [80] .closed s → SameAnswer PM.quit askedPortMaster.ports.vals
      (cstr (cutBuffer askedPortMaster.sktname s)) (cstr (cutBuffer newPortMaster.sktname s)) := by
  have ports : askedPortMaster.ports.vals = newPortMaster.ports.vals := by decide +kernel
  have waiting : askedPortMaster.waiting = newPortMaster.waiting := by decide +kernel
  have pass : firewall askedPortMaster.fw none = false := by decide +kernel
  have found : request (PM.maxtry + 1) cutQuit = .event [] PM.quit [80] := rfl
  exact no_leak_iff askedPortMaster_reachable newPortMaster_reachable ports waiting nothingAround
    pass rfl (.inr (.inr (.inr rfl))) found .closed

/-- One letter ends the PortMaster if an earlier client has left the others. -/
theorem cutQuit_leaks : ¬ ∀ ticks, seen (exec (session nothingAround none askedPortMaster)
      ⟨cutQuit, .closed, ticks⟩) =
    seen (exec (session nothingAround none newPortMaster) ⟨cutQuit, .closed, ticks⟩) := by
  intro same
  have now := congrArg Prod.fst (same [])
  have asked : (seen (exec (session nothingAround none askedPortMaster)
      ⟨cutQuit, .closed, []⟩)).1 = [htons PM.ok] := by decide +kernel
  have new : (seen (exec (session nothingAround none newPortMaster)
      ⟨cutQuit, .closed, []⟩)).1 = [htons PM.ok, htons PM.sorryReply] := by decide +kernel
  rw [asked, new] at now
  cases now

end UnixProgramming.Ssl
