import UnixProgramming.Ssl.Dialogue

/-!
# The registry

What the PortMaster and its library are for, as a list of registrations, and
that they do it: sequences of whole library calls against one PortMaster.

* `Registry`: registrations in their order, one for a name;
* `Registry.Step`: what each call means;
* `Sessions`: calls one after the other against a PortMaster;
* `registry_agreement`: the calls do what they mean.
-/

namespace UnixProgramming.Ssl

open Pipe Heap

/-! ## Registrations -/

@[ext] structure Registry where
  entries : List PortTable
  unique : (entries.map PortTable.sktname).Nodup

namespace Registry

def empty : Registry := ⟨[], List.nodup_nil⟩

def find (r : Registry) (sktname : List Byte) : Option PortTable := entryFor r.entries sktname

/-- All but the first entry that passes the test. -/
def without (r : Registry) (test : PortTable → Bool) : Registry :=
  ⟨r.entries.eraseP test, r.unique.sublist (List.eraseP_sublist.map _)⟩

def remove (r : Registry) (sktname : List Byte) : Registry :=
  r.without fun p => p.sktname = sktname

/-- All but the first entry with the port. -/
def close (r : Registry) (port : SktEvent) : Registry := r.without fun p => p.port = port

theorem find_none {r : Registry} {sktname : List Byte} :
    r.find sktname = none ↔ ∀ p ∈ r.entries, p.sktname ≠ sktname := by
  simp [find, entryFor]

theorem remove_free {r : Registry} {sktname : List Byte} (free : r.find sktname = none) :
    r.remove sktname = r := by
  apply Registry.ext
  apply List.eraseP_of_forall_not
  simpa using find_none.1 free

theorem find_remove (r : Registry) (sktname : List Byte) :
    (r.remove sktname).find sktname = none := by
  rw [find_none]
  obtain ⟨entries, unique⟩ := r
  change ∀ p ∈ entries.eraseP fun p => p.sktname = sktname, p.sktname ≠ sktname
  induction entries with
  | nil => simp
  | cons e entries ih =>
    rw [List.map_cons, List.nodup_cons] at unique
    by_cases mine : e.sktname = sktname
    · subst mine
      rw [List.eraseP_cons_of_pos (by simp)]
      intro p hp same
      exact unique.1 (same ▸ List.mem_map_of_mem hp)
    · rw [List.eraseP_cons_of_neg (by simpa using mine), List.forall_mem_cons]
      exact ⟨mine, ih unique.2⟩

/-- A new entry at the end, in place of an older one for the name. -/
def register (r : Registry) (p : PortTable) : Registry where
  entries := (r.remove p.sktname).entries ++ [p]
  unique := by
    have others := find_none.1 (r.find_remove p.sktname)
    rw [List.map_append, List.nodup_append]
    refine ⟨(r.remove p.sktname).unique, by simp, ?_⟩
    rintro a ha b hb rfl
    obtain ⟨e, he, rfl⟩ := List.mem_map.1 ha
    exact others e he (by simpa using hb)

theorem register_remove (r : Registry) (p : PortTable) :
    (r.remove p.sktname).register p = r.register p := by
  apply Registry.ext
  change ((r.remove p.sktname).remove p.sktname).entries ++ [p] = _
  rw [remove_free (r.find_remove p.sktname)]
  rfl

/-- An entry whose port no earlier one has is the one that goes; of two with
the same port it is not the later one. -/
theorem close_own_iff {r : Registry} {l l' : List PortTable} {p : PortTable}
    (place : r.entries = l ++ p :: l') :
    (r.close p.port).entries = l ++ l' ↔ ∀ e ∈ l, e.port ≠ p.port := by
  obtain ⟨entries, unique⟩ := r
  change entries = l ++ p :: l' at place
  subst place
  change (l ++ p :: l').eraseP (fun e => e.port = p.port) = l ++ l' ↔ _
  constructor
  · intro own e he same
    have first : (l ++ p :: l').eraseP (fun e => e.port = p.port) =
        l.eraseP (fun e => e.port = p.port) ++ p :: l' :=
      List.eraseP_append_left (by simpa using same) _ he
    -- the entry of `p` is still there, but it is the only one of its name
    have still : p ∈ l ++ l' := by
      rw [← own, first]
      simp
    rw [List.map_append, List.map_cons, List.nodup_middle, List.nodup_cons,
      ← List.map_append] at unique
    exact unique.1 (List.mem_map_of_mem still)
  · intro own
    have others : ∀ e ∈ l, ¬ decide (e.port = p.port) := by simpa using own
    rw [List.eraseP_append_right _ others, List.eraseP_cons_of_pos (by simp)]

end Registry

/-! ## Calls -/

/-- A whole call of the library: `Sopen(name,"s")` or, to try again, "S",
`Sopen(name[@host],"c")`, `Srmsrvr(name)`, and `Sclose` of what an earlier call
has returned. -/
inductive Call where
  | server (m : Machine) (sktname : List Byte) (again : Bool)
  | client (m : Machine) (sktname : List Byte) (host : Option (List Byte))
  | remove (m : Machine) (sktname : List Byte)
  | close (n : Nat)

inductive Answer where
  | server (m : Machine) (skt : Option Socket)
  | client (skt : Option Socket)
  | mesg (mesg : SktEvent)
  | closed

/-- `name` or `name@host` -/
def skthostText (sktname : List Byte) (host : Option (List Byte)) : List Byte :=
  sktname ++ (host.map fun host => 64 :: host).getD []

/-- Every run of the call ends, with its answer and the PortMaster's state in
`Q`. -/
def Call.Ends (net : Net) (before : List Answer) (st : Spm) (Q : Answer → Spm → Prop) (c : Call) :
    Prop :=
  ∀ f : Frame, match c with
  | .server m sktname again =>
    (sopen f m (withNul sktname) [if again then 83 else 115]).Ends net m st fun r st' =>
      Q (.server m r.1) st'
  | .client m sktname host =>
    (sopen f m (withNul (skthostText sktname host)) [99]).Ends net m st fun r st' =>
      Q (.client r.1) st'
  | .remove m sktname =>
    (srmsrvr f.spins m (withNul sktname)).Ends net m st fun r st' => Q (.mesg r.1) st'
  | .close n =>
    match before[n]? with
    | some (.server m skt) => (sclose f.spins m skt).Ends net m st fun _ st' => Q .closed st'
    | _ => Q .closed st

/-- Calls one after the other: every run of each of them ends, and the answers
and the last state are in `Q`. -/
def Sessions (net : Net) : List Call → List Answer → Spm → (List Answer → Spm → Prop) → Prop
  | [], _, st, Q => Q [] st
  | c :: calls, before, st, Q => c.Ends net before st fun answer st' =>
    Sessions net calls (before ++ [answer]) st' fun answers st'' => Q (answer :: answers) st''

/-- The Socket of a new server. -/
def Machine.server (m : Machine) (sktname : List Byte) (port : SktEvent) : Socket :=
  ⟨PM.server, m.pmshare.getD m.hostname, sktname, port⟩

namespace Registry

/-- **What a call means**, behind calls with the answers `before`. -/
inductive Step (before : List Answer) : Registry → Call → Answer → Registry → Prop where
  | served (r m sktname again port) (free : r.find sktname = none ∨ again = true) :
      Step before r (.server m sktname again) (.server m (some (m.server sktname port)))
        (r.register (m.entry sktname port))
  | refused (r m sktname) (taken : r.find sktname ≠ none) :
      Step before r (.server m sktname false) (.server m none) r
  | client (r m sktname host) :
      Step before r (.client m sktname host) (.client ((r.find sktname).map fun p =>
        ⟨PM.client, m.host (p.sharehost.getD (host.getD m.hostname)), sktname, p.port⟩)) r
  | remove (r m sktname) :
      Step before r (.remove m sktname)
        (.mesg (if (r.find sktname).isSome then PM.ok else PM.sorryReply)) (r.remove sktname)
  | close (r n m skt) (opened : before[n]? = some (.server m (some skt))) :
      Step before r (.close n) .closed (r.close skt.port)
  | closeNull (r n) (none' : ∀ m skt, before[n]? ≠ some (.server m (some skt))) :
      Step before r (.close n) .closed r

inductive Run : List Answer → Registry → List Call → List Answer → Registry → Prop where
  | nil (before r) : Run before r [] [] r
  | cons {before r c a r' calls answers r''} (step : Step before r c a r')
      (more : Run (before ++ [a]) r' calls answers r'') :
      Run before r (c :: calls) (a :: answers) r''

end Registry

theorem Call.Ends.mono {net : Net} {before : List Answer} {st : Spm} {Q Q' : Answer → Spm → Prop}
    {c : Call} (h : c.Ends net before st Q) (imp : ∀ a st', Q a st' → Q' a st') :
    c.Ends net before st Q' := by
  intro f
  have h := h f
  cases c with
  | server m sktname again => exact Script.Ends.mono h fun _ _ => imp _ _
  | client m sktname host => exact Script.Ends.mono h fun _ _ => imp _ _
  | remove m sktname => exact Script.Ends.mono h fun _ _ => imp _ _
  | close n =>
    dsimp only at h ⊢
    split at h
    · exact Script.Ends.mono h fun _ _ => imp _ _
    · exact imp _ _ h

theorem Sessions.mono {net : Net} {calls : List Call} :
    ∀ {before : List Answer} {st : Spm} {Q Q' : List Answer → Spm → Prop},
      Sessions net calls before st Q → (∀ answers st', Q answers st' → Q' answers st') →
        Sessions net calls before st Q' := by
  induction calls with
  | nil => exact fun h imp => imp _ _ h
  | cons c calls ih =>
    intro before st Q Q' h imp
    apply Call.Ends.mono h
    intro a st' more
    exact ih more fun _ _ => imp _ _

/-! ## Calls that mean something -/

/-- The name of a server: for the library a string without `@`. -/
def ServerName (sktname : List Byte) : Prop := Short sktname ∧ 64 ∉ sktname

instance (sktname : List Byte) : Decidable (ServerName sktname) :=
  inferInstanceAs (Decidable (Short sktname ∧ 64 ∉ sktname))

/-- The machine gets to the PortMaster by that host name, and is let in. -/
def Reaches (net : Net) (fw : Firewall) (m : Machine) (hostname : List Byte) : Prop :=
  net.home (m.host hostname) ∧ firewall fw (net.peer m) = false

/-- What a call needs. The name `$####` of a port is not the name of a server
for "c", and no server has the empty name. -/
def Call.Proper (net : Net) (fw : Firewall) : Call → Prop
  | .server m sktname _ =>
    ServerName sktname ∧ sktname ≠ [] ∧ (∀ host ∈ m.sharehost, Short host ∧ host ≠ []) ∧
      Reaches net fw m (m.pmshare.getD m.hostname)
  | .client m sktname host =>
    ServerName sktname ∧ (∀ h ∈ host, 0 ∉ h) ∧
      (skthostText sktname host).length < bufsize ∧
      sslportOf (withNul (skthostText sktname host)) [99] = 0 ∧
      (Reaches net fw m (host.getD m.hostname) ∨ ∃ h, m.pmshare = some h ∧ Reaches net fw m h)
  | .remove m sktname => ServerName sktname ∧ Reaches net fw m (m.pmshare.getD m.hostname)
  | .close _ => True

/-- The earlier call whose Socket a call closes. -/
def Call.closes : Call → Option Nat
  | .close n => some n
  | _ => none

/-- Calls that mean something. A Socket is closed once, for `Sclose` frees it. -/
structure Proper (net : Net) (fw : Firewall) (calls : List Call) : Prop where
  each : ∀ c ∈ calls, c.Proper net fw
  once : (calls.filterMap Call.closes).Nodup

/-- An entry as the library makes it: it has a name, and `Sgets` has room for
its share host. -/
def PortTable.Fine (p : PortTable) : Prop :=
  p.sktname ≠ [] ∧ ∀ host ∈ p.sharehost, Short host ∧ host ≠ []

/-- The registrations in the PortTable. -/
def Spm.Valid.registry {st : Spm} (h : st.Valid) : Registry where
  entries := st.ports.vals
  unique := by
    obtain ⟨ps, hps, nodup⟩ := h.ports
    rw [DList.vals_eq hps, List.map_map]
    exact nodup

/-- A PortMaster with these registrations, and nobody waiting. -/
structure Hosts (fw : Firewall) (r : Registry) (st : Spm) : Prop where
  valid : st.Valid
  nobody : st.waits.hd = none
  fw : st.fw = fw
  ports : st.ports.vals = r.entries
  fine : ∀ p ∈ r.entries, p.Fine

theorem start_hosts (fw : Firewall) : Hosts fw .empty (.start fw) :=
  ⟨start_valid fw, rfl, rfl, rfl, by simp [Registry.empty]⟩

section
variable {net : Net} {fw : Firewall} {m : Machine} {r : Registry} {st : Spm}

theorem Hosts.leaves {r' : Registry} (h : Hosts fw r st) {res : Exit × Spm} (valid : res.2.Valid)
    (leaves : Leaves st r'.entries res)
    (fine : ∀ p ∈ r'.entries, p.Fine) : Hosts fw r' res.2 :=
  ⟨valid, by rw [leaves.waits, h.nobody], by rw [leaves.fw, h.fw], leaves.ports, fine⟩

theorem Hosts.without (h : Hosts fw r st) (test : PortTable → Bool) {res : Exit × Spm}
    (valid : res.2.Valid) (leaves : Leaves st (r.entries.eraseP test) res) :
    Hosts fw (r.without test) res.2 :=
  h.leaves valid leaves fun p hp => h.fine p (List.mem_of_mem_eraseP hp)

/-- A connection that is known to end well. -/
theorem ends_dial {α β : Type} {host : List Byte} {talk : Proc β} {k : Option β → Script α}
    {Q : α → Spm → Prop} {P : β → Exit × Spm → Prop} (home : net.home host) (hv : st.Valid)
    (runs : ∀ a : Around, Pipe.Ends (fun b res lib pm => Orderly lib pm ∧ P b res)
      (.start talk (session a (net.peer m) st)))
    (next : ∀ b res, res.2.Valid → P b res → res.1 = .next ∧ (k (some b)).Ends net m res.2 Q) :
    (Script.dial host talk k).Ends net m st Q := by
  unfold Script.Ends
  rw [if_pos home]
  intro a
  apply ((runs a).all_right (session_keeps a (net.peer m) hv)).mono
  rintro b res lib pm ⟨⟨valid, -⟩, orderly, post⟩
  obtain ⟨exit, goes⟩ := next b res valid post
  exact ⟨orderly, by rw [exit]; decide, goes⟩

/-- `Sopen_server`, once. -/
theorem ends_sopenServer (h : Hosts fw r st) (spins sslport : Nat) {sktname : List Byte}
    (hname : Short sktname) (some' : sktname ≠ [])
    (hhost : ∀ host ∈ m.sharehost, Short host ∧ host ≠ [])
    (reach : Reaches net fw m (m.pmshare.getD m.hostname)) :
    (sopenServer spins m sslport sktname).Ends net m st fun skt st' =>
      (∃ port, r.find sktname = none ∧ skt = some (m.server sktname port) ∧
        Hosts fw (r.register (m.entry sktname port)) st') ∨
      r.find sktname ≠ none ∧ skt = none ∧ Hosts fw r st' := by
  intro port _
  dsimp only
  rw [if_neg some']
  have pass : firewall st.fw (net.peer m) = false := h.fw ▸ reach.2
  apply ends_dial reach.1 h.valid
    fun a =>
      ends_register spins a pass h.valid h.nobody m hname (fun host hh => (hhost host hh).1) port
  rintro made res valid ⟨free, leaves⟩
  refine ⟨leaves.exit, ?_⟩
  rw [h.ports] at free leaves
  cases made with
  | true =>
    have free : r.find sktname = none := free.1 rfl
    have entries : (r.register (m.entry sktname port)).entries =
        r.entries ++ [m.entry sktname port] := by
      change (r.remove sktname).entries ++ _ = _
      rw [Registry.remove_free free]
    refine .inl ⟨port, free, rfl, h.leaves valid (entries ▸ leaves) ?_⟩
    rw [entries]
    intro p hp
    rcases List.mem_append.1 hp with old | new
    · exact h.fine p old
    · rw [List.mem_singleton.1 new]
      exact ⟨some', hhost⟩
  | false =>
    have taken : r.find sktname ≠ none := fun free' => absurd (free.2 free') (by decide)
    exact .inr ⟨taken, rfl, h.leaves valid leaves h.fine⟩

theorem strchrAt_name {sktname : List Byte} (h : ServerName sktname) :
    strchrAt (withNul sktname) = none := by
  rw [strchrAt, cstr_withNul h.1.1, if_neg h.2]

theorem cutAt_name {sktname : List Byte} (h : ServerName sktname) :
    cutAt (withNul sktname) = withNul sktname := by
  rw [cutAt, strchrAt_name h]

theorem ends_srmsrvr (h : Hosts fw r st) (spins : Nat) {sktname : List Byte}
    (hname : ServerName sktname) (reach : Reaches net fw m (m.pmshare.getD m.hostname)) :
    (srmsrvr spins m (withNul sktname)).Ends net m st fun res st' =>
      res = (if (r.find sktname).isSome then PM.ok else PM.sorryReply, withNul sktname) ∧
        Hosts fw (r.remove sktname) st' := by
  unfold srmsrvr
  rw [strchrAt_name hname, cstr_withNul hname.1.1]
  have pass : firewall st.fw (net.peer m) = false := h.fw ▸ reach.2
  apply ends_dial reach.1 h.valid fun a => ends_remove spins a pass h.valid hname.1
  rintro _ res valid ⟨rfl, leaves⟩
  rw [h.ports] at leaves ⊢
  exact ⟨leaves.exit, rfl, h.without _ valid leaves⟩

/-- What "c" comes to when the PortMaster has been asked. -/
theorem ends_sopenClientLast (h : Hosts fw r st) (hostname sktname : List Byte)
    {Q : Option Socket → Spm → Prop}
    (post : Q ((r.find sktname).map fun p =>
      ⟨PM.client, m.host (p.sharehost.getD hostname), sktname, p.port⟩) st) :
    (sopenClientLast m hostname sktname ((r.find sktname).map PortTable.told)).Ends net m st Q := by
  cases found : r.find sktname with
  | none =>
    rw [found] at post
    exact post
  | some p =>
    rw [found] at post
    have mem : p ∈ r.entries := List.mem_of_find?_eq_some found
    obtain ⟨name, sharehost, port⟩ := p
    cases sharehost with
    | none => exact post
    | some host =>
      have some' : host ≠ [] := ((h.fine _ mem).2 host rfl).2
      change (sopenClientport m (if host = [] then hostname else host) sktname port).Ends net m st Q
      rw [if_neg some']
      exact post

theorem ends_sopenClient (h : Hosts fw r st) (f : Frame) {hostname sktname : List Byte}
    (hname : Short sktname)
    (reach : Reaches net fw m hostname ∨ ∃ host, m.pmshare = some host ∧ Reaches net fw m host) :
    (sopenClient f m 0 hostname sktname false).Ends net m st fun skt st' =>
      skt = (r.find sktname).map (fun p =>
        ⟨PM.client, m.host (p.sharehost.getD hostname), sktname, p.port⟩) ∧ Hosts fw r st' := by
  have short : ∀ e ∈ entryFor st.ports.vals sktname, ∀ host ∈ e.sharehost, Short host := by
    rw [h.ports]
    intro e he host hh
    exact ((h.fine e (List.mem_of_find?_eq_some he)).2 host hh).1
  -- the talk with the PortMaster, by whichever host name it has been reached
  have talk {k : Option (Option (List Byte × SktEvent)) → Script (Option Socket)}
      (hk : ∀ r, k (some r) = sopenClientLast m hostname sktname r) {host : List Byte}
      (reach : Reaches net fw m host) :
      (Script.dial (m.host host) (sopenClientTalk f sktname false) k).Ends net m st fun skt st' =>
        skt = (r.find sktname).map (fun p =>
          ⟨PM.client, m.host (p.sharehost.getD hostname), sktname, p.port⟩) ∧ Hosts fw r st' := by
    have pass : firewall st.fw (net.peer m) = false := h.fw ▸ reach.2
    apply ends_dial reach.1 h.valid fun a => ends_find f a pass h.valid hname short
    rintro _ res valid ⟨rfl, leaves⟩
    rw [h.ports] at leaves ⊢
    have hosts := h.leaves valid leaves h.fine
    refine ⟨leaves.exit, ?_⟩
    rw [hk]
    exact ends_sopenClientLast hosts hostname sktname ⟨rfl, hosts⟩
  unfold sopenClient
  rw [if_pos rfl]
  by_cases home : net.home (m.host hostname)
  · rcases reach with reach | ⟨host, -, reach⟩
    · exact talk (fun _ => rfl) reach
    · exact talk (fun _ => rfl) ⟨home, reach.2⟩
  · obtain ⟨pmshare, share, reach⟩ := reach.resolve_left fun reach => home reach.1
    unfold Script.Ends
    rw [if_neg home]
    dsimp only
    rw [share]
    exact talk (fun _ => rfl) reach

/-! ## Sopen by its mode -/

theorem sopen_server (f : Frame) (m : Machine) {sktname : List Byte} (hname : ServerName sktname)
    (some' : sktname ≠ []) : sopen f m (withNul sktname) [115] =
      (sopenServer f.spins m (sslportOf (withNul sktname) [115]) sktname).bind fun skt =>
        .ret (skt, withNul sktname) := by
  have something : ¬ (sktname = [] ∧ sslportOf (withNul sktname) [115] = 0) := fun h => some' h.1
  have mode : (cstr [115]).headD 0 = 115 := by decide
  unfold sopen
  dsimp only
  rw [mode, cutAt_name hname, cstr_withNul hname.1.1]
  exact if_neg something

theorem sopen_serverAgain (f : Frame) (m : Machine) {sktname : List Byte}
    (hname : ServerName sktname) (some' : sktname ≠ []) : sopen f m (withNul sktname) [83] =
      (sopenServer f.spins m (sslportOf (withNul sktname) [83]) sktname).bind fun
        | some skt => .ret (some skt, withNul sktname)
        | none => (srmsrvr f.spins m (withNul sktname)).bind fun res =>
          (sopenServer f.spins m (sslportOf (withNul sktname) [83]) (cstr (cutAt res.2))).bind
            fun skt => .ret (skt, cutAt res.2) := by
  have something : ¬ (sktname = [] ∧ sslportOf (withNul sktname) [83] = 0) := fun h => some' h.1
  have mode : (cstr [83]).headD 0 = 83 := by decide
  unfold sopen
  dsimp only
  rw [mode, cutAt_name hname, cstr_withNul hname.1.1]
  exact if_neg something

theorem skthostText_noNul {sktname : List Byte} {host : Option (List Byte)}
    (hname : ServerName sktname) (hhost : ∀ h ∈ host, 0 ∉ h) : 0 ∉ skthostText sktname host := by
  unfold skthostText
  cases host with
  | none => simpa using hname.1.1
  | some h => simpa using ⟨hname.1.1, hhost h rfl⟩

theorem splitHost_text (m : Machine) {sktname : List Byte} {host : Option (List Byte)}
    (hname : ServerName sktname) (hhost : ∀ h ∈ host, 0 ∉ h) :
    splitHost m (withNul (skthostText sktname host)) = (sktname, host.getD m.hostname) := by
  rw [splitHost, strchrAt, cstr_withNul (skthostText_noNul hname hhost)]
  cases host with
  | none =>
    have text : skthostText sktname none = sktname := List.append_nil sktname
    rw [text, if_neg hname.2]
    rfl
  | some h =>
    have text : skthostText sktname (some h) = sktname ++ 64 :: h := rfl
    have index : (sktname ++ 64 :: h).idxOf 64 = sktname.length := by
      rw [List.idxOf_append_of_notMem hname.2, List.idxOf_cons_self, Nat.add_zero]
    rw [text, if_pos (by simp), index]
    dsimp only
    rw [List.take_left, ← List.drop_drop, List.drop_left]
    rfl

theorem sopen_client (f : Frame) (m : Machine) {sktname : List Byte} {host : Option (List Byte)}
    (hname : ServerName sktname) (hhost : ∀ h ∈ host, 0 ∉ h)
    (noPort : sslportOf (withNul (skthostText sktname host)) [99] = 0) :
    sopen f m (withNul (skthostText sktname host)) [99] =
      if skthostText sktname host = [] then .ret (none, withNul (skthostText sktname host))
      else (sopenClient f m 0 (host.getD m.hostname) sktname false).bind fun skt =>
        .ret (skt, withNul (skthostText sktname host)) := by
  have mode : (cstr [99]).headD 0 = 99 := by decide
  unfold sopen
  dsimp only
  rw [mode, cstr_withNul (skthostText_noNul hname hhost), splitHost_text m hname hhost, noPort]
  by_cases nothing : skthostText sktname host = []
  · rw [if_pos nothing]
    exact if_pos ⟨nothing, rfl⟩
  · rw [if_neg nothing]
    exact if_neg fun both => nothing both.1

/-! ## Calls mean what they should -/

/-- What is known of an answer: a server Socket is registered at the PortMaster. -/
def Answer.Sound (net : Net) (fw : Firewall) : Answer → Prop
  | .server m (some skt) =>
    skt.type = PM.server ∧ skt.sktname ≠ [] ∧ Reaches net fw m skt.hostname
  | _ => True

/-- What is to be shown of the end of a call. -/
def Meant (net : Net) (fw : Firewall) (before : List Answer) (r : Registry) (c : Call) (a : Answer)
    (st : Spm) : Prop :=
  ∃ r', Registry.Step before r c a r' ∧ Hosts fw r' st ∧ a.Sound net fw

theorem server_means (h : Hosts fw r st) (before : List Answer) {sktname : List Byte} {again : Bool}
    (proper : (Call.server m sktname again).Proper net fw) :
    (Call.server m sktname again).Ends net before st
      (Meant net fw before r (.server m sktname again)) := by
  intro f
  obtain ⟨hname, some', hhost, reach⟩ := proper
  cases again with
  | false =>
    dsimp only
    rw [if_neg (by decide), sopen_server f m hname some', Script.ends_bind]
    apply (ends_sopenServer h f.spins _ hname.1 some' hhost reach).mono
    rintro skt st' (⟨port, free, rfl, hosts⟩ | ⟨taken, rfl, hosts⟩)
    · exact ⟨_, .served r m sktname false port (.inl free), hosts, rfl, some', reach⟩
    · exact ⟨r, .refused r m sktname taken, hosts, trivial⟩
  | true =>
    dsimp only
    rw [if_pos rfl, sopen_serverAgain f m hname some', Script.ends_bind]
    apply (ends_sopenServer h f.spins _ hname.1 some' hhost reach).mono
    rintro skt st' (⟨port, free, rfl, hosts⟩ | ⟨taken, rfl, hosts⟩)
    · exact ⟨_, .served r m sktname true port (.inl free), hosts, rfl, some', reach⟩
    · -- the older entry is removed, and the second attempt finds the name free
      rw [Script.ends_bind]
      apply (ends_srmsrvr hosts f.spins hname reach).mono
      rintro _ st₁ ⟨rfl, removed⟩
      rw [cutAt_name hname, cstr_withNul hname.1.1, Script.ends_bind]
      apply (ends_sopenServer removed f.spins _ hname.1 some' hhost reach).mono
      rintro skt st₂ (⟨port, -, rfl, hosts'⟩ | ⟨taken', -, -⟩)
      · have same := r.register_remove (m.entry sktname port)
        exact ⟨_, .served r m sktname true port (.inr rfl), same ▸ hosts', rfl, some', reach⟩
      · exact absurd (r.find_remove sktname) taken'

theorem client_means (h : Hosts fw r st) (before : List Answer) {sktname : List Byte}
    {host : Option (List Byte)} (proper : (Call.client m sktname host).Proper net fw) :
    (Call.client m sktname host).Ends net before st
      (Meant net fw before r (.client m sktname host)) := by
  intro f
  obtain ⟨hname, hhost, -, noPort, reach⟩ := proper
  dsimp only
  rw [sopen_client f m hname hhost noPort]
  by_cases nothing : skthostText sktname host = []
  · rw [if_pos nothing]
    have empty : sktname = [] := (List.append_eq_nil_iff.1 nothing).1
    have free : r.find sktname = none :=
      Registry.find_none.2 fun p hp name => (h.fine p hp).1 (name.trans empty)
    have step := @Registry.Step.client before r m sktname host
    rw [free] at step
    exact ⟨r, step, h, trivial⟩
  · rw [if_neg nothing, Script.ends_bind]
    apply (ends_sopenClient h f hname.1 reach).mono
    rintro _ st' ⟨rfl, hosts⟩
    exact ⟨r, .client r m sktname host, hosts, trivial⟩

theorem close_means (h : Hosts fw r st) {before : List Answer}
    (sound : ∀ a ∈ before, a.Sound net fw) (n : Nat) :
    (Call.close n).Ends net before st (Meant net fw before r (.close n)) := by
  intro f
  dsimp only
  split
  · rename_i m skt opened
    cases skt with
    | none =>
      have null : ∀ m' skt, before[n]? ≠ some (.server m' (some skt)) := by
        rw [opened]
        simp
      exact ⟨r, .closeNull r n null, h, trivial⟩
    | some skt =>
      obtain ⟨type, some', reach⟩ := sound _ (List.mem_of_getElem? opened)
      have pass : firewall st.fw (net.peer m) = false := h.fw ▸ reach.2
      unfold sclose
      dsimp only
      rw [if_pos ⟨type, some'⟩]
      apply ends_dial reach.1 h.valid fun a => ends_closePort f.spins a pass h.valid skt.port
      intro _ res valid leaves
      rw [h.ports] at leaves
      exact ⟨leaves.exit, _, .close r n m skt opened, h.without _ valid leaves, trivial⟩
  · rename_i other
    have null : ∀ m' skt, before[n]? ≠ some (.server m' (some skt)) := fun m' skt => other m' _
    exact ⟨r, .closeNull r n null, h, trivial⟩

/-- **One call does what it means.** -/
theorem call_means (h : Hosts fw r st) {before : List Answer}
    (sound : ∀ a ∈ before, a.Sound net fw) {c : Call} (proper : c.Proper net fw) :
    c.Ends net before st (Meant net fw before r c) := by
  cases c with
  | server m sktname again => exact server_means h before proper
  | client m sktname host => exact client_means h before proper
  | remove m sktname =>
    intro f
    apply (ends_srmsrvr h f.spins proper.1 proper.2).mono
    rintro _ st' ⟨rfl, hosts⟩
    exact ⟨_, .remove r m sktname, hosts, trivial⟩
  | close n => exact close_means h sound n

/-- Any calls one after the other. -/
theorem sessions_mean {calls : List Call} (proper : ∀ c ∈ calls, c.Proper net fw) :
    ∀ {r : Registry} {st : Spm} {before : List Answer}, Hosts fw r st →
      (∀ a ∈ before, a.Sound net fw) → Sessions net calls before st fun answers st' =>
        ∃ r', Registry.Run before r calls answers r' ∧ Hosts fw r' st' := by
  induction calls with
  | nil => exact fun {r st before} h _ => ⟨r, .nil before r, h⟩
  | cons c calls ih =>
    intro r st before h sound
    rw [List.forall_mem_cons] at proper
    apply (call_means h sound proper.1).mono
    rintro a st' ⟨r', step, hosts, sound'⟩
    have known : ∀ a' ∈ before ++ [a], a'.Sound net fw := by
      intro a' ha
      rcases List.mem_append.1 ha with old | new
      · exact sound a' old
      · rw [List.mem_singleton.1 new]
        exact sound'
    apply (ih proper.2 hosts known).mono
    rintro answers st'' ⟨r'', run, hosts'⟩
    exact ⟨r'', .cons step run, hosts'⟩

end

/-- **The registry agrees with its library.** Whatever calls follow each other
against a new PortMaster, every run of every call ends, its answer is the one
that the list of registrations gives, and the PortTable is that list. -/
theorem registry_agreement (net : Net) (fw : Firewall) (calls : List Call)
    (proper : Proper net fw calls) : Sessions net calls [] (.start fw) fun answers st =>
      ∃ r, Registry.Run [] .empty calls answers r ∧ st.ports.vals = r.entries := by
  apply (sessions_mean proper.each (start_hosts fw) (by simp)).mono
  rintro answers st ⟨r, run, hosts⟩
  exact ⟨r, run, hosts.ports⟩

/-- One host, where the PortMaster is. -/
def oneHost : Machine := ⟨[104], none⟩

/-- A network in which every host name is that of the PortMaster's host. -/
def everywhere : Net := ⟨fun _ => true, fun _ => none⟩

/-- A server is opened, found, opened again, removed and closed. -/
def someCalls : List Call :=
  [.server oneHost [97] false, .client oneHost [97] none, .server oneHost [97] true,
    .remove oneHost [97], .close 2]

theorem registry_agreement_someCalls :
    Sessions everywhere someCalls [] newPortMaster fun answers st =>
      ∃ r, Registry.Run [] .empty someCalls answers r ∧ st.ports.vals = r.entries := by
  have name : ServerName [97] := by decide
  have reach : Reaches everywhere newPortMaster.fw oneHost [104] := ⟨rfl, rfl⟩
  have noHost : ∀ host ∈ oneHost.sharehost, Short host ∧ host ≠ [] := fun _ hh => nomatch hh
  refine registry_agreement everywhere newPortMaster.fw someCalls ⟨?_, by decide⟩
  unfold someCalls
  simp only [List.forall_mem_cons]
  refine ⟨⟨name, by decide, noHost, reach⟩, ⟨name, by simp, by decide, by decide, .inl reach⟩,
    ⟨name, by decide, noHost, reach⟩, ⟨name, reach⟩, trivial, by simp⟩

/-- Nobody has registered `$5`, but a client of that name is connected: to the
port 5, without asking. -/
theorem dollarPort_connects :
    ¬ Sessions everywhere [.client oneHost [36, 53] none] [] newPortMaster fun answers st =>
      ∃ r, Registry.Run [] .empty [.client oneHost [36, 53] none] answers r ∧
        st.ports.vals = r.entries := by
  intro agrees
  have absent (a r) (step : Registry.Step [] .empty (.client oneHost [36, 53] none) a r) :
      a = .client none := by
    cases step
    rfl
  obtain ⟨r, run, -⟩ := agrees ⟨List.replicate bufsize 0, rfl, 0⟩
  cases run with
  | cons step more =>
    have answer := absent _ _ step
    cases answer

end UnixProgramming.Ssl
