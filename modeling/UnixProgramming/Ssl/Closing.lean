import UnixProgramming.Ssl.Registry

/-!
# Whose entry Sclose takes

An entry is made for a name and taken out by a port, and a port says nothing
about the host it belongs to.

* `closes_own_iff`: exactly when `Sclose` takes out the server's own entry.
-/

namespace UnixProgramming.Ssl

open Pipe

section
variable {net : Net} {m : Machine} {st : Spm}

/-- The Socket of the server that an entry is for. -/
def PortTable.server (p : PortTable) (hostname : List Byte) : Socket :=
  ⟨PM.server, hostname, p.sktname, p.port⟩

/-- The PortTable after `Sclose`, for a server with a name. -/
theorem ends_sclose (hv : st.Valid) (spins : Nat) {p : PortTable} {hostname : List Byte}
    (reach : Reaches net st.fw m hostname) (some' : p.sktname ≠ []) :
    (sclose spins m (some (p.server hostname))).Ends net m st fun _ st' =>
      st'.ports.vals = (hv.registry.close p.port).entries := by
  unfold sclose
  dsimp only
  rw [if_pos ⟨rfl, some'⟩]
  apply ends_dial reach.1 hv fun a => ends_closePort spins a reach.2 hv p.port
  intro _ res _ leaves
  exact ⟨leaves.exit, leaves.ports⟩

/-- The entry of the server is taken out, and nothing else. -/
theorem sclose_iff (hv : st.Valid) (spins : Nat) {l l' : List PortTable} {p : PortTable}
    (place : st.ports.vals = l ++ p :: l') {hostname : List Byte}
    (reach : Reaches net st.fw m hostname) :
    ((sclose spins m (some (p.server hostname))).Ends net m st fun _ st' =>
        st'.ports.vals = l ++ l') ↔
      p.sktname ≠ [] ∧ ∀ e ∈ l, e.port ≠ p.port := by
  by_cases some' : p.sktname = []
  · have silent : sclose spins m (some (p.server hostname)) = .ret () := by
      unfold sclose
      exact if_neg fun named => named.2 some'
    rw [silent]
    change st.ports.vals = l ++ l' ↔ _
    rw [place]
    constructor
    · intro same
      have := congrArg List.length same
      simp only [List.length_append, List.length_cons] at this
      omega
    · exact fun own => absurd some' own.1
  · have iff := Registry.close_own_iff (r := hv.registry) place
    rw [and_iff_right some', ← iff]
    have ends := ends_sclose hv spins reach some'
    constructor
    · intro own
      obtain ⟨_, st', is, gone⟩ := ends.both own
      rw [← is, gone]
    · intro own
      apply ends.mono
      intro _ st' is
      rw [is, own]

end

/-- The server `a` of the host `b`. -/
def entryA : PortTable := ⟨[97], some [98], 5⟩

/-- The server `c` of the host `d`, by chance with the same port. -/
def entryC : PortTable := ⟨[99], some [100], 5⟩

/-- A `PM_SHARE` session of a server. -/
def shares (p : PortTable) : Visit :=
  ⟨nothingAround, none, ⟨htons PM.share ++ p.fields ++ htons PM.ok, .closed, []⟩⟩

/-- A PortMaster that two hosts share. -/
def sharedPortMaster : Spm :=
  (((shares entryA).leaves newPortMaster).bind (shares entryC).leaves).getD newPortMaster

theorem sharedPortMaster_reachable : Reachable sharedPortMaster := by
  have on : ((shares entryA).leaves newPortMaster).isSome := by decide +kernel
  obtain ⟨st, leaves⟩ := Option.isSome_iff_exists.1 on
  have on' : (((shares entryA).leaves newPortMaster).bind (shares entryC).leaves).isSome := by
    decide +kernel
  obtain ⟨st', leaves'⟩ := Option.isSome_iff_exists.1 on'
  have same : sharedPortMaster = st' := by rw [sharedPortMaster, leaves', Option.getD_some]
  rw [leaves, Option.bind_some] at leaves'
  rw [same]
  exact (newPortMaster_reachable.leaves _ leaves).leaves _ leaves'

theorem sharedPortMaster_table : sharedPortMaster.ports.vals = [entryA] ++ entryC :: [] := by
  decide +kernel

end UnixProgramming.Ssl
