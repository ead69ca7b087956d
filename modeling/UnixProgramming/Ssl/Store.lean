import UnixProgramming.Ssl.Wakeup

/-!
# The PortMaster's two lists

Whatever clients send and wherever they stop, the PortTable and the list of
waiting clients stay well formed, and no two entries have the same name.
-/

namespace UnixProgramming.Ssl

open Pipe Heap

/-- What holds between two clients, and inside a session up to the buffers. -/
structure Spm.Valid (st : Spm) : Prop where
  ports : ∃ ps, st.ports.Is ps ∧ (ps.map fun p => p.2.sktname).Nodup
  waits : ∃ ws, st.waits.Is ws
  sktname : Terminated st.sktname
  sharehost : Terminated st.sharehost

theorem start_valid (fw : Firewall) : (Spm.start fw).Valid where
  ports := ⟨[], DList.empty_is, by simp⟩
  waits := ⟨[], DList.empty_is⟩
  sktname := terminated_blank
  sharehost := terminated_blank

theorem Spm.Valid.setSktname {st : Spm} (h : st.Valid) {buf : List Byte} (hb : Terminated buf) :
    (st.setSktname buf).Valid := ⟨h.ports, h.waits, hb, h.sharehost⟩

theorem Spm.Valid.setSharehost {st : Spm} (h : st.Valid) {buf : List Byte} (hb : Terminated buf) :
    (st.setSharehost buf).Valid := ⟨h.ports, h.waits, h.sktname, hb⟩

/-! ## What a lookup finds -/

theorem Spm.lookup_eq {st : Spm} {ps : List (Nat × PortTable)} (h : st.ports.Is ps)
    (name : List Byte) : st.lookup name = ps.find? fun p => p.2.sktname = name := by
  rw [Spm.lookup, DList.find_eq, DList.toList_eq h]

theorem Spm.lookup_none {st : Spm} {ps : List (Nat × PortTable)} (h : st.ports.Is ps)
    {name : List Byte} : st.lookup name = none ↔ ∀ p ∈ ps, p.2.sktname ≠ name := by
  rw [Spm.lookup_eq h, List.find?_eq_none]
  simp

/-- The entry for a name in the list of all entries. -/
def entryFor (table : List PortTable) (name : List Byte) : Option PortTable :=
  table.find? fun p => p.sktname = name

theorem lookup_entryFor {st : Spm} (hv : st.Valid) (name : List Byte) :
    (st.lookup name).map Prod.snd = entryFor st.ports.vals name := by
  obtain ⟨ps, hps, -⟩ := hv.ports
  rw [Spm.lookup_eq hps, entryFor, DList.vals_eq hps, List.find?_map]
  rfl

theorem lookup_isSome {st : Spm} (hv : st.Valid) (name : List Byte) :
    (st.lookup name).isSome = (entryFor st.ports.vals name).isSome := by
  rw [← lookup_entryFor hv, Option.isSome_map]

/-- Unlinking the entry that a search has found. -/
theorem delPortTable_vals {st : Spm} (h : st.Valid) {test : PortTable → Bool} {p : Nat × PortTable}
    (found : st.ports.find test = some p) :
    (delPortTable p.1 st).ports.vals = st.ports.vals.eraseP test := by
  obtain ⟨ps, hps, -⟩ := h.ports
  exact DList.unlink_vals hps found

theorem delPortTable_valid {st : Spm} (h : st.Valid) {ps : List (Nat × PortTable)}
    (hps : st.ports.Is ps) {p : Nat × PortTable} (hp : p ∈ ps) : (delPortTable p.1 st).Valid := by
  obtain ⟨l, r, rfl⟩ := List.append_of_mem hp
  obtain ⟨ps', hps', nodup⟩ := h.ports
  obtain rfl : ps' = l ++ p :: r := by rw [← DList.toList_eq hps', DList.toList_eq hps]
  refine ⟨⟨l ++ r, DList.unlink_is hps, ?_⟩, h.waits, h.sktname, h.sharehost⟩
  exact nodup.sublist ((List.sublist_cons_self p r).append_left l |>.map _)

theorem find_valid {st : Spm} (h : st.Valid) {test : PortTable → Bool} {p : Nat × PortTable}
    (found : st.ports.find test = some p) : (delPortTable p.1 st).Valid := by
  obtain ⟨ps, hps, -⟩ := h.ports
  rw [DList.find_eq, DList.toList_eq hps] at found
  exact delPortTable_valid h hps (List.mem_of_find?_eq_some found)

theorem Woken.valid {p : PortTable} {st st' : Spm} {mine others : List (Nat × ClientWaiting)}
    (h : Woken p st st' mine others) (hv : st.Valid) : st'.Valid := by
  refine ⟨?_, ⟨others, h.waits⟩, ?_, ?_⟩
  · rw [h.ports]; exact hv.ports
  · rw [h.sktname]; exact hv.sktname
  · rw [h.sharehost]; exact hv.sharehost

/-- An entry for a name that no other one has. -/
theorem Spm.Valid.register {st : Spm} (h : st.Valid) {p : PortTable}
    (free : st.lookup p.sktname = none) : { st with ports := st.ports.append p }.Valid := by
  obtain ⟨ps, hps, nodup⟩ := h.ports
  rw [Spm.lookup_none hps] at free
  refine ⟨⟨_, DList.append_is hps _, ?_⟩, h.waits, h.sktname, h.sharehost⟩
  rw [List.map_append, List.nodup_append]
  refine ⟨nodup, by simp, ?_⟩
  rintro a ha b hb rfl
  obtain ⟨x, hx, rfl⟩ := List.mem_map.1 ha
  exact free x hx (by simpa using hb)

/-! ## Handlers -/

/-- What every handler but `pm_fwinit` keeps. -/
structure Keeps (fw : Firewall) (r : Exit × Spm) : Prop where
  valid : r.2.Valid
  same : r.2.fw = fw

/-- What becomes of the PortTable in a turn of the accept loop. -/
inductive TableStep (table : List PortTable) : List PortTable → Prop where
  | same : TableStep table table
  /-- `makePortTable` -/
  | made (name : List Byte) (host : Option (List Byte)) (port : SktEvent) :
      TableStep table (table ++ [⟨cstr name, host.map cstr, port⟩])
  /-- `delPortTable` of the first entry that the test finds -/
  | taken (test : PortTable → Bool) : TableStep table (table.eraseP test)

/-- What a request makes of the PortMaster. -/
structure Handled (fw : Firewall) (table : List PortTable) (r : Exit × Spm) : Prop
    extends Keeps fw r where
  table : TableStep table r.2.ports.vals

theorem Spm.Valid.handled {st : Spm} (h : st.Valid) (exit : Exit) :
    Handled st.fw st.ports.vals (exit, st) :=
  ⟨⟨h, rfl⟩, .same⟩

theorem wakeupAll_woken {p : PortTable} {spins : Nat} {st st' : Spm} (hv : st.Valid)
    (run : wakeupAll spins p st = some st') : ∃ mine others, Woken p st st' mine others := by
  obtain ⟨ws, hws⟩ := hv.waits
  have enough := hws.length_le
  rcases wakeup_cases p hws with ⟨-, runs⟩ | ⟨-, skips⟩ | ⟨-, -, never⟩
  · obtain ⟨st'', run', woken⟩ := runs (st.waits.brk + 1 + spins) (by omega)
    rw [wakeupAll, run'] at run
    cases run
    exact ⟨ws, [], woken⟩
  · rw [wakeupAll, skips _ (by omega)] at run
    cases run
    exact ⟨[], ws, Woken.refl hws⟩
  · rw [wakeupAll, never] at run
    cases run

section
variable {st : Spm} {T : Exit × Spm → Prop}

theorem orTimedout_all (h : T (.timedout, st)) {k : Proc (Exit × Spm)} (hk : k.All T) :
    (orTimedout st k).All T := by
  apply Proc.All.after
  intro n
  split
  · exact h
  · exact hk

theorem swriteAll_all {k : Unit → Proc (Exit × Spm)} (bufs : List (List Byte))
    (hk : (k ()).All T) : (swriteAll bufs >>= k).All T := by
  induction bufs with
  | nil => exact hk
  | cons buf bufs ih => exact ih

variable (h : st.Valid)
include h

theorem pmServerMesg_handled (spins : Nat) (p : PortTable) :
    (pmServerMesg spins p st).All fun r => Keeps st.fw r ∧ r.2.ports = st.ports := by
  have kept (exit : Exit) : Keeps st.fw (exit, st) ∧ st.ports = st.ports := ⟨⟨h, rfl⟩, rfl⟩
  apply orTimedout_all (kept _)
  apply Proc.All.after
  intro mesg
  dsimp only
  split
  · exact kept _
  · split
    · rename_i run
      obtain ⟨mine, others, woken⟩ := wakeupAll_woken h run
      exact ⟨⟨woken.valid h, woken.fw⟩, woken.ports⟩
    · trivial

theorem pmServerPort_handled (spins : Nat) (event : SktEvent)
    (free : st.lookup (cstr st.sktname) = none) :
    (pmServerPort spins event st).All (Handled st.fw st.ports.vals) := by
  apply orTimedout_all (h.handled _)
  apply Proc.All.after
  intro port
  -- the entry is made for the name that the lookup has not found
  refine (pmServerMesg_handled (h.register free) spins _).mono fun r ⟨keeps, ports⟩ => ?_
  obtain ⟨ps, hps, -⟩ := h.ports
  refine ⟨keeps, ?_⟩
  rw [ports, DList.append_vals hps]
  exact .made _ _ _

theorem pmServerName_handled (spins : Nat) (event : SktEvent) :
    (pmServerName spins event st).All (Handled st.fw st.ports.vals) := by
  apply orTimedout_all (h.handled _)
  refine (all_sgets spins h.sktname).bind fun r hr => ?_
  unfold pmServerLookup
  split
  · exact (h.setSktname hr).handled _
  · rename_i free
    exact pmServerPort_handled (h.setSktname hr) spins event (by simpa using free)

theorem pmServer_handled (spins : Nat) (event : SktEvent) :
    (pmServer spins event st).All (Handled st.fw st.ports.vals) := by
  unfold pmServer
  change Proc.All (Handled st.fw st.ports.vals) (if event = PM.share then _ else _)
  split
  · apply orTimedout_all (h.handled _)
    refine (all_sgets spins h.sharehost).bind fun r hr => ?_
    exact pmServerName_handled (h.setSharehost hr) spins event
  · exact pmServerName_handled (h.setSharehost h.sharehost.emptied) spins event

theorem pmClient_handled (spins client : Nat) (waiting : Bool) :
    (pmClient spins client waiting st).All (Handled st.fw st.ports.vals) := by
  apply orTimedout_all (h.handled _)
  refine (all_sgets spins h.sktname).bind fun r hr => ?_
  unfold pmClientLookup
  split
  · exact swriteAll_all _ ((h.setSktname hr).handled _)
  · split
    · obtain ⟨ws, hws⟩ := h.waits
      exact ⟨⟨⟨h.ports, ⟨_, DList.append_is hws _⟩, hr, h.sharehost⟩, rfl⟩, .same⟩
    · exact (h.setSktname hr).handled _

/-- The entry that the search has found is taken out. -/
theorem delPortTable_handled {test : PortTable → Bool} {p : Nat × PortTable}
    (found : st.ports.find test = some p) (exit : Exit) :
    Handled st.fw st.ports.vals (exit, delPortTable p.1 st) := by
  refine ⟨⟨find_valid h found, rfl⟩, ?_⟩
  rw [delPortTable_vals h found]
  exact .taken test

theorem pmClose_handled (spins : Nat) : (pmClose spins st).All (Handled st.fw st.ports.vals) := by
  apply orTimedout_all (h.handled _)
  apply Proc.All.after
  intro port
  dsimp only
  split
  · rename_i found
    exact delPortTable_handled h found _
  · exact h.handled _

theorem pmQuit_handled (spins : Nat) : (pmQuit spins st).All (Handled st.fw st.ports.vals) := by
  apply orTimedout_all (h.handled _)
  refine (all_sgets spins h.sktname).bind fun r hr => ?_
  unfold pmQuitLookup
  split
  · exact (h.setSktname hr).handled _
  · exact (h.setSktname hr).handled _

theorem pmTable_handled : (pmTable st).All (Handled st.fw st.ports.vals) :=
  swriteAll_all _ (h.handled _)

theorem pmRmserver_handled (spins : Nat) (locbuf : List Byte) :
    (pmRmserver spins locbuf st).All (Handled st.fw st.ports.vals) := by
  apply orTimedout_all (h.handled _)
  apply Proc.All.after
  intro r
  unfold pmRmserverLookup
  split
  · rename_i found
    exact delPortTable_handled h found _
  · exact h.handled _

/-- **One request**, whichever it is: it takes at most one entry or makes one,
and only `PM_FWINIT` has a hand in the firewall. -/
theorem handle_handled (a : Around) (client : Nat) (event : SktEvent) {p : Proc (Exit × Spm)}
    (hp : handle a client event st = some p) :
    p.All fun r => r.2.Valid ∧ TableStep st.ports.vals r.2.ports.vals ∧
      (event ≠ PM.fwinit → r.2.fw = st.fw) := by
  have plain (k : p.All (Handled st.fw st.ports.vals)) :
      p.All fun r => r.2.Valid ∧ TableStep st.ports.vals r.2.ports.vals ∧
        (event ≠ PM.fwinit → r.2.fw = st.fw) :=
    k.mono fun _ k => ⟨k.valid, k.table, fun _ => k.same⟩
  cases handle_cases hp with
  | server => exact plain (pmServer_handled h _ _)
  | clientwait =>
    apply plain
    refine (pmClient_handled h a.spins client true).bind ?_
    rintro r ⟨⟨h', same⟩, table⟩
    change Handled st.fw st.ports.vals (keepWaiting client r)
    unfold keepWaiting
    split
    · exact ⟨⟨⟨h'.ports, h'.waits, h'.sktname, h'.sharehost⟩, same⟩, table⟩
    · exact ⟨⟨h', same⟩, table⟩
  | client => exact plain (pmClient_handled h _ _ _)
  | close => exact plain (pmClose_handled h _)
  | quit => exact plain (pmQuit_handled h _)
  | table => exact plain (pmTable_handled h)
  | rmserver => exact plain (pmRmserver_handled h _ _)
  | fwinit =>
    exact ⟨⟨h.ports, h.waits, h.sktname, h.sharehost⟩, .same, fun other => absurd rfl other⟩

end

theorem eventLoop_keeps (a : Around) (client : Nat) :
    ∀ (left : Nat) {st : Spm}, st.Valid → (eventLoop a client left st).All fun r =>
      r.2.Valid ∧ TableStep st.ports.vals r.2.ports.vals := by
  intro left
  induction left with
  | zero => exact fun h => ⟨⟨h.ports, h.waits, h.sktname, h.sharehost⟩, .same⟩
  | succ left ih =>
    intro st h
    apply orTimedout_all ⟨h, .same⟩
    apply Proc.All.after
    intro event
    dsimp only
    split
    · rename_i hp
      exact (handle_handled h a client _ hp).mono fun _ k => ⟨k.1, k.2.1⟩
    · exact ih h

/-- **A turn of the accept loop keeps the lists**, however the client behaves,
and takes one step in the PortTable. -/
theorem session_keeps (a : Around) (peer : Option Peer) {st : Spm} (h : st.Valid) :
    (session a peer st).All fun r => r.2.Valid ∧ TableStep st.ports.vals r.2.ports.vals := by
  have hv : ({ st with client := some st.accepted, accepted := st.accepted + 1 } : Spm).Valid :=
    ⟨h.ports, h.waits, h.sktname, h.sharehost⟩
  unfold session
  dsimp only
  split
  · exact ⟨⟨h.ports, h.waits, h.sktname, h.sharehost⟩, .same⟩
  · refine (eventLoop_keeps a _ _ hv).bind ?_
    rintro ⟨exit, st'⟩ ⟨h', table⟩
    exact ⟨⟨h'.ports, h'.waits, h'.sktname, h'.sharehost⟩, table⟩

theorem reachable_valid {st : Spm} (h : Reachable st) : st.Valid := by
  induction h with
  | start => exact start_valid _
  | next v _ run _ ih => exact (exec_all (session_keeps v.around v.peer ih) run).1

/-- `nxt` and `prv` are inverse, the ends are the head and the tail or both
null, and no cell occurs twice. -/
def WellFormed {α : Type} (d : DList α) : Prop := ∃ as, d.Is as

/-- **The PortMaster's store.** In every state of the accept loop both lists
are well formed and no two entries of the PortTable have the same name. -/
theorem store_well_formed (st : Spm) (h : Reachable st) :
    WellFormed st.ports ∧ WellFormed st.waits ∧ (st.ports.vals.map PortTable.sktname).Nodup := by
  obtain ⟨⟨ps, hps, nodup⟩, waits, -, -⟩ := reachable_valid h
  refine ⟨⟨ps, hps⟩, waits, ?_⟩
  rw [DList.vals_eq hps, List.map_map]
  exact nodup

/-- A server registers. -/
def registers (name : List Byte) (port : SktEvent) : Visit :=
  ⟨nothingAround, none, ⟨htons PM.server ++ withNul name ++ htons port ++ htons PM.ok, .closed, []⟩⟩

/-- A client waits for a server. -/
def awaits (name : List Byte) : Visit :=
  ⟨nothingAround, none, ⟨htons PM.clientwait ++ withNul name, .silent, []⟩⟩

/-- The servers `a` and `c`, clients that wait for `b` and for `d`, a server that
falls silent in its port, and one that takes a name that there is. -/
def busyVisits : List Visit :=
  [registers [97] 5, awaits [98], registers [99] 6, awaits [100],
    ⟨nothingAround, none, ⟨htons PM.server ++ withNul [101], .silent, []⟩⟩, registers [97] 7]

def busyPortMaster : Spm := (newPortMaster.after busyVisits).getD newPortMaster

theorem busyPortMaster_reachable : Reachable busyPortMaster := by
  have on : (newPortMaster.after busyVisits).isSome := by decide +kernel
  obtain ⟨st, after⟩ := Option.isSome_iff_exists.1 on
  rw [busyPortMaster, after, Option.getD_some]
  exact newPortMaster_reachable.after after

theorem store_well_formed_busy :
    busyPortMaster.ports.vals = [⟨[97], none, 5⟩, ⟨[99], none, 6⟩] ∧
      busyPortMaster.waits.vals = [⟨1, [98]⟩, ⟨3, [100]⟩] ∧
      WellFormed busyPortMaster.ports ∧ WellFormed busyPortMaster.waits ∧
      (busyPortMaster.ports.vals.map PortTable.sktname).Nodup :=
  ⟨by decide +kernel, by decide +kernel, store_well_formed _ busyPortMaster_reachable⟩

end UnixProgramming.Ssl
