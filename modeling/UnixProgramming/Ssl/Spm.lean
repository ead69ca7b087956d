import UnixProgramming.Heap.DList
import UnixProgramming.Ssl.Firewall
import UnixProgramming.Ssl.Sockio

/-!
# The PortMaster

The handlers of `Spm.c` as programs over the client's connection, and the
accept loop around them. Every write to the client gets through (`Writes` has
the runs in which one does not); memory is never short; a `longjmp` to
`timedout` is a return with `Exit.timedout` in the state of that moment.

* `session`: one turn of the accept loop;
* `Reachable`: the states of the accept loop after any clients.
-/

namespace UnixProgramming.Ssl

open Pipe Heap

/-- The static data of `Spm.c`, the two static buffers included. `client` is
the variable of `main`, `accepted` the number of Sockets that `Saccept` has
made, which names them; `sent` and `closed` are what has been done to Sockets
of waiting clients and to Sockets that are gone. -/
structure Spm where
  ports : DList PortTable
  waits : DList ClientWaiting
  sktname : List Byte
  sharehost : List Byte
  fw : Firewall
  client : Option Nat
  accepted : Nat
  sent : List (Nat × List Byte)
  closed : List Nat

/-- How a request ends: `longjmp(timedout,1)` and `exit(0)` leave the handler. -/
inductive Exit where
  | next
  | timedout
  | quit
  deriving DecidableEq, Repr

/-- What a turn of the accept loop finds around it: the files for `PM_FWINIT`,
what the stack holds where `pm_rmserver` has its `locbuf`, and how many turns
of an endless loop are followed. -/
structure Around where
  sys : System
  locbuf : List Byte
  size : locbuf.length = bufsize
  spins : Nat

namespace Spm

def start (fw : Firewall) : Spm where
  ports := .empty
  waits := .empty
  sktname := List.replicate bufsize 0
  sharehost := List.replicate bufsize 0
  fw := fw
  client := none
  accepted := 0
  sent := []
  closed := []

/-- The entry that `for(p= phd; p; p= p->nxt) if(!strcmp(name,p->sktname))` finds. -/
def lookup (st : Spm) (name : List Byte) : Option (Nat × PortTable) :=
  st.ports.find fun p => p.sktname = name

/-- Something new in the static buffer `sktname`. -/
def setSktname (st : Spm) (buf : List Byte) : Spm := { st with sktname := buf }

/-- Something new in the static buffer `sharehost` of `pm_server`. -/
def setSharehost (st : Spm) (buf : List Byte) : Spm := { st with sharehost := buf }

section
variable (st : Spm) (buf : List Byte)

@[simp] theorem setSktname_ports : (st.setSktname buf).ports = st.ports := rfl
@[simp] theorem setSktname_waits : (st.setSktname buf).waits = st.waits := rfl
@[simp] theorem setSktname_sktname : (st.setSktname buf).sktname = buf := rfl
@[simp] theorem setSktname_sharehost : (st.setSktname buf).sharehost = st.sharehost := rfl
@[simp] theorem setSharehost_ports : (st.setSharehost buf).ports = st.ports := rfl
@[simp] theorem setSharehost_waits : (st.setSharehost buf).waits = st.waits := rfl
@[simp] theorem setSharehost_sktname : (st.setSharehost buf).sktname = st.sktname := rfl
@[simp] theorem setSharehost_sharehost : (st.setSharehost buf).sharehost = buf := rfl

end

end Spm

/-- `if(Stimeoutwait(client,TIMEOUT,0L) < 0) longjmp(timedout,1);` before `k`. -/
def orTimedout (st : Spm) (k : Proc (Exit × Spm)) : Proc (Exit × Spm) := do
  if (← stimeoutwait) < 0 then return (.timedout, st)
  k

def swriteAll : List (List Byte) → Proc Unit
  | [] => .ret ()
  | buf :: bufs => do
    swrite buf
    swriteAll bufs

/-- The two or three writes that tell a client where the server is. -/
def PortTable.reply (p : PortTable) : List (List Byte) :=
  match p.sharehost with
  | some host => [htons PM.okshare, withNul host, htons p.port]
  | none => [htons PM.ok, htons p.port]

def makePortTable (port : SktEvent) (sharehost : Option (List Byte)) (st : Spm) :
    Proc (PortTable × Spm) :=
  let p : PortTable := ⟨cstr st.sktname, sharehost.map cstr, port⟩
  .note (.made p) (.ret (p, { st with ports := st.ports.append p }))

/-- The cell itself is not freed. -/
def delPortTable (p : Nat) (st : Spm) : Spm := { st with ports := st.ports.unlink p }

/-! ## pm_server -/

/-- Answer the waiting client in the cell `cw`, de-link it and free it. -/
def wake (p : PortTable) (cw : Nat) (client : Nat) (st : Spm) : Spm :=
  { st with
    waits := (st.waits.unlink cw).free cw
    sent := st.sent ++ p.reply.map fun buf => (client, buf)
    closed := st.closed ++ [client] }

/-- `for(cw= cwhd, cwnxt= NULL; cw; cw= cwnxt) if(!strcmp(cw->sktname,sktname))`:
`cwnxt` moves on only behind the test. It is `none` when the loop has not ended
after `turns` turns. -/
def wakeup (p : PortTable) : Nat → Option Nat → Option Nat → Spm → Option Spm
  | _, none, _, st => some st
  | 0, some _, _, _ => none
  | turns + 1, some cw, cwnxt, st =>
    match st.waits.cells cw with
    | none => some st
    | some c =>
      if c.val.sktname = cstr st.sktname then
        wakeup p turns c.nxt c.nxt (wake p cw c.val.client st)
      else wakeup p turns cwnxt cwnxt st

/-- The loop turns at most once for each cell, or for ever. -/
def wakeupAll (spins : Nat) (p : PortTable) (st : Spm) : Option Spm :=
  wakeup p (st.waits.brk + 1 + spins) st.waits.hd none st

/-- From the `PM_OK` for the new entry on. -/
def pmServerMesg (spins : Nat) (p : PortTable) (st : Spm) : Proc (Exit × Spm) := do
  swrite (htons PM.ok)
  orTimedout st do
    let mesg := ntohs (← sreadbytes spins 2)
    if mesg ≠ PM.ok then return (.timedout, st)
    match wakeupAll spins p st with
    | some st => return (.next, st)
    | none => .spin

def pmServerPort (spins : Nat) (event : SktEvent) (st : Spm) : Proc (Exit × Spm) :=
  orTimedout st do
    let port := ntohs (← sreadbytes spins 2)
    let (p, st) ← makePortTable port (if event = PM.share then some st.sharehost else none) st
    pmServerMesg spins p st

/-- From the search for the name on. -/
def pmServerLookup (spins : Nat) (event : SktEvent) (st : Spm) : Proc (Exit × Spm) :=
  if (st.lookup (cstr st.sktname)).isSome then do
    swrite (htons PM.sorryReply)
    return (.next, st)
  else pmServerPort spins event st

def pmServerName (spins : Nat) (event : SktEvent) (st : Spm) : Proc (Exit × Spm) :=
  orTimedout st do
    let r ← sgets spins st.sktname bufsize
    pmServerLookup spins event (st.setSktname r.2)

def pmServer (spins : Nat) (event : SktEvent) (st : Spm) : Proc (Exit × Spm) := do
  swrite (htons PM.ok)
  if event = PM.share then
    orTimedout st do
      let r ← sgets spins st.sharehost bufsize
      pmServerName spins event (st.setSharehost r.2)
  else pmServerName spins event (st.setSharehost (st.sharehost.set 0 0))

/-! ## The other requests -/

/-- From the search for the name on. -/
def pmClientLookup (client : Nat) (waiting : Bool) (st : Spm) : Proc (Exit × Spm) :=
  match st.lookup (cstr st.sktname) with
  | some (_, p) => do
    swriteAll p.reply
    return (.next, st)
  | none =>
    if waiting then
      return (.next, { st with waits := st.waits.append ⟨client, cstr st.sktname⟩ })
    else do
      swrite (htons PM.sorryReply)
      return (.next, st)

def pmClient (spins client : Nat) (waiting : Bool) (st : Spm) : Proc (Exit × Spm) := do
  swrite (htons PM.ok)
  orTimedout st do
    let r ← sgets spins st.sktname bufsize
    pmClientLookup client waiting (st.setSktname r.2)

def pmClose (spins : Nat) (st : Spm) : Proc (Exit × Spm) := do
  swrite (htons PM.ok)
  orTimedout st do
    let port := ntohs (← sreadbytes spins 2)
    match st.ports.find fun p => p.port = port with
    | some (p, _) => do
      swrite (htons PM.ok)
      return (.next, delPortTable p st)
    | none => do
      swrite (htons PM.sorryReply)
      return (.next, st)

/-- `"PortMaster"` -/
def portMaster : List Byte := [80, 111, 114, 116, 77, 97, 115, 116, 101, 114]

/-- From the test of the name on. -/
def pmQuitLookup (st : Spm) : Proc (Exit × Spm) :=
  if cstr st.sktname = portMaster then return (.quit, st)
  else do
    swrite (htons PM.sorryReply)
    return (.next, st)

def pmQuit (spins : Nat) (st : Spm) : Proc (Exit × Spm) := do
  swrite (htons PM.ok)
  orTimedout st do
    let r ← sgets spins st.sktname bufsize
    pmQuitLookup (st.setSktname r.2)

/-- `%d` -/
def decimalDigits (n : Nat) : List Byte := (Nat.toDigits 10 n).map fun c => UInt8.ofNat c.toNat

/-- `"%s@%s : %d"` or `"%s : %d"` -/
def PortTable.line (p : PortTable) : List Byte :=
  match p.sharehost with
  | some host => p.sktname ++ [64] ++ host ++ [32, 58, 32] ++ decimalDigits p.port.toNat
  | none => p.sktname ++ [32, 58, 32] ++ decimalDigits p.port.toNat

def pmTable (st : Spm) : Proc (Exit × Spm) := do
  swrite (htons PM.ok)
  swrite (htons (UInt16.ofNat st.ports.vals.length))
  swriteAll (st.ports.vals.map fun p => withNul p.line)
  return (.next, st)

/-- From the search for the name on. -/
def pmRmserverLookup (locbuf : List Byte) (st : Spm) : Proc (Exit × Spm) :=
  match st.lookup (cstr locbuf) with
  | some (p, _) => do
    swrite (htons PM.ok)
    return (.next, delPortTable p st)
  | none => do
    swrite (htons PM.sorryReply)
    return (.next, st)

def pmRmserver (spins : Nat) (locbuf : List Byte) (st : Spm) : Proc (Exit × Spm) := do
  swrite (htons PM.ok)
  orTimedout st do
    let r ← sgets spins locbuf bufsize
    pmRmserverLookup r.2 st

def pmFwinit (sys : System) (st : Spm) : Proc (Exit × Spm) := do
  let st := { st with fw := fwinit sys st.waits.vals.length st.fw }
  swrite (htons PM.ok)
  return (.next, st)

/-! ## The accept loop -/

/-- `if(cwtl && client == cwtl->client) client= NULL;`, behind `pm_client`: the
Socket of a client that waits is not closed. -/
def keepWaiting (client : Nat) (r : Exit × Spm) : Exit × Spm :=
  if r.1 = .next ∧ (r.2.waits.tl.bind r.2.waits.cells).map (·.val.client) = some client then
    (r.1, { r.2 with client := none })
  else r

/-- The `switch` on the event; `none` for the default case. -/
def handle (a : Around) (client : Nat) (event : SktEvent) (st : Spm) :
    Option (Proc (Exit × Spm)) :=
  if event = PM.server ∨ event = PM.share then some (pmServer a.spins event st)
  else if event = PM.clientwait then some do
    let r ← pmClient a.spins client true st
    return keepWaiting client r
  else if event = PM.client then some (pmClient a.spins client false st)
  else if event = PM.close then some (pmClose a.spins st)
  else if event = PM.quit then some (pmQuit a.spins st)
  else if event = PM.table then some (pmTable st)
  else if event = PM.rmserver then some (pmRmserver a.spins a.locbuf st)
  else if event = PM.fwinit then some (pmFwinit a.sys st)
  else none

/-- Which program an event that is known leads to. -/
inductive Handles (a : Around) (client : Nat) (st : Spm) : SktEvent → Proc (Exit × Spm) → Prop where
  | server {event} (server : event = PM.server ∨ event = PM.share) :
      Handles a client st event (pmServer a.spins event st)
  | clientwait : Handles a client st PM.clientwait
      (pmClient a.spins client true st >>= fun r => .ret (keepWaiting client r))
  | client : Handles a client st PM.client (pmClient a.spins client false st)
  | close : Handles a client st PM.close (pmClose a.spins st)
  | quit : Handles a client st PM.quit (pmQuit a.spins st)
  | table : Handles a client st PM.table (pmTable st)
  | rmserver : Handles a client st PM.rmserver (pmRmserver a.spins a.locbuf st)
  | fwinit : Handles a client st PM.fwinit (pmFwinit a.sys st)

theorem handle_cases {a : Around} {client : Nat} {event : SktEvent} {st : Spm}
    {p : Proc (Exit × Spm)} (hp : handle a client event st = some p) :
    Handles a client st event p := by
  unfold handle at hp
  split at hp
  · rename_i server
    cases hp
    exact .server server
  split at hp
  · rename_i same; subst same; cases hp; exact .clientwait
  split at hp
  · rename_i same; subst same; cases hp; exact .client
  split at hp
  · rename_i same; subst same; cases hp; exact .close
  split at hp
  · rename_i same; subst same; cases hp; exact .quit
  split at hp
  · rename_i same; subst same; cases hp; exact .table
  split at hp
  · rename_i same; subst same; cases hp; exact .rmserver
  split at hp
  · rename_i same; subst same; cases hp; exact .fwinit
  · cases hp

/-- Close the Socket in `client`, if there is one. -/
def closeClient (st : Spm) : Spm :=
  { st with closed := st.closed ++ st.client.toList, client := none }

/-- `do { .. } while(resend_cnt);`, with room for so many events that are not
known: the last of them ends the connection. -/
def eventLoop (a : Around) (client : Nat) : Nat → Spm → Proc (Exit × Spm)
  | 0, st => .ret (.next, closeClient st)
  | left + 1, st => orTimedout st do
    let event := ntohs (← sreadbytes a.spins 2)
    match handle a client event st with
    | some p => p
    | none => do
      swrite (htons PM.resend)
      eventLoop a client left st

/-- One turn of `while(1)`, from `Saccept` to the closing of the old connection
at the top of the next turn. -/
def session (a : Around) (peer : Option Peer) (st : Spm) : Proc (Exit × Spm) := do
  let client := st.accepted
  let st := { st with client := some client, accepted := st.accepted + 1 }
  if firewall st.fw peer then do
    swrite (htons PM.sorryReply)
    return (.next, closeClient st)
  else do
    let (exit, st) ← eventLoop a client (PM.maxtry + 1) st
    return (exit, closeClient st)

/-- A client as the PortMaster sees it. -/
structure Visit where
  around : Around
  peer : Option Peer
  wire : Wire Byte

/-- The states in which the PortMaster accepts, after any clients. -/
inductive Reachable : Spm → Prop where
  | start (sys : System) (he : Option (Fin 4 → Byte)) (dashF : Option (List Byte)) :
      Reachable (.start (firewallStart sys he dashF))
  | next {st st' : Spm} {exit : Exit} {w : Wire Byte} (v : Visit) : Reachable st →
      (exec (session v.around v.peer st) v.wire).fate = .done (exit, st') w → exit ≠ .quit →
      Reachable st'

/-- The state in which the PortMaster accepts the next client, if it does. -/
def Visit.leaves (v : Visit) (st : Spm) : Option Spm :=
  match (exec (session v.around v.peer st) v.wire).fate with
  | .done (exit, st') _ => if exit = .quit then none else some st'
  | _ => none

theorem Reachable.leaves {st st' : Spm} (h : Reachable st) (v : Visit)
    (on : v.leaves st = some st') : Reachable st' := by
  unfold Visit.leaves at on
  split at on
  · rename_i exit st'' w run
    by_cases quit : exit = .quit
    · rw [if_pos quit] at on
      cases on
    · rw [if_neg quit] at on
      cases on
      exact .next v h run quit
  · cases on

/-- The state in which the PortMaster accepts after these clients. -/
def Spm.after (st : Spm) (vs : List Visit) : Option Spm := vs.foldlM (fun st v => v.leaves st) st

theorem Reachable.after {st st' : Spm} (h : Reachable st) {vs : List Visit}
    (on : st.after vs = some st') : Reachable st' := by
  induction vs generalizing st with
  | nil =>
    cases on
    exact h
  | cons v vs ih =>
    obtain ⟨st₁, leaves, rest⟩ := Option.bind_eq_some_iff.1 on
    exact ih (h.leaves v leaves) rest

/-- A PortMaster that has just been started, without a firewall. -/
def newPortMaster : Spm := .start ⟨fun _ => 0, [], 0⟩

def nothingAround : Around :=
  ⟨⟨none, fun _ => none, 0, fun _ _ => 0⟩, List.replicate bufsize 0, rfl, 0⟩

theorem newPortMaster_reachable : Reachable newPortMaster :=
  .start nothingAround.sys none none

end UnixProgramming.Ssl
