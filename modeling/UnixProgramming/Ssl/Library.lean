import UnixProgramming.Ssl.Scan
import UnixProgramming.Ssl.Spm

/-!
# The client library

`Sopen`, `Srmsrvr` and `Sclose`: what they say to a PortMaster as programs over
the connection, and around that a script of what they ask the network for.
Memory is never short and `gethostname` never fails.

* `sopen`, `srmsrvr`, `sclose`: the functions;
* `Script.Ends`: what comes of a script when there is one PortMaster.
-/

namespace UnixProgramming.Ssl

open Pipe

/-- What the library asks its machine: `gethostname` and `getenv("PMSHARE")`. -/
structure Machine where
  hostname : List Byte
  pmshare : Option (List Byte)
  deriving DecidableEq, Repr

/-- `if(!hostname || !hostname[0])` of `Sopen_clientport`. -/
def Machine.host (m : Machine) (hostname : List Byte) : List Byte :=
  if hostname = [] then m.hostname else hostname

/-- A `Socket` of the library without its handle. -/
structure Socket where
  type : SktEvent
  hostname : List Byte
  sktname : List Byte
  port : SktEvent
  deriving DecidableEq, Repr

/-- What the stack holds where `Sopen_client` has its `skthost`, and how many
turns of an endless loop are followed. -/
structure Frame where
  skthost : List Byte
  size : skthost.length = bufsize
  spins : Nat

/-- A call of the library as the network sees it. `bindPort` is `socket`,
`bind` and `getsockname` for a port, 0 for any; `dial` connects to the
PortMaster of a host, talks and closes the connection; `fault` is the use of a
null pointer or of memory outside an array. -/
inductive Script (α : Type) : Type 1 where
  | ret (a : α)
  | bindPort (port : SktEvent) (k : Option SktEvent → Script α)
  | dial {β : Type} (host : List Byte) (talk : Proc β) (k : Option β → Script α)
  | connect (host : List Byte) (port : SktEvent) (k : Bool → Script α)
  | fault

namespace Script

def bind {α γ : Type} : Script α → (α → Script γ) → Script γ
  | ret a, f => f a
  | bindPort port k, f => bindPort port fun r => (k r).bind f
  | dial host talk k, f => dial host talk fun r => (k r).bind f
  | connect host port k, f => connect host port fun r => (k r).bind f
  | fault, _ => fault

end Script

/-- `Sopen_clientport` for a port that is not the PortMaster's. -/
def sopenClientport (m : Machine) (hostname sktname : List Byte) (port : SktEvent) :
    Script (Option Socket) :=
  .connect (m.host hostname) port fun
    | true => .ret (some ⟨PM.client, m.host hostname, sktname, port⟩)
    | false => .ret none

/-! ## Getting a PM_OK -/

/-- How the loop that waits for a `PM_OK` ends. -/
inductive Greeting where
  | ok
  | timedout
  | unread
  | refused
  deriving DecidableEq, Repr

/-- `do { .. } while(mesg != PM_OK);` with `left` requests to go. `checks` says
that the result of `Sreadbytes` is looked at, `minds` that a `PM_SORRY` ends the
loop as `PM_MAXTRY` requests do. -/
def untilOk (spins : Nat) (event : SktEvent) (checks minds : Bool) : Nat → Proc Greeting
  | 0 => .ret .refused
  | left + 1 => do
    swrite (htons event)
    if (← stimeoutwait) < 0 then return .timedout
    let buf ← sreadbytes spins 2
    let mesg := ntohs buf
    if checks ∧ buf = [] then return .unread
    if left = 0 ∨ minds ∧ mesg = PM.sorryReply then return .refused
    if mesg = PM.ok then return .ok
    untilOk spins event checks minds left

/-! ## Sopen_server -/

/-- From the wait for the answer to name and port on. -/
def sopenServerMesg (spins : Nat) : Proc Bool := do
  if (← stimeoutwait) < 0 then return false
  let mesg := ntohs (← sreadbytes spins 2)
  if mesg ≠ PM.ok then return false
  swrite (htons PM.ok)
  return true

def sopenServerName (spins : Nat) (sktname : List Byte) (port : SktEvent) : Proc Bool := do
  sputs sktname
  swrite (htons port)
  sopenServerMesg spins

/-- `if(pmshare) Sputs(hostname,pmskt);` -/
def sopenServerHost (spins : Nat) (m : Machine) (sktname : List Byte) (port : SktEvent) :
    Proc Bool :=
  if m.pmshare.isSome then do
    sputs m.hostname
    sopenServerName spins sktname port
  else sopenServerName spins sktname port

/-- What `Sopen_server` says to the PortMaster: whether it has a server then. -/
def sopenServerTalk (spins : Nat) (m : Machine) (sktname : List Byte) (port : SktEvent) :
    Proc Bool := do
  match ← untilOk spins (if m.pmshare.isSome then PM.share else PM.server) true true PM.maxtry with
  | .ok => sopenServerHost spins m sktname port
  | _ => return false

/-- `Sopen_server` with the name that is left before the first `@`. -/
def sopenServer (spins : Nat) (m : Machine) (sslport : Nat) (sktname : List Byte) :
    Script (Option Socket) :=
  .bindPort (UInt16.ofNat sslport) fun
  | none => .ret none
  | some port =>
    let skt : Socket := ⟨PM.server, m.pmshare.getD m.hostname, sktname, port⟩
    if sktname = [] then .ret (some skt)
    else .dial (m.host skt.hostname) (sopenServerTalk spins m sktname port) fun
      | some true => .ret (some skt)
      | _ => .ret none

/-! ## Sopen_client -/

/-- The last answer, the port, behind the share host or the empty string. -/
def sopenClientPort (spins : Nat) (skthost : List Byte) : Proc (Option (List Byte × SktEvent)) := do
  if (← stimeoutwait) < 0 then return none
  let port := ntohs (← sreadbytes spins 2)
  return some (skthost, port)

/-- From the wait for the answer to the name on. -/
def sopenClientMesg (f : Frame) : Proc (Option (List Byte × SktEvent)) := do
  if (← stimeoutwait) < 0 then return none
  let mesg := ntohs (← sreadbytes f.spins 2)
  if mesg = PM.okshare then do
    if (← stimeoutwait) < 0 then return none
    let r ← sgets f.spins (f.skthost.set 0 0) bufsize
    sopenClientPort f.spins (cstr r.2)
  else if mesg ≠ PM.ok then return none
  else sopenClientPort f.spins []

def sopenClientName (f : Frame) (sktname : List Byte) (blocking : Bool) :
    Proc (Option (List Byte × SktEvent)) := do
  sputs sktname
  if blocking then do
    if (← swait) < 0 then return none
    sopenClientMesg f
  else sopenClientMesg f

/-- What `Sopen_client` says to the PortMaster: the share host, or the empty
string, and the port of the server. -/
def sopenClientTalk (f : Frame) (sktname : List Byte) (blocking : Bool) :
    Proc (Option (List Byte × SktEvent)) := do
  match ← untilOk f.spins (if blocking then PM.clientwait else PM.client) false true PM.maxtry with
  | .ok => sopenClientName f sktname blocking
  | _ => return none

/-- `Sopen_clientport(skthost[0]? skthost : hostname,sktname,port)`, if the
PortMaster has told the port. -/
def sopenClientLast (m : Machine) (hostname sktname : List Byte) :
    Option (List Byte × SktEvent) → Script (Option Socket)
  | none => .ret none
  | some (skthost, port) =>
    sopenClientport m (if skthost = [] then hostname else skthost) sktname port

def sopenClient (f : Frame) (m : Machine) (sslport : Nat) (hostname sktname : List Byte)
    (blocking : Bool) : Script (Option Socket) :=
  if sslport = 0 then
    .dial (m.host hostname) (sopenClientTalk f sktname blocking) fun
    | some r => sopenClientLast m hostname sktname r
    | none =>
      match m.pmshare with
      | none => .ret none
      | some pmshare =>
        .dial (m.host pmshare) (sopenClientTalk f sktname blocking) fun
        | some r => sopenClientLast m hostname sktname r
        | none => .ret none
  else sopenClientport m hostname sktname (UInt16.ofNat sslport)

/-! ## Srmsrvr -/

/-- `strchr(s,'@')` as an index. -/
def strchrAt (s : List Byte) : Option Nat :=
  if 64 ∈ cstr s then some ((cstr s).idxOf 64) else none

/-- What `Srmsrvr` says to the PortMaster: how it has begun and the result. -/
def srmsrvrTalk (spins : Nat) (sktname : List Byte) : Proc (Greeting × SktEvent) := do
  match ← untilOk spins PM.rmserver true false PM.maxtry with
  | .ok => do
    sputs sktname
    let mesg := ntohs (← sreadbytes spins 2)
    return (.ok, mesg)
  | greeting => return (greeting, PM.sorryReply)

/-- `Srmsrvr`: its result and the caller's string afterwards. The `@` is not
put back when the PortMaster is too slow. -/
def srmsrvr (spins : Nat) (m : Machine) (skthost : List Byte) : Script (SktEvent × List Byte) :=
  match strchrAt skthost with
  | none =>
    .dial (m.host (m.pmshare.getD m.hostname)) (srmsrvrTalk spins (cstr skthost)) fun
    | none => .ret (PM.sorryReply, skthost)
    | some (_, mesg) => .ret (mesg, skthost)
  | some i =>
    let cut := skthost.set i 0
    .dial (m.host (cstr (skthost.drop (i + 1)))) (srmsrvrTalk spins (cstr cut)) fun
    | none => .ret (PM.sorryReply, cut.set i 64)
    | some (.timedout, mesg) => .ret (mesg, cut)
    | some (_, mesg) => .ret (mesg, cut.set i 64)

/-! ## Sclose -/

/-- What `Sclose` says to the PortMaster. -/
def scloseTalk (spins : Nat) (port : SktEvent) : Proc Unit := do
  match ← untilOk spins PM.close true false PM.maxtry with
  | .ok => do
    swrite (htons port)
    if (← stimeoutwait) < 0 then return ()
    let _ ← sreadbytes spins 2
    return ()
  | _ => return ()

/-- `Sclose`. Without a PortMaster it writes to a null pointer. -/
def sclose (spins : Nat) (m : Machine) : Option Socket → Script Unit
  | none => .ret ()
  | some skt =>
    if skt.type = PM.server ∧ skt.sktname ≠ [] then
      .dial (m.host skt.hostname) (scloseTalk spins skt.port) fun
      | none => .fault
      | some _ => .ret ()
    else .ret ()

/-! ## Sopen -/

/-- `sscanf(s,"%lu",&sslport)` for a string that does not begin with a blank or
a sign; without a digit `sslport` stays 0. -/
def scanPort (s : List Byte) : Nat :=
  min ((s.takeWhile isdigit).foldl (fun n c => 10 * n + (c.toNat - 48)) 0) (2 ^ 64 - 1)

/-- `sslport` from the digits of the mode or from a name `$####`. -/
def sslportOf (skthost mode : List Byte) : Nat :=
  if isdigit ((cstr mode).tail.headD 0) then scanPort (cstr mode).tail
  else match cstr skthost with
    | 36 :: s =>
      if (s.dropWhile isdigit).headD 64 = 64 then scanPort s else 0
    | _ => 0

/-- What `Sopen_server` does to its argument. -/
def cutAt (skthost : List Byte) : List Byte :=
  match strchrAt skthost with
  | none => skthost
  | some i => skthost.set i 0

/-- The `sktname` and the `hostname` of a client. -/
def splitHost (m : Machine) (skthost : List Byte) : List Byte × List Byte :=
  match strchrAt skthost with
  | none => (cstr skthost, m.hostname)
  | some i => ((cstr skthost).take i, (cstr skthost).drop (i + 1))

/-- `Sopen`: the Socket, and the caller's string afterwards. The empty string
stands for a null pointer too. -/
def sopen (f : Frame) (m : Machine) (skthost mode : List Byte) :
    Script (Option Socket × List Byte) :=
  let sslport := sslportOf skthost mode
  let nothing := cstr skthost = [] ∧ sslport = 0
  match (cstr mode).headD 0 with
  | 115 =>
    if nothing then .ret (none, skthost)
    else (sopenServer f.spins m sslport (cstr (cutAt skthost))).bind fun skt =>
      .ret (skt, cutAt skthost)
  | 83 =>
    if nothing then .ret (none, skthost)
    else (sopenServer f.spins m sslport (cstr (cutAt skthost))).bind fun
      | some skt => .ret (some skt, cutAt skthost)
      | none => (srmsrvr f.spins m (cutAt skthost)).bind fun r =>
        (sopenServer f.spins m sslport (cstr (cutAt r.2))).bind fun skt => .ret (skt, cutAt r.2)
  | 98 | 99 =>
    if nothing then .ret (none, skthost)
    else
      let (sktname, hostname) := splitHost m skthost
      (sopenClient f m sslport hostname sktname ((cstr mode).headD 0 = 98)).bind fun skt =>
        .ret (skt, skthost)
  | _ => .ret (none, skthost)

/-! ## One PortMaster -/

/-- A network with one PortMaster: the host names it answers to, and how it
sees the machines. -/
structure Net where
  home : List Byte → Bool
  peer : Machine → Option Peer

/-- The fields that one side of a connection has read. -/
def fieldsRead (notes : List Note) : List (List Byte) :=
  notes.filterMap fun
    | .read field => some field
    | .made _ => none

section
variable (s t : List Note) (f : List Byte) (p : PortTable)

@[simp] theorem fieldsRead_nil : fieldsRead [] = [] := rfl
@[simp] theorem fieldsRead_read : fieldsRead (.read f :: t) = f :: fieldsRead t := rfl
@[simp] theorem fieldsRead_made : fieldsRead (.made p :: t) = fieldsRead t := rfl

@[simp] theorem fieldsRead_append : fieldsRead (s ++ t) = fieldsRead s ++ fieldsRead t :=
  List.filterMap_append ..

@[simp] theorem fieldsRead_map (fs : List (List Byte)) : fieldsRead (fs.map .read) = fs := by
  induction fs with
  | nil => rfl
  | cons f fs ih => rw [List.map_cons, fieldsRead_read, ih]

end

/-- Each read of one side has got exactly one write of the other, in order. -/
def Orderly (lib pm : Log Byte Note) : Prop :=
  fieldsRead lib.notes <+: pm.wrote ∧ fieldsRead pm.notes <+: lib.wrote

/-- **Every run of the script ends**, with its result and the PortMaster's
state in `Q`: for every port that is free, and for every connection however the
steps of the two sides follow each other and the streams are cut. In each
connection the reads are orderly, and the PortMaster goes on. Connections to
servers get through. -/
def Script.Ends {α : Type} (net : Net) (m : Machine) : Script α → Spm → (α → Spm → Prop) → Prop
  | .ret a, st, Q => Q a st
  | .bindPort port k, st, Q =>
    ∀ got, (port ≠ 0 → got = port) → (k (some got)).Ends net m st Q
  | .dial host talk k, st, Q =>
    if net.home host then
      ∀ a : Around, Pipe.Ends (fun b r lib pm => Orderly lib pm ∧ r.1 ≠ .quit ∧
        (k (some b)).Ends net m r.2 Q) (.start talk (session a (net.peer m) st))
    else (k none).Ends net m st Q
  | .connect _ _ k, st, Q => (k true).Ends net m st Q
  | .fault, _, _ => False

theorem Script.ends_bind {α γ : Type} {net : Net} {m : Machine} (s : Script α) (f : α → Script γ)
    (st : Spm) (Q : γ → Spm → Prop) :
    (s.bind f).Ends net m st Q ↔ s.Ends net m st fun a st' => (f a).Ends net m st' Q := by
  induction s generalizing st with
  | ret a => exact Iff.rfl
  | bindPort port k ih => exact forall_congr' fun got => imp_congr_right fun _ => ih _ _
  | dial host talk k ih =>
    simp only [Script.bind, Script.Ends, ih]
  | connect host port k ih => exact ih _ _
  | fault => exact Iff.rfl

theorem Script.Ends.mono {α : Type} {net : Net} {m : Machine} {s : Script α} :
    ∀ {st : Spm} {Q Q' : α → Spm → Prop}, s.Ends net m st Q → (∀ a st', Q a st' → Q' a st') →
      s.Ends net m st Q' := by
  induction s with
  | ret a => exact fun h imp => imp _ _ h
  | bindPort port k ih => exact fun h imp got free => ih _ (h got free) imp
  | dial host talk k ih =>
    intro st Q Q' h imp
    unfold Script.Ends at h ⊢
    split at h
    · rename_i home
      rw [if_pos home]
      intro a
      apply (h a).mono
      rintro b r lib pm ⟨orderly, goes, next⟩
      exact ⟨orderly, goes, ih _ next imp⟩
    · rename_i away
      rw [if_neg away]
      exact ih _ h imp
  | connect host port k ih => exact fun h imp => ih _ h imp
  | fault => exact fun h _ => h

/-- Two results of the same script hold together of some run. -/
theorem Script.Ends.both {α : Type} {net : Net} {m : Machine} {s : Script α} :
    ∀ {st : Spm} {Q Q' : α → Spm → Prop}, s.Ends net m st Q → s.Ends net m st Q' →
      ∃ a st', Q a st' ∧ Q' a st' := by
  induction s with
  | ret a => exact fun h h' => ⟨a, _, h, h'⟩
  | bindPort port k ih => exact fun h h' => ih _ (h port fun _ => rfl) (h' port fun _ => rfl)
  | dial host talk k ih =>
    intro st Q Q' h h'
    unfold Script.Ends at h h'
    split at h
    · rename_i home
      rw [if_pos home] at h'
      obtain ⟨b, r, lib, pm, ⟨-, -, next⟩, -, -, next'⟩ := (h nothingAround).both (h' nothingAround)
      exact ih _ next next'
    · rename_i away
      rw [if_neg away] at h'
      exact ih _ h h'
  | connect host port k ih => exact fun h h' => ih _ h h'
  | fault => exact fun h _ => h.elim

end UnixProgramming.Ssl
