import UnixProgramming.Ssl.Scan

/-!
# The PortMaster's firewall

`firewall_init` reads the firewall file into a list of six data each, and
`firewall` compares a peer's address with it. Characters are signed.
-/

namespace UnixProgramming.Ssl

/-- `SPMFWDATA` -/
abbrev SpmFWData := Fin 6 → Int

/-- The first six bytes of `sa_data`: two of the port and four of the address. -/
abbrev Peer := Fin 6 → Byte

/-- A C `char`. -/
def char (b : Byte) : Int := b.toInt8.toInt

/-- What the process finds around it. `limit` is how many files it can hold
open besides its server Socket and the one of the client at hand, and `junk` what
it finds in the memory it gets for the entry of a line. -/
structure System where
  spmfirewall : Option (List Byte)
  files : List Byte → Option (List Byte)
  limit : Nat
  junk : Nat → SpmFWData

/-- `hostaddr`, `spmfwhd`, and the files opened so far: none is ever closed. -/
structure Firewall where
  hostaddr : Fin 4 → Int8
  spmfw : List SpmFWData
  opened : Nat

/-- `if(hostaddr[i] < 0) hostaddr[i]+= 256;`, stored in a `char` again. -/
def signedHostaddr (h : Int8) : Int8 := if h < 0 then Int8.ofInt (h.toInt + 256) else h

/-- `b` after field `i` of a line. -/
def nextField (b : List Byte) : List Byte :=
  match b with
  | 42 :: b => stpblk b
  | b => (stpnxt b fmtDB).getD []

/-- `spmfw->data[i]`, read at `b`. -/
def fieldData (junk : Int) (b : List Byte) : Int :=
  if b.headD 0 = 42 then -1 else (sscanfD b).getD junk

def fieldAt (b : List Byte) : Nat → List Byte
  | 0 => b
  | i + 1 => nextField (fieldAt b i)

/-- The entry that one string of `fgets` makes. -/
def spmfwLine (junk : SpmFWData) (buf : List Byte) : Option SpmFWData :=
  let b := stpblk (buf.takeWhile (· ≠ 35))
  if b.isEmpty then none else some fun i => fieldData (junk i) (fieldAt b i)

/-- The entries of all strings of `fgets`, in the order of the file. -/
def spmfwLines (junk : Nat → SpmFWData) (bufs : List (List Byte)) : List SpmFWData :=
  bufs.zipIdx.filterMap fun buf => spmfwLine (junk buf.2) buf.1

/-- The entry that lets the PortMaster's own host in. -/
def hostEntry (hostaddr : Fin 4 → Int8) : SpmFWData
  | 0 | 1 => -1
  | ⟨i + 2, h⟩ => (hostaddr ⟨i, by omega⟩).toInt

/-- `if(!fwfile || !fwfile[0]) fwfile= getenv("SPMFIREWALL");` -/
def firewallFile (sys : System) (fwfile : List Byte) : Option (List Byte) :=
  if fwfile.isEmpty then sys.spmfirewall else some fwfile

/-- What `fopen` gives to read, if a file is named and one more can be held open. -/
def firewallText (sys : System) (fwfile : List Byte) (opened : Nat) : Option (List Byte) :=
  (firewallFile sys fwfile).bind fun fwfile => if opened < sys.limit then sys.files fwfile else none

/-- The old list is freed first. -/
def firewallInit (sys : System) (fwfile : List Byte) (fw : Firewall) : Firewall :=
  match firewallText sys fwfile fw.opened with
  | none => { fw with spmfw := [] }
  | some text =>
    { fw with
      spmfw := (spmfwLines sys.junk (fgetsAll bufsize text.length text)).reverse ++
        [hostEntry fw.hostaddr]
      opened := fw.opened + 1 }

/-- `datum` -/
def firewallDatum (b : Byte) : Int := if char b < 0 then char b + 256 else char b

/-- Whether the connection is rejected; `none` for a failed `getpeername`. -/
def firewall (fw : Firewall) (name : Option Peer) : Bool :=
  if fw.spmfw.isEmpty then false
  else match name with
    | none => true
    | some name => !fw.spmfw.any fun data =>
        decide (∀ i, data i = -1 ∨ data i = firewallDatum (name i))

/-- The part of `main` before the accept loop: the host's address, if it has
one, and what follows `-f` in the first argument. -/
def firewallStart (sys : System) (he : Option (Fin 4 → Byte)) (dashF : Option (List Byte)) :
    Firewall :=
  match he with
  | some addr => firewallInit sys (dashF.getD [])
      ⟨fun i => signedHostaddr (addr i).toInt8, [], 0⟩
  | none => ⟨fun _ => 0, [], 0⟩

/-- What `pm_fwinit` does before it answers. The Sockets of the clients that wait
leave so much less room for files. -/
def fwinit (sys : System) (waiting : Nat) (fw : Firewall) : Firewall :=
  firewallInit { sys with limit := sys.limit - waiting } [] fw

theorem char_eq (b : Byte) : char b = if b.toNat < 128 then (b.toNat : Int) else b.toNat - 256 := by
  have h := b.toNat_lt
  have e : char b = (b.toNat : Int).bmod 256 := b.toBitVec.toInt_eq_toNat_bmod
  rw [e, Int.bmod_def]
  split <;> split <;> omega

theorem firewallDatum_eq (b : Byte) : firewallDatum b = b.toNat := by
  have h := b.toNat_lt
  have e := char_eq b
  unfold firewallDatum
  split <;> split at e <;> omega

/-- Adding 256 in a `char` changes nothing: the address stays signed. -/
theorem signedHostaddr_eq (h : Int8) : signedHostaddr h = h := by
  unfold signedHostaddr
  split
  · apply Int8.toInt_inj.1
    have lo := h.le_toInt
    have hi := h.toInt_lt
    rw [Int8.toInt_ofInt, show Int8.size = 256 from rfl, Int.bmod_def]
    split <;> omega
  · rfl

end UnixProgramming.Ssl
