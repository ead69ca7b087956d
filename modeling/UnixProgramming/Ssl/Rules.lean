import UnixProgramming.Ssl.Decision

/-!
# What a firewall file settles

A line with fewer than six data leaves the rest of its entry as `malloc` hands it
over.

* `FwRule`: the data of a line, as far as it has them;
* `Settled`: a file whose decisions do not hang on the rest;
* `settled_iff`: so it is the same decision each time the file is read.
-/

namespace UnixProgramming.Ssl

/-- The six data of a line; `none` where the line says nothing. -/
abbrev FwRule := Fin 6 → Option Int

def fieldRule (b : List Byte) : Option Int := if b.headD 0 = 42 then some (-1) else sscanfD b

/-- The data that one string of `fgets` holds. -/
def lineRule (buf : List Byte) : Option FwRule :=
  let b := stpblk (buf.takeWhile (· ≠ 35))
  if b.isEmpty then none else some fun i => fieldRule (fieldAt b i)

/-- The rules of a firewall file. -/
def fileRules (text : List Byte) : List FwRule :=
  (fgetsAll bufsize text.length text).filterMap lineRule

namespace FwRule

/-- A datum lets this byte through. -/
def Fits (b : Byte) (v : Int) : Prop := v = -1 ∨ v = b.toNat

variable (rule : FwRule) (peer : Peer)

/-- As far as the line goes it lets the peer in. -/
def MayMatch : Prop := ∀ i, ∀ v ∈ rule i, Fits (peer i) v

/-- The line has all six data and lets the peer in. -/
def Matches : Prop := ∀ i, ∃ v ∈ rule i, Fits (peer i) v

/-- The entry of the line, in memory that held `junk`. -/
def filled (junk : SpmFWData) : SpmFWData := fun i => (rule i).getD (junk i)

end FwRule

/-- The host of this address is let in by its own entry. -/
def OwnEntry (hostaddr : Fin 4 → Int8) (peer : Peer) : Prop :=
  EntryMatches peer (hostEntry hostaddr)

/-- Whoever is let in by a line as far as that goes is also let in by a line with
six data or by the host's own entry. -/
def Settled (hostaddr : Fin 4 → Int8) (text : List Byte) : Prop :=
  ∀ peer, (∃ rule ∈ fileRules text, rule.MayMatch peer) →
    (∃ rule ∈ fileRules text, rule.Matches peer) ∨ OwnEntry hostaddr peer

theorem fieldData_eq (junk : Int) (b : List Byte) : fieldData junk b = (fieldRule b).getD junk := by
  unfold fieldData fieldRule
  split
  · rfl
  · rfl

theorem spmfwLine_eq (junk : SpmFWData) (buf : List Byte) :
    spmfwLine junk buf = (lineRule buf).map fun rule => rule.filled junk := by
  unfold spmfwLine lineRule
  dsimp only
  split
  · rfl
  · rw [Option.map_some]
    congr 1
    funext i
    exact fieldData_eq _ _

theorem mem_spmfwLines {junk : Nat → SpmFWData} {bufs : List (List Byte)} {data : SpmFWData} :
    data ∈ spmfwLines junk bufs ↔
      ∃ k buf rule, bufs[k]? = some buf ∧ lineRule buf = some rule ∧
        data = rule.filled (junk k) := by
  simp only [spmfwLines, List.mem_filterMap, Prod.exists, List.mem_zipIdx_iff_getElem?,
    spmfwLine_eq, Option.map_eq_some_iff]
  constructor
  · rintro ⟨buf, k, here, rule, line, rfl⟩
    exact ⟨k, buf, rule, here, line, rfl⟩
  · rintro ⟨k, buf, rule, here, line, rfl⟩
    exact ⟨buf, k, here, rule, line, rfl⟩

theorem mem_fileRules {text : List Byte} {rule : FwRule} :
    rule ∈ fileRules text ↔ ∃ buf ∈ fgetsAll bufsize text.length text, lineRule buf = some rule :=
  List.mem_filterMap

section
variable {rule : FwRule} {peer : Peer} {junk : SpmFWData}

theorem fits_iff (b : Byte) (v : Int) : FwRule.Fits b v ↔ v = -1 ∨ v = firewallDatum b := by
  rw [FwRule.Fits, firewallDatum_eq]

/-- An entry that lets the peer in does so as far as its line goes. -/
theorem FwRule.mayMatch_of_filled (h : EntryMatches peer (rule.filled junk)) :
    rule.MayMatch peer := by
  intro i v hv
  have here := h i
  rw [FwRule.filled, Option.mem_def.1 hv, Option.getD_some] at here
  exact (fits_iff _ _).2 here

theorem FwRule.Matches.filled (h : rule.Matches peer) (junk : SpmFWData) :
    EntryMatches peer (rule.filled junk) := by
  intro i
  obtain ⟨v, hv, fits⟩ := h i
  rw [FwRule.filled, Option.mem_def.1 hv, Option.getD_some]
  exact (fits_iff _ _).1 fits

/-- Where the memory holds stars, what the line leaves out fits. -/
theorem FwRule.MayMatch.stars (h : rule.MayMatch peer) :
    EntryMatches peer (rule.filled fun _ => -1) := by
  intro i
  rw [FwRule.filled]
  cases datum : rule i with
  | none => exact .inl rfl
  | some v => exact (fits_iff _ _).1 (h i v datum)

/-- Where it holds what no peer can have, nothing that is left out fits. -/
theorem FwRule.matches_of_odd (h : EntryMatches peer (rule.filled fun _ => -2)) :
    rule.Matches peer := by
  intro i
  have here := h i
  rw [FwRule.filled] at here
  cases datum : rule i with
  | none =>
    rw [datum, Option.getD_none, firewallDatum_eq] at here
    omega
  | some v =>
    rw [datum, Option.getD_some] at here
    exact ⟨v, rfl, (fits_iff _ _).2 here⟩

end

/-- The list that a reading of the file makes. -/
def readList (junk : Nat → SpmFWData) (hostaddr : Fin 4 → Int8) (text : List Byte) :
    List SpmFWData :=
  (spmfwLines junk (fgetsAll bufsize text.length text)).reverse ++ [hostEntry hostaddr]

theorem firewall_readList {fw : Firewall} {junk : Nat → SpmFWData} {hostaddr : Fin 4 → Int8}
    {text : List Byte} (list : fw.spmfw = readList junk hostaddr text) (peer : Peer) :
    firewall fw (some peer) = false ↔
      (∃ data ∈ spmfwLines junk (fgetsAll bufsize text.length text), EntryMatches peer data) ∨
        OwnEntry hostaddr peer := by
  rw [firewall, if_neg (by simp [list, readList]), Bool.not_eq_false', list, readList,
    List.any_append, List.any_reverse, Bool.or_eq_true, List.any_eq_true, List.any_eq_true]
  simp [EntryMatches, OwnEntry]

/-- **A file decides the same each time it is read exactly when no decision hangs
on what its lines leave out.** -/
theorem settled_iff (hostaddr : Fin 4 → Int8) (text : List Byte) :
    (∀ fw fw' : Firewall, ∀ junk junk', fw.spmfw = readList junk hostaddr text →
      fw'.spmfw = readList junk' hostaddr text →
      ∀ peer, firewall fw peer = firewall fw' peer) ↔ Settled hostaddr text := by
  constructor
  · rintro same peer ⟨rule, hr, may⟩
    obtain ⟨buf, hb, line⟩ := mem_fileRules.1 hr
    obtain ⟨k, here⟩ := List.mem_iff_getElem?.1 hb
    let read (junk : SpmFWData) : Firewall := ⟨hostaddr, readList (fun _ => junk) hostaddr text, 0⟩
    have stars : firewall (read fun _ => -1) (some peer) = false :=
      (firewall_readList rfl peer).2
        (.inl ⟨_, mem_spmfwLines.2 ⟨k, buf, rule, here, line, rfl⟩, may.stars⟩)
    rw [same (read fun _ => -1) (read fun _ => -2) _ _ rfl rfl, firewall_readList rfl] at stars
    refine stars.imp_left ?_
    rintro ⟨data, hd, fits⟩
    obtain ⟨k, buf, rule, here, line, rfl⟩ := mem_spmfwLines.1 hd
    exact ⟨rule, mem_fileRules.2 ⟨buf, List.mem_of_getElem? here, line⟩, FwRule.matches_of_odd fits⟩
  · intro settled fw fw' junk junk' list list' peer
    have lets {fw fw' : Firewall} {junk junk' : Nat → SpmFWData}
        (list : fw.spmfw = readList junk hostaddr text)
        (list' : fw'.spmfw = readList junk' hostaddr text) {peer : Peer}
        (pass : firewall fw (some peer) = false) : firewall fw' (some peer) = false := by
      rw [firewall_readList list']
      rcases (firewall_readList list peer).1 pass with ⟨data, hd, fits⟩ | own
      · obtain ⟨k, buf, rule, here, line, rfl⟩ := mem_spmfwLines.1 hd
        have hr := mem_fileRules.2 ⟨buf, List.mem_of_getElem? here, line⟩
        refine (settled peer ⟨rule, hr, FwRule.mayMatch_of_filled fits⟩).imp_left ?_
        rintro ⟨rule', hr', whole⟩
        obtain ⟨buf', hb', line'⟩ := mem_fileRules.1 hr'
        obtain ⟨k', here'⟩ := List.mem_iff_getElem?.1 hb'
        exact ⟨_, mem_spmfwLines.2 ⟨k', buf', rule', here', line', rfl⟩, whole.filled _⟩
      · exact .inr own
    cases peer with
    | none =>
      rw [firewall, firewall, if_neg (by simp [list, readList]), if_neg (by simp [list', readList])]
    | some peer =>
      rw [Bool.eq_iff_iff, ← not_iff_not, Bool.not_eq_true, Bool.not_eq_true]
      exact ⟨lets list list', lets list' list⟩

end UnixProgramming.Ssl
