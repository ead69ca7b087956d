import Mathlib.Algebra.Group.Int.Defs
import Mathlib.Algebra.Group.Nat.Defs
import Mathlib.Data.List.Basic
import UnixProgramming.Runs.Basic

/-!
# Counted strings over a connection

`connection.c` compiled with `Q2`: the Server writes the length of each argument
and the argument, the Client reads them back. A `write` or `read` transfers any
part of what it is asked for, and the two programs take turns in any order.

* `step_framed`: what is on its way is what the Client still waits for;
* `framing`: the strings arrive, in order and inside the Client's buffer;
* `bigWrite_loses`: a `write` of `2^31` bytes or more that is not the last one.
-/

namespace UnixProgramming.Connection

open Runs

abbrev Byte := UInt8

/-! ## Counts -/

/-- `htonl` of the low 32 bits, on a little-endian machine. -/
def htonl (n : Nat) : Nat :=
  n % 256 * 2 ^ 24 + n / 2 ^ 8 % 256 * 2 ^ 16 + n / 2 ^ 16 % 256 * 2 ^ 8 + n / 2 ^ 24 % 256

def ntohl (n : Nat) : Nat := htonl n

/-- The bytes of a `size_t` in memory. -/
def sizeBytes (n : Nat) : List Byte :=
  (List.range 8).map fun i => UInt8.ofNat (n / 256 ^ i)

/-- The `size_t` in these bytes of memory. -/
def sizeValue (bs : List Byte) : Nat := bs.foldr (fun b n => b.toNat + 256 * n) 0

@[simp] theorem sizeBytes_length (n : Nat) : (sizeBytes n).length = 8 := by simp [sizeBytes]

theorem sizeValue_sizeBytes {n : Nat} (h : n < 2 ^ 64) : sizeValue (sizeBytes n) = n := by
  simp only [sizeValue, sizeBytes, List.range, List.range.loop, List.map_cons, List.map_nil,
    List.foldr_cons, List.foldr_nil, UInt8.toNat_ofNat']
  omega

theorem htonl_lt (n : Nat) : htonl n < 2 ^ 32 := by
  unfold htonl
  omega

/-- `htonl` turns four bytes around. -/
theorem htonl_digits {n a b c d : Nat} (ha : a < 256) (hb : b < 256) (hc : c < 256) (hd : d < 256)
    (hn : n = a * 2 ^ 24 + b * 2 ^ 16 + c * 2 ^ 8 + d) :
    htonl n = d * 2 ^ 24 + c * 2 ^ 16 + b * 2 ^ 8 + a := by
  have h0 : n % 256 = d := by omega
  have h1 : n / 2 ^ 8 % 256 = c := by omega
  have h2 : n / 2 ^ 16 % 256 = b := by omega
  have h3 : n / 2 ^ 24 % 256 = a := by omega
  rw [htonl, h0, h1, h2, h3]

theorem ntohl_htonl {n : Nat} (h : n < 2 ^ 32) : ntohl (htonl n) = n := by
  have byte (k : Nat) : k % 256 < 256 := Nat.mod_lt k (by decide)
  rw [ntohl, htonl_digits (byte n) (byte (n / 2 ^ 8)) (byte (n / 2 ^ 16)) (byte (n / 2 ^ 24))
    (by rw [htonl])]
  omega

/-- A count of 32 bits arrives as it was sent. -/
theorem count_arrives {n : Nat} (h : n < 2 ^ 32) : ntohl (sizeValue (sizeBytes (htonl n))) = n := by
  have := htonl_lt n
  rw [sizeValue_sizeBytes (by omega), ntohl_htonl h]

/-! ## The Server -/

/-- The buffers that the Server hands to `Write`, one after the other. -/
def serverWrites (argv : List (List Byte)) : List (List Byte) :=
  (argv.flatMap fun arg => [sizeBytes (htonl (arg.length + 1)), arg ++ [0]]) ++ [sizeBytes 0]

/-- What the loop of `Write` still has to write after a `write` of `n` bytes.
The result is kept in an `int`; if that is negative, `Write` gives up. -/
def writeTurn (m : List Byte) (n : Nat) : List Byte :=
  let ret : Int := (n : Int).bmod (2 ^ 32)
  if ret < 0 then [] else m.drop ret.toNat

/-! ## The Client -/

/-- Bytes stored at `b`, if they lie inside the memory. -/
def store (memory : List Byte) (b : Nat) (bs : List Byte) : Option (List Byte) :=
  if b + bs.length ≤ memory.length then
    some (memory.take b ++ bs ++ memory.drop (b + bs.length))
  else none

/-- The static `buf` and `buflen` of `Client`; `memory` is what was allocated. -/
structure Buffer where
  memory : List Byte
  buflen : Nat

/-- `if(*buflen < recvlen)`: `realloc` or `calloc`. New memory holds `junk`. -/
def Buffer.reserve (junk : Nat → Byte) (buf : Buffer) (recvlen : Nat) : Buffer :=
  if buf.buflen < recvlen then
    ⟨(List.range recvlen).map fun i => buf.memory.getD i (junk i), recvlen⟩
  else buf

/-- Which `Read` the Client is in, and how many bytes it has got. -/
inductive Stage where
  | count (qtyread : List Byte) (got : Nat)
  | string (qtyread got : Nat)
  | closed

/-- How many bytes the next `read` asks for. -/
def Stage.recvlen : Stage → Nat
  | count _ got => 8 - got
  | string qtyread got => qtyread - got
  | closed => 0

structure Client where
  stage : Stage
  buf : Buffer
  rcvd : List (List Byte)
  fault : Bool

/-- A `read` has handed over `u`. -/
def Client.readTurn (junk : Nat → Byte) (c : Client) (u : List Byte) : Client :=
  match c.stage with
  | .count qtyread got =>
    match store qtyread got u with
    | none => { c with fault := true }
    | some qtyread =>
      if got + u.length < 8 then { c with stage := .count qtyread (got + u.length) }
      else if ntohl (sizeValue qtyread) = 0 then { c with stage := .closed }
      else
        { c with
          stage := .string (ntohl (sizeValue qtyread)) 0
          buf := c.buf.reserve junk (ntohl (sizeValue qtyread)) }
  | .string qtyread got =>
    match store c.buf.memory got u with
    | none => { c with fault := true }
    | some memory =>
      if got + u.length < qtyread then
        { c with stage := .string qtyread (got + u.length), buf := ⟨memory, c.buf.buflen⟩ }
      else
        { c with
          stage := .count (sizeBytes qtyread) 0
          buf := ⟨memory, c.buf.buflen⟩
          rcvd := c.rcvd ++ [memory.take qtyread] }
  | .closed => c

/-! ## Both together -/

/-- The rest of the `Write` under way and those to come, the bytes in the
connection, and the Client. -/
structure State where
  sending : List (List Byte)
  stream : List Byte
  client : Client

def start (junk : Nat → Byte) (argv : List (List Byte)) : State :=
  ⟨serverWrites argv, [], ⟨.count ((List.range 8).map junk) 0, ⟨[], 0⟩, [], false⟩⟩

/-- A system call that transfers so many bytes. -/
inductive Transfer where
  | write (n : Nat)
  | read (n : Nat)

def step (junk : Nat → Byte) (s : State) : Transfer → Option State
  | .write n =>
    match s.sending with
    | [] => none
    | m :: ms =>
      if 1 ≤ n ∧ n ≤ m.length then
        some { s with
          sending := if (writeTurn m n).isEmpty then ms else writeTurn m n :: ms
          stream := s.stream ++ m.take n }
      else none
  | .read n =>
    if 1 ≤ n ∧ n ≤ s.client.stage.recvlen ∧ n ≤ s.stream.length then
      some { s with
        stream := s.stream.drop n
        client := s.client.readTurn junk (s.stream.take n) }
    else none

/-! ## What holds at every point -/

theorem store_some (memory bs : List Byte) (b : Nat) (h : b + bs.length ≤ memory.length) :
    ∃ memory', store memory b bs = some memory' ∧ memory'.length = memory.length ∧
      memory'.take (b + bs.length) = memory.take b ++ bs := by
  have hb : (memory.take b ++ bs).length = b + bs.length := by simp; omega
  refine ⟨_, if_pos h, ?_, ?_⟩
  · simp only [List.length_append, List.length_take, List.length_drop]
    omega
  · rw [← hb, List.take_left]

/-- A `write` whose result is negative as an `int` has written the whole rest. -/
def NoneLost (s : State) : Transfer → Prop
  | .write n => ∀ m ∈ s.sending.head?, 2 ^ 31 ≤ n → n = m.length
  | .read _ => True

/-- From `2^31` on the result is negative as an `int`. -/
theorem writeTurn_negative (m : List Byte) {n : Nat} (big : 2 ^ 31 ≤ n) (short : n < 2 ^ 32) :
    writeTurn m n = [] := by
  have negative : (n : Int).bmod (2 ^ 32) < 0 := by
    rw [Int.bmod_def]
    omega
  unfold writeTurn
  rw [if_pos negative]

theorem writeTurn_eq {m : List Byte} {n : Nat} (fits : n ≤ m.length) (short : m.length < 2 ^ 32)
    (whole : 2 ^ 31 ≤ n → n = m.length) : writeTurn m n = m.drop n := by
  by_cases big : 2 ^ 31 ≤ n
  · rw [writeTurn_negative m big (by omega),
      List.drop_of_length_le (Nat.le_of_eq (whole big).symm)]
  · unfold writeTurn
    have same : (n : Int).bmod (2 ^ 32) = n := Int.bmod_eq_of_le (by omega) (by omega)
    have positive : ¬ (n : Int) < 0 := by omega
    rw [same, if_neg positive, Int.toNat_natCast]

theorem writeTurn_length (m : List Byte) (n : Nat) : (writeTurn m n).length ≤ m.length := by
  unfold writeTurn
  dsimp only
  split
  · exact Nat.zero_le _
  · simp

theorem write_some {junk : Nat → Byte} {s s' : State} {n : Nat}
    (h : step junk s (.write n) = some s') : ∃ m ms, s.sending = m :: ms ∧ 1 ≤ n ∧ n ≤ m.length ∧
      s' = ⟨if (writeTurn m n).isEmpty then ms else writeTurn m n :: ms,
        s.stream ++ m.take n, s.client⟩ := by
  unfold step at h
  dsimp only at h
  split at h
  · cases h
  · rename_i m ms sending
    split at h
    · rename_i fits
      exact ⟨m, ms, sending, fits.1, fits.2, (Option.some.inj h).symm⟩
    · cases h

theorem read_some {junk : Nat → Byte} {s s' : State} {n : Nat}
    (h : step junk s (.read n) = some s') :
    1 ≤ n ∧ n ≤ s.client.stage.recvlen ∧ n ≤ s.stream.length ∧
      s' = ⟨s.sending, s.stream.drop n, s.client.readTurn junk (s.stream.take n)⟩ := by
  unfold step at h
  dsimp only at h
  split at h
  · rename_i fits
    exact ⟨fits.1, fits.2.1, fits.2.2, (Option.some.inj h).symm⟩
  · cases h

theorem reserve_length (junk : Nat → Byte) (buf : Buffer) (h : buf.buflen = buf.memory.length)
    (recvlen : Nat) : recvlen ≤ (buf.reserve junk recvlen).memory.length ∧
      (buf.reserve junk recvlen).buflen = (buf.reserve junk recvlen).memory.length := by
  unfold Buffer.reserve
  split
  · simp
  · exact ⟨by omega, h⟩

/-! ### Payloads -/

/-- Each payload behind its length, and a zero count behind them all. -/
def framed (payloads : List (List Byte)) : List Byte :=
  payloads.flatMap (fun p => sizeBytes (htonl p.length) ++ p) ++ sizeBytes 0

/-- Payloads whose lengths can be told from a zero count. -/
def Sendable (payloads : List (List Byte)) : Prop := ∀ p ∈ payloads, p ≠ [] ∧ p.length < 2 ^ 32

/-- What the Client has got of what it is reading, with `rest` to come, for
the payloads `todo` that it has not got yet. -/
def Expects (todo : List (List Byte)) (memory rest : List Byte) : Stage → Prop
  | .count qtyread got =>
    qtyread.length = 8 ∧ got < 8 ∧ qtyread.take got ++ rest = framed todo
  | .string qtyread got =>
    ∃ p todo', todo = p :: todo' ∧ qtyread = p.length ∧ got < qtyread ∧
      qtyread ≤ memory.length ∧ memory.take got ++ rest = p ++ framed todo'
  | .closed => todo = [] ∧ rest = []

structure Framed (payloads : List (List Byte)) (s : State) : Prop where
  sizes : ∀ m ∈ s.sending, m ≠ [] ∧ m.length < 2 ^ 32
  inside : s.client.fault = false
  buflen : s.client.buf.buflen = s.client.buf.memory.length
  expects : ∃ todo, payloads = s.client.rcvd ++ todo ∧
    Expects todo s.client.buf.memory (s.stream ++ s.sending.flatten) s.client.stage

theorem framed_nil : framed [] = sizeBytes 0 := rfl

theorem framed_cons (p : List Byte) (ps : List (List Byte)) :
    framed (p :: ps) = sizeBytes (htonl p.length) ++ (p ++ framed ps) := by
  simp [framed]

theorem framed_length (ps : List (List Byte)) : 8 ≤ (framed ps).length := by
  simp [framed]

theorem framed_split {todo : List (List Byte)} {count rest : List Byte} (eight : count.length = 8)
    (h : count ++ rest = framed todo) :
    (todo = [] ∧ count = sizeBytes 0 ∧ rest = []) ∨
      ∃ p todo', todo = p :: todo' ∧ count = sizeBytes (htonl p.length) ∧
        rest = p ++ framed todo' := by
  cases todo with
  | nil =>
    rw [framed_nil, ← List.append_nil (sizeBytes 0)] at h
    obtain ⟨hc, hr⟩ := List.append_inj h (by simp [eight])
    exact .inl ⟨rfl, hc, hr⟩
  | cons p todo' =>
    rw [framed_cons] at h
    obtain ⟨hc, hr⟩ := List.append_inj h (by simp [eight])
    exact .inr ⟨p, todo', rfl, hc, hr⟩

section
variable {junk : Nat → Byte} {payloads todo : List (List Byte)} {s s' : State} {c : Client}
  {u rest : List Byte} {qtyread : List Byte} {n got : Nat}

/-- A `write` that loses nothing only moves bytes into the connection. -/
theorem write_rest {m : List Byte} {ms : List (List Byte)}
    (sizes : ∀ m ∈ s.sending, m ≠ [] ∧ m.length < 2 ^ 32) (whole : NoneLost s (.write n))
    (sending : s.sending = m :: ms) (fits : n ≤ m.length) :
    m.take n ++ (if (writeTurn m n).isEmpty then ms else writeTurn m n :: ms).flatten =
      s.sending.flatten := by
  have rest : writeTurn m n = m.drop n := by
    refine writeTurn_eq fits (sizes m (by simp [sending])).2 ?_
    simpa [NoneLost, sending] using whole
  rw [rest, sending]
  split
  · rename_i last
    rw [List.take_of_length_le (List.drop_eq_nil_iff.1 (List.isEmpty_iff.1 last))]
    rfl
  · rw [List.flatten_cons, List.flatten_cons, ← List.append_assoc, List.take_append_drop]

theorem write_framed (h : Framed payloads s) (whole : NoneLost s (.write n))
    (hs : step junk s (.write n) = some s') : Framed payloads s' := by
  obtain ⟨m, ms, sending, -, fits, rfl⟩ := write_some hs
  have same := write_rest h.sizes whole sending fits
  obtain ⟨todo, split', expects⟩ := h.expects
  refine ⟨?_, h.inside, h.buflen, todo, split', ?_⟩
  · intro m' hm'
    have sizes := h.sizes m (by simp [sending])
    dsimp only at hm'
    split at hm'
    · exact h.sizes m' (by simp [sending, hm'])
    · rename_i more
      rcases List.mem_cons.1 hm' with first | later
      · rw [first]
        exact ⟨List.isEmpty_iff.not.1 more, Nat.lt_of_le_of_lt (writeTurn_length m n) sizes.2⟩
      · exact h.sizes m' (by simp [sending, later])
  · rw [List.append_assoc, same]
    exact expects

/-- A `read` of the count. -/
theorem count_turn (junk : Nat → Byte) (stage : c.stage = .count qtyread got)
    (sendable : Sendable todo) (hu : u.length ≤ 8 - got)
    (buflen : c.buf.buflen = c.buf.memory.length)
    (expects : Expects todo c.buf.memory (u ++ rest) c.stage) :
    (c.readTurn junk u).fault = c.fault ∧ (c.readTurn junk u).rcvd = c.rcvd ∧
      (c.readTurn junk u).buf.buflen = (c.readTurn junk u).buf.memory.length ∧
      Expects todo (c.readTurn junk u).buf.memory rest (c.readTurn junk u).stage := by
  rw [stage] at expects
  obtain ⟨eight, inside, same⟩ := expects
  obtain ⟨qtyread', stored, length', take'⟩ :=
    store_some qtyread u got (by omega)
  rw [← List.append_assoc, ← take'] at same
  by_cases more : got + u.length < 8
  · simp only [Client.readTurn, stage, stored, if_pos more]
    exact ⟨trivial, trivial, buflen, by omega, more, same⟩
  have all : qtyread'.take (got + u.length) = qtyread' := List.take_of_length_le (by omega)
  rw [all] at same
  rcases framed_split (by omega) same with ⟨rfl, rfl, rfl⟩ | ⟨p, todo', rfl, rfl, rfl⟩
  · have zero : ntohl (sizeValue (sizeBytes 0)) = 0 := by decide
    simp only [Client.readTurn, stage, stored, if_neg more, if_pos zero]
    exact ⟨trivial, trivial, buflen, rfl, rfl⟩
  · obtain ⟨some', short⟩ := sendable p List.mem_cons_self
    have count := count_arrives short
    have positive : 0 < p.length := List.length_pos_iff.2 some'
    have nonzero : p.length ≠ 0 := Nat.ne_of_gt positive
    obtain ⟨enough, buflen'⟩ := reserve_length junk c.buf buflen p.length
    simp only [Client.readTurn, stage, stored, if_neg more, count, if_neg nonzero]
    exact ⟨trivial, trivial, buflen', p, todo', rfl, rfl, positive, enough, by simp⟩

/-- A `read` of a payload; the last one of it completes the payload. -/
theorem string_turn (junk : Nat → Byte) {qtyread : Nat} (stage : c.stage = .string qtyread got)
    (hu : u.length ≤ qtyread - got) (buflen : c.buf.buflen = c.buf.memory.length)
    (expects : Expects todo c.buf.memory (u ++ rest) c.stage) :
    (c.readTurn junk u).fault = c.fault ∧
      (c.readTurn junk u).buf.buflen = (c.readTurn junk u).buf.memory.length ∧
      ∃ now later, todo = now ++ later ∧ (c.readTurn junk u).rcvd = c.rcvd ++ now ∧
        Expects later (c.readTurn junk u).buf.memory rest (c.readTurn junk u).stage := by
  rw [stage] at expects
  obtain ⟨p, todo', rfl, size, inside, enough, same⟩ := expects
  obtain ⟨memory', stored, length', take'⟩ :=
    store_some c.buf.memory u got (by omega)
  rw [← List.append_assoc, ← take'] at same
  by_cases more : got + u.length < qtyread
  · simp only [Client.readTurn, stage, stored, if_pos more]
    refine ⟨trivial, by rw [buflen, length'], [], p :: todo', rfl, by simp, ?_⟩
    exact ⟨p, todo', rfl, size, more, by omega, same⟩
  have last : got + u.length = qtyread := by omega
  rw [last] at same
  obtain ⟨payload, rest'⟩ := List.append_inj same (by simp; omega)
  simp only [Client.readTurn, stage, stored, if_neg more]
  refine ⟨trivial, by rw [buflen, length'], [p], todo', rfl, by simp [payload], ?_⟩
  exact ⟨by simp, by omega, by simp [rest']⟩

theorem read_framed (sendable : Sendable payloads) (h : Framed payloads s)
    (hs : step junk s (.read n) = some s') : Framed payloads s' := by
  obtain ⟨positive, asked, there, rfl⟩ := read_some hs
  have hu : (s.stream.take n).length = n := by simp [there]
  obtain ⟨todo, split', expects⟩ := h.expects
  have rest : s.stream ++ s.sending.flatten =
      s.stream.take n ++ (s.stream.drop n ++ s.sending.flatten) := by
    rw [← List.append_assoc, List.take_append_drop]
  rw [rest] at expects
  cases stage : s.client.stage with
  | count qtyread got =>
    rw [stage, Stage.recvlen] at asked
    obtain ⟨fault, rcvd, buflen, expects'⟩ := count_turn junk stage
      (fun p later => sendable p (by simp [split', later])) (by omega) h.buflen expects
    exact ⟨h.sizes, fault.trans h.inside, buflen, todo, by rw [rcvd, ← split'], expects'⟩
  | string qtyread got =>
    rw [stage, Stage.recvlen] at asked
    obtain ⟨fault, buflen, now, later, parts, rcvd, expects'⟩ :=
      string_turn junk stage (by omega) h.buflen expects
    refine ⟨h.sizes, fault.trans h.inside, buflen, later, ?_, expects'⟩
    rw [rcvd, split', parts, List.append_assoc]
  | closed =>
    rw [stage, Stage.recvlen] at asked
    omega

/-- **Step.** A transfer that loses nothing keeps what is on its way equal to
what the Client still waits for. -/
theorem step_framed {a : Transfer} (sendable : Sendable payloads) (h : Framed payloads s)
    (whole : NoneLost s a) (hs : step junk s a = some s') : Framed payloads s' := by
  cases a with
  | write n => exact write_framed h whole hs
  | read n => exact read_framed sendable h hs

/-! ### Runs -/

/-- The transfers that are still possible. -/
def State.effort (s : State) : Nat := 2 * s.sending.flatten.length + s.stream.length

theorem step_effort {a : Transfer} (sizes : ∀ m ∈ s.sending, m ≠ [] ∧ m.length < 2 ^ 32)
    (whole : NoneLost s a) (hs : step junk s a = some s') : s'.effort + 1 ≤ s.effort := by
  cases a with
  | write n =>
    obtain ⟨m, ms, sending, positive, fits, rfl⟩ := write_some hs
    have same := congrArg List.length (write_rest sizes whole sending fits)
    simp only [List.length_append, List.length_take, Nat.min_eq_left fits] at same
    simp only [State.effort, List.length_append, List.length_take, Nat.min_eq_left fits]
    omega
  | read n =>
    obtain ⟨positive, -, there, rfl⟩ := read_some hs
    simp only [State.effort, List.length_drop]
    omega

theorem run_framed {acts : List Transfer} (sendable : Sendable payloads) (h : Framed payloads s)
    (whole : Along (step junk) NoneLost s acts) (hr : run (step junk) s acts = some s') :
    Framed payloads s' ∧ s'.effort + acts.length ≤ s.effort := by
  induction acts generalizing s with
  | nil =>
    cases hr
    exact ⟨h, Nat.le_refl _⟩
  | cons a acts ih =>
    obtain ⟨t, ht, hr⟩ := run_cons_some hr
    obtain ⟨here, later⟩ := whole t ht
    obtain ⟨framed, bound⟩ := ih (step_framed sendable h here ht) later hr
    have := step_effort h.sizes here ht
    exact ⟨framed, by rw [List.length_cons]; omega⟩

theorem Expects.asks {memory : List Byte} {stage : Stage} (h : Expects todo memory rest stage)
    (waits : stage ≠ .closed) : 1 ≤ stage.recvlen := by
  cases stage with
  | count qtyread got =>
    obtain ⟨-, inside, -⟩ := h
    rw [Stage.recvlen]
    omega
  | string qtyread got =>
    obtain ⟨p, todo', -, -, inside, -⟩ := h
    rw [Stage.recvlen]
    omega
  | closed => exact absurd rfl waits

/-- The Client does not wait for nothing. -/
theorem Expects.closed {memory : List Byte} {stage : Stage} (h : Expects todo memory [] stage) :
    stage = .closed := by
  cases stage with
  | count qtyread got =>
    obtain ⟨-, inside, same⟩ := h
    have lengths := congrArg List.length same
    have most := framed_length todo
    simp only [List.append_nil, List.length_take] at lengths
    omega
  | string qtyread got =>
    obtain ⟨p, todo', -, size, inside, -, same⟩ := h
    have lengths := congrArg List.length same
    simp only [List.append_nil, List.length_append, List.length_take] at lengths
    omega
  | closed => rfl

/-- As long as the Client has not stopped, a transfer is possible. -/
theorem Framed.progress (h : Framed payloads s) (stuck : ∀ a, step junk s a = none) :
    s.client.stage = .closed := by
  have written : s.sending = [] := by
    cases sending : s.sending with
    | nil => rfl
    | cons m ms =>
      have : 0 < m.length := List.length_pos_iff.2 (h.sizes m (by simp [sending])).1
      have possible := stuck (.write 1)
      simp only [step, sending] at possible
      rw [if_pos ⟨Nat.le_refl 1, this⟩] at possible
      cases possible
  obtain ⟨todo, -, expects⟩ := h.expects
  rw [written, List.flatten_nil, List.append_nil] at expects
  by_contra waits
  have blocked : ¬ 1 ≤ s.stream.length := by
    intro there
    have possible := stuck (.read 1)
    simp only [step] at possible
    rw [if_pos ⟨Nat.le_refl 1, expects.asks waits, there⟩] at possible
    cases possible
  rw [List.length_eq_zero_iff.1 (by omega : s.stream.length = 0)] at expects
  exact waits expects.closed

/-- When the Client has stopped, it has all payloads and there is nothing left. -/
theorem Framed.stopped (h : Framed payloads s) (closed : s.client.stage = .closed) :
    s.client.rcvd = payloads ∧ s.stream = [] ∧ s.sending.flatten = [] := by
  obtain ⟨todo, split', expects⟩ := h.expects
  rw [closed] at expects
  obtain ⟨rfl, rest⟩ := expects
  rw [List.append_nil] at split'
  exact ⟨split'.symm, List.append_eq_nil_iff.1 rest⟩

end

/-! ## Strings -/

/-- The bytes that the Server writes for these arguments. -/
def wire (argv : List (List Byte)) : List Byte := (serverWrites argv).flatten

theorem wire_eq (argv : List (List Byte)) : wire argv = framed (argv.map (· ++ [0])) := by
  induction argv with
  | nil => rfl
  | cons arg argv ih =>
    simp only [wire, serverWrites] at ih
    simp [wire, serverWrites, framed_cons, ← ih]

/-- What the Client has got of what it is reading, with `rest` to come, for
the strings `todo` that it has not got yet. -/
def Awaits (todo : List (List Byte)) (memory rest : List Byte) : Stage → Prop
  | .count qtyread got =>
    qtyread.length = 8 ∧ got < 8 ∧ qtyread.take got ++ rest = wire todo
  | .string qtyread got =>
    ∃ arg todo', todo = arg :: todo' ∧ qtyread = arg.length + 1 ∧ got < qtyread ∧
      qtyread ≤ memory.length ∧ memory.take got ++ rest = arg ++ [0] ++ wire todo'
  | .closed => todo = [] ∧ rest = []

structure Sound (argv : List (List Byte)) (s : State) : Prop where
  sizes : ∀ m ∈ s.sending, m ≠ [] ∧ m.length < 2 ^ 32
  inside : s.client.fault = false
  buflen : s.client.buf.buflen = s.client.buf.memory.length
  awaits : ∃ done todo, argv = done ++ todo ∧ s.client.rcvd = done.map (· ++ [0]) ∧
    Awaits todo s.client.buf.memory (s.stream ++ s.sending.flatten) s.client.stage

theorem awaits_iff {todo : List (List Byte)} {memory rest : List Byte} {stage : Stage} :
    Awaits todo memory rest stage ↔ Expects (todo.map (· ++ [0])) memory rest stage := by
  cases stage with
  | count qtyread got => rw [Awaits, Expects, wire_eq]
  | string qtyread got =>
    constructor
    · rintro ⟨arg, todo', rfl, size, inside, enough, same⟩
      refine ⟨arg ++ [0], todo'.map (· ++ [0]), rfl, ?_, inside, enough, ?_⟩
      · rw [List.length_append, List.length_singleton, size]
      · rw [same, wire_eq]
    · rintro ⟨p, todo'', split', size, inside, enough, same⟩
      obtain ⟨arg, todo', rfl, rfl, rfl⟩ := List.map_eq_cons_iff.1 split'
      rw [List.length_append, List.length_singleton] at size
      exact ⟨arg, todo', rfl, size, inside, enough, by rw [same, wire_eq]⟩
  | closed => rw [Awaits, Expects, List.map_eq_nil_iff]

/-- The strings are the payloads, each with its NUL. -/
theorem sound_iff {argv : List (List Byte)} {s : State} :
    Sound argv s ↔ Framed (argv.map (· ++ [0])) s := by
  constructor
  · intro h
    obtain ⟨done, todo, split', rcvd, awaits⟩ := h.awaits
    exact ⟨h.sizes, h.inside, h.buflen, todo.map (· ++ [0]), by rw [split', rcvd, List.map_append],
      awaits_iff.1 awaits⟩
  · intro h
    obtain ⟨todo', split', expects⟩ := h.expects
    obtain ⟨done, todo, parts, rcvd, rfl⟩ := List.map_eq_append_iff.1 split'
    exact ⟨h.sizes, h.inside, h.buflen, done, todo, parts, rcvd.symm, awaits_iff.2 expects⟩

theorem start_sound (junk : Nat → Byte) {argv : List (List Byte)}
    (short : ∀ arg ∈ argv, arg.length + 1 < 2 ^ 32) : Sound argv (start junk argv) where
  sizes := by
    intro m hm
    simp only [start, serverWrites, List.mem_append, List.mem_flatMap, List.mem_cons,
      List.not_mem_nil, or_false] at hm
    rcases hm with ⟨arg, given, rfl | rfl⟩ | rfl
    · exact ⟨by simp [sizeBytes], by simp⟩
    · exact ⟨by simp, by simpa using short arg given⟩
    · exact ⟨by simp [sizeBytes], by simp⟩
  inside := rfl
  buflen := rfl
  awaits := ⟨[], argv, rfl, rfl, by simp, by decide, by simp [start, wire]⟩

theorem strings_sendable {argv : List (List Byte)}
    (short : ∀ arg ∈ argv, arg.length + 1 < 2 ^ 32) : Sendable (argv.map (· ++ [0])) := by
  intro p mem
  obtain ⟨arg, given, rfl⟩ := List.mem_map.1 mem
  exact ⟨by simp, by simpa using short arg given⟩

theorem run_sound {argv : List (List Byte)} {junk : Nat → Byte} {s s' : State}
    {acts : List Transfer} (short : ∀ arg ∈ argv, arg.length + 1 < 2 ^ 32) (h : Sound argv s)
    (whole : Along (step junk) NoneLost s acts) (hr : run (step junk) s acts = some s') :
    Sound argv s' ∧ s'.effort + acts.length ≤ s.effort := by
  obtain ⟨framed, bound⟩ := run_framed (strings_sendable short) (sound_iff.1 h) whole hr
  exact ⟨sound_iff.2 framed, bound⟩

/-- What the Client makes of the arguments, at any point of a run. -/
structure Right (argv : List (List Byte)) (s : State) : Prop where
  rcvd : s.client.rcvd <+: argv.map (· ++ [0])
  inside : s.client.fault = false
  allocated : s.client.buf.buflen ≤ s.client.buf.memory.length
  stopped : s.client.stage = .closed →
    s.client.rcvd = argv.map (· ++ [0]) ∧ s.stream = [] ∧ s.sending.flatten = []

theorem Sound.right {argv : List (List Byte)} {s : State} (h : Sound argv s) : Right argv s := by
  obtain ⟨done, todo, split', rcvd, -⟩ := h.awaits
  refine ⟨?_, h.inside, Nat.le_of_eq h.buflen, (sound_iff.1 h).stopped⟩
  rw [rcvd, split', List.map_append]
  exact List.prefix_append _ _

/-- **Framing.** If no `write` of `2^31` bytes or more leaves something to
write, the Client receives the arguments one by one, inside its buffer; the
transfers come to an end, and then it has stopped at the zero count. -/
theorem framing {argv : List (List Byte)} {junk : Nat → Byte} {acts : List Transfer} {s : State}
    (short : ∀ arg ∈ argv, arg.length < 2 ^ 32 - 1)
    (hr : run (step junk) (start junk argv) acts = some s)
    (whole : Along (step junk) NoneLost (start junk argv) acts) :
    Right argv s ∧ acts.length ≤ 2 * (wire argv).length ∧
      ((∀ a, step junk s a = none) → s.client.stage = .closed) := by
  have short' : ∀ arg ∈ argv, arg.length + 1 < 2 ^ 32 := fun arg given => by
    have := short arg given
    omega
  obtain ⟨sound, bound⟩ := run_sound short' (start_sound junk short') whole hr
  refine ⟨sound.right, ?_, (sound_iff.1 sound).progress⟩
  have total : (start junk argv).effort = 2 * (wire argv).length := rfl
  omega

/-- Nothing is lost where every `write` is small, as on Linux. -/
theorem small_noneLost {step : State → Transfer → Option State} {s : State} {acts : List Transfer}
    (small : ∀ n, .write n ∈ acts → n < 2 ^ 31) : Along step NoneLost s acts := by
  induction acts generalizing s with
  | nil => trivial
  | cons a acts ih =>
    refine fun t _ => ⟨?_, ih fun n later => small n (List.mem_cons_of_mem _ later)⟩
    cases a with
    | write n =>
      intro m _ big
      have := small n List.mem_cons_self
      omega
    | read n => trivial

theorem framing_hi : ∃ s, run (step fun _ => 7) (start (fun _ => 7) [[104, 105]])
    [.write 3, .write 5, .read 7, .write 1, .read 1, .write 2, .write 8, .read 2, .read 1, .read 5,
      .read 3] = some s ∧ Right [[104, 105]] s := by
  obtain ⟨s, hs⟩ := Option.isSome_iff_exists.1 (show (run (step fun _ => 7)
    (start (fun _ => 7) [[104, 105]]) [.write 3, .write 5, .read 7, .write 1, .read 1, .write 2,
      .write 8, .read 2, .read 1, .read 5, .read 3]).isSome by decide)
  exact ⟨s, hs, (framing (by decide) hs (small_noneLost (by simp +contextual))).1⟩

/-! ## A write that is too large for an `int` -/

theorem write_turn {junk : Nat → Byte} {m : List Byte} {ms : List (List Byte)} {stream : List Byte}
    {c : Client} {n : Nat} (positive : 1 ≤ n) (fits : n ≤ m.length) (ended : writeTurn m n = []) :
    step junk ⟨m :: ms, stream, c⟩ (.write n) = some ⟨ms, stream ++ m.take n, c⟩ := by
  rw [step]
  dsimp only
  rw [if_pos ⟨positive, fits⟩, ended]
  rfl

theorem read_turn {junk : Nat → Byte} {sending : List (List Byte)} {u stream : List Byte}
    {c : Client} {n : Nat} (hu : u.length = n) (positive : 1 ≤ n) (asked : n ≤ c.stage.recvlen) :
    step junk ⟨sending, u ++ stream, c⟩ (.read n) = some ⟨sending, stream, c.readTurn junk u⟩ := by
  have there : n ≤ (u ++ stream).length := by simp [hu]
  rw [step]
  dsimp only
  rw [if_pos ⟨positive, asked, there⟩, ← hu, List.take_left, List.drop_left]

/-- The `write` of the first bytes returns a negative `int`, and `Write` gives up. -/
theorem bigWrite_sent (junk : Nat → Byte) {front : List Byte} (last : Byte)
    (big : 2 ^ 31 ≤ front.length) (short : front.length + 2 < 2 ^ 32) :
    run (step junk) (start junk [front ++ [last]]) [.write 8, .write front.length, .write 8] =
      some ⟨[], sizeBytes (htonl (front.length + 2)) ++ (front ++ [0, 0] ++ List.replicate 6 0),
        (start junk []).client⟩ := by
  have whole (n : Nat) : writeTurn (sizeBytes n) 8 = [] := by
    rw [writeTurn_eq (by simp) (by simp) (by simp)]
    simp
  have lost : writeTurn (front ++ [last] ++ [0]) front.length = [] :=
    writeTurn_negative _ big (by omega)
  have taken : (front ++ [last] ++ [0]).take front.length = front := by simp
  have zeros : sizeBytes 0 = [0, 0] ++ List.replicate 6 0 := rfl
  have start' : start junk [front ++ [last]] =
      ⟨[sizeBytes (htonl (front.length + 2)), front ++ [last] ++ [0], sizeBytes 0], [],
        (start junk []).client⟩ := by
    simp [start, serverWrites]
  rw [start', run, write_turn (by decide) (by simp) (whole _), Option.bind_some, run,
    write_turn (by omega) (by simp) lost, Option.bind_some, taken, run,
    write_turn (by decide) (by simp) (whole _), Option.bind_some, run_nil,
    List.take_of_length_le (by simp), List.take_of_length_le (by simp), zeros]
  simp

/-- The Client takes the next count for the end of the string. -/
theorem bigWrite_rcvd (junk : Nat → Byte) {string : List Byte} (rest : List Byte)
    (nonempty : string ≠ [])
    (short : string.length < 2 ^ 32) :
    ∃ s, run (step junk) ⟨[], sizeBytes (htonl string.length) ++ (string ++ rest),
      (start junk []).client⟩ [.read 8, .read string.length] = some s ∧
      s.client.rcvd = [string] := by
  have size : 1 ≤ string.length := List.length_pos_iff.2 nonempty
  have nonzero : string.length ≠ 0 := by omega
  obtain ⟨qtyread, stored, eight, qtyread'⟩ :=
    store_some ((List.range 8).map junk) (sizeBytes (htonl string.length)) 0 (by simp)
  have enough := (reserve_length junk ⟨[], 0⟩ rfl string.length).1
  obtain ⟨memory, stored', -, memory'⟩ :=
    store_some ((⟨[], 0⟩ : Buffer).reserve junk string.length).memory string 0 (by omega)
  have arrived : ntohl (sizeValue qtyread) = string.length := by
    have : qtyread = sizeBytes (htonl string.length) := by
      rw [List.take_of_length_le (by simp [eight])] at qtyread'
      exact qtyread'
    rw [this, count_arrives short]
  have counted : (start junk []).client.readTurn junk (sizeBytes (htonl string.length)) =
      ⟨.string string.length 0, (⟨[], 0⟩ : Buffer).reserve junk string.length, [], false⟩ := by
    simp only [start, Client.readTurn, stored, sizeBytes_length, arrived, if_neg nonzero]
    rfl
  have filled : (((start junk []).client.readTurn junk
      (sizeBytes (htonl string.length))).readTurn junk string).rcvd = [string] := by
    rw [List.take_zero, List.nil_append, Nat.zero_add] at memory'
    rw [counted]
    simp only [Client.readTurn, stored', Nat.zero_add, Nat.lt_irrefl, if_false, memory']
    rfl
  refine ⟨⟨[], rest, ((start junk []).client.readTurn junk
    (sizeBytes (htonl string.length))).readTurn junk string⟩, ?_, filled⟩
  rw [run, read_turn (by simp) (by decide) (Nat.le_refl 8), Option.bind_some, run,
    read_turn rfl size (by rw [counted]; exact Nat.le_refl _), Option.bind_some, run_nil]

/-- The argument of `2^31 + 1` bytes, of which the first `write` takes `2^31`. -/
theorem bigWrite_loses : ∃ s, run (step fun _ => 0)
    (start (fun _ => 0) [List.replicate (2 ^ 31) 97 ++ [98]])
      ([.write 8, .write (2 ^ 31), .write 8] ++ [.read 8, .read (2 ^ 31 + 2)]) = some s ∧
    ¬ Right [List.replicate (2 ^ 31) 97 ++ [98]] s := by
  obtain ⟨front, hf⟩ : ∃ front : List Byte, front = List.replicate (2 ^ 31) 97 := ⟨_, rfl⟩
  have size : front.length = 2 ^ 31 := by rw [hf, List.length_replicate]
  have size' : (front ++ [0, 0] : List Byte).length = 2 ^ 31 + 2 := by
    rw [List.length_append, size]
    rfl
  have sent := bigWrite_sent (fun _ => 0) 98 (show 2 ^ 31 ≤ front.length by omega) (by omega)
  obtain ⟨s, hs, rcvd⟩ := bigWrite_rcvd (fun _ => 0) (List.replicate 6 0)
    (show front ++ [0, 0] ≠ [] by simp) (by omega)
  rw [size] at sent
  rw [size'] at hs
  rw [← hf]
  refine ⟨s, ?_, fun right => ?_⟩
  · rw [run_append, sent]
    exact hs
  · have same := right.rcvd
    rw [rcvd] at same
    simp at same

end UnixProgramming.Connection
