import UnixProgramming.Solns.Connection

/-!
# Packets over a connection

`connection.c` compiled without `Q2`: the Server writes `qtymsg` messages of
`pktsiz` bytes, each behind its size, and then a zero count; the Client is that
of the strings.

- `serverPackets_flatten`: the messages are framed as the strings are;
- `packets`: the sizes and numbers of messages that arrive.
-/

namespace UnixProgramming.Packets

open Runs Connection

/-- `for(cnt= 0; cnt < qtymsg; ++cnt)`: the buffers for `Write`. -/
def serverLoop (npktsiz : Nat) (pktbuf : List Byte) : Nat → List (List Byte)
  | 0 => []
  | qtymsg + 1 =>
    sizeBytes npktsiz :: pktbuf.take (ntohl npktsiz) :: serverLoop npktsiz pktbuf qtymsg

/-- All buffers of the Server, one after the other. -/
def serverPackets (pktsiz qtymsg : Nat) : List (List Byte) :=
  serverLoop (htonl pktsiz) (List.replicate pktsiz 97) qtymsg ++ [sizeBytes 0]

def start (junk : Nat → Byte) (pktsiz qtymsg : Nat) : State :=
  { Connection.start junk [] with sending := serverPackets pktsiz qtymsg }

/-- A `Write` of no bytes makes one `write`, of no bytes. -/
def step (junk : Nat → Byte) (s : State) : Transfer → Option State
  | .write 0 =>
    match s.sending with
    | [] :: ms => some { s with sending := ms }
    | _ => none
  | a => Connection.step junk s a

/-! ## What is to arrive -/

/-- The messages, and nothing else. -/
def messages (pktsiz qtymsg : Nat) : List (List Byte) :=
  List.replicate qtymsg (List.replicate pktsiz 97)

/-- The Client has read some of the messages; when it stops, all of them, and
the Server has written everything. -/
structure Delivered (pktsiz qtymsg : Nat) (s : State) : Prop where
  rcvd : s.client.rcvd <+: messages pktsiz qtymsg
  inside : s.client.fault = false
  stopped : s.client.stage = .closed →
    s.client.rcvd = messages pktsiz qtymsg ∧ s.stream = [] ∧ s.sending = []

section
variable {junk : Nat → Byte} {pktsiz qtymsg : Nat} {payloads : List (List Byte)} {s s' : State}
  {acts : List Transfer}

theorem serverLoop_flatten (size : pktsiz < 2 ^ 32) (qtymsg : Nat) :
    (serverLoop (htonl pktsiz) (List.replicate pktsiz 97) qtymsg).flatten ++ sizeBytes 0 =
      framed (messages pktsiz qtymsg) := by
  induction qtymsg with
  | zero => rfl
  | succ qtymsg ih =>
    rw [messages] at ih ⊢
    rw [List.replicate_succ, framed_cons, ← ih, serverLoop, ntohl_htonl size]
    simp

/-- **The messages are framed** as the Client takes them apart. -/
theorem serverPackets_flatten (size : pktsiz < 2 ^ 32) (qtymsg : Nat) :
    (serverPackets pktsiz qtymsg).flatten = framed (messages pktsiz qtymsg) := by
  rw [serverPackets, List.flatten_append, List.flatten_singleton, serverLoop_flatten size]

theorem serverLoop_sizes (size : pktsiz < 2 ^ 32) (some' : pktsiz ≠ 0) :
    ∀ m ∈ serverLoop (htonl pktsiz) (List.replicate pktsiz 97) qtymsg,
      m ≠ [] ∧ m.length < 2 ^ 32 := by
  induction qtymsg with
  | zero => exact nofun
  | succ qtymsg ih =>
    rw [serverLoop, ntohl_htonl size, List.take_of_length_le (by simp)]
    refine List.forall_mem_cons.2 ⟨⟨by simp [sizeBytes], by simp⟩, List.forall_mem_cons.2 ⟨?_, ih⟩⟩
    rw [List.length_replicate]
    exact ⟨mt (List.replicate_eq_nil_iff _).1 some', size⟩

theorem serverPackets_sizes (size : pktsiz < 2 ^ 32) (told : pktsiz ≠ 0 ∨ qtymsg = 0) :
    ∀ m ∈ serverPackets pktsiz qtymsg, m ≠ [] ∧ m.length < 2 ^ 32 := by
  intro m mem
  rcases List.mem_append.1 mem with message | last
  · rcases told with some' | rfl
    · exact serverLoop_sizes size some' m message
    · cases message
  · rw [List.mem_singleton.1 last]
    exact ⟨by simp [sizeBytes], by simp⟩

theorem messages_sendable (size : pktsiz < 2 ^ 32) (told : pktsiz ≠ 0 ∨ qtymsg = 0) :
    Sendable (messages pktsiz qtymsg) := by
  intro p mem
  obtain ⟨many, rfl⟩ := List.mem_replicate.1 mem
  rw [List.length_replicate]
  exact ⟨mt (List.replicate_eq_nil_iff _).1 (told.resolve_right many), size⟩

theorem start_framed (junk : Nat → Byte) (size : pktsiz < 2 ^ 32)
    (told : pktsiz ≠ 0 ∨ qtymsg = 0) :
    Framed (messages pktsiz qtymsg) (start junk pktsiz qtymsg) where
  sizes := serverPackets_sizes size told
  inside := rfl
  buflen := rfl
  expects := ⟨messages pktsiz qtymsg, rfl, by simp, by decide, serverPackets_flatten size qtymsg⟩

theorem step_write (n : Nat) :
    step junk s (.write (n + 1)) = Connection.step junk s (.write (n + 1)) := rfl

theorem step_read (n : Nat) : step junk s (.read n) = Connection.step junk s (.read n) := rfl

/-- Where nothing is empty, the steps are those for the strings. -/
theorem step_eq (h : Framed payloads s) (a : Transfer) :
    step junk s a = Connection.step junk s a := by
  match a with
  | .read n => exact step_read n
  | .write (n + 1) => exact step_write n
  | .write 0 =>
    rw [step, Connection.step]
    cases sending : s.sending with
    | nil => rfl
    | cons m ms =>
      have some' := (h.sizes m (by simp [sending])).1
      cases m with
      | nil => exact absurd rfl some'
      | cons c m => rfl

theorem run_eq (sendable : Sendable payloads) (h : Framed payloads s)
    (whole : Along (step junk) NoneLost s acts) (hr : run (step junk) s acts = some s') :
    Along (Connection.step junk) NoneLost s acts ∧ run (Connection.step junk) s acts = some s' := by
  induction acts generalizing s with
  | nil => exact ⟨trivial, hr⟩
  | cons a acts ih =>
    obtain ⟨t, ht, hr⟩ := run_cons_some hr
    obtain ⟨here, later⟩ := whole t ht
    rw [step_eq h] at ht
    obtain ⟨along, hr⟩ := ih (step_framed sendable h here ht) later hr
    constructor
    · intro t' ht'
      rw [ht] at ht'
      cases ht'
      exact ⟨here, along⟩
    · rw [run, ht]
      exact hr

theorem framed_delivered (h : Framed (messages pktsiz qtymsg) s) : Delivered pktsiz qtymsg s := by
  obtain ⟨todo, split', -⟩ := h.expects
  refine ⟨⟨todo, split'.symm⟩, h.inside, fun closed => ?_⟩
  obtain ⟨all, stream, sending⟩ := h.stopped closed
  refine ⟨all, stream, List.eq_nil_iff_forall_not_mem.2 fun m mem => ?_⟩
  exact (h.sizes m mem).1 (List.flatten_eq_nil_iff.1 sending m mem)

theorem run_delivered (size : pktsiz < 2 ^ 32) (told : pktsiz ≠ 0 ∨ qtymsg = 0)
    (hr : run (step junk) (start junk pktsiz qtymsg) acts = some s)
    (whole : Along (step junk) NoneLost (start junk pktsiz qtymsg) acts) :
    Delivered pktsiz qtymsg s ∧ acts.length ≤ 2 * (serverPackets pktsiz qtymsg).flatten.length ∧
      ((∀ a, step junk s a = none) → s.client.stage = .closed) := by
  have sendable := messages_sendable size told
  have first := start_framed junk size told
  obtain ⟨along, hr⟩ := run_eq sendable first whole hr
  obtain ⟨last, bound⟩ := run_framed sendable first along hr
  refine ⟨framed_delivered last, ?_, fun stuck => ?_⟩
  · have total : (start junk pktsiz qtymsg).effort =
        2 * (serverPackets pktsiz qtymsg).flatten.length := rfl
    omega
  · exact last.progress fun a => (step_eq last a).symm.trans (stuck a)

/-- Messages of no bytes: the first of their sizes stops the Client. -/
theorem zero_stops (junk : Nat → Byte) (qtymsg : Nat) :
    ∃ s, run (step junk) (start junk 0 (qtymsg + 1)) [.write 8, .read 8] = some s ∧
      Along (step junk) NoneLost (start junk 0 (qtymsg + 1)) [.write 8, .read 8] ∧
      s.client.stage = .closed ∧ s.client.rcvd = [] := by
  have whole : writeTurn (sizeBytes 0) 8 = [] := by
    rw [writeTurn_eq (by simp) (by simp) (by simp)]
    simp
  obtain ⟨ms, first⟩ : ∃ ms, start junk 0 (qtymsg + 1) =
      ⟨sizeBytes 0 :: ms, [], (start junk 0 0).client⟩ := ⟨_, rfl⟩
  have wrote : Connection.step junk ⟨sizeBytes 0 :: ms, [], (start junk 0 0).client⟩ (.write 8) =
      some ⟨ms, sizeBytes 0 ++ [], (start junk 0 0).client⟩ :=
    write_turn (by decide) (by simp) whole
  have got : Connection.step junk ⟨ms, sizeBytes 0 ++ [], (start junk 0 0).client⟩ (.read 8) =
      some ⟨ms, [], (start junk 0 0).client.readTurn junk (sizeBytes 0)⟩ :=
    read_turn (by simp) (by decide) (Nat.le_refl 8)
  have waits : Expects [] (start junk 0 0).client.buf.memory (sizeBytes 0 ++ [])
      (start junk 0 0).client.stage := ⟨by simp, by decide, by simp [framed_nil]⟩
  have none' : Sendable [] := by simp [Sendable]
  obtain ⟨-, rcvd, -, expects⟩ := count_turn junk rfl none' (by simp) rfl waits
  refine ⟨⟨ms, [], (start junk 0 0).client.readTurn junk (sizeBytes 0)⟩, ?_,
    fun t _ => ⟨fun m _ big => by omega, fun _ _ => ⟨trivial, trivial⟩⟩, expects.closed, rcvd⟩
  rw [first, run, step_write 7, wrote, Option.bind_some, run, step_read, got]
  rfl

end

/-- **Packet mode.** If no `write` of `2^31` bytes or more leaves something to
write, the Client makes one read for each message and then stops, when all is
written, unless there are messages of no bytes. -/
theorem packets {pktsiz : Nat} (size : pktsiz < 2 ^ 32) (qtymsg : Nat) (junk : Nat → Byte) :
    (∀ acts s, run (step junk) (start junk pktsiz qtymsg) acts = some s →
      Along (step junk) NoneLost (start junk pktsiz qtymsg) acts →
      Delivered pktsiz qtymsg s ∧ acts.length ≤ 2 * (serverPackets pktsiz qtymsg).flatten.length ∧
        ((∀ a, step junk s a = none) → s.client.stage = .closed)) ↔
      pktsiz ≠ 0 ∨ qtymsg = 0 := by
  constructor
  · intro right
    by_contra zero
    obtain ⟨none', many⟩ := not_or.1 zero
    obtain ⟨q, rfl⟩ := Nat.exists_eq_succ_of_ne_zero many
    rw [not_not.1 none'] at right
    obtain ⟨s, hr, whole, closed, rcvd⟩ := zero_stops junk q
    have all := ((right _ s hr whole).1.stopped closed).1
    rw [rcvd] at all
    cases all
  · exact fun told acts s hr whole => run_delivered size told hr whole

theorem packets_three : ∃ s, run (step fun _ => 7) (start (fun _ => 7) 3 1)
    [.write 8, .read 5, .write 2, .read 3, .write 1, .read 1, .read 2, .write 8, .read 8] = some s ∧
    Delivered 3 1 s := by
  obtain ⟨s, hs⟩ := Option.isSome_iff_exists.1 (show (run (step fun _ => 7)
    (start (fun _ => 7) 3 1) [.write 8, .read 5, .write 2, .read 3, .write 1, .read 1, .read 2,
      .write 8, .read 8]).isSome by decide)
  have right := (packets (by decide) 1 fun _ => 7).2 (.inl (by decide : 3 ≠ 0))
  exact ⟨s, hs, (right _ s hs (small_noneLost (by simp +contextual))).1⟩

/-- One message of no bytes. -/
theorem packets_zero : ∃ s, run (step fun _ => 0) (start (fun _ => 0) 0 1) [.write 8, .read 8] =
    some s ∧ s.client.stage = .closed ∧ ¬ Delivered 0 1 s := by
  obtain ⟨s, hr, -, closed, rcvd⟩ := zero_stops (fun _ => 0) 0
  refine ⟨s, hr, closed, fun delivered => ?_⟩
  have all := (delivered.stopped closed).1
  rw [rcvd] at all
  cases all

end UnixProgramming.Packets
