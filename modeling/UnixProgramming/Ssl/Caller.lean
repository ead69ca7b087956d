import UnixProgramming.Heap.Chars
import UnixProgramming.Pipe.Answers
import UnixProgramming.Ssl.Library

/-!
# The caller's string

`Srmsrvr` and `Sopen` cut the caller's string at its `@` and leave through many
returns. A run of a script is given by what the network replies.

* `Script.answered`: what a script returns on a list of replies;
* `srmsrvr_answered`, `sopen_answered`: the caller's string on every return;
* `sopenSktname`: `Sopen` with the array that a client's string is copied to.
-/

namespace UnixProgramming.Ssl

open Heap.Chars Pipe

/-- What comes of one thing that a script asks the network for. -/
inductive Reply where
  | bound (port : Option SktEvent)
  | dialled (talk : Option (List (Response Byte)))
  | connected (through : Bool)
  deriving DecidableEq, Repr

namespace Script

variable {α γ : Type} {replies : List Reply}

/-- What the script returns on just these replies. -/
def answered : Script α → List Reply → Option α
  | ret a, [] => some a
  | bindPort _ k, .bound port :: replies => (k port).answered replies
  | dial _ _ k, .dialled none :: replies => (k none).answered replies
  | dial _ talk k, .dialled (some answers) :: replies =>
    (talk.answered answers).bind fun b => (k (some b)).answered replies
  | connect _ _ k, .connected through :: replies => (k through).answered replies
  | _, _ => none

/-- Whatever the network does, the script comes to no fault. -/
def Safe : Script α → Prop
  | ret _ => True
  | bindPort _ k => ∀ port, (k port).Safe
  | dial _ _ k => ∀ b, (k b).Safe
  | connect _ _ k => ∀ through, (k through).Safe
  | fault => False

@[simp] theorem answered_ret {a r : α} : (ret a).answered replies = some r ↔
    replies = [] ∧ a = r := by
  cases replies <;> simp [answered]

theorem answered_bindPort {r : α} {port : SktEvent} {k : Option SktEvent → Script α} :
    (bindPort port k).answered replies = some r ↔ ∃ got rest, replies = .bound got :: rest ∧
      (k got).answered rest = some r := by
  cases replies with
  | nil => simp [answered]
  | cons reply replies => cases reply <;> simp [answered]

theorem answered_connect {r : α} {host : List Byte} {port : SktEvent} {k : Bool → Script α} :
    (connect host port k).answered replies = some r ↔ ∃ through rest,
      replies = .connected through :: rest ∧ (k through).answered rest = some r := by
  cases replies with
  | nil => simp [answered]
  | cons reply replies => cases reply <;> simp [answered]

theorem answered_dial {β : Type} {r : α} {host : List Byte} {talk : Proc β}
    {k : Option β → Script α} :
    (dial host talk k).answered replies = some r ↔
      (∃ rest, replies = .dialled none :: rest ∧ (k none).answered rest = some r) ∨
      ∃ answers b rest, replies = .dialled (some answers) :: rest ∧
        talk.answered answers = some b ∧ (k (some b)).answered rest = some r := by
  cases replies with
  | nil => simp [answered]
  | cons reply replies =>
    cases reply with
    | bound port => simp [answered]
    | connected through => simp [answered]
    | dialled talk => cases talk <;> simp [answered, Option.bind_eq_some_iff]

theorem answered_bind {s : Script α} {f : α → Script γ} {r : γ} :
    (s.bind f).answered replies = some r ↔ ∃ first rest a, replies = first ++ rest ∧
      s.answered first = some a ∧ (f a).answered rest = some r := by
  induction s generalizing replies with
  | ret a =>
    constructor
    · intro h
      exact ⟨[], replies, a, rfl, rfl, h⟩
    · rintro ⟨first, rest, a', rfl, h, h'⟩
      obtain ⟨rfl, rfl⟩ := answered_ret.1 h
      exact h'
  | bindPort port k ih =>
    simp only [bind, answered_bindPort, ih]
    exact cons_cut
  | dial host talk k ih =>
    simp only [bind, answered_dial, ih]
    constructor
    · rintro (⟨-, rfl, first, rest, a, rfl, h, h'⟩ |
        ⟨answers, b, -, rfl, said, first, rest, a, rfl, h, h'⟩)
      · exact ⟨.dialled none :: first, rest, a, rfl, .inl ⟨first, rfl, h⟩, h'⟩
      · exact ⟨.dialled (some answers) :: first, rest, a, rfl,
          .inr ⟨answers, b, first, rfl, said, h⟩, h'⟩
    · rintro ⟨-, rest, a, rfl, (⟨first, rfl, h⟩ | ⟨answers, b, first, rfl, said, h⟩), h'⟩
      · exact .inl ⟨first ++ rest, rfl, first, rest, a, rfl, h, h'⟩
      · exact .inr ⟨answers, b, first ++ rest, rfl, said, first, rest, a, rfl, h, h'⟩
  | connect host port k ih =>
    simp only [bind, answered_connect, ih]
    exact cons_cut
  | fault =>
    constructor
    · intro h
      cases replies <;> cases h
    · rintro ⟨first, rest, a, rfl, h, h'⟩
      cases first <;> cases h

theorem Safe.bind {s : Script α} {f : α → Script γ} (h : s.Safe) (hf : ∀ a, (f a).Safe) :
    (s.bind f).Safe := by
  induction s with
  | ret a => exact hf a
  | bindPort port k ih => exact fun got => ih got (h got)
  | dial host talk k ih => exact fun b => ih b (h b)
  | connect host port k ih => exact fun through => ih through (h through)
  | fault => exact h

theorem bind_assoc {ε : Type} (s : Script α) (f : α → Script γ) (g : γ → Script ε) :
    (s.bind f).bind g = s.bind fun a => (f a).bind g := by
  induction s with
  | ret a => rfl
  | bindPort port k ih => simp only [bind, ih]
  | dial host talk k ih => simp only [bind, ih]
  | connect host port k ih => simp only [bind, ih]
  | fault => rfl

end Script

/-! ## Cutting at the first `@` -/

theorem cstr_array (s : CString) : cstr s.array = s.chars := cstr_withNul s.clean

theorem strchrAt_none {s : CString} (h : 64 ∉ s.chars) : strchrAt s.array = none := by
  rw [strchrAt, cstr_array, if_neg h]

theorem strchrAt_some {s : CString} (h : 64 ∈ s.chars) :
    ∃ i, strchrAt s.array = some i ∧ s.array[i]? = some 64 := by
  refine ⟨s.chars.idxOf 64, by rw [strchrAt, cstr_array, if_pos h], ?_⟩
  have inside := List.idxOf_lt_length_of_mem h
  rw [CString.array, withNul, List.getElem?_append_left inside, List.getElem?_eq_getElem inside,
    List.getElem_idxOf]

theorem cutAt_eq (s : CString) : cutAt s.array = s.array ↔ 64 ∉ s.chars := by
  by_cases h : 64 ∈ s.chars
  · obtain ⟨i, first, there⟩ := strchrAt_some h
    rw [cutAt, first]
    exact iff_of_false (set_ne there (by decide)) (not_not_intro h)
  · rw [cutAt, strchrAt_none h]
    exact iff_of_true rfl h

/-- What is left of a string is its name. -/
theorem cstr_cutAt (s : CString) : cstr (cutAt s.array) = s.chars.takeWhile (· ≠ 64) := by
  by_cases h : 64 ∈ s.chars
  · obtain ⟨name, host, chars, first⟩ := List.eq_append_cons_of_mem h
    have clean : 0 ∉ name := fun there => s.clean (chars ▸ List.mem_append_left _ there)
    have index : s.chars.idxOf 64 = name.length := by
      rw [chars, List.idxOf_append_of_notMem first]
      simp
    have cut : cutAt s.array = name ++ 0 :: withNul host := by
      rw [cutAt, strchrAt, cstr_array, if_pos h, index]
      simp [CString.array, withNul, chars]
    have front : (name ++ 64 :: host).takeWhile (· ≠ 64) = name := by
      rw [List.takeWhile_append_of_pos fun c hc => by simpa using ne_of_mem_of_not_mem hc first]
      simp
    rw [cut, cstr_append_nul clean, chars, front]
  · rw [cutAt, strchrAt_none h, cstr_array]
    exact (List.takeWhile_eq_self_iff.2 fun c hc => by simpa using ne_of_mem_of_not_mem hc h).symm

/-- A string is cut once. -/
theorem strchrAt_cutAt (s : CString) : strchrAt (cutAt s.array) = none := by
  have name : 64 ∉ cstr (cutAt s.array) := by
    rw [cstr_cutAt]
    intro there
    simpa using List.mem_takeWhile_imp there
  rw [strchrAt, if_neg name]

/-! ## Srmsrvr -/

section
variable {answers : List (Response Byte)}

theorem sreadbytesLoop_answered : ∀ (turns left : Nat) {answers : List (Response Byte)}
    {b : List Byte},
    (sreadbytesLoop turns left).answered answers = some b → ∀ a ∈ answers, ¬ a.vain
  | 0, 0, answers, b, h => by
    rw [sreadbytesLoop, Proc.answered_ret] at h
    simp [h.1]
  | _ + 1, 0, answers, b, h => by
    rw [sreadbytesLoop, Proc.answered_ret] at h
    simp [h.1]
  | 0, left + 1, answers, b, h => by
    rw [sreadbytesLoop, Proc.answered_spin] at h
    cases h
  | turns + 1, left + 1, answers, b, h => by
    rw [sreadbytesLoop, Proc.answered_recv] at h
    obtain ⟨u, rest, rfl, -, h⟩ := h
    rw [List.forall_mem_cons]
    refine ⟨Bool.false_ne_true, ?_⟩
    cases u with
    | none =>
      rw [Proc.answered_ret] at h
      simp [h.1]
    | some u =>
      obtain ⟨first, last, more, rfl, h, h'⟩ := Proc.answered_bind.1 h
      have none' := sreadbytesLoop_answered turns _ h
      obtain ⟨rfl, -⟩ := Proc.answered_ret.1 h'
      simpa using none'

theorem sreadbytes_answered {spins n : Nat} {b : List Byte}
    (h : (sreadbytes spins n).answered answers = some b) : ∀ a ∈ answers, ¬ a.vain := by
  obtain ⟨first, last, b', rfl, h, h'⟩ := Proc.answered_bind.1 h
  rw [Proc.answered_note, Proc.answered_ret] at h'
  rw [h'.1, List.append_nil]
  exact sreadbytesLoop_answered _ _ h

/-- `Stimeoutwait` fails exactly if it has waited in vain. -/
theorem stimeoutwait_answered {qty : Int} (h : stimeoutwait.answered answers = some qty) :
    qty < 0 ↔ ∃ a ∈ answers, a.vain := by
  obtain ⟨is, rest, rfl, h⟩ := (Proc.answered_await _ _).1 h
  cases is with
  | false =>
    obtain ⟨rfl, rfl⟩ := Proc.answered_ret.1 h
    simp [Response.vain]
  | true =>
    obtain ⟨u, rest, rfl, -, h⟩ := (Proc.answered_peek _ _).1 h
    cases u with
    | none =>
      obtain ⟨rfl, rfl⟩ := Proc.answered_ret.1 h
      simp [Response.vain]
    | some u =>
      obtain ⟨rfl, rfl⟩ := Proc.answered_ret.1 h
      cases u with
      | nil => simp [Response.vain]
      | cons c u =>
        simp [Response.vain]
        omega

/-- A PortMaster is too slow exactly if a wait is in vain. -/
theorem untilOk_answered {spins : Nat} {event : SktEvent} {checks minds : Bool} :
    ∀ (left : Nat) {answers : List (Response Byte)} {g : Greeting},
      (untilOk spins event checks minds left).answered answers = some g →
      (g = .timedout ↔ ∃ a ∈ answers, a.vain)
  | 0, answers, g, h => by
    obtain ⟨rfl, rfl⟩ := Proc.answered_ret.1 h
    simp
  | left + 1, answers, g, h => by
    rw [untilOk, swrite, Proc.send_bind, Proc.ret_bind, Proc.answered_send] at h
    obtain ⟨waits, rest, qty, rfl, waited, h⟩ := Proc.answered_bind.1 h
    have slow := stimeoutwait_answered waited
    split at h
    · rename_i late
      obtain ⟨rfl, rfl⟩ := Proc.answered_ret.1 h
      rw [List.append_nil]
      exact iff_of_true rfl (slow.1 late)
    rename_i intime
    rw [slow] at intime
    obtain ⟨reads, rest, buf, rfl, read, h⟩ := Proc.answered_bind.1 h
    have quiet := sreadbytes_answered read
    have mend : (∃ a ∈ waits ++ (reads ++ rest), a.vain) ↔ ∃ a ∈ rest, a.vain := by
      grind
    rw [mend]
    dsimp only at h
    split at h
    · obtain ⟨rfl, rfl⟩ := Proc.answered_ret.1 h
      simp
    split at h
    · obtain ⟨rfl, rfl⟩ := Proc.answered_ret.1 h
      simp
    split at h
    · obtain ⟨rfl, rfl⟩ := Proc.answered_ret.1 h
      simp
    exact untilOk_answered left h

theorem srmsrvrTalk_answered {spins : Nat} {sktname : List Byte} {r : Greeting × SktEvent}
    (h : (srmsrvrTalk spins sktname).answered answers = some r) :
    r.1 = .timedout ↔ ∃ a ∈ answers, a.vain := by
  obtain ⟨first, rest, g, rfl, greeted, h⟩ := Proc.answered_bind.1 h
  have slow := untilOk_answered _ greeted
  cases g with
  | ok =>
    dsimp only at h
    rw [sputs, swrite, Proc.send_bind, Proc.ret_bind, Proc.answered_send] at h
    obtain ⟨reads, last, buf, rfl, read, h⟩ := Proc.answered_bind.1 h
    obtain ⟨rfl, rfl⟩ := Proc.answered_ret.1 h
    have quiet := sreadbytes_answered read
    grind
  | timedout | unread | refused =>
    obtain ⟨rfl, rfl⟩ := Proc.answered_ret.1 h
    simpa using slow

end

/-- The wait for a PortMaster was in vain. -/
def Reply.vain : Reply → Prop
  | .dialled (some answers) => ∃ a ∈ answers, a.vain
  | _ => False

theorem srmsrvr_unhosted {spins : Nat} {m : Machine} {a : List Byte} (host : strchrAt a = none)
    {replies : List Reply} {r : SktEvent × List Byte}
    (h : (srmsrvr spins m a).answered replies = some r) : r.2 = a := by
  rw [srmsrvr, host] at h
  obtain ⟨rest, rfl, h⟩ | ⟨answers, b, rest, rfl, talked, h⟩ := Script.answered_dial.1 h
  · obtain ⟨rfl, rfl⟩ := Script.answered_ret.1 h
    rfl
  · obtain ⟨rfl, rfl⟩ := Script.answered_ret.1 h
    rfl

/-- **The caller's string behind `Srmsrvr`**, on every return. -/
theorem srmsrvr_answered {spins : Nat} {m : Machine} {s : CString} {replies : List Reply}
    {r : SktEvent × List Byte} (h : (srmsrvr spins m s.array).answered replies = some r) :
    r.2 = s.array ↔ 64 ∉ s.chars ∨ ∀ reply ∈ replies, ¬ reply.vain := by
  by_cases host : 64 ∈ s.chars
  · obtain ⟨i, first, there⟩ := strchrAt_some host
    rw [srmsrvr, first] at h
    rw [or_iff_right (not_not_intro host)]
    obtain ⟨rest, rfl, h⟩ | ⟨answers, b, rest, rfl, talked, h⟩ := Script.answered_dial.1 h
    · obtain ⟨rfl, rfl⟩ := Script.answered_ret.1 h
      refine iff_of_true (set_back there 0) ?_
      simp [Reply.vain]
    · have slow := srmsrvrTalk_answered talked
      obtain ⟨g, mesg⟩ := b
      cases g with
      | timedout =>
        obtain ⟨rfl, rfl⟩ := Script.answered_ret.1 h
        refine iff_of_false (set_ne there (by decide)) fun quiet => ?_
        exact quiet _ (List.mem_singleton_self _) (slow.1 rfl)
      | ok | unread | refused =>
        obtain ⟨rfl, rfl⟩ := Script.answered_ret.1 h
        refine iff_of_true (set_back there 0) ?_
        rw [List.forall_mem_singleton, Reply.vain, ← slow]
        nofun
  · exact iff_of_true (srmsrvr_unhosted (strchrAt_none host) h) (.inl host)

/-! ## Sopen -/

/-- `Sopen` with its `static char sktname[BUFSIZE]`, to which a client's string
is copied. -/
def sopenSktname (f : Frame) (m : Machine) (skthost mode : List Byte) :
    Script (Option Socket × List Byte) :=
  if (cstr mode).headD 0 ∈ [98, 99] ∧ bufsize ≤ (cstr skthost).length then .fault
  else sopen f m skthost mode

theorem sopenServer_safe (spins : Nat) (m : Machine) (sslport : Nat) (sktname : List Byte) :
    (sopenServer spins m sslport sktname).Safe := by
  rintro (_ | port)
  · trivial
  dsimp only
  split
  · trivial
  · rintro (_ | _ | _) <;> trivial

theorem srmsrvr_safe (spins : Nat) (m : Machine) (skthost : List Byte) :
    (srmsrvr spins m skthost).Safe := by
  unfold srmsrvr
  split
  · rintro (_ | r) <;> trivial
  · rintro (_ | ⟨_ | _ | _ | _, mesg⟩) <;> trivial

theorem sopenClientport_safe (m : Machine) (hostname sktname : List Byte) (port : SktEvent) :
    (sopenClientport m hostname sktname port).Safe := by
  rintro (_ | _) <;> trivial

theorem sopenClientLast_safe (m : Machine) (hostname sktname : List Byte)
    (r : Option (List Byte × SktEvent)) : (sopenClientLast m hostname sktname r).Safe := by
  cases r with
  | none => trivial
  | some r => exact sopenClientport_safe _ _ _ _

theorem sopenClient_safe (f : Frame) (m : Machine) (sslport : Nat) (hostname sktname : List Byte)
    (blocking : Bool) : (sopenClient f m sslport hostname sktname blocking).Safe := by
  unfold sopenClient
  split
  · rintro (_ | r)
    · dsimp only
      split
      · trivial
      · rintro (_ | r)
        · trivial
        · exact sopenClientLast_safe _ _ _ _
    · exact sopenClientLast_safe _ _ _ _
  · exact sopenClientport_safe _ _ _ _

theorem sopen_safe (f : Frame) (m : Machine) (skthost mode : List Byte) :
    (sopen f m skthost mode).Safe := by
  unfold sopen
  dsimp only
  split
  · split
    · trivial
    · exact (sopenServer_safe _ _ _ _).bind fun _ => trivial
  · split
    · trivial
    · refine (sopenServer_safe _ _ _ _).bind fun skt => ?_
      cases skt with
      | some skt => trivial
      | none =>
        exact (srmsrvr_safe _ _ _).bind fun r => (sopenServer_safe _ _ _ _).bind fun _ => trivial
  · split
    · trivial
    · exact (sopenClient_safe _ _ _ _ _ _).bind fun _ => trivial
  · split
    · trivial
    · exact (sopenClient_safe _ _ _ _ _ _).bind fun _ => trivial
  · trivial

/-- No client's string is touched. -/
theorem sopen_kept (f : Frame) (m : Machine) (skthost : List Byte) {mode : List Byte}
    (client : (cstr mode).headD 0 ∉ [115, 83]) : ∃ opens : Script (Option Socket),
      opens.Safe ∧ sopen f m skthost mode = opens.bind fun skt => .ret (skt, skthost) := by
  unfold sopen
  dsimp only
  split
  · rename_i server
    rw [server] at client
    exact absurd client (by decide)
  · rename_i server
    rw [server] at client
    exact absurd client (by decide)
  · split
    · exact ⟨.ret none, trivial, rfl⟩
    · exact ⟨_, sopenClient_safe _ _ _ _ _ _, rfl⟩
  · split
    · exact ⟨.ret none, trivial, rfl⟩
    · exact ⟨_, sopenClient_safe _ _ _ _ _ _, rfl⟩
  · exact ⟨.ret none, trivial, rfl⟩

/-- **The caller's string behind `Sopen`**, on every return. -/
theorem sopen_answered {f : Frame} {m : Machine} {s : CString} {mode : List Byte}
    {replies : List Reply} {r : Option Socket × List Byte}
    (h : (sopen f m s.array mode).answered replies = some r) :
    r.2 = s.array ↔ 64 ∉ s.chars ∨ (cstr mode).headD 0 ∉ [115, 83] := by
  by_cases server : (cstr mode).headD 0 ∈ [115, 83]
  · rw [or_iff_left (not_not_intro server)]
    have unnamed (nothing : cstr s.array = []) : 64 ∉ s.chars := by
      rw [← cstr_array s, nothing]
      exact List.not_mem_nil
    obtain letter | letter := List.mem_pair.1 server
    · simp only [sopen, letter] at h
      split at h
      · rename_i nothing
        obtain ⟨-, rfl⟩ := Script.answered_ret.1 h
        exact iff_of_true rfl (unnamed nothing.1)
      · obtain ⟨_, _, skt, -, -, h⟩ := Script.answered_bind.1 h
        obtain ⟨-, rfl⟩ := Script.answered_ret.1 h
        exact cutAt_eq s
    · simp only [sopen, letter] at h
      split at h
      · rename_i nothing
        obtain ⟨-, rfl⟩ := Script.answered_ret.1 h
        exact iff_of_true rfl (unnamed nothing.1)
      · obtain ⟨_, _, skt, -, -, h⟩ := Script.answered_bind.1 h
        cases skt with
        | some skt =>
          obtain ⟨-, rfl⟩ := Script.answered_ret.1 h
          exact cutAt_eq s
        | none =>
          obtain ⟨_, _, removed, -, removes, h⟩ := Script.answered_bind.1 h
          obtain ⟨_, _, skt, -, -, h⟩ := Script.answered_bind.1 h
          obtain ⟨-, rfl⟩ := Script.answered_ret.1 h
          rw [srmsrvr_unhosted (strchrAt_cutAt s) removes]
          have once : cutAt (cutAt s.array) = cutAt s.array := by
            rw [cutAt, strchrAt_cutAt]
          rw [once]
          exact cutAt_eq s
  · obtain ⟨opens, -, kept⟩ := sopen_kept f m s.array server
    rw [kept] at h
    obtain ⟨_, _, skt, -, -, h⟩ := Script.answered_bind.1 h
    obtain ⟨-, rfl⟩ := Script.answered_ret.1 h
    exact iff_of_true rfl (.inr server)

theorem sopenSktname_fits (f : Frame) (m : Machine) {skthost : List Byte} (mode : List Byte)
    (short : (cstr skthost).length < bufsize) :
    sopenSktname f m skthost mode = sopen f m skthost mode :=
  if_neg fun overlong => absurd overlong.2 (by omega)

theorem sopenSktname_safe (f : Frame) (m : Machine) (s : CString) (mode : List Byte) :
    (sopenSktname f m s.array mode).Safe ↔
      ((cstr mode).headD 0 ∈ [98, 99] → s.chars.length < bufsize) := by
  unfold sopenSktname
  rw [cstr_array]
  split
  · rename_i overlong
    exact iff_of_false id fun short => absurd (short overlong.1) (by omega)
  · rename_i fits
    exact iff_of_true (sopen_safe _ _ _ _) fun client => by
      by_contra overlong
      exact fits ⟨client, by omega⟩

/-- **When the caller's string is unchanged.** Behind `Srmsrvr`, exactly if it has
no `@` or no wait for the PortMaster was in vain; behind `Sopen`, exactly if it
has no `@` or is no server's. A client's string must be shorter than the array
that it is copied to. -/
theorem skthost_kept (f : Frame) (m : Machine) (skthost : CString) (mode : List Byte) :
    (∀ replies r, (srmsrvr f.spins m skthost.array).answered replies = some r →
      (r.2 = skthost.array ↔ 64 ∉ skthost.chars ∨ ∀ reply ∈ replies, ¬ reply.vain)) ∧
    ((sopenSktname f m skthost.array mode).Safe ↔
      ((cstr mode).headD 0 ∈ [98, 99] → skthost.chars.length < bufsize)) ∧
    ∀ replies r, (sopenSktname f m skthost.array mode).answered replies = some r →
      (r.2 = skthost.array ↔ 64 ∉ skthost.chars ∨ (cstr mode).headD 0 ∉ [115, 83]) := by
  refine ⟨fun replies r h => srmsrvr_answered h, sopenSktname_safe f m skthost mode, ?_⟩
  intro replies r h
  unfold sopenSktname at h
  split at h
  · cases replies <;> cases h
  · exact sopen_answered h

/-- `n@h` -/
def nAtH : CString := ⟨[110, 64, 104], by decide⟩

/-- The string is cut where no port is free for the server `n@h`, and where the
PortMaster that is to remove it is too slow. -/
theorem skthost_cut :
    (∃ r, (sopenSktname ⟨List.replicate bufsize 0, List.length_replicate, 0⟩ ⟨[], none⟩ nAtH.array
      [115]).answered [.bound none] = some r ∧ r.2 ≠ nAtH.array) ∧
    ∃ r, (srmsrvr 0 ⟨[], none⟩ nAtH.array).answered [.dialled (some [.ready false])] = some r ∧
      r.2 ≠ nAtH.array :=
  ⟨⟨(none, [110, 0, 104, 0]), rfl, by decide⟩, (PM.sorryReply, [110, 0, 104, 0]), rfl, by decide⟩

end UnixProgramming.Ssl
