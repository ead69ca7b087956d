import UnixProgramming.Ssl.Basic

/-!
# Reading and writing a Socket

`Swrite`, `Sputs`, `Sreadbytes`, `Swait`, `Stimeoutwait` and `Sgets`, and what
each of them does with the stream: exactly one field if the field is complete,
and what happens if the peer stops in the middle of one.
-/

namespace UnixProgramming.Ssl

open Pipe

/-! ## The functions -/

/-- `send` takes the whole buffer: the loop of `Swrite` goes on until it has,
and the pieces it is taken in are the reader's segmentation. -/
def swrite (buf : List Byte) : Proc Unit := .send buf (.ret ())

def sputs (buf : List Byte) : Proc Unit := swrite (withNul buf)

/-- The loop of `Sreadbytes` with `left` bytes to go. Each turn takes at least
one byte unless the stream has ended; then `recv` returns 0 and the loop turns
on the spot. `turns` bounds the turns that are followed: it never runs out
before the bytes do while there is a stream to read. -/
def sreadbytesLoop : Nat → Nat → Proc (List Byte)
  | _, 0 => .ret []
  | 0, _ + 1 => .spin
  | turns + 1, left + 1 => .recv (left + 1) fun
    | none => .ret []
    | some u => do
      let more ← sreadbytesLoop turns (left + 1 - u.length)
      return u ++ more

/-- `Sreadbytes`: the bytes it has stored; their number is its result. -/
def sreadbytes (spins buflen : Nat) : Proc (List Byte) := do
  let buf ← sreadbytesLoop (buflen + spins) buflen
  .note (.read buf) (.ret buf)

/-- `recv(skt->skt,buf,PM_BIGBUF-1,MSG_PEEK)` behind a select that has found
the connection readable: the number of bytes, or `EOF`. -/
def peekQty : Proc Int := .peek (PM.bigbuf - 1) fun
  | none => .ret (-1)
  | some u => .ret (if u.isEmpty then -1 else u.length)

def swait : Proc Int := .await false fun ready => if ready then peekQty else .ret 0

/-- `Stimeoutwait(skt,TIMEOUT,0L)`. -/
def stimeoutwait : Proc Int := .await true fun ready => if ready then peekQty else .ret (-2)

/-- The loop of `Sgets`, storing at `buf + b` with room for `buflen` bytes:
whether it returns `buf`, the buffer, and the bytes it has consumed. A turn
takes at least one byte, so `buflen` turns are enough. -/
def sgetsLoop (spins : Nat) : Nat → List Byte → Nat → Nat → Proc (Bool × List Byte × List Byte)
  | 0, buf, _, _ => .ret (true, buf, [])
  | turns + 1, buf, b, buflen =>
    if buflen = 0 then .ret (true, buf, []) else do
    if (← swait) = 0 then return (false, buf, [])
    .peek buflen fun
    | none => .ret (false, buf, [])
    | some u =>
      if u.isEmpty then .ret (false, buf, []) else
      let buf := overlay buf b u
      let mesglen := u.length
      -- strchr finds the NUL in what was peeked at or in what lay behind it
      let nb := b + (cstr (buf.drop b)).length
      if nb < b + mesglen then do
        let got ← sreadbytesLoop (nb - b + 1 + spins) (nb - b + 1)
        return (true, overlay buf b got, got)
      else if mesglen ≥ buflen then do
        let got ← sreadbytesLoop (buflen + spins) buflen
        if got.isEmpty then return (true, overlay buf b got, got)
        return (true, (overlay buf b got).set (b + buflen) 0, got)
      else do
        let got ← sreadbytesLoop (mesglen + spins) mesglen
        if got.isEmpty then return (true, overlay buf b got, got)
        let (ok, buf, more) ← sgetsLoop spins turns (overlay buf b got) (b + mesglen)
          (buflen - mesglen)
        return (ok, buf, got ++ more)

/-- `Sgets(buf,maxbuf,skt)`: whether it returns `buf` and not a null pointer,
and what it leaves in `buf`. -/
def sgets (spins : Nat) (buf : List Byte) (maxbuf : Nat) : Proc (Bool × List Byte) := do
  let (ok, buf, got) ← sgetsLoop spins (maxbuf - 2) ((buf.set 0 0).set (maxbuf - 1) 0) 0
    (maxbuf - 2)
  .note (.read got) (.ret (ok, buf))

/-! ## A complete field -/

theorem reads_sreadbytesLoop : ∀ turns (w : List Byte), w.length ≤ turns →
    Reads (w = ·) (sreadbytesLoop turns w.length) w [] [] := by
  intro turns
  induction turns with
  | zero =>
    intro w h
    obtain rfl := List.length_eq_zero_iff.1 (Nat.le_zero.1 h)
    exact .ret rfl
  | succ turns ih =>
    intro w h
    cases w with
    | nil => exact .ret rfl
    | cons b w =>
      refine .recv (by simp) (by simp) fun u v hu hl e => ?_
      have hv : v.length = w.length + 1 - u.length := by
        have := congrArg List.length e
        simp only [List.length_cons, List.length_append] at this
        omega
      have hu' := List.length_pos_iff.2 hu
      change Eats _ (sreadbytesLoop turns (w.length + 1 - u.length) >>= fun more =>
        .ret (u ++ more)) v [] []
      rw [← hv]
      refine (ih v (by simp at h; omega)).finish ?_
      rintro _ rfl
      exact .refl ⟨_, e, rfl⟩

theorem reads_sreadbytes (spins : Nat) (w : List Byte) :
    Reads (w = ·) (sreadbytes spins w.length) w [] [.read w] := by
  have := (reads_sreadbytesLoop (w.length + spins) w (by omega)).bind
    (T := fun q => ∃ a, w = a ∧ q = .ret a) (f := fun buf => .note (.read buf) (.ret buf))
    (by rintro _ rfl; exact .note (.refl ⟨_, rfl, rfl⟩))
  rw [List.append_nil] at this
  exact this

section
variable {α : Type} {T : Pipe.Proc Byte Note α → Prop} {k : Int → Proc α}
  {w : List Byte} {o : List (List Byte)} {t : List Note}

theorem eats_swrite {k : Unit → Proc α} (bs : List Byte) (h : Eats T (k ()) w o t) :
    Eats T (swrite bs >>= k) w (bs :: o) t :=
  .send h

theorem eats_peekQty (some' : w ≠ []) (h : ∀ n, 0 < n → Eats T (k n) w o t) :
    Eats T (peekQty >>= k) w o t := by
  refine .peek some' (by decide) fun u e hu _ _ => ?_
  have hpos := List.length_pos_iff.2 hu
  simpa [hu] using h u.length (by omega)

theorem eats_swait (some' : w ≠ []) (h : ∀ n, 0 < n → Eats T (k n) w o t) :
    Eats T (swait >>= k) w o t :=
  .await some' (eats_peekQty some' h)

theorem eats_stimeoutwait (some' : w ≠ []) (h : ∀ n, 0 < n → Eats T (k n) w o t) :
    Eats T (stimeoutwait >>= k) w o t :=
  .await some' (eats_peekQty some' h)

end

/-- A string and the end it is recognised by: its NUL, or the full buffer. -/
def Field (room : Nat) (s z : List Byte) : Prop :=
  0 ∉ s ∧ (s.length < room ∧ z = [0] ∨ s.length = room ∧ z = [])

/-- What a turn of `Sgets` peeks at is a part of the string, or all of it and
the NUL with something behind. -/
theorem Field.peeked {room : Nat} {s z u e : List Byte} (hf : Field room s z)
    (hl : u.length ≤ room) (hp : u <+: s ++ z ++ e) :
    (∃ s', s = u ++ s') ∨ z = [0] ∧ s.length < room ∧ ∃ u', u = s ++ 0 :: u' := by
  by_cases h : u.length ≤ s.length
  · left
    obtain ⟨s', e⟩ := List.prefix_of_prefix_length_le hp
      ((List.prefix_append s z).trans (List.prefix_append _ e)) h
    exact ⟨s', e.symm⟩
  · right
    rcases hf.2 with ⟨hs, rfl⟩ | ⟨hs, rfl⟩
    · refine ⟨rfl, hs, ?_⟩
      have whole : s ++ [0] <+: s ++ [0] ++ e := List.prefix_append ..
      obtain ⟨u', e⟩ := List.prefix_of_prefix_length_le whole hp (by simp; omega)
      exact ⟨u', by simpa using e.symm⟩
    · omega

theorem reads_sgetsLoop (spins : Nat) : ∀ turns (buf : List Byte) b buflen (s z : List Byte),
    Field buflen s z → 0 < buflen → buflen ≤ turns → b + buflen < buf.length →
    Reads (fun r => r.1 = true ∧ r.2.2 = s ++ z ∧ r.2.1.length = buf.length ∧
      ∃ tail, r.2.1 = buf.take b ++ s ++ 0 :: tail)
      (sgetsLoop spins turns buf b buflen) (s ++ z) [] [] := by
  intro turns
  induction turns with
  | zero => intro buf b buflen s z _ h0 h1 _; omega
  | succ turns ih =>
    intro buf b buflen s z hf h0 h1 h2
    have some' : s ++ z ≠ [] := by
      rcases hf.2 with ⟨_, rfl⟩ | ⟨hs, rfl⟩
      · simp
      · simpa [← List.length_pos_iff] using by omega
    rw [sgetsLoop, if_neg (by omega)]
    refine eats_swait some' fun n hn => ?_
    rw [if_neg (by omega)]
    refine .peek some' h0 fun u e hu hl hp => ?_
    have hpos := List.length_pos_iff.2 hu
    have hb : b ≤ buf.length := by omega
    have hlen : (overlay buf b u).length = buf.length := overlay_length (by omega)
    simp only [List.isEmpty_iff, hu, if_false, overlay_drop u hb]
    rcases hf.peeked hl hp with ⟨s', rfl⟩ | ⟨rfl, hs, u', rfl⟩
    · -- no NUL among the bytes peeked at
      have hnu : 0 ∉ u := fun h => hf.1 (by simp [h])
      have hn : ¬ b + (cstr (u ++ buf.drop (b + u.length))).length < b + u.length := by
        rw [cstr_append hnu, List.length_append]
        omega
      rw [if_neg hn]
      by_cases full : u.length ≥ buflen
      · -- the buffer is full: no NUL comes with the string
        obtain ⟨rfl, rfl⟩ : s' = [] ∧ z = [] := by
          have hs := hf.2
          simp only [List.length_append] at hs
          rcases hs with ⟨hs, -⟩ | ⟨hs, rfl⟩
          · omega
          · exact ⟨List.length_eq_zero_iff.1 (by omega), rfl⟩
        obtain rfl : u.length = buflen := by omega
        rw [if_pos full, List.append_nil, List.append_nil]
        refine (reads_sreadbytesLoop _ u (by omega)).finish ?_
        rintro _ rfl
        simp only [hu, if_false, overlay_overlay u hb]
        refine .refl ⟨_, ⟨rfl, rfl, ?_, ?_⟩, rfl⟩
        · rw [List.length_set, hlen]
        · have hd : buf.drop (b + u.length) ≠ [] := by
            simp only [ne_eq, List.drop_eq_nil_iff]
            omega
          obtain ⟨y, tail, e⟩ := List.exists_cons_of_ne_nil hd
          refine ⟨tail, ?_⟩
          rw [overlay, e, List.set_append_right _ _ (by
            rw [List.length_append, List.length_take]; omega)]
          simp [hb]
      · rw [if_neg full]
        have tail := ih (overlay buf b u) (b + u.length) (buflen - u.length) s' z
          ⟨fun h => hf.1 (by simp [h]), by
            have hs := hf.2
            simp only [List.length_append] at hs
            exact hs.imp (And.imp_left fun _ => by omega) (And.imp_left fun _ => by omega)⟩
          (by omega) (by omega) (by omega)
        have first := reads_sreadbytesLoop (u.length + spins) u (by omega)
        rw [List.append_assoc]
        refine first.bind (o := []) (t := []) ?_
        rintro _ rfl
        simp only [hu, if_false, overlay_overlay u hb]
        refine tail.finish ?_
        rintro ⟨ok, buf', got⟩ ⟨rfl, rfl, hl', e, rfl⟩
        refine .refl ⟨_, ⟨rfl, by simp, by rw [hl', hlen], e, ?_⟩, rfl⟩
        have whole : (buf.take b ++ u).length = b + u.length := by
          rw [List.length_append, List.length_take]; omega
        rw [overlay, List.take_append_of_le_length (by omega), List.take_of_length_le (by omega)]
        simp
    · -- the whole string and its NUL
      have hn : cstr (s ++ 0 :: u' ++ buf.drop (b + (s ++ 0 :: u').length)) = s := by
        rw [List.append_assoc, List.cons_append, cstr_append_nul hf.1]
      rw [hn, if_pos (by simp)]
      have hq : b + s.length - b + 1 = (s ++ [0]).length := by simp
      rw [hq]
      refine (reads_sreadbytesLoop _ (s ++ [0]) (by omega)).finish ?_
      rintro _ rfl
      refine .refl ⟨_, ⟨rfl, rfl, ?_, ?_⟩, rfl⟩
      · rw [overlay_length (by simp [hlen]; omega), hlen]
      · exact ⟨_, by rw [overlay, overlay_take _ hb]; simp; rfl⟩

/-- **A complete string is read as it was sent**: up to its NUL, or up to the
full buffer, and not a byte further. -/
theorem reads_sgets (spins : Nat) {buf : List Byte} {maxbuf : Nat} {s z : List Byte}
    (hf : Field (maxbuf - 2) s z) (hm : 2 < maxbuf) (hl : buf.length = maxbuf) :
    Reads (fun r => r.1 = true ∧ cstr r.2 = s ∧ r.2.length = maxbuf)
      (sgets spins buf maxbuf) (s ++ z) [] [.read (s ++ z)] := by
  have hlen : ((buf.set 0 0).set (maxbuf - 1) 0).length = maxbuf := by simp [hl]
  have loop := reads_sgetsLoop spins (maxbuf - 2) ((buf.set 0 0).set (maxbuf - 1) 0) 0
    (maxbuf - 2) s z hf (by omega) (by omega) (by omega)
  have := loop.bind (w := []) (o := []) (t := [.read (s ++ z)])
    (T := fun q => ∃ r, (r.1 = true ∧ cstr r.2 = s ∧ r.2.length = maxbuf) ∧ q = .ret r)
    (f := fun r => .note (.read r.2.2) (.ret (r.1, r.2.1))) ?_
  · rw [List.append_nil] at this
    exact this
  · rintro ⟨ok, buf', got⟩ ⟨rfl, rfl, hl', tail, rfl⟩
    refine .note (.refl ⟨_, ⟨rfl, ?_, hl'.trans hlen⟩, rfl⟩)
    simpa using cstr_append_nul hf.1 tail

/-! ## A field cut short -/

section
variable {α : Type} {q : List Byte} (ending : Ending) (ticks : List Nat)

theorem exec_peekQty (some' : q ≠ []) :
    ∃ n, 0 < n ∧ exec peekQty ⟨q, ending, ticks⟩ = ⟨[], [], .done n ⟨q, ending, ticks.tail⟩⟩ := by
  obtain ⟨u, hu, -, -, e⟩ := @exec_peek_some Byte Note Int _ some' (PM.bigbuf - 1)
    (by decide) ending ticks
  have hpos := List.length_pos_iff.2 hu
  exact ⟨u.length, by omega, by rw [peekQty, e]; simp [hu]⟩

theorem exec_swait (some' : q ≠ []) :
    ∃ n, 0 < n ∧
      exec swait ⟨q, ending, ticks⟩ = ⟨[], [], .done n ⟨q, ending, ticks.tail.tail⟩⟩ := by
  obtain ⟨n, hn, e⟩ := exec_peekQty ending ticks.tail some'
  exact ⟨n, hn, by rw [swait, exec_await_some some']; simpa using e⟩

/-- A timed wait of the PortMaster: with bytes to come it succeeds unless they
are late, without any it fails. -/
theorem exec_stimeoutwait (w : Wire Byte) : ∃ n ticks', (w.Punctual → 0 ∉ ticks') ∧
    exec stimeoutwait w = ⟨[], [], .done n ⟨w.queue, w.ending, ticks'⟩⟩ ∧
    (0 < n ∧ w.queue ≠ [] ∨ n < 0 ∧ (w.Punctual → w.queue = [])) := by
  have tail {ts : List Nat} (h : 0 ∉ ts) : 0 ∉ ts.tail := fun m => h (List.mem_of_mem_tail m)
  rcases exec_await_timed w (fun ready => if ready then peekQty else .ret (-2)) with
    ⟨e, h⟩ | ⟨e, h⟩
  · obtain ⟨q, ending, ticks⟩ := w
    by_cases some' : q = []
    · subst some'
      obtain rfl : ending = .closed := h rfl
      exact ⟨-1, ticks.tail.tail, fun p => tail (tail p), by rw [stimeoutwait, e]; rfl,
        .inr ⟨by decide, fun _ => rfl⟩⟩
    · obtain ⟨n, hn, e'⟩ := exec_peekQty ending ticks.tail some'
      exact ⟨n, ticks.tail.tail, fun p => tail (tail p), by rw [stimeoutwait, e]; exact e',
        .inl ⟨hn, some'⟩⟩
  · exact ⟨-2, w.ticks.tail, fun p => tail p, by rw [stimeoutwait, e]; rfl,
      .inr ⟨by decide, fun p => (h p).1⟩⟩

/-- Where `Sreadbytes` ends up when its bytes do not come. -/
def hang : Ending → Fate Byte α
  | .closed => .spun
  | .silent => .blocked

theorem exec_sreadbytesLoop_nothing : ∀ turns left ticks,
    exec (sreadbytesLoop turns (left + 1)) ⟨[], .closed, ticks⟩ = ⟨[], [], .spun⟩ := by
  intro turns
  induction turns with
  | zero => intro left ticks; rfl
  | succ turns ih =>
    intro left ticks
    rw [sreadbytesLoop, exec_recv_closed, exec_bind, List.length_nil, Nat.sub_zero, ih]

theorem exec_sreadbytesLoop_cut : ∀ turns left (w : List Byte) ticks, w.length < left →
    left ≤ turns → exec (sreadbytesLoop turns left) ⟨w, ending, ticks⟩ = ⟨[], [], hang ending⟩ := by
  intro turns
  induction turns with
  | zero => intro left w ticks hw hl; omega
  | succ turns ih =>
    intro left w ticks hw hl
    obtain ⟨left, rfl⟩ : ∃ n, left = n + 1 := ⟨left - 1, by omega⟩
    by_cases some' : w = []
    · subst some'
      cases ending with
      | closed => exact exec_sreadbytesLoop_nothing ..
      | silent => rfl
    · obtain ⟨u, v, hu, hul, rfl, e⟩ := @exec_recv_some Byte Note (List Byte) _ some'
        (left + 1) (by omega) ending ticks
      have hpos := List.length_pos_iff.2 hu
      rw [List.length_append] at hw
      rw [sreadbytesLoop, e, exec_bind, ih _ v _ (by omega) (by omega)]
      cases ending <;> rfl

/-- **A read of fixed length is not given up**: it loops when the stream ends
before it and waits for ever when the stream is silent. -/
theorem exec_sreadbytes_cut (spins : Nat) {n : Nat} (cut : q.length < n) :
    exec (sreadbytes spins n) ⟨q, ending, ticks⟩ = ⟨[], [], hang ending⟩ := by
  rw [sreadbytes, exec_bind, exec_sreadbytesLoop_cut _ _ _ _ _ cut (by omega)]
  cases ending <;> rfl

theorem untimed_sreadbytesLoop : ∀ turns left, (sreadbytesLoop turns left).Untimed := by
  intro turns
  induction turns with
  | zero => intro left; cases left <;> trivial
  | succ turns ih =>
    intro left
    cases left with
    | zero => trivial
    | succ left =>
      intro u
      cases u with
      | none => trivial
      | some u => exact (ih _).bind fun _ => trivial

theorem untimed_sreadbytes (spins n : Nat) : (sreadbytes spins n).Untimed :=
  (untimed_sreadbytesLoop _ _).bind fun _ => trivial

theorem untimed_swait : swait.Untimed := by
  refine ⟨rfl, fun ready => ?_⟩
  cases ready with
  | false => trivial
  | true => intro u; cases u <;> trivial

theorem untimed_sgetsLoop (spins : Nat) :
    ∀ turns buf b buflen, (sgetsLoop spins turns buf b buflen).Untimed := by
  intro turns
  induction turns with
  | zero => intro buf b buflen; trivial
  | succ turns ih =>
    intro buf b buflen
    rw [sgetsLoop]
    by_cases h : buflen = 0
    · rw [if_pos h]; trivial
    · rw [if_neg h]
      refine untimed_swait.bind fun n => ?_
      by_cases h0 : n = 0
      · rw [if_pos h0]; trivial
      · rw [if_neg h0]
        intro u
        cases u with
        | none => trivial
        | some u =>
          dsimp only
          by_cases hu : u.isEmpty
          · rw [if_pos hu]; trivial
          · rw [if_neg hu]
            split
            · exact (untimed_sreadbytesLoop _ _).bind fun _ => trivial
            · split
              · refine (untimed_sreadbytesLoop _ _).bind fun got => ?_
                split <;> trivial
              · refine (untimed_sreadbytesLoop _ _).bind fun got => ?_
                split
                · trivial
                · exact (ih _ _ _).bind fun _ => trivial

theorem untimed_sgets (spins : Nat) (buf : List Byte) (maxbuf : Nat) :
    (sgets spins buf maxbuf).Untimed :=
  (untimed_sgetsLoop ..).bind fun _ => trivial

/-- How a read of a string ends whose end does not come: with a null pointer
at the end of the stream, never on a silent one. -/
def cutShort (r : α) (ticks : List Nat) : Ending → Fate Byte α
  | .closed => .done r ⟨[], .closed, ticks⟩
  | .silent => .blocked

theorem exec_sgetsLoop_cut (spins : Nat) : ∀ turns (buf : List Byte) b buflen (s : List Byte) ticks,
    0 ∉ s → s.length < buflen → buflen ≤ turns → b + buflen < buf.length →
    ∃ ticks', (0 ∉ ticks → 0 ∉ ticks') ∧
      exec (sgetsLoop spins turns buf b buflen) ⟨s, ending, ticks⟩ =
        ⟨[], [], cutShort (false, overlay buf b s, s) ticks' ending⟩ := by
  have tail {ts : List Nat} (h : 0 ∉ ts) : 0 ∉ ts.tail := fun m => h (List.mem_of_mem_tail m)
  intro turns
  induction turns with
  | zero => intro buf b buflen s ticks _ _ _ _; omega
  | succ turns ih =>
    intro buf b buflen s ticks hs hl ht hb
    rw [sgetsLoop, if_neg (by omega)]
    by_cases some' : s = []
    · subst some'
      cases ending with
      | silent => exact ⟨[], by simp, by rw [exec_bind]; rfl⟩
      | closed =>
        refine ⟨ticks.tail.tail.tail, fun h => tail (tail (tail h)), ?_⟩
        have e : exec swait ⟨[], .closed, ticks⟩ =
          ⟨[], [], .done (-1) ⟨[], .closed, ticks.tail.tail⟩⟩ := rfl
        rw [exec_bind_done e]
        simp [overlay, Outcome.after, cutShort]
    · obtain ⟨n, hn, e⟩ := exec_swait ending ticks some'
      rw [exec_bind_done e, if_neg (by omega)]
      obtain ⟨u, hu, hul, hp, e⟩ := @exec_peek_some Byte Note (Bool × List Byte × List Byte)
        _ some' buflen (by omega) ending ticks.tail.tail
      obtain ⟨s', rfl⟩ := hp
      have hpos := List.length_pos_iff.2 hu
      rw [List.length_append] at hl
      have hnu : 0 ∉ u := fun h => hs (by simp [h])
      have hn : ¬ b + (cstr ((overlay buf b u).drop b)).length < b + u.length := by
        rw [overlay_drop u (by omega), cstr_append hnu, List.length_append]
        omega
      rw [e]
      simp only [List.isEmpty_iff, hu, if_false, if_neg hn,
        if_neg (show ¬ u.length ≥ buflen by omega)]
      obtain ⟨_, ts, rfl, h0, e⟩ := exec_reads
        (reads_sreadbytesLoop (u.length + spins) u (by omega))
        (untimed_sreadbytesLoop _ _) s' ending ticks.tail.tail.tail
      rw [exec_bind_done e]
      simp only [hu, if_false, overlay_overlay u (show b ≤ buf.length by omega)]
      obtain ⟨ts', h0', e⟩ := ih (overlay buf b u) (b + u.length) (buflen - u.length) s' ts
        (fun h => hs (by simp [h])) (by omega) (by omega)
        (by rw [overlay_length (by omega)]; omega)
      refine ⟨ts', fun h => h0' (h0 (tail (tail (tail h)))), ?_⟩
      rw [exec_bind, e, overlay_append u s' (by omega)]
      cases ending <;> rfl

/-- **A string cut short** is stored over what the buffer held before. -/
theorem exec_sgets_cut (spins : Nat) {buf s : List Byte} {maxbuf : Nat} (hs : 0 ∉ s)
    (cut : s.length < maxbuf - 2) (hl : buf.length = maxbuf) :
    ∃ ticks', (0 ∉ ticks → 0 ∉ ticks') ∧ exec (sgets spins buf maxbuf) ⟨s, ending, ticks⟩ =
      ⟨[], if ending = .closed then [.read s] else [],
        cutShort (false, overlay ((buf.set 0 0).set (maxbuf - 1) 0) 0 s) ticks' ending⟩ := by
  obtain ⟨ticks', h0, e⟩ := exec_sgetsLoop_cut ending spins (maxbuf - 2)
    ((buf.set 0 0).set (maxbuf - 1) 0) 0 (maxbuf - 2) s ticks hs (by omega) (by omega)
    (by simp; omega)
  refine ⟨ticks', h0, ?_⟩
  rw [sgets, exec_bind, e]
  cases ending <;> rfl

end

/-! ## What is left in the buffer -/

/-- `strchr` finds the NUL in what has just been stored, or none in that. -/
theorem strchr_stored (u behind : List Byte) :
    0 ∈ u ∧ (cstr (u ++ behind)).length = (cstr u).length ∧ (cstr u).length < u.length ∨
      0 ∉ u ∧ u.length ≤ (cstr (u ++ behind)).length := by
  by_cases nul : 0 ∈ u
  · left
    obtain ⟨s, v, rfl, hs⟩ := List.eq_append_cons_of_mem nul
    refine ⟨nul, ?_, ?_⟩
    · rw [List.append_assoc, List.cons_append, cstr_append_nul hs, cstr_append_nul hs]
    · rw [cstr_append_nul hs, List.length_append, List.length_cons]
      omega
  · right
    refine ⟨nul, ?_⟩
    rw [cstr_append nul, List.length_append]
    omega

/-- What `Sgets` reads does not depend on what was in the buffer. -/
theorem sgetsLoop_project (spins : Nat) : ∀ (turns b buflen : Nat) (buf buf' : List Byte),
    b ≤ buf.length → b ≤ buf'.length →
    (sgetsLoop spins turns buf b buflen >>= fun r => .ret (r.1, r.2.2)) =
      (sgetsLoop spins turns buf' b buflen >>= fun r => .ret (r.1, r.2.2)) := by
  intro turns
  induction turns with
  | zero => intro b buflen buf buf' _ _; rfl
  | succ turns ih =>
    intro b buflen buf buf' hb hb'
    have project {α : Type} (p : Proc α) {f f' : α → Proc (Bool × List Byte × List Byte)}
        (h : ∀ a, (f a >>= fun r => .ret (r.1, r.2.2)) = (f' a >>= fun r => .ret (r.1, r.2.2))) :
        (p >>= f >>= fun r => .ret (r.1, r.2.2)) = (p >>= f' >>= fun r => .ret (r.1, r.2.2)) := by
      rw [Proc.bind_assoc', Proc.bind_assoc']
      exact congrArg _ (funext h)
    rw [sgetsLoop, sgetsLoop]
    by_cases full : buflen = 0
    · rw [if_pos full, if_pos full]; rfl
    rw [if_neg full, if_neg full]
    apply project
    intro n
    by_cases ended : n = 0
    · rw [if_pos ended, if_pos ended]; rfl
    rw [if_neg ended, if_neg ended]
    change Pipe.Proc.peek buflen _ = Pipe.Proc.peek buflen _
    congr 1
    funext u
    cases u with
    | none => rfl
    | some u =>
      by_cases empty : u.isEmpty
      · simp only [if_pos empty]; rfl
      simp only [if_neg empty, overlay_drop u hb, overlay_drop u hb']
      rcases strchr_stored u (buf.drop (b + u.length)) with ⟨nul, here, inside⟩ | ⟨nul, behind⟩
      · rcases strchr_stored u (buf'.drop (b + u.length)) with ⟨-, here', -⟩ | ⟨no, -⟩
        · have found : b + (cstr u).length < b + u.length := by omega
          rw [here, here', if_pos found, if_pos found]
          apply project
          intro got
          rfl
        · exact absurd nul no
      · rcases strchr_stored u (buf'.drop (b + u.length)) with ⟨yes, -⟩ | ⟨-, behind'⟩
        · exact absurd yes nul
        · have none' : ¬ b + (cstr (u ++ buf.drop (b + u.length))).length < b + u.length := by omega
          have none'' : ¬ b + (cstr (u ++ buf'.drop (b + u.length))).length < b + u.length := by
            omega
          rw [if_neg none', if_neg none'']
          by_cases last : u.length ≥ buflen
          · rw [if_pos last, if_pos last]
            apply project
            intro got
            by_cases nothing : got.isEmpty
            · simp only [if_pos nothing]; rfl
            · simp only [if_neg nothing]; rfl
          · rw [if_neg last, if_neg last]
            apply project
            intro got
            by_cases nothing : got.isEmpty
            · simp only [if_pos nothing]; rfl
            simp only [if_neg nothing]
            have room := (overlay_length_ge u hb).2
            have room' := (overlay_length_ge u hb').2
            have long := (overlay_length_ge got (hb.trans (overlay_length_ge u hb).1)).1
            have long' := (overlay_length_ge got (hb'.trans (overlay_length_ge u hb').1)).1
            have tail := ih (b + u.length) (buflen - u.length) (overlay (overlay buf b u) b got)
              (overlay (overlay buf' b u) b got) (by omega) (by omega)
            have more := congrArg (· >>= fun r : Bool × List Byte =>
              (Pipe.Proc.ret (r.1, got ++ r.2) : Proc _)) tail
            rw [Proc.bind_assoc', Proc.bind_assoc'] at more ⊢
            exact more

/-- Two buffers make no difference to what `Sgets` takes off the stream, when
it waits for it and whether it returns its buffer. -/
theorem sgets_project (spins : Nat) (buf buf' : List Byte) (maxbuf : Nat) :
    (sgets spins buf maxbuf >>= fun r => .ret r.1) =
      (sgets spins buf' maxbuf >>= fun r => .ret r.1) := by
  have loop := sgetsLoop_project spins (maxbuf - 2) 0 (maxbuf - 2)
    ((buf.set 0 0).set (maxbuf - 1) 0) ((buf'.set 0 0).set (maxbuf - 1) 0) (Nat.zero_le _)
    (Nat.zero_le _)
  have noted := congrArg (· >>= fun r : Bool × List Byte =>
    (Pipe.Proc.note (Note.read r.2) (.ret r.1) : Proc _)) loop
  rw [Proc.bind_assoc', Proc.bind_assoc'] at noted
  rw [sgets, sgets, Proc.bind_assoc', Proc.bind_assoc']
  exact noted

theorem all_sreadbytesLoop : ∀ turns left,
    (sreadbytesLoop turns left).All fun got => got.length ≤ left := by
  intro turns
  induction turns with
  | zero => intro left; cases left <;> simp [sreadbytesLoop, Proc.All]
  | succ turns ih =>
    intro left
    cases left with
    | zero => simp [sreadbytesLoop, Proc.All]
    | succ left =>
      intro u hu
      cases u with
      | none => exact Nat.zero_le _
      | some u =>
        have hl : u.length ≤ left + 1 := hu u rfl
        refine (ih _).bind fun more hm => ?_
        change (u ++ more).length ≤ left + 1
        rw [List.length_append]
        omega

/-- The length of the buffer and what lies behind the room of `Sgets` stay. -/
theorem all_sgetsLoop (spins : Nat) (behind : List Byte) : ∀ turns (buf : List Byte) b buflen,
    b + buflen < buf.length → buf.drop (b + buflen) = 0 :: behind →
    (sgetsLoop spins turns buf b buflen).All fun r =>
      r.2.1.length = buf.length ∧ r.2.1.drop (b + buflen) = 0 :: behind := by
  intro turns
  induction turns with
  | zero => intro buf b buflen _ hd; exact ⟨rfl, hd⟩
  | succ turns ih =>
    intro buf b buflen hl hd
    -- what any of the three reads may store
    have stored {buf' : List Byte} (hl' : buf'.length = buf.length)
        (hd' : buf'.drop (b + buflen) = 0 :: behind) {got : List Byte} (hg : got.length ≤ buflen) :
        (overlay buf' b got).length = buf.length ∧
          (overlay buf' b got).drop (b + buflen) = 0 :: behind :=
      ⟨by rw [overlay_length (by omega), hl'],
        by rw [overlay_drop_behind (by omega) (by omega), hd']⟩
    rw [sgetsLoop]
    by_cases h : buflen = 0
    · rw [if_pos h]; exact ⟨rfl, hd⟩
    · rw [if_neg h]
      refine Proc.All.after _ fun n => ?_
      by_cases h0 : n = 0
      · rw [if_pos h0]; exact ⟨rfl, hd⟩
      · rw [if_neg h0]
        intro u hu
        cases u with
        | none => exact ⟨rfl, hd⟩
        | some u =>
          have hul : u.length ≤ buflen := hu u rfl
          obtain ⟨hl', hd'⟩ := stored rfl hd hul
          dsimp only
          split
          · exact ⟨rfl, hd⟩
          · split
            · rename_i hn
              exact (all_sreadbytesLoop _ _).bind fun got hg => stored hl' hd' (by omega)
            · split
              · refine (all_sreadbytesLoop _ _).bind fun got hg => ?_
                obtain ⟨hlg, hdg⟩ := stored hl' hd' hg
                split
                · exact ⟨hlg, hdg⟩
                · refine ⟨by rw [List.length_set, hlg], ?_⟩
                  rw [List.drop_set, if_neg (by omega), hdg, Nat.sub_self, List.set_cons_zero]
              · refine (all_sreadbytesLoop _ _).bind fun got hg => ?_
                obtain ⟨hlg, hdg⟩ := stored hl' hd' (hg.trans hul)
                split
                · exact ⟨hlg, hdg⟩
                · have hb : b + u.length + (buflen - u.length) = b + buflen := by omega
                  refine (ih _ (b + u.length) (buflen - u.length) (by omega) (hb ▸ hdg)).bind
                    fun r hr => ?_
                  exact ⟨hr.1.trans hlg, hb ▸ hr.2⟩

/-- A buffer of `BUFSIZE` bytes that ends in two NULs: one more than a string
of `Sgets` needs. -/
def Terminated (buf : List Byte) : Prop :=
  buf.length = bufsize ∧ buf.drop (bufsize - 2) = [0, 0]

theorem terminated_blank : Terminated (List.replicate bufsize 0) := ⟨rfl, rfl⟩

theorem Terminated.emptied {buf : List Byte} (h : Terminated buf) : Terminated (buf.set 0 0) :=
  ⟨by rw [List.length_set, h.1], by rw [List.drop_set, if_pos (by decide), h.2]⟩

/-- What `Sgets` does to the buffer before it reads. -/
theorem Terminated.cleared {buf : List Byte} (h : Terminated buf) :
    Terminated ((buf.set 0 0).set (bufsize - 1) 0) := by
  refine ⟨by rw [List.length_set, h.emptied.1], ?_⟩
  rw [List.drop_set, if_neg (by decide), h.emptied.2]
  rfl

theorem all_sgets (spins : Nat) {buf : List Byte} (h : Terminated buf) :
    (sgets spins buf bufsize).All fun r => Terminated r.2 := by
  have hc := h.cleared
  refine (all_sgetsLoop spins [0] (bufsize - 2) _ 0 (bufsize - 2) ?_ ?_).bind
    fun r hr => ?_
  · rw [hc.1]; decide
  · simpa using hc.2
  · exact ⟨hr.1.trans hc.1, by simpa using hr.2⟩

end UnixProgramming.Ssl
