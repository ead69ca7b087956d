import UnixProgramming.Ssl.Sockio

/-!
# Sreadbytes and what recv gives

The loop of `Sreadbytes` as it stores and counts, run on every sequence of
results of `recv`: counts of any size while there are bytes, then an error or
the end of the stream, which is a result of 0 from there on.

* `sreadbytesFor_eq`: the loop stores what `sreadbytesLoop` reads;
* `sreadbytes_returns`: it returns unless the stream ends inside the field.
-/

namespace UnixProgramming.Ssl

open Pipe

/-- The loop of `Sreadbytes` at its `cnt`: `cnt` and `buf` where it is left. -/
def sreadbytesFor : Nat → List Byte → Nat → Nat → Proc (Nat × List Byte)
  | 0, buf, buflen, cnt => if cnt < buflen then .spin else .ret (cnt, buf)
  | turns + 1, buf, buflen, cnt =>
    if cnt < buflen then .recv (buflen - cnt) fun
      | none => .ret (cnt, buf)
      | some u => sreadbytesFor turns (overlay buf cnt u) buflen (cnt + u.length)
    else .ret (cnt, buf)

theorem sreadbytesFor_eq : ∀ (turns : Nat) (buf : List Byte) (buflen cnt : Nat),
    cnt ≤ buf.length → sreadbytesFor turns buf buflen cnt =
      sreadbytesLoop turns (buflen - cnt) >>= fun got =>
        .ret (cnt + got.length, overlay buf cnt got) := by
  intro turns
  induction turns with
  | zero =>
    intro buf buflen cnt inside
    rw [sreadbytesFor]
    split
    · obtain ⟨n, left⟩ : ∃ n, buflen - cnt = n + 1 := ⟨buflen - cnt - 1, by omega⟩
      rw [left, sreadbytesLoop, Proc.spin_bind]
    · rw [Nat.sub_eq_zero_of_le (by omega), sreadbytesLoop, Proc.ret_bind, overlay_nil]
      rfl
  | succ turns ih =>
    intro buf buflen cnt inside
    rw [sreadbytesFor]
    split
    · obtain ⟨n, left⟩ : ∃ n, buflen - cnt = n + 1 := ⟨buflen - cnt - 1, by omega⟩
      rw [left, sreadbytesLoop, Proc.recv_bind]
      congr 1
      funext u
      cases u with
      | none => simp [overlay_nil]
      | some u =>
        simp only [ih _ _ _ (overlay_length_ge u inside).2, ← left, Nat.sub_sub,
          overlay_append u _ inside, Proc.bind_assoc', Proc.pure_eq, Proc.ret_bind,
          List.length_append, Nat.add_assoc]
    · rw [Nat.sub_eq_zero_of_le (by omega), sreadbytesLoop, Proc.ret_bind, overlay_nil]
      rfl

/-! ## Results of recv -/

/-- What every further `recv` gives when there are no bytes left. -/
inductive Last where
  | failed
  | ended
  deriving DecidableEq, Repr

def Last.result : Last → Option (List Byte)
  | .failed => none
  | .ended => some []

/-- A run on the bytes `q`, of which each `recv` gives as many as `ticks` says,
at least one: what it returns and the bytes it leaves. -/
def onResults {α : Type} (last : Last) : Proc α → List Byte → List Nat → Option (α × List Byte)
  | .ret a, q, _ => some (a, q)
  | .send _ k, q, ticks => onResults last k q ticks
  | .note _ k, q, ticks => onResults last k q ticks
  | .recv _ k, [], ticks => onResults last (k last.result) [] ticks
  | .recv len k, b :: q, ticks =>
    let n := min len (max 1 (ticks.headD 1))
    onResults last (k (some ((b :: q).take n))) ((b :: q).drop n) ticks.tail
  | .peek _ k, [], ticks => onResults last (k last.result) [] ticks
  | .peek len k, b :: q, ticks =>
    let n := min len (max 1 (ticks.headD 1))
    onResults last (k (some ((b :: q).take n))) (b :: q) ticks.tail
  | .await _ k, q, ticks => onResults last (k true) q ticks
  | .spin, _, _ => none

section
variable {buflen : Nat}

/-- At the end of the stream each turn is as the one before. -/
theorem onResults_ended : ∀ (turns : Nat) (buf : List Byte) (cnt : Nat) (ticks : List Nat),
    cnt < buflen → onResults .ended (sreadbytesFor turns buf buflen cnt) [] ticks = none := by
  intro turns
  induction turns with
  | zero =>
    intro buf cnt ticks short
    rw [sreadbytesFor, if_pos short, onResults]
  | succ turns ih =>
    intro buf cnt ticks short
    rw [sreadbytesFor, if_pos short, onResults]
    exact ih (overlay buf cnt []) cnt ticks short

/-- A turn that gets bytes stores them and has fewer to go. -/
theorem onResults_turn (last : Last) (turns : Nat) (buf : List Byte) {cnt : Nat} {q : List Byte}
    (short : cnt < buflen) (some' : q ≠ []) (ticks : List Nat) :
    ∃ u v, u ≠ [] ∧ u.length ≤ buflen - cnt ∧ q = u ++ v ∧
      onResults last (sreadbytesFor (turns + 1) buf buflen cnt) q ticks =
        onResults last (sreadbytesFor turns (overlay buf cnt u) buflen (cnt + u.length)) v
          ticks.tail := by
  obtain ⟨b, q, rfl⟩ := List.exists_cons_of_ne_nil some'
  refine ⟨(b :: q).take (min (buflen - cnt) (max 1 (ticks.headD 1))),
    (b :: q).drop (min (buflen - cnt) (max 1 (ticks.headD 1))), ?_, ?_, by simp, ?_⟩
  · simp only [ne_eq, List.take_eq_nil_iff, reduceCtorEq, or_false]
    omega
  · rw [List.length_take]
    omega
  · rw [sreadbytesFor, if_pos short, onResults]

/-- The loop stores the next bytes in order and counts them. It needs them all,
or an error behind the last. -/
theorem onResults_sreadbytesFor (last : Last) : ∀ (turns : Nat) (buf : List Byte) (cnt : Nat)
    (q : List Byte) (ticks : List Nat), buflen - cnt ≤ turns → cnt ≤ buf.length →
    onResults last (sreadbytesFor turns buf buflen cnt) q ticks =
      if buflen - cnt ≤ q.length ∨ last = .failed then
        some ((cnt + min (buflen - cnt) q.length, overlay buf cnt (q.take (buflen - cnt))),
          q.drop (buflen - cnt))
      else none := by
  intro turns
  induction turns with
  | zero =>
    intro buf cnt q ticks enough inside
    rw [sreadbytesFor, if_neg (by omega), onResults, if_pos (.inl (by omega))]
    simp [Nat.le_zero.1 enough]
  | succ turns ih =>
    intro buf cnt q ticks enough inside
    by_cases full : buflen ≤ cnt
    · rw [sreadbytesFor, if_neg (by omega), onResults, if_pos (.inl (by omega))]
      simp [Nat.sub_eq_zero_of_le full]
    by_cases some' : q = []
    · subst some'
      cases last with
      | failed =>
        rw [sreadbytesFor, if_pos (by omega), onResults, if_pos (.inr rfl)]
        simp [onResults, Last.result]
      | ended =>
        rw [onResults_ended _ _ _ _ (by omega), if_neg]
        simp only [List.length_nil, Nat.le_zero, reduceCtorEq, or_false]
        omega
    · obtain ⟨u, v, hu, fits, rfl, turn⟩ :=
        onResults_turn last turns buf (by omega : cnt < buflen) some' ticks
      have pos := List.length_pos_iff.2 hu
      rw [turn, ih _ _ _ _ (by omega) (overlay_length_ge u inside).2]
      have left : buflen - cnt = u.length + (buflen - (cnt + u.length)) := by omega
      have total : cnt + u.length + min (buflen - (cnt + u.length)) v.length =
          cnt + min (buflen - cnt) (u ++ v).length := by
        rw [List.length_append]
        omega
      have whole : buflen - (cnt + u.length) ≤ v.length ↔ buflen - cnt ≤ (u ++ v).length := by
        rw [List.length_append]
        omega
      simp only [total, whole]
      rw [left, List.take_length_add_append, List.drop_length_add_append,
        overlay_append u _ inside]

/-- What `Sreadbytes` is to come back with: the number of the bytes it has
stored, which are the next of the stream and fewer than asked for only if there
were no more. -/
def Counted (buf : List Byte) (buflen : Nat) (q : List Byte)
    (r : Option ((Nat × List Byte) × List Byte)) : Prop :=
  ∃ cnt, r = some ((cnt, overlay buf 0 (q.take cnt)), q.drop cnt) ∧ cnt ≤ q.length ∧
    cnt ≤ buflen ∧ (cnt = buflen ∨ cnt = q.length)

/-- **`Sreadbytes` returns, with what it has stored**, if all its bytes come or
`recv` fails behind the last that do. When the stream ends before, `recv` gives
0 and the loop goes on for ever. -/
theorem sreadbytes_returns (last : Last) (spins : Nat) (buf q : List Byte) (ticks : List Nat) :
    Counted buf buflen q
        (onResults last (sreadbytesFor (buflen + spins) buf buflen 0) q ticks) ↔
      buflen ≤ q.length ∨ last = .failed := by
  rw [onResults_sreadbytesFor last _ buf 0 q ticks (by omega) (Nat.zero_le _)]
  simp only [Nat.sub_zero, Nat.zero_add]
  split
  · rename_i enough
    refine iff_of_true ⟨min buflen q.length, ?_, by omega, by omega, by omega⟩ enough
    have same : q.take (min buflen q.length) = q.take buflen := by simp [List.take_eq_take_iff]
    have same' : q.drop (min buflen q.length) = q.drop buflen := by simp [List.drop_eq_drop_iff]
    rw [same, same']
  · rename_i never
    exact iff_of_false (fun ⟨_, none', _⟩ => by cases none') never

/-- One byte of two, then the end of the stream: `recv` has no -1 to give. -/
theorem sreadbytes_never_returns : ¬ ∃ spins,
    (onResults .ended (sreadbytesFor (2 + spins) [0, 0] 2 0) [7] []).isSome := by
  rintro ⟨spins, returns⟩
  rw [onResults_sreadbytesFor _ _ _ _ _ _ (by omega) (by decide)] at returns
  revert returns
  decide

end

end UnixProgramming.Ssl
