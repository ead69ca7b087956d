import UnixProgramming.Ssl.Scanf
import UnixProgramming.Ssl.Texts

/-!
# What Sscanf returns

The pieces that a call of `Sscanf` comes to, with the bytes that are then
unread, decide whether it returns. On a socket whose peer has closed it returns
if each piece fits `locbuf` and the bytes that there are to see are never all
text of the piece.

* `endsInside_iff`: where `stpnxt` stops before the end of the bytes to see;
* `sscanf_ends`: when `Sscanf` returns on a dead socket.
-/

namespace UnixProgramming.Ssl

open Pipe

/-- C's `sscanf` on a piece. -/
def Libc.single (s snglfmt : List Byte) : Single :=
  let r := Libc.scan s snglfmt
  ⟨r.result, r.args.head?, r.rest⟩

/-- The pieces that `Sscanf` comes to, each with the bytes that are then unread. -/
def reached (libc : List Byte → List Byte → Single) (arg : Nat → Bool) :
    Nat → Nat → List Byte → List Byte → List (List Byte × List Byte)
  | 0, _, _, _ => []
  | left + 1, i, f, q =>
    if arg i = false then []
    else match strnxtfmt f with
      | none => []
      | some (snglfmt, f) =>
        let buf := q.take (taken q snglfmt)
        (snglfmt, q) ::
          if (libc (cstr buf) snglfmt).result = 0 ∨ buf = [] then []
          else reached libc arg left (i + 1) f (q.drop (taken q snglfmt))

/-- Among the bytes that `Speek` can show is a NUL, or they are not all text of
the piece. -/
def EndsInside (q snglfmt : List Byte) : Prop :=
  0 ∈ window q ∨ ¬ PieceText snglfmt (window q)

theorem endsInside_iff {f snglfmt f' q : List Byte} (next : strnxtfmt f = some (snglfmt, f'))
    (some' : q ≠ []) :
    EndsInside q snglfmt ↔ stopIn (window q) snglfmt < (window q).length := by
  have pos : 0 < (window q).length := by
    rw [window, List.length_take]
    exact Nat.lt_min.2 ⟨by decide, List.length_pos_iff.2 some'⟩
  rw [EndsInside]
  by_cases zero : 0 ∈ window q
  · refine iff_of_true (.inl zero) (Nat.lt_of_le_of_lt (Nat.sub_le _ _) ?_)
    refine lt_of_le_of_ne (List.takeWhile_prefix _).length_le fun all => ?_
    have same : cstr (window q) = window q := (List.takeWhile_prefix _).eq_of_length all
    rw [← same] at zero
    have nonzero := List.mem_takeWhile_imp zero
    cases nonzero
  · have plain : cstr (window q) = window q := by
      simpa [cstr] using fun c mem (e : c = 0) => zero (e ▸ mem)
    obtain ⟨s, stops⟩ := stpnxt_isSome (window q) snglfmt
    have whole := stpnxt_all next (window q)
    rw [stops, Option.some.injEq] at whole
    rw [stopIn, plain, stops, ← whole, or_iff_right zero, ← ne_eq, ← List.length_pos_iff]
    have shorter := (stpnxt_suffix stops).length_le
    simp only [Option.getD_some]
    omega

section
variable (libc : List Byte → List Byte → Single) (arg : Nat → Bool)

/-- What `sscanf` makes of the bytes measured off for a piece. -/
def verdict (q snglfmt : List Byte) : Single := libc (cstr (q.take (taken q snglfmt))) snglfmt

variable {libc arg} {left i : Nat} {f snglfmt f' q : List Byte} {ending : Ending}

theorem reached_piece (given : arg i = true) (next : strnxtfmt f = some (snglfmt, f')) :
    reached libc arg (left + 1) i f q = (snglfmt, q) ::
      if (verdict libc q snglfmt).result = 0 ∨ q.take (taken q snglfmt) = [] then []
      else reached libc arg left (i + 1) f' (q.drop (taken q snglfmt)) := by
  rw [reached, if_neg (by simp [given]), next]
  rfl

theorem sscanfOn_piece (given : arg i = true) (next : strnxtfmt f = some (snglfmt, f'))
    (fits : snglfmt.length < locbufSize) (some' : q ≠ [])
    (ends : stopIn (window q) snglfmt < (window q).length) :
    sscanfOn libc arg ending (left + 1) i f q =
      if (verdict libc q snglfmt).result = 0 then
        some ((0, [(q.take (taken q snglfmt), verdict libc q snglfmt)]),
          q.drop (taken q snglfmt))
      else if q.take (taken q snglfmt) = [] then
        some ((1, [(q.take (taken q snglfmt), verdict libc q snglfmt)]),
          q.drop (taken q snglfmt))
      else (sscanfOn libc arg ending left (i + 1) f' (q.drop (taken q snglfmt))).map fun more =>
        ((more.1.1 + 1, (q.take (taken q snglfmt), verdict libc q snglfmt) :: more.1.2),
          more.2) := by
  rw [sscanfOn, if_neg (by simp [given]), next]
  simp only [if_neg (Nat.not_le_of_lt fits), if_neg some', if_neg (Nat.not_le_of_lt ends),
    List.length_eq_zero_iff]
  rfl

/-- Where a piece is too long or does not end, the call does not either. -/
theorem sscanfOn_outside (given : arg i = true) (next : strnxtfmt f = some (snglfmt, f'))
    (outside : locbufSize ≤ snglfmt.length ∨
      q ≠ [] ∧ ¬ stopIn (window q) snglfmt < (window q).length) :
    sscanfOn libc arg ending (left + 1) i f q = none := by
  rw [sscanfOn, if_neg (by simp [given]), next]
  dsimp only
  rcases outside with long | ⟨some', outside⟩
  · rw [if_pos long]
  · rw [if_neg some', if_pos (Nat.le_of_not_lt outside), ite_self]

/-- Without an argument or a piece, nothing is counted. -/
theorem sscanfOn_nothing (libc : List Byte → List Byte → Single) (ending : Ending) (left : Nat)
    (q : List Byte) (nothing : arg i = false ∨ strnxtfmt f = none) :
    reached libc arg (left + 1) i f q = [] ∧
      sscanfOn libc arg ending (left + 1) i f q = some ((0, []), q) := by
  rw [reached, sscanfOn]
  by_cases given : arg i = false
  · rw [if_pos given, if_pos given]
    exact ⟨rfl, rfl⟩
  rw [if_neg given, if_neg given, nothing.resolve_left given]
  exact ⟨rfl, rfl⟩

theorem sscanfOn_empty (given : arg i = true) (next : strnxtfmt f = some (snglfmt, f'))
    (fits : snglfmt.length < locbufSize) : sscanfOn libc arg ending (left + 1) i f [] =
      if ending = .closed then some ((0, []), []) else none := by
  rw [sscanfOn, if_neg (by simp [given]), next]
  simp only [if_neg (Nat.not_le_of_lt fits), if_true]

/-! ## On a dead socket -/

/-- The piece fits `locbuf`, it ends where it can be seen, and without a
conversion it is not counted. -/
structure Passes (libc : List Byte → List Byte → Single) (q snglfmt : List Byte) : Prop where
  fits : snglfmt.length < locbufSize
  ends : q ≠ [] → EndsInside q snglfmt
  last : q ≠ [] → conversions snglfmt = 0 → (verdict libc q snglfmt).result = 0

theorem conversions_strnxtfmt (next : strnxtfmt f = some (snglfmt, f')) :
    conversions f = conversions snglfmt + conversions f' ∧
      (conversions snglfmt = 1 ∨ conversions snglfmt = 0 ∧ conversions f' = 0) := by
  have pieces := conversions_piece f
  rw [strnxtfmt] at next
  split at next
  · cases next
  · rw [Option.some.injEq] at next
    rw [next] at pieces
    refine ⟨pieces.1, pieces.2.imp_right (And.imp_right fun last => ?_)⟩
    rw [show f' = [] from last]
    rfl

theorem sscanfOn_ends : ∀ (left i : Nat) (f q : List Byte),
    (∃ out rest, sscanfOn libc arg .closed left i f q = some (out, rest) ∧
      out.1 ≤ conversions f) ↔
        ∀ r ∈ reached libc arg left i f q, Passes libc r.2 r.1 := by
  intro left
  induction left with
  | zero => intro i f q; exact iff_of_true ⟨_, _, rfl, Nat.zero_le _⟩ (by simp [reached])
  | succ left ih =>
    intro i f q
    by_cases nothing : arg i = false ∨ strnxtfmt f = none
    · obtain ⟨none', on⟩ := sscanfOn_nothing libc .closed left q nothing
      rw [none', on]
      exact iff_of_true ⟨_, _, rfl, Nat.zero_le _⟩ (by simp)
    obtain ⟨given, piece⟩ : arg i = true ∧ strnxtfmt f ≠ none := by simpa using nothing
    obtain ⟨⟨snglfmt, f'⟩, next⟩ := Option.ne_none_iff_exists'.1 piece
    obtain ⟨count, one⟩ := conversions_strnxtfmt next
    rw [reached_piece given next, List.forall_mem_cons]
    by_cases fits : snglfmt.length < locbufSize
    swap
    · rw [sscanfOn_outside given next (.inl (Nat.le_of_not_lt fits))]
      exact iff_of_false (by simp) fun all => fits all.1.fits
    by_cases some' : q = []
    · subst some'
      rw [sscanfOn_empty given next fits, if_pos rfl, if_pos (.inr List.take_nil)]
      refine iff_of_true ⟨_, _, rfl, Nat.zero_le _⟩ ⟨⟨fits, ?_, ?_⟩, by simp⟩
      all_goals exact fun some' => absurd rfl some'
    have inside := endsInside_iff next some'
    by_cases ends : stopIn (window q) snglfmt < (window q).length
    · rw [sscanfOn_piece given next fits some' ends]
      rw [← inside] at ends
      by_cases failed : (verdict libc q snglfmt).result = 0
      · rw [if_pos failed, if_pos (.inl failed)]
        exact iff_of_true ⟨_, _, rfl, Nat.zero_le _⟩
          ⟨⟨fits, fun _ => ends, fun _ _ => failed⟩, by simp⟩
      have passes : Passes libc q snglfmt ↔ conversions snglfmt = 1 := by
        constructor
        · intro h
          have zero := mt (h.last some') failed
          omega
        · exact fun single => ⟨fits, fun _ => ends, fun _ zero => by omega⟩
      rw [if_neg failed, passes]
      by_cases empty : q.take (taken q snglfmt) = []
      · rw [if_pos empty, if_pos (.inr empty)]
        refine ⟨?_, fun all => ⟨_, _, rfl, by rw [count, all.1]; omega⟩⟩
        rintro ⟨_, _, ⟨⟩, counted⟩
        exact ⟨by dsimp only at counted; omega, by simp⟩
      · rw [if_neg empty, if_neg (not_or.2 ⟨failed, empty⟩), ← ih]
        constructor
        · rintro ⟨out, rest, on, counted⟩
          obtain ⟨⟨out', rest'⟩, more, same⟩ := Option.map_eq_some_iff.1 on
          cases same
          dsimp only at counted
          exact ⟨by omega, out', rest', more, by omega⟩
        · rintro ⟨single, out, rest, more, counted⟩
          exact ⟨_, rest, by rw [more]; rfl, by dsimp only; omega⟩
    · rw [sscanfOn_outside given next (.inr ⟨some', ends⟩)]
      exact iff_of_false (by simp) fun all => ends (inside.1 (all.1.ends some'))

/-- The pieces that a call comes to. -/
def comesTo (libc : List Byte → List Byte → Single) (arg : Nat → Bool) (fmt q : List Byte) :
    List (List Byte × List Byte) :=
  reached libc arg (fmt.length + 1) 0 fmt q

/-- **When `Sscanf` returns on a dead socket**, with no more than the format has
conversions: the bytes may arrive in any way, and nothing comes behind them. -/
theorem sscanf_ends (libc : List Byte → List Byte → Single) (arg : Nat → Bool) (spins : Nat)
    (fmt here : List Byte) (coming : List (List Byte)) :
    (∃ turns cnt entries w', deliver (sscanfWith libc spins turns fmt arg)
        ⟨here, coming, .closed⟩ = .done (cnt, entries) w' ∧ cnt ≤ conversions fmt) ↔
      ∀ r ∈ comesTo libc arg fmt (here ++ coming.flatten), Passes libc r.2 r.1 := by
  rw [comesTo, ← sscanfOn_ends]
  constructor
  · rintro ⟨turns, cnt, entries, w', run, counted⟩
    exact ⟨_, _, sscanfOn_of_deliver libc spins _ _ _ _ run, counted⟩
  · rintro ⟨⟨cnt, entries⟩, rest, on, counted⟩
    obtain ⟨w', run, -⟩ := deliver_sscanfOn libc spins _ 0 fmt
      ⟨here, coming, .closed⟩ on (Nat.lt_succ_self _)
    exact ⟨_, cnt, entries, w', run, counted⟩

/-- `%d` on a stream that ends with its number: `stpnxt` stops at the end of
the buffer each time. -/
theorem sscanf_peeks_for_ever : ¬ ∃ turns cnt entries w',
    deliver (sscanfWith Libc.single 0 turns [37, 100] fun i => decide (i < 1))
        ⟨[49], [[50]], .closed⟩ = .done (cnt, entries) w' ∧ cnt ≤ conversions [37, 100] := by
  have stuck : sscanfOn Libc.single (fun i => decide (i < 1)) .closed 3 0 [37, 100] [49, 50] =
      none := by decide +kernel
  rintro ⟨turns, cnt, entries, w', run, -⟩
  have on := sscanfOn_of_deliver Libc.single 0 _ _ _ _ run
  rw [show (⟨[49], [[50]], .closed⟩ : Arrivals Byte).bytes = [49, 50] from rfl] at on
  exact absurd (stuck.symm.trans on) (by simp)

end

end UnixProgramming.Ssl
