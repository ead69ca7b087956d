import UnixProgramming.Ssl.Formats

/-!
# The pieces of a format

`strnxtfmt` with the pointer that it keeps between its calls. A piece is
literal text, in which `%%` stands for itself, and the conversion behind it.

* `strnxtfmtLoop_split`: what one call takes off the format;
* `strnxtfmt_splits`: the calls take the format to pieces and lose nothing.
-/

namespace UnixProgramming.Ssl

/-! ## Text and conversions -/

/-- Text without a conversion. -/
inductive Literal : List Byte → Prop where
  | nil : Literal []
  | char {c : Byte} {l : List Byte} (plain : c ≠ 37) (rest : Literal l) : Literal (c :: l)
  | pair {l : List Byte} (rest : Literal l) : Literal (37 :: 37 :: l)

/-- `%`, any flags, and one more character; `%%` is no conversion. -/
def Conversion (p : List Byte) : Prop :=
  ∃ flags code, p = 37 :: (flags ++ [code]) ∧ (∀ c ∈ flags, isflag c) ∧ isflag code = false ∧
    (flags = [] → code ≠ 37)

/-- The format may end where the flags of a conversion do. -/
def Unfinished (p : List Byte) : Prop := ∃ flags, p = 37 :: flags ∧ ∀ c ∈ flags, isflag c

/-- A piece with one conversion, at its end. -/
def One (p : List Byte) : Prop := ∃ lit conv, p = lit ++ conv ∧ Literal lit ∧ Conversion conv

/-- A piece without any. -/
def Without (p : List Byte) : Prop :=
  ∃ lit tail, p = lit ++ tail ∧ Literal lit ∧ (tail = [] ∨ Unfinished tail)

theorem One.char {c : Byte} {p : List Byte} (plain : c ≠ 37) : One p → One (c :: p)
  | ⟨lit, conv, e, l, h⟩ => ⟨c :: lit, conv, by rw [e, List.cons_append], .char plain l, h⟩

theorem One.pair {p : List Byte} : One p → One (37 :: 37 :: p)
  | ⟨lit, conv, e, l, h⟩ => ⟨37 :: 37 :: lit, conv, by rw [e]; rfl, .pair l, h⟩

theorem Without.char {c : Byte} {p : List Byte} (plain : c ≠ 37) : Without p → Without (c :: p)
  | ⟨lit, tail, e, l, h⟩ => ⟨c :: lit, tail, by rw [e, List.cons_append], .char plain l, h⟩

theorem Without.pair {p : List Byte} : Without p → Without (37 :: 37 :: p)
  | ⟨lit, tail, e, l, h⟩ => ⟨37 :: 37 :: lit, tail, by rw [e]; rfl, .pair l, h⟩

/-! ## One call -/

theorem strnxtfmtLoop_append (fmt : List Byte) :
    (strnxtfmtLoop fmt).1 ++ (strnxtfmtLoop fmt).2 = fmt := by
  fun_induction strnxtfmtLoop fmt with
  | case1 | case3 => rfl
  | case2 c fmt plain ih => simp [ih]
  | case4 c percent rest ih => simp [ih]
  | case5 c percent d rest plain flags =>
    have split := List.takeWhile_append_dropWhile (p := isflag) (l := d :: rest)
    rw [flags, List.append_nil] at split
    simp [split]
  | case6 c percent d rest plain code f flags =>
    have split := List.takeWhile_append_dropWhile (p := isflag) (l := d :: rest)
    rw [flags] at split
    simp [split]

theorem strnxtfmtLoop_ne_nil {fmt : List Byte} (some' : fmt ≠ []) : (strnxtfmtLoop fmt).1 ≠ [] := by
  fun_cases strnxtfmtLoop fmt with
  | case1 => exact absurd rfl some'
  | case2 | case3 | case4 | case5 | case6 => exact List.cons_ne_nil _ _

/-- **What a call takes off**: text and one conversion, or all that is left. -/
theorem strnxtfmtLoop_split (fmt : List Byte) : One (strnxtfmtLoop fmt).1 ∨
    Without (strnxtfmtLoop fmt).1 ∧ (strnxtfmtLoop fmt).2 = [] := by
  have flagged {c : Byte} {l : List Byte} (h : c ∈ l.takeWhile isflag) : isflag c :=
    List.mem_takeWhile_imp h
  fun_induction strnxtfmtLoop fmt with
  | case1 => exact .inr ⟨⟨[], [], rfl, .nil, .inl rfl⟩, rfl⟩
  | case2 c fmt plain ih => exact ih.imp (.char plain) (.imp_left (.char plain))
  | case3 c percent =>
    obtain rfl : c = 37 := not_not.1 percent
    exact .inr ⟨⟨[], [37], rfl, .nil, .inr ⟨[], rfl, by simp⟩⟩, rfl⟩
  | case4 c percent rest ih =>
    obtain rfl : c = 37 := not_not.1 percent
    exact ih.imp .pair (.imp_left .pair)
  | case5 c percent d rest plain none' =>
    obtain rfl : c = 37 := not_not.1 percent
    exact .inr ⟨⟨[], _, rfl, .nil, .inr ⟨_, rfl, fun _ => flagged⟩⟩, rfl⟩
  | case6 c percent d rest plain code f flags =>
    obtain rfl : c = 37 := not_not.1 percent
    refine .inl ⟨[], _, rfl, .nil, _, code, rfl, fun _ => flagged, ?_, fun empty => ?_⟩
    · simpa [flags] using List.head?_dropWhile_not isflag (d :: rest)
    · -- without flags the code letter is the character behind the `%`
      have all := List.takeWhile_append_dropWhile (p := isflag) (l := d :: rest)
      rw [empty, flags, List.nil_append, List.cons.injEq] at all
      exact all.1 ▸ plain

/-! ## The number of conversions -/

/-- Where a format is read: in its text, behind a `%`, or among flags. -/
inductive Place where
  | text
  | percent
  | flags

def conversionsFrom : Place → List Byte → Nat
  | _, [] => 0
  | .text, c :: f => if c = 37 then conversionsFrom .percent f else conversionsFrom .text f
  | .percent, c :: f =>
    if c = 37 then conversionsFrom .text f
    else if isflag c then conversionsFrom .flags f
    else conversionsFrom .text f + 1
  | .flags, c :: f => if isflag c then conversionsFrom .flags f else conversionsFrom .text f + 1

def conversions (fmt : List Byte) : Nat := conversionsFrom .text fmt

theorem conversionsFrom_flags (f : List Byte) : conversionsFrom .flags f =
    match f.dropWhile isflag with
    | [] => 0
    | _ :: f => conversions f + 1 := by
  induction f with
  | nil => rfl
  | cons c f ih =>
    rw [conversionsFrom, List.dropWhile_cons]
    split
    · exact ih
    · rfl

/-- A piece has one conversion, or none if it is the last. -/
theorem conversions_piece (fmt : List Byte) :
    conversions fmt =
        conversions (strnxtfmtLoop fmt).1 + conversions (strnxtfmtLoop fmt).2 ∧
      (conversions (strnxtfmtLoop fmt).1 = 1 ∨
        conversions (strnxtfmtLoop fmt).1 = 0 ∧ (strnxtfmtLoop fmt).2 = []) := by
  have percent {d : Byte} (f : List Byte) (plain : d ≠ 37) :
      conversions (37 :: d :: f) = conversionsFrom .flags (d :: f) := by
    simp [conversions, conversionsFrom, plain]
  fun_induction strnxtfmtLoop fmt with
  | case1 => simp [conversions, conversionsFrom]
  | case2 c fmt plain ih =>
    have same (l : List Byte) : conversions (c :: l) = conversions l := by
      simp [conversions, conversionsFrom, plain]
    simp only [same]
    exact ih
  | case3 c percent =>
    obtain rfl : c = 37 := not_not.1 percent
    simp [conversions, conversionsFrom]
  | case4 c is rest ih =>
    obtain rfl : c = 37 := not_not.1 is
    have same (l : List Byte) : conversions (37 :: 37 :: l) = conversions l := by
      simp [conversions, conversionsFrom]
    simp only [same]
    exact ih
  | case5 c is d rest plain none' =>
    obtain rfl : c = 37 := not_not.1 is
    have split := List.takeWhile_append_dropWhile (p := isflag) (l := d :: rest)
    rw [none', List.append_nil] at split
    have zero : conversions (37 :: d :: rest) = 0 := by
      rw [percent rest plain, conversionsFrom_flags, none']
    rw [split, zero]
    exact ⟨rfl, .inr ⟨rfl, rfl⟩⟩
  | case6 c is d rest plain code f flags =>
    obtain rfl : c = 37 := not_not.1 is
    have whole : conversions (37 :: d :: rest) = conversions f + 1 := by
      rw [percent rest plain, conversionsFrom_flags, flags]
    have letter : isflag code = false := by
      simpa [flags] using List.head?_dropWhile_not isflag (d :: rest)
    have behind : ((d :: rest).takeWhile isflag ++ [code]).dropWhile isflag = [code] := by
      rw [List.dropWhile_append_of_pos fun c hc => List.mem_takeWhile_imp hc]
      simp [letter]
    obtain ⟨l, first⟩ : ∃ l, (d :: rest).takeWhile isflag ++ [code] = d :: l := by
      by_cases flag : isflag d
      · exact ⟨rest.takeWhile isflag ++ [code], by simp [flag]⟩
      · have same : d = code := by simpa [flag] using congrArg List.head? flags
        subst same
        exact ⟨[], by simp [flag]⟩
    have one : conversions (37 :: ((d :: rest).takeWhile isflag ++ [code])) = 1 := by
      rw [first, percent l plain, ← first, conversionsFrom_flags, behind]
      rfl
    rw [one, whole]
    exact ⟨Nat.add_comm _ _, .inl rfl⟩

/-! ## The calls -/

/-- A call of `strnxtfmt` with the static `f`: what it returns and the new `f`. -/
def strnxtfmtCall (f fmt : Option (List Byte)) : Option (List Byte) × Option (List Byte) :=
  match fmt.or f with
  | none => (none, none)
  | some fmt =>
    match strnxtfmt fmt with
    | none => (none, some fmt)
    | some (locbuf, fmt) => (some locbuf, some fmt)

/-- A call with `fmt` and then `n` with null pointers. -/
def strnxtfmtCalls : Nat → Option (List Byte) → Option (List Byte) → List (Option (List Byte))
  | 0, f, fmt => [(strnxtfmtCall f fmt).1]
  | n + 1, f, fmt => (strnxtfmtCall f fmt).1 :: strnxtfmtCalls n (strnxtfmtCall f fmt).2 none

/-- What the calls are to make of a format: pieces that fit `locbuf` with
their NUL, each but the last with one conversion. -/
structure Splits (fmt : List Byte) (pieces : List (List Byte)) : Prop where
  whole : pieces.flatten = fmt
  some' : ∀ p ∈ pieces, p ≠ [] ∧ p.length < locbufSize ∧ (One p ∨ Without p)
  one : ∀ p ∈ pieces.dropLast, One p

theorem strnxtfmtCalls_end (n : Nat) (f fmt : Option (List Byte)) (ended : fmt.or f = some []) :
    strnxtfmtCalls n f fmt = List.replicate (n + 1) none := by
  have call : strnxtfmtCall f fmt = (none, some []) := by rw [strnxtfmtCall, ended]; rfl
  induction n generalizing f fmt with
  | zero => rw [strnxtfmtCalls, call]; rfl
  | succ n ih =>
    rw [strnxtfmtCalls, call, ih (some []) none rfl rfl]
    rfl

/-- A call that has something left takes the first piece off. -/
theorem strnxtfmtCall_some {f fmt : Option (List Byte)} {g : List Byte} (left : fmt.or f = some g)
    (some' : g ≠ []) :
    strnxtfmtCall f fmt = (some (strnxtfmtLoop g).1, some (strnxtfmtLoop g).2) := by
  rw [strnxtfmtCall, left]
  simp only [strnxtfmt, List.isEmpty_iff, if_neg some']

theorem strnxtfmtCalls_splits : ∀ (g : List Byte) (f fmt : Option (List Byte)),
    fmt.or f = some g → g.length < locbufSize →
    ∃ pieces, Splits g pieces ∧ ∀ n, strnxtfmtCalls (pieces.length + n) f fmt =
      pieces.map some ++ List.replicate (n + 1) none := by
  intro g
  -- on the length of what is left; every call takes something off
  induction hn : g.length using Nat.strongRecOn generalizing g with
  | ind n ih =>
    intro f fmt left fits
    by_cases some' : g = []
    · subst some'
      exact ⟨[], ⟨rfl, by simp, by simp⟩, fun n => by simpa using strnxtfmtCalls_end n f fmt left⟩
    · have joined := strnxtfmtLoop_append g
      have first := List.length_pos_iff.2 (strnxtfmtLoop_ne_nil some')
      have lengths := congrArg List.length joined
      rw [List.length_append] at lengths
      obtain ⟨pieces, splits, calls⟩ := ih (strnxtfmtLoop g).2.length (by omega)
        (strnxtfmtLoop g).2 rfl (some (strnxtfmtLoop g).2) none rfl (by omega)
      refine ⟨(strnxtfmtLoop g).1 :: pieces, ⟨?_, ?_, ?_⟩, fun n => ?_⟩
      · rw [List.flatten_cons, splits.whole, joined]
      · refine List.forall_mem_cons.2 ⟨⟨strnxtfmtLoop_ne_nil some', by omega, ?_⟩, splits.some'⟩
        exact (strnxtfmtLoop_split g).imp_right And.left
      · rcases strnxtfmtLoop_split g with one | ⟨-, last⟩
        · cases pieces with
          | nil => simp
          | cons p pieces => exact List.forall_mem_cons.2 ⟨one, splits.one⟩
        · obtain rfl : pieces = [] := by
            by_contra more
            obtain ⟨p, pieces, rfl⟩ := List.exists_cons_of_ne_nil more
            have none' := splits.whole.trans last
            exact (splits.some' p List.mem_cons_self).1 (List.append_eq_nil_iff.1 none').1
          simp
      · have count : ((strnxtfmtLoop g).1 :: pieces).length + n = pieces.length + n + 1 := by
          rw [List.length_cons]
          omega
        rw [count, strnxtfmtCalls, strnxtfmtCall_some left some', calls]
        rfl

/-- **`strnxtfmt` splits a format without loss**: whatever format it was at
before, the calls return the pieces of this one in order, and from then on a
null pointer. -/
theorem strnxtfmt_splits (f : Option (List Byte)) {fmt : List Byte}
    (short : fmt.length < locbufSize) : ∃ pieces, Splits fmt pieces ∧
      ∀ n, strnxtfmtCalls (pieces.length + n) f (some fmt) =
        pieces.map some ++ List.replicate (n + 1) none :=
  strnxtfmtCalls_splits fmt f (some fmt) rfl short

/-- `"a%%%ld%"` behind a call that was not the last for its format. -/
theorem strnxtfmt_splits_pair : ∃ pieces, Splits [97, 37, 37, 37, 108, 100, 37] pieces ∧
    ∀ n, strnxtfmtCalls (pieces.length + n) (some [37, 115]) (some [97, 37, 37, 37, 108, 100, 37]) =
      pieces.map some ++ List.replicate (n + 1) none :=
  strnxtfmt_splits (some [37, 115]) (by decide)

end UnixProgramming.Ssl
