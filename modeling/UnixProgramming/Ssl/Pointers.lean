import Mathlib.Data.UInt
import UnixProgramming.Heap.Cursor
import UnixProgramming.Ssl.Scan

/-!
# stpnxt at its pointers

`stpnxt` of `Ssl.Scan` takes the rest of a string for a pointer, which hides
where the string ends in memory. Here both arguments are the arrays that just
hold their strings, a pointer is an offset, and a read behind the NUL is
outside.

- `convertAt_like`: each code letter stays inside and is what `convert` says.
- `stpnxt_inside`: so does the whole call, which ends between `s` and its NUL.
-/

namespace UnixProgramming.Ssl

open Cursor

/-! ## The code -/

/-- `*p && isspace(*p)` and its like. -/
def nonNul (test : Byte → Bool) (c : Byte) : Bool := c ≠ 0 && test c

/-- `if(test(*p)) ++p;` -/
def skipOneAt (test : Byte → Bool) (a : List Byte) (p : Nat) : Option Nat := do
  let c ← a[p]?
  if test c then pure (p + 1) else pure p

def stpblkAt (a : List Byte) (p : Nat) : Option Nat := skip isspace a p

/-- The number itself is only read: nothing uses `cmax`. -/
def skipCountAt (fmt : List Byte) (f : Nat) : Option Nat := do
  let c ← fmt[f]?
  if nonNul isdigit c then do
    let _cmax ← skip isdigit fmt f
    skip (nonNul fun c => isdigit c || c == 46) fmt f
  else pure f

def skipWidthAt (fmt : List Byte) (f : Nat) : Option Nat := do
  let f ← skipOneAt (· == 45) fmt f
  let f ← skipCountAt fmt f
  skipOneAt (fun c => c == 108 || c == 104) fmt f

/-- What the `switch` does: it returns at a pointer, or goes on with `s` and `ss`. -/
inductive Move where
  | out (s : Nat)
  | on (s ss : Nat)

def decimalAt (s : List Byte) (p : Nat) : Option Nat := do
  let p ← skipOneAt issign s p
  skip (nonNul isdigit) s p

def fractionAt (s : List Byte) (p : Nat) : Option Nat := do
  let p ← skipOneAt (· == 46) s p
  let p ← skip (nonNul isdigit) s p
  let c ← s[p]?
  if c = 101 then do
    let p ← skipOneAt issign s (p + 1)
    skip (nonNul isdigit) s p
  else pure p

/-- `if(s[0] == '0' && s[1] == 'x') s+= 2;` -/
def hexPrefixAt (s : List Byte) (p : Nat) : Option Nat := do
  let c ← s[p]?
  if c = 48 then do
    let d ← s[p + 1]?
    if d = 120 then pure (p + 2) else pure p
  else pure p

def convertAt (code : Byte) (s : List Byte) (p : Nat) : Option Move :=
  if code = 115 then do                                     -- s
    let q ← skip (nonNul isspace) s p
    let q ← skip (nonNul (!isspace ·)) s q
    pure (.on q p)
  else if code = 99 then do                                 -- c
    let c ← s[p]?
    if c ≠ 0 then pure (.on (p + 1) p) else pure (.on p p)
  else if code = 120 then do                                -- x
    let ss ← stpblkAt s p
    let q ← skipOneAt issign s ss
    let q ← hexPrefixAt s q
    let q ← skip (nonNul isxdigit) s q
    pure (.on q ss)
  else if code = 111 then do                                -- o
    let ss ← skip (nonNul isspace) s p
    let q ← skipOneAt issign s ss
    let q ← skip (nonNul isodigit) s q
    pure (.on q ss)
  else if code = 100 then do                                -- d
    let ss ← skip (nonNul isspace) s p
    let q ← decimalAt s ss
    pure (.on q ss)
  else if code = 101 ∨ code = 102 ∨ code = 103 ∨ code = 117 then do       -- e f g u
    let ss ← skip (nonNul isspace) s p
    let q ← decimalAt s ss
    let q ← fractionAt s q
    pure (.on q ss)
  else if code = 37 then do                                 -- %
    let q ← skip (nonNul isspace) s p
    let c ← s[q]?
    if c ≠ code then pure (.out q) else pure (.on q p)
  else if code = 98 then do                                 -- b
    let q ← skip (nonNul isspace) s p
    pure (.on q p)
  else pure (.on p p)

/-- The loop of `stpnxt` from the pointers `p` and `f` on. It is `none` when a
read is outside and also when the turns do not suffice. -/
def stpnxtAtLoop (s fmt : List Byte) : Nat → Nat → Nat → Option Nat
  | 0, _, _ => none
  | turns + 1, p, f => do
    let c ← s[p]?
    -- `*s && *fmt`: at the end of `s` the format is not read
    if c = 0 then pure p else
    let d ← fmt[f]?
    if d = 0 then pure p
    else if d = 37 then do
      let f ← skipWidthAt fmt (f + 1)
      let code ← fmt[f]?
      let move ← convertAt code s p
      match move with
      | .out q => pure q
      | .on q ss => if q ≤ ss then pure ss else stpnxtAtLoop s fmt turns q (f + 1)
    else if isspace d then stpnxtAtLoop s fmt turns p (f + 1)
    else do
      let q ← skip (nonNul isspace) s p
      let e ← s[q]?
      if e ≠ d then pure q else stpnxtAtLoop s fmt turns (q + 1) (f + 1)

def stpnxtAt (s fmt : List Byte) : Option Nat := stpnxtAtLoop s fmt fmt.length 0 0

/-! ## One call -/

variable {l rest : List Byte} {p : Nat}

theorem nonNul_nul (test : Byte → Bool) : nonNul test 0 = false := rfl

/-- Inside the string the test for the NUL makes no difference. -/
theorem dropWhile_nonNul (test : Byte → Bool) : ∀ {r : List Byte}, 0 ∉ r →
    r.dropWhile (nonNul test) = r.dropWhile test
  | [], _ => rfl
  | c :: r, clean => by
    have here : c ≠ 0 := fun e => clean (by simp [e])
    have same : nonNul test c = test c := by simp [nonNul, here]
    rw [List.dropWhile_cons, List.dropWhile_cons, same,
      dropWhile_nonNul test fun mem => clean (List.mem_cons_of_mem c mem)]

theorem takeWhile_nonNul (test : Byte → Bool) {r : List Byte} (clean : 0 ∉ r) :
    r.takeWhile (nonNul test) = r.takeWhile test := by
  have whole : r.takeWhile (nonNul test) ++ r.dropWhile test =
      r.takeWhile test ++ r.dropWhile test := by
    rw [List.takeWhile_append_dropWhile, ← dropWhile_nonNul test clean,
      List.takeWhile_append_dropWhile]
  exact List.append_cancel_right whole

theorem skip_nonNul (test : Byte → Bool) (h : At l p rest) :
    Inside (skip (nonNul test) (terminated l) p) (At l · (rest.dropWhile test)) := by
  rw [← dropWhile_nonNul test h.clean_rest]
  exact skip_inside (nonNul_nul test) h

theorem skipOneAt_like {test : Byte → Bool} (stops : test 0 = false) (h : At l p rest) :
    Inside (skipOneAt test (terminated l) p) (At l · (skipOne test rest)) := by
  refine h.read.bind ?_
  rintro _ rfl
  cases rest with
  | nil =>
    rw [List.headD_nil, if_neg (by simp [stops])]
    exact .pure h
  | cons c rest =>
    rw [List.headD_cons, skipOne]
    split
    · exact .pure h.next
    · exact .pure h

theorem stpblkAt_like (h : At l p rest) :
    Inside (stpblkAt (terminated l) p) (At l · (stpblk rest)) := skip_inside (by decide) h

theorem skipCountAt_like (h : At l p rest) : Inside (skipCountAt (terminated l) p) (At l ·
    (if isdigit (rest.headD 0) then rest.dropWhile fun c => isdigit c || c == 46 else rest)) := by
  refine h.read.bind ?_
  rintro _ rfl
  have digit : nonNul isdigit (rest.headD 0) = isdigit (rest.headD 0) := by
    by_cases nul : rest.headD 0 = 0
    · rw [nul]; rfl
    · rw [nonNul, decide_eq_true nul, Bool.true_and]
  rw [digit]
  split
  · refine (skip_inside (by decide) h).bind fun _ _ => ?_
    exact skip_nonNul _ h
  · exact .pure h

theorem skipWidthAt_like (h : At l p rest) :
    Inside (skipWidthAt (terminated l) p) (At l · (skipWidth rest)) := by
  refine (skipOneAt_like (by decide) h).bind fun f h => ?_
  refine (skipCountAt_like h).bind fun f h => ?_
  exact skipOneAt_like (by decide) h

theorem decimalAt_like (h : At l p rest) :
    Inside (decimalAt (terminated l) p) (At l · (decimal rest)) :=
  (skipOneAt_like (by decide) h).bind fun _ h => skip_nonNul _ h

theorem fractionAt_like (h : At l p rest) :
    Inside (fractionAt (terminated l) p) (At l · (fraction rest)) := by
  refine (skipOneAt_like (by decide) h).bind fun p h => ?_
  refine (skip_nonNul _ h).bind fun p h => ?_
  unfold fraction
  generalize (skipOne (· == 46) rest).dropWhile isdigit = rest at h
  refine h.read.bind ?_
  rintro _ rfl
  dsimp only
  split
  · rename_i exponent
    cases rest with
    | nil => exact absurd exponent (by decide)
    | cons c rest =>
      obtain rfl : c = 101 := exponent
      exact (skipOneAt_like (by decide) h.next).bind fun _ h => skip_nonNul _ h
  · rename_i other
    split
    · exact absurd rfl other
    · exact .pure h

theorem hexPrefixAt_like (h : At l p rest) :
    Inside (hexPrefixAt (terminated l) p)
      (At l · (if [48, 120].isPrefixOf rest then rest.drop 2 else rest)) := by
  refine h.read.bind ?_
  rintro _ rfl
  split
  · rename_i zero
    cases rest with
    | nil => exact absurd zero (by decide)
    | cons c rest =>
      obtain rfl : c = 48 := zero
      refine h.next.read.bind ?_
      rintro _ rfl
      cases rest with
      | nil => exact .pure h
      | cons d rest =>
        rw [List.headD_cons]
        split
        · rename_i x
          subst x
          exact .pure h.next.next
        · rename_i other
          rw [if_neg (by simpa using Ne.symm other)]
          exact .pure h
  · rename_i other
    cases rest with
    | nil => exact .pure h
    | cons c rest =>
      rw [if_neg (by simpa using fun e => absurd e.symm other)]
      exact .pure h

/-- The same turn at a pointer as on the rest of the string. -/
def Move.Like (l : List Byte) : Move → Turn → Prop
  | .out p, .out rest => At l p rest
  | .on p q, .on rest rest' => At l p rest ∧ At l q rest'
  | _, _ => False

theorem convertAt_like (code : Byte) (h : At l p rest) :
    Inside (convertAt code (terminated l) p) (Move.Like l · (convert code rest)) := by
  have blanks := skip_nonNul isspace h
  unfold convertAt convert
  dsimp only
  by_cases isS : code = 115
  · rw [if_pos isS, if_pos isS]
    exact blanks.bind fun _ h' => (skip_nonNul _ h').bind fun _ h' => .pure ⟨h', h⟩
  rw [if_neg isS, if_neg isS]
  by_cases isC : code = 99
  · rw [if_pos isC, if_pos isC]
    refine h.read.bind ?_
    rintro _ rfl
    split
    · rename_i more
      exact .pure ⟨h.tail more, h⟩
    · rename_i nul
      cases rest with
      | nil => exact .pure ⟨h, h⟩
      | cons c rest => exact absurd (by simpa using nul) fun e : c = 0 => h.clean_rest (by simp [e])
  rw [if_neg isC, if_neg isC]
  by_cases isX : code = 120
  · rw [if_pos isX, if_pos isX]
    refine (stpblkAt_like h).bind fun ss h => ?_
    refine (skipOneAt_like (by decide) h).bind fun q h' => ?_
    refine (hexPrefixAt_like h').bind fun q h' => ?_
    exact (skip_nonNul _ h').bind fun q h' => .pure ⟨h', h⟩
  rw [if_neg isX, if_neg isX]
  by_cases isO : code = 111
  · rw [if_pos isO, if_pos isO]
    refine blanks.bind fun ss h => ?_
    refine (skipOneAt_like (by decide) h).bind fun q h' => ?_
    exact (skip_nonNul _ h').bind fun q h' => .pure ⟨h', h⟩
  rw [if_neg isO, if_neg isO]
  by_cases isD : code = 100
  · rw [if_pos isD, if_pos isD]
    exact blanks.bind fun ss h => (decimalAt_like h).bind fun q h' => .pure ⟨h', h⟩
  rw [if_neg isD, if_neg isD]
  by_cases isF : code = 101 ∨ code = 102 ∨ code = 103 ∨ code = 117
  · rw [if_pos isF, if_pos isF]
    refine blanks.bind fun ss h => ?_
    refine (decimalAt_like h).bind fun q h' => ?_
    exact (fractionAt_like h').bind fun q h' => .pure ⟨h', h⟩
  rw [if_neg isF, if_neg isF]
  by_cases percent : code = 37
  · rw [if_pos percent, if_pos percent]
    refine blanks.bind fun q h' => ?_
    refine h'.read.bind ?_
    rintro _ rfl
    subst percent
    change Inside (if (stpblk rest).headD 0 ≠ 37 then _ else _) _
    by_cases other : (stpblk rest).headD 0 ≠ 37
    · rw [if_pos other, if_pos other]
      exact .pure h'
    · rw [if_neg other, if_neg other]
      exact .pure ⟨h', h⟩
  rw [if_neg percent, if_neg percent]
  by_cases isB : code = 98
  · rw [if_pos isB, if_pos isB]
    exact blanks.bind fun q h' => .pure ⟨h', h⟩
  · rw [if_neg isB, if_neg isB]
    exact .pure ⟨h, h⟩

/-! ## The loop -/

variable {fl frest : List Byte} {f turns : Nat} {c d : Byte}

/-- Where neither string is at its end, a turn begins with the character of
the format. -/
theorem stpnxtAtLoop_turn (hp : At l p (c :: rest)) (hf : At fl f (d :: frest)) :
    stpnxtAtLoop (terminated l) (terminated fl) (turns + 1) p f =
      if d = 37 then do
        let f ← skipWidthAt (terminated fl) (f + 1)
        let code ← (terminated fl)[f]?
        let move ← convertAt code (terminated l) p
        match move with
        | .out q => pure q
        | .on q ss =>
          if q ≤ ss then pure ss else stpnxtAtLoop (terminated l) (terminated fl) turns q (f + 1)
      else if isspace d then stpnxtAtLoop (terminated l) (terminated fl) turns p (f + 1)
      else (do
        let q ← skip (nonNul isspace) (terminated l) p
        let e ← (terminated l)[q]?
        if e ≠ d then pure q
        else stpnxtAtLoop (terminated l) (terminated fl) turns (q + 1) (f + 1)) := by
  have here : c ≠ 0 := fun e => hp.clean_rest (by simp [e])
  have there : d ≠ 0 := fun e => hf.clean_rest (by simp [e])
  rw [stpnxtAtLoop, bind_of hp.get, List.headD_cons, if_neg here, bind_of hf.get, List.headD_cons,
    if_neg there]

/-- With a turn for each character of the format left, and one for its NUL,
the loop comes to its end and is the one of `Ssl.Scan`. -/
theorem stpnxtAtLoop_like (enough : frest.length < turns)
    (hp : At l p rest) (hf : At fl f frest) :
    ∃ t, stpnxtLoop turns rest frest = some t ∧
      Inside (stpnxtAtLoop (terminated l) (terminated fl) turns p f) (At l · t) := by
  induction turns generalizing p f rest frest with
  | zero => exact absurd enough (Nat.not_lt_zero _)
  | succ turns ih =>
    rcases rest with _ | ⟨c, rest⟩
    · refine ⟨[], stpnxtLoop_empty _ _, p, ?_, hp⟩
      rw [stpnxtAtLoop, hp.get]
      rfl
    rcases frest with _ | ⟨d, frest⟩
    · refine ⟨_, stpnxtLoop_done _ _, p, ?_, hp⟩
      rw [stpnxtAtLoop, hp.get, hf.get]
      simp
    have fewer : frest.length < turns := by simpa using enough
    rw [stpnxtAtLoop_turn hp hf]
    by_cases percent : d = 37
    · subst percent
      rw [stpnxtLoop_code (by simp), if_pos rfl]
      obtain ⟨f', e, hf'⟩ := skipWidthAt_like hf.next
      have left := (skipWidth_suffix frest).length_le
      generalize skipWidth frest = frest' at hf' left
      obtain ⟨move, e', like⟩ := convertAt_like (frest'.headD 0) hp
      rw [bind_of e, bind_of hf'.get, bind_of e']
      cases turn : convert (frest'.headD 0) (c :: rest) with
      | out s =>
        rw [turn] at like
        cases move with
        | out q => exact ⟨s, rfl, .pure like⟩
        | on q ss => exact like.elim
      | on s ss =>
        rw [turn] at like
        cases move with
        | out q => exact like.elim
        | on q qs =>
          obtain ⟨hs, hss⟩ := like
          dsimp only
          by_cases stays : s.length ≥ ss.length
          · rw [if_pos stays, if_pos ((hs.le_iff hss).2 stays)]
            exact ⟨ss, rfl, .pure hss⟩
          · rw [if_neg stays, if_neg (mt (hs.le_iff hss).1 stays)]
            cases frest' with
            | nil =>
              -- the NUL is no code: nothing is read from `s`
              rw [convert_nul] at turn
              cases turn
              exact absurd le_rfl stays
            | cons code frest' =>
              have left' : frest'.length + 1 ≤ frest.length := left
              exact ih (by omega) hs hf'.next
    · rw [if_neg percent]
      unfold stpnxtLoop
      rw [if_neg (by simp)]
      dsimp only
      rw [if_neg percent]
      split
      · exact ih fewer hp hf.next
      · obtain ⟨q, e, hq⟩ := skip_nonNul isspace hp
        rw [bind_of e, bind_of hq.get]
        change At l q (stpblk (c :: rest)) at hq
        change ∃ t, _ ∧ Inside (if (stpblk (c :: rest)).headD 0 ≠ d then _ else _) _
        cases blanks : stpblk (c :: rest) with
        | nil =>
          rw [blanks] at hq
          have there : d ≠ 0 := fun e => hf.clean_rest (by simp [e])
          rw [List.headD_nil, if_pos there.symm]
          exact ⟨[], rfl, .pure hq⟩
        | cons e s =>
          rw [blanks] at hq
          rw [List.headD_cons]
          dsimp only
          split
          · exact ⟨_, rfl, .pure hq⟩
          · exact ih fewer hq.next hf.next

/-- **No read of `stpnxt` is outside, and it ends.** What it returns points into
`s`, at its NUL at the latest, at the rest that `Ssl.Scan` gives. -/
theorem stpnxt_inside (s fmt : CString) : ∃ p, stpnxtAt s.array fmt.array = some p ∧
    p ≤ s.chars.length ∧ stpnxt s.chars fmt.chars = some (s.chars.drop p) := by
  obtain ⟨t, scanned, p, e, h⟩ := stpnxtAtLoop_like (Nat.lt_succ_self fmt.chars.length)
    (At.start s.clean) (At.start fmt.clean)
  have turns : fmt.array.length = fmt.chars.length + 1 := by simp [CString.array, withNul]
  refine ⟨p, ?_, h.before, ?_⟩
  · rwa [stpnxtAt, turns]
  · rwa [h.rest]

end UnixProgramming.Ssl
