import UnixProgramming.Ssl.Sscanf

/-!
# Sscanf on any stream

`Sscanf` measures each piece of its format off with `stpnxt` and then leaves it
to `sscanf`, whatever that makes of it. How the bytes arrive makes no
difference: where `stpnxt` stops before the end of what has been peeked at, it
stops at the same place with more behind.

* `stpnxt_append`: more behind the place where `stpnxt` stops;
* `deliver_sscanfWith`: what `Sscanf` returns, as a function of the bytes.
-/

namespace UnixProgramming.Ssl

open Pipe

/-! ## stpnxt with more to read -/

/-- What has stopped before the end stops there with more behind. -/
def Grows (f : List Byte → List Byte) : Prop :=
  f [] = [] ∧ ∀ x e, f x ≠ [] → f (x ++ e) = f x ++ e

theorem Grows.comp {f g : List Byte → List Byte} (hg : Grows g) (hf : Grows f) :
    Grows (g ∘ f) := by
  refine ⟨(congrArg g hf.1).trans hg.1, fun x e some' => ?_⟩
  have some'' : f x ≠ [] := fun none' => some' ((congrArg g none').trans hg.1)
  change g (f (x ++ e)) = g (f x) ++ e
  rw [hf.2 x e some'', hg.2 _ e some']

theorem grows_dropWhile (test : Byte → Bool) : Grows (List.dropWhile test) := by
  refine ⟨rfl, fun x e some' => ?_⟩
  induction x with
  | nil => exact absurd rfl some'
  | cons c x ih =>
    rw [List.cons_append, List.dropWhile_cons, List.dropWhile_cons]
    rw [List.dropWhile_cons] at some'
    split
    · rename_i passes
      rw [if_pos passes] at some'
      exact ih some'
    · rfl

theorem grows_skipOne (test : Byte → Bool) : Grows (skipOne test) := by
  refine ⟨rfl, fun x e some' => ?_⟩
  cases x with
  | nil => exact absurd rfl some'
  | cons c x =>
    simp only [List.cons_append, skipOne]
    split <;> rfl

theorem grows_tail : Grows List.tail := by
  refine ⟨rfl, fun x e some' => ?_⟩
  cases x with
  | nil => exact absurd rfl some'
  | cons c x => rfl

theorem grows_decimal : Grows decimal := (grows_dropWhile isdigit).comp (grows_skipOne issign)

theorem grows_fraction : Grows fraction := by
  refine ⟨rfl, fun x e some' => ?_⟩
  have digits := (grows_dropWhile isdigit).comp (grows_skipOne (· == 46))
  unfold fraction at some' ⊢
  dsimp only at some' ⊢
  have some'' : (skipOne (· == 46) x).dropWhile isdigit ≠ [] := by
    intro none'
    rw [none'] at some'
    exact some' rfl
  have more : (skipOne (· == 46) (x ++ e)).dropWhile isdigit =
      (skipOne (· == 46) x).dropWhile isdigit ++ e := digits.2 x e some''
  rw [more]
  obtain ⟨c, y, here⟩ := List.exists_cons_of_ne_nil some''
  rw [here] at some' ⊢
  rw [List.cons_append]
  by_cases exponent : c = 101
  · subst exponent
    exact ((grows_dropWhile isdigit).comp (grows_skipOne issign)).2 y e some'
  · split
    · rename_i h
      exact absurd (List.cons.inj h).1 exponent
    · split
      · rename_i h
        exact absurd (List.cons.inj h).1 exponent
      · rfl

/-- The digits behind `0x`. -/
theorem grows_hex : Grows fun x =>
    (if [48, 120].isPrefixOf x then x.drop 2 else x).dropWhile isxdigit := by
  refine ⟨rfl, fun x e some' => ?_⟩
  match x with
  | [] => exact absurd rfl some'
  | [c] =>
    by_cases zero : c = 48
    · subst zero
      exact absurd rfl some'
    · have other (f : List Byte) : ¬ [48, 120].isPrefixOf (c :: f) := fun h =>
        zero (List.cons_prefix_cons.1 (List.isPrefixOf_iff_prefix.1 h)).1.symm
      simp only [other, List.singleton_append, Bool.false_eq_true, if_false] at some' ⊢
      exact (grows_dropWhile isxdigit).2 [c] e some'
  | c :: d :: x =>
    have same : [48, 120].isPrefixOf (c :: d :: x ++ e) = [48, 120].isPrefixOf (c :: d :: x) := by
      simp [List.isPrefixOf]
    simp only [same] at some' ⊢
    split
    · rename_i hex
      rw [if_pos hex] at some'
      exact (grows_dropWhile isxdigit).2 x e some'
    · rename_i dec
      rw [if_neg dec] at some'
      exact (grows_dropWhile isxdigit).2 (c :: d :: x) e some'

theorem grows_stpblk : Grows stpblk := grows_dropWhile isspace

/-- What the `switch` does with a code letter, other than `%`. -/
theorem convert_on (code : Byte) : (∃ f g : List Byte → List Byte, Grows f ∧ Grows g ∧
      ∀ x, convert code x = .on (f x) (g x) ∧ (f x ≠ [] → g x ≠ [])) ∨
    ∀ x, convert code x = if (stpblk x).headD 0 ≠ 37 then .out (stpblk x) else .on (stpblk x) x := by
  have here : Grows id := ⟨rfl, fun _ _ _ => rfl⟩
  have blanks {f : List Byte → List Byte} (hf : Grows f) (x : List Byte) :
      f (stpblk x) ≠ [] → stpblk x ≠ [] := fun some' none' => some' ((congrArg f none').trans hf.1)
  have word : Grows fun x => x.dropWhile (!isspace ·) := grows_dropWhile _
  have octal : Grows fun x => (skipOne issign x).dropWhile isodigit :=
    (grows_dropWhile _).comp (grows_skipOne _)
  have hex := grows_hex.comp (grows_skipOne issign)
  have float := grows_fraction.comp grows_decimal
  by_cases isS : code = 115
  · subst isS
    exact .inl ⟨_, _, word.comp grows_stpblk, here, fun x => ⟨rfl, fun some' none' =>
      some' (by rw [show x = [] from none']; rfl)⟩⟩
  by_cases isC : code = 99
  · subst isC
    exact .inl ⟨_, _, grows_tail, here, fun x => ⟨rfl, fun some' none' =>
      some' (by rw [show x = [] from none']; rfl)⟩⟩
  by_cases isX : code = 120
  · subst isX
    exact .inl ⟨_, _, hex.comp grows_stpblk, grows_stpblk, fun x => ⟨rfl, blanks hex x⟩⟩
  by_cases isO : code = 111
  · subst isO
    exact .inl ⟨_, _, octal.comp grows_stpblk, grows_stpblk, fun x => ⟨rfl, blanks octal x⟩⟩
  by_cases isD : code = 100
  · subst isD
    exact .inl ⟨_, _, grows_decimal.comp grows_stpblk, grows_stpblk,
      fun x => ⟨rfl, blanks grows_decimal x⟩⟩
  by_cases isF : code = 101 ∨ code = 102 ∨ code = 103 ∨ code = 117
  · refine .inl ⟨_, _, float.comp grows_stpblk, grows_stpblk, fun x => ⟨?_, blanks float x⟩⟩
    simp only [convert, isS, isC, isX, isO, isD, isF, if_true, if_false]
    rfl
  by_cases percent : code = 37
  · subst percent
    exact .inr fun x => rfl
  by_cases isB : code = 98
  · subst isB
    exact .inl ⟨_, _, grows_stpblk, here, fun x => ⟨rfl, fun some' none' =>
      some' (by rw [show x = [] from none']; rfl)⟩⟩
  · refine .inl ⟨id, id, here, here, fun x => ⟨?_, id⟩⟩
    simp only [convert, isS, isC, isX, isO, isD, isF, percent, isB, if_false]
    rfl

theorem stpnxtLoop_append (e : List Byte) : ∀ (turns : Nat) (x fmt : List Byte) {s : List Byte},
    stpnxtLoop turns x fmt = some s → s ≠ [] → stpnxtLoop turns (x ++ e) fmt = some (s ++ e) := by
  intro turns
  induction turns with
  | zero =>
    intro x fmt s stops _
    cases stops
    rfl
  | succ turns ih =>
    intro x fmt s stops some'
    have unread : x ≠ [] := by
      rintro rfl
      rw [stpnxtLoop.eq_def] at stops
      cases stops
      exact some' rfl
    have unread' : x ++ e ≠ [] := fun none' => unread (List.append_eq_nil_iff.1 none').1
    cases fmt with
    | nil =>
      rw [stpnxtLoop_done] at stops ⊢
      cases stops
      rfl
    | cons c rest =>
      by_cases percent : c = 37
      · subst percent
        rw [stpnxtLoop_code unread] at stops
        rw [stpnxtLoop_code unread']
        cases code : skipWidth rest with
        | nil =>
          -- no code letter: nothing is taken
          rw [code, convert_nul] at stops
          rw [convert_nul]
          simp only [ge_iff_le, Nat.le_refl, if_true] at stops ⊢
          cases stops
          rfl
        | cons letter fmt =>
        rw [code] at stops
        simp only [List.headD_cons] at stops ⊢
        -- the same turn, with `s` and `ss` as they are and with more behind them
        have turn {t ss : List Byte} (front : t ≠ [] → ss ≠ []) (h : (if t.length ≥ ss.length then
            some ss else stpnxtLoop turns t fmt) = some s) : t ≠ [] ∧
            (if (t ++ e).length ≥ (ss ++ e).length then some (ss ++ e)
              else stpnxtLoop turns (t ++ e) fmt) = some (s ++ e) := by
          simp only [List.length_append, ge_iff_le, Nat.add_le_add_iff_right]
          split at h
          · rename_i stays
            cases h
            have pos := List.length_pos_iff.2 some'
            exact ⟨List.length_pos_iff.1 (by omega), if_pos stays⟩
          · rename_i goes
            rw [if_neg goes]
            refine ⟨?_, ih t fmt h some'⟩
            rintro rfl
            rw [stpnxtLoop_empty] at h
            cases h
            exact some' rfl
        rcases convert_on letter with ⟨f, g, growsF, growsG, on⟩ | on
        · simp only [(on x).1] at stops
          obtain ⟨some'', stops'⟩ := turn (on x).2 stops
          simp only [(on (x ++ e)).1]
          rw [growsF.2 x e some'', growsG.2 x e ((on x).2 some'')]
          exact stops'
        · rw [on] at stops ⊢
          by_cases blank : stpblk x = []
          · rw [blank] at stops
            cases stops
            exact absurd rfl some'
          have same : (stpblk x ++ e).headD 0 = (stpblk x).headD 0 := by
            obtain ⟨d, t, front⟩ := List.exists_cons_of_ne_nil blank
            rw [front]
            rfl
          rw [grows_stpblk.2 x e blank, same]
          by_cases other : (stpblk x).headD 0 ≠ 37
          · rw [if_pos other] at stops ⊢
            cases stops
            rfl
          · rw [if_neg other] at stops ⊢
            exact (turn (fun _ => unread) stops).2
      · rw [stpnxtLoop, if_neg (by simpa using unread)] at stops
        rw [stpnxtLoop, if_neg (by simpa using unread')]
        simp only [if_neg percent] at stops ⊢
        by_cases white : isspace c
        · rw [if_pos white] at stops ⊢
          exact ih x rest stops some'
        · rw [if_neg white] at stops ⊢
          by_cases blank : stpblk x = []
          · simp only [blank] at stops
            cases stops
            exact absurd rfl some'
          · rw [grows_stpblk.2 x e blank]
            obtain ⟨d, t, front⟩ := List.exists_cons_of_ne_nil blank
            simp only [front, List.cons_append] at stops ⊢
            split
            · rename_i other
              rw [if_pos other] at stops
              cases stops
              rfl
            · rename_i same
              rw [if_neg same] at stops
              exact ih t rest stops some'

/-- **More behind the place where `stpnxt` stops** makes no difference to it. -/
theorem stpnxt_append {x fmt s : List Byte} (stops : stpnxt x fmt = some s) (some' : s ≠ [])
    (e : List Byte) : stpnxt (x ++ e) fmt = some (s ++ e) :=
  stpnxtLoop_append e _ x fmt stops some'

/-- `stpnxt` never reads behind the end of its format. -/
theorem stpnxt_isSome (x fmt : List Byte) : ∃ s, stpnxt x fmt = some s := by
  suffices all : ∀ (turns : Nat) (x fmt : List Byte), ∃ s, stpnxtLoop turns x fmt = some s from
    all _ x fmt
  intro turns
  induction turns with
  | zero => exact fun x fmt => ⟨x, rfl⟩
  | succ turns ih =>
    intro x fmt
    by_cases unread : x = []
    · subst unread
      exact ⟨[], stpnxtLoop_empty _ _⟩
    cases fmt with
    | nil => exact ⟨x, stpnxtLoop_done _ x⟩
    | cons c rest =>
      by_cases percent : c = 37
      · subst percent
        rw [stpnxtLoop_code unread]
        cases code : skipWidth rest with
        | nil =>
          -- no code letter: nothing is taken
          rw [convert_nul]
          exact ⟨x, if_pos le_rfl⟩
        | cons letter fmt =>
          dsimp only
          split
          · exact ⟨_, rfl⟩
          · split
            · exact ⟨_, rfl⟩
            · exact ih _ _
      · rw [stpnxtLoop, if_neg (by simpa using unread)]
        simp only [if_neg percent]
        split
        · exact ih _ _
        · split
          · exact ⟨_, rfl⟩
          · split
            · exact ⟨_, rfl⟩
            · exact ih _ _

/-! ## Any sscanf -/

/-- What `sscanf` does with a piece and the pointer it is given: what it
returns, what it stores, and what it does not consume. -/
structure Single where
  result : Int
  arg : Option Arg
  rest : List Byte
  deriving DecidableEq, Repr

/-- The loop of `Sscanf` over any `sscanf`, at its argument number `i`: `cnt`,
and for each piece the bytes read and what `sscanf` has done with them. -/
def sscanfLoopWith (libc : List Byte → List Byte → Single) (spins turns : Nat)
    (arg : Nat → Bool) : Nat → Nat → List Byte → Proc (Nat × List (List Byte × Single))
  | 0, _, _ => return (0, [])
  | left + 1, i, f =>
    if arg i = false then return (0, [])
    else match strnxtfmt f with
      | none => return (0, [])
      | some (snglfmt, f) =>
        if locbufSize ≤ snglfmt.length then .spin
        else do
          let _ ← swait
          match ← peekLoop snglfmt turns with
          | none => return (0, [])
          | some (buf, b) =>
            let b := if buf.getD b 0 = 0 then b + 1 else b
            let buf ← sreadbytes spins b
            let r := libc (cstr buf) snglfmt
            if r.result = 0 then return (0, [(buf, r)])
            else if buf.length = 0 then return (1, [(buf, r)])
            else
              let more ← sscanfLoopWith libc spins turns arg left (i + 1) f
              return (more.1 + 1, (buf, r) :: more.2)

def sscanfWith (libc : List Byte → List Byte → Single) (spins turns : Nat) (fmt : List Byte)
    (arg : Nat → Bool) : Proc (Nat × List (List Byte × Single)) :=
  sscanfLoopWith libc spins turns arg (fmt.length + 1) 0 fmt

/-- `Sscanf` with the `sscanf` of integers and words is one of these. -/
theorem sscanfLoop_eq (libc : List Byte → List Byte → Single)
    (same : ∀ s fmt, Libc.sscanf s fmt = ((libc s fmt).result, (libc s fmt).arg))
    (spins turns : Nat) (arg : Nat → Bool) : ∀ (left i : Nat) (f : List Byte),
    sscanfLoop spins turns arg left i f = sscanfLoopWith libc spins turns arg left i f >>=
      fun r => .ret (r.1, r.2.map fun p => p.2.arg) := by
  intro left
  induction left with
  | zero => intro i f; rfl
  | succ left ih =>
    intro i f
    rw [sscanfLoop, sscanfLoopWith]
    by_cases given : arg i = false
    · rw [if_pos given, if_pos given]; rfl
    rw [if_neg given, if_neg given]
    cases strnxtfmt f with
    | none => rfl
    | some piece =>
      dsimp only
      by_cases long : locbufSize ≤ piece.1.length
      · rw [if_pos long, if_pos long]; rfl
      rw [if_neg long, if_neg long, Proc.bind_assoc']
      refine congrArg _ (funext fun _ => ?_)
      rw [Proc.bind_assoc']
      refine congrArg _ (funext fun found => ?_)
      cases found with
      | none => rfl
      | some at' =>
        dsimp only
        rw [Proc.bind_assoc']
        refine congrArg _ (funext fun buf => ?_)
        rw [same]
        dsimp only
        by_cases failed : (libc (cstr buf) piece.1).result = 0
        · rw [if_pos failed, if_pos failed]; rfl
        rw [if_neg failed, if_neg failed]
        by_cases empty : buf.length = 0
        · rw [if_pos empty, if_pos empty]; rfl
        rw [if_neg empty, if_neg empty, ih, Proc.bind_assoc', Proc.bind_assoc']
        rfl

/-! ## Where a piece ends -/

/-- What `Speek` can show of the unread bytes. -/
def window (q : List Byte) : List Byte := q.take (PM.bigbuf - 1)

/-- Where `stpnxt` stops in what a peek has put into the buffer. -/
def stopIn (buf snglfmt : List Byte) : Nat :=
  (cstr buf).length - ((stpnxt (cstr buf) snglfmt).getD []).length

/-- Before the end of the buffer `stpnxt` stops where it does with all there is. -/
theorem stopIn_prefix {u q snglfmt : List Byte} (seen : u <+: q)
    (before : stopIn u snglfmt ≠ u.length) : stopIn u snglfmt = stopIn q snglfmt ∧
      stopIn u snglfmt < u.length := by
  obtain ⟨e, whole⟩ := seen
  obtain ⟨s, stops⟩ := stpnxt_isSome (cstr u) snglfmt
  by_cases nul : 0 ∈ u
  · -- the string ends in what has been seen
    obtain ⟨t, v, rfl, plain⟩ := List.eq_append_cons_of_mem nul
    have short : cstr (t ++ 0 :: v) = t := cstr_append_nul plain v
    have same : cstr q = t := by
      rw [← whole, List.append_assoc, List.cons_append, cstr_append_nul plain]
    refine ⟨by rw [stopIn, stopIn, short, same], ?_⟩
    rw [stopIn, short, List.length_append, List.length_cons]
    omega
  · have all : cstr u = u := by
      have := cstr_append nul []
      simpa [cstr] using this
    have more : cstr q = u ++ cstr e := by rw [← whole, cstr_append nul]
    rw [all] at stops
    have some' : s ≠ [] := by
      rintro rfl
      rw [stopIn, all, stops] at before
      exact before rfl
    have pos := List.length_pos_iff.2 some'
    have unread : u ≠ [] := by
      rintro rfl
      exact before (by rw [stopIn]; rfl)
    have long := List.length_pos_iff.2 unread
    rw [stopIn, stopIn, all, more, stops, stpnxt_append stops some' (cstr e)]
    simp only [Option.getD_some, List.length_append]
    omega

theorem getD_prefix {u q : List Byte} (seen : u <+: q) {b : Nat} (inside : b < u.length) :
    u.getD b 0 = q.getD b 0 := by
  obtain ⟨e, rfl⟩ := seen
  rw [List.getD, List.getD, List.getElem?_append_left inside]

/-- One more look at the buffer: the place that is looked for, or all of what
has been seen belongs to the piece. -/
theorem deliver_look (snglfmt : List Byte) (turns : Nat) {w : Arrivals Byte}
    (some' : w.bytes ≠ []) : ∃ u w', u <+: window w.bytes ∧ w'.bytes = w.bytes ∧
      w'.ending = w.ending ∧ (w'.coming.length < w.coming.length ∨ u = window w.bytes) ∧
      deliver (peekLoop snglfmt (turns + 1)) w =
        if stopIn u snglfmt = u.length then deliver (peekLoop snglfmt turns) w'
        else .done (some (u, stopIn u snglfmt)) w' := by
  obtain ⟨u, w', run, seen, bytes, ending, -, progress⟩ :=
    deliver_speek some' (PM.bigbuf - 1) (by decide)
  obtain ⟨s, stops⟩ := stpnxt_isSome (cstr u) snglfmt
  have pos : ¬ (u.length : Int) < 0 := by omega
  have here : (cstr u).length - s.length = stopIn u snglfmt := by rw [stopIn, stops]; rfl
  refine ⟨u, w', seen, bytes, ending, progress, ?_⟩
  rw [peekLoop, deliver_bind_done run]
  simp only [if_neg pos, stops, here]
  split <;> rfl

/-- A piece that ends inside the window is found, however the bytes arrive. -/
theorem peek_returns (snglfmt : List Byte) : ∀ (turns : Nat) (w : Arrivals Byte), w.bytes ≠ [] →
    stopIn (window w.bytes) snglfmt < (window w.bytes).length → w.coming.length < turns →
    ∃ r w', deliver (peekLoop snglfmt turns) w = .done r w' := by
  intro turns
  induction turns with
  | zero => intro w _ _ patient; omega
  | succ turns ih =>
    intro w some' ends patient
    obtain ⟨u, w', -, bytes, -, progress, run⟩ := deliver_look snglfmt turns some'
    rw [run]
    split
    · -- what is missing has not arrived
      rename_i all
      refine ih w' (by rwa [bytes]) (by rwa [bytes]) ?_
      rcases progress with less | whole
      · omega
      · rw [whole] at all
        omega
    · exact ⟨_, _, rfl⟩

/-- What is found is the place where the piece ends inside the window. -/
theorem peek_found {snglfmt : List Byte} {r : Option (List Byte × Nat)} {w' : Arrivals Byte} :
    ∀ (turns : Nat) (w : Arrivals Byte), w.bytes ≠ [] →
      deliver (peekLoop snglfmt turns) w = .done r w' →
      stopIn (window w.bytes) snglfmt < (window w.bytes).length ∧ w'.bytes = w.bytes ∧
        w'.ending = w.ending ∧ ∃ buf, r = some (buf, stopIn (window w.bytes) snglfmt) ∧
          buf.getD (stopIn (window w.bytes) snglfmt) 0 =
            w.bytes.getD (stopIn (window w.bytes) snglfmt) 0 := by
  intro turns
  induction turns with
  | zero => intro w _ run; cases run
  | succ turns ih =>
    intro w some' run
    obtain ⟨u, w₁, seen, bytes, ending, -, look⟩ := deliver_look snglfmt turns some'
    rw [look] at run
    split at run
    · have found := ih w₁ (by rwa [bytes]) run
      rw [bytes, ending] at found
      exact found
    · rename_i before
      obtain ⟨same, inside⟩ := stopIn_prefix seen before
      cases run
      rw [← same]
      exact ⟨inside.trans_le seen.length_le, bytes, ending, u, rfl,
        getD_prefix (seen.trans (List.take_prefix _ _)) inside⟩

theorem settle_nothing {w : Arrivals Byte} (none' : w.bytes = []) :
    w.land.settle = ⟨[], [], w.ending⟩ := by
  rcases w.settled with ⟨here, -⟩ | ⟨b, h, -, some'⟩
  · have empty : w.land.here = [] :=
      (List.append_eq_nil_iff.1 (w.land_bytes.trans none')).1
    have settle : w.land.settle = ⟨(Arrivals.awaited w.land.coming).1,
        (Arrivals.awaited w.land.coming).2, w.ending⟩ := if_pos empty
    rw [settle] at here ⊢
    replace here : (Arrivals.awaited w.land.coming).1 = [] := here
    rw [here, Arrivals.awaited_empty here]
  · rw [none'] at some'
    cases some'

/-- With nothing to come `Swait` comes back only if the peer has closed, and
`Speek` then fails. -/
theorem deliver_swait_nothing {w : Arrivals Byte} (none' : w.bytes = []) :
    deliver swait w = if w.ending = .closed then .done (-1) ⟨[], [], .closed⟩ else .blocked := by
  rw [swait]
  simp only [deliver, settle_nothing none']
  cases w.ending <;> rfl

theorem peek_nothing (snglfmt : List Byte) (turns : Nat) :
    deliver (peekLoop snglfmt turns) ⟨[], [], .closed⟩ =
      if turns = 0 then .spun else .done none ⟨[], [], .closed⟩ := by
  cases turns <;> rfl

/-! ## What Sscanf returns -/

/-- The bytes that `Sscanf` reads for a piece: up to where `stpnxt` stops, and
the NUL if there is one. -/
def taken (q snglfmt : List Byte) : Nat :=
  let b := stopIn (window q) snglfmt
  if q.getD b 0 = 0 then b + 1 else b

/-- What `Sscanf` returns and leaves unread, as a function of the bytes it is
sent; `none` if it never returns. -/
def sscanfOn (libc : List Byte → List Byte → Single) (arg : Nat → Bool) (ending : Ending) :
    Nat → Nat → List Byte → List Byte → Option ((Nat × List (List Byte × Single)) × List Byte)
  | 0, _, _, q => some ((0, []), q)
  | left + 1, i, f, q =>
    if arg i = false then some ((0, []), q)
    else match strnxtfmt f with
      | none => some ((0, []), q)
      | some (snglfmt, f) =>
        if locbufSize ≤ snglfmt.length then none
        else if q = [] then if ending = .closed then some ((0, []), []) else none
        else if (window q).length ≤ stopIn (window q) snglfmt then none
        else
          let buf := q.take (taken q snglfmt)
          let q := q.drop (taken q snglfmt)
          let r := libc (cstr buf) snglfmt
          if r.result = 0 then some ((0, [(buf, r)]), q)
          else if buf.length = 0 then some ((1, [(buf, r)]), q)
          else (sscanfOn libc arg ending left (i + 1) f q).map fun more =>
            ((more.1.1 + 1, (buf, r) :: more.1.2), more.2)

theorem taken_le {q snglfmt : List Byte} (ends : stopIn (window q) snglfmt < (window q).length) :
    taken q snglfmt ≤ q.length := by
  have short := (List.take_prefix (PM.bigbuf - 1) q).length_le
  rw [← window] at short
  rw [taken]
  split <;> omega

variable (libc : List Byte → List Byte → Single) (spins : Nat) {arg : Nat → Bool} {turns : Nat}

/-- **A piece that has been found** is read and handed to `sscanf`. -/
theorem deliver_piece (left : Nat) {i : Nat} {n : Int} {f snglfmt f' : List Byte} {w w₁ w₂ : Arrivals Byte}
    {r : Option (List Byte × Nat)} (given : arg i = true)
    (next : strnxtfmt f = some (snglfmt, f')) (fits : snglfmt.length < locbufSize)
    (some' : w.bytes ≠ []) (wait : deliver swait w = .done n w₁) (bytes : w₁.bytes = w.bytes)
    (peek : deliver (peekLoop snglfmt turns) w₁ = .done r w₂) :
    ∃ w', w'.bytes = w.bytes.drop (taken w.bytes snglfmt) ∧ w'.ending = w₁.ending ∧
      w'.coming <:+ w.coming ∧
      deliver (sscanfLoopWith libc spins turns arg (left + 1) i f) w =
        let buf := w.bytes.take (taken w.bytes snglfmt)
        let r := libc (cstr buf) snglfmt
        if r.result = 0 then .done (0, [(buf, r)]) w'
        else if buf.length = 0 then .done (1, [(buf, r)]) w'
        else match deliver (sscanfLoopWith libc spins turns arg left (i + 1) f') w' with
          | .done more w'' => .done (more.1 + 1, (buf, r) :: more.2) w''
          | .blocked => .blocked
          | .spun => .spun := by
  obtain ⟨ends, bytes₂, ending₂, buf, rfl, char⟩ := peek_found turns w₁ (by rwa [bytes]) peek
  rw [bytes] at ends char bytes₂
  have fewer := ((deliver_suffix _ peek).trans (deliver_suffix _ wait))
  have long := taken_le ends
  have size : (w.bytes.take (taken w.bytes snglfmt)).length = taken w.bytes snglfmt := by
    rw [List.length_take, Nat.min_eq_left long]
  obtain ⟨_, w₃, rfl, read, bytes₃, ending₃, fewer₃⟩ := deliver_reads
    (reads_sreadbytes spins (w.bytes.take (taken w.bytes snglfmt))) (untimed_sreadbytes spins _)
    (bytes₂.trans (List.take_append_drop (taken w.bytes snglfmt) w.bytes).symm)
  refine ⟨w₃, bytes₃, ending₃.trans ending₂, fewer₃.trans fewer, ?_⟩
  rw [size] at read
  rw [sscanfLoopWith, if_neg (by simp [given]), next]
  dsimp only
  rw [if_neg (Nat.not_le_of_lt fits), deliver_bind_done wait, deliver_bind_done peek]
  dsimp only
  rw [bytes, char]
  change deliver (sreadbytes spins (taken w.bytes snglfmt) >>= _) w₂ = _
  rw [deliver_bind_done read]
  split
  · rfl
  · split
    · rfl
    · rw [deliver_bind]
      cases deliver (sscanfLoopWith libc spins turns arg left (i + 1) f') w₃ <;> rfl

/-- **What `Sscanf` returns does not depend on how the bytes arrive**, if the
peeking goes on until they have. -/
theorem deliver_sscanfOn : ∀ (left i : Nat) (f : List Byte) (w : Arrivals Byte)
    {out : Nat × List (List Byte × Single)} {rest : List Byte},
    sscanfOn libc arg w.ending left i f w.bytes = some (out, rest) → w.coming.length < turns →
    ∃ w', deliver (sscanfLoopWith libc spins turns arg left i f) w = .done out w' ∧
      w'.bytes = rest := by
  intro left
  induction left with
  | zero =>
    rintro i f w out rest ⟨⟩ patient
    exact ⟨w, rfl, rfl⟩
  | succ left ih =>
    intro i f w out rest on patient
    rw [sscanfOn] at on
    by_cases given : arg i = false
    · rw [if_pos given] at on
      cases on
      exact ⟨w, by rw [sscanfLoopWith, if_pos given]; rfl, rfl⟩
    rw [if_neg given] at on
    cases next : strnxtfmt f with
    | none =>
      rw [next] at on
      cases on
      exact ⟨w, by rw [sscanfLoopWith, if_neg given, next]; rfl, rfl⟩
    | some piece =>
      obtain ⟨snglfmt, f'⟩ := piece
      rw [next] at on
      dsimp only at on
      by_cases long : locbufSize ≤ snglfmt.length
      · rw [if_pos long] at on
        cases on
      rw [if_neg long] at on
      by_cases none' : w.bytes = []
      · rw [if_pos none'] at on
        have wait := deliver_swait_nothing none'
        split at on
        · rename_i closed
          cases on
          rw [if_pos closed] at wait
          have peek := peek_nothing snglfmt turns
          rw [if_neg (by omega)] at peek
          refine ⟨⟨[], [], .closed⟩, ?_, rfl⟩
          rw [sscanfLoopWith, if_neg given, next]
          dsimp only
          rw [if_neg long, deliver_bind_done wait, deliver_bind_done peek]
          rfl
        · cases on
      · rw [if_neg none'] at on
        split at on
        · cases on
        · rename_i ends
          obtain ⟨n, w₁, wait, bytes, ending, fewer⟩ := deliver_swait none'
          obtain ⟨r, w₂, peek⟩ := peek_returns snglfmt turns w₁ (by rwa [bytes])
            (by rw [bytes]; omega) (Nat.lt_of_le_of_lt fewer.length_le patient)
          obtain ⟨w', bytes', ending', fewer', run⟩ := deliver_piece libc spins left
            (by simpa using given) next (Nat.lt_of_not_le long) none' wait bytes peek
          rw [run]
          dsimp only at on ⊢
          split at on
          · rename_i failed
            cases on
            exact ⟨w', if_pos failed, bytes'⟩
          · rename_i passed
            rw [if_neg passed]
            split at on
            · rename_i empty
              cases on
              exact ⟨w', if_pos empty, bytes'⟩
            · rename_i some''
              rw [if_neg some'']
              obtain ⟨⟨out', rest'⟩, more, same⟩ := Option.map_eq_some_iff.1 on
              cases same
              rw [← bytes', ← ending, ← ending'] at more
              obtain ⟨w'', tail, left'⟩ := ih (i + 1) f' w' more
                (Nat.lt_of_le_of_lt fewer'.length_le patient)
              exact ⟨w'', by rw [tail], left'⟩

/-- **What `Sscanf` returns is what the bytes say**, however many turns the
peeking has taken. -/
theorem sscanfOn_of_deliver : ∀ (left i : Nat) (f : List Byte) (w : Arrivals Byte)
    {out : Nat × List (List Byte × Single)} {w' : Arrivals Byte},
    deliver (sscanfLoopWith libc spins turns arg left i f) w = .done out w' →
    sscanfOn libc arg w.ending left i f w.bytes = some (out, w'.bytes) := by
  intro left
  induction left with
  | zero =>
    rintro i f w out w' ⟨⟩
    rfl
  | succ left ih =>
    intro i f w out w' run
    rw [sscanfOn]
    by_cases given : arg i = false
    · rw [sscanfLoopWith, if_pos given] at run
      cases run
      rw [if_pos given]
    rw [if_neg given]
    cases next : strnxtfmt f with
    | none =>
      rw [sscanfLoopWith, if_neg given, next] at run
      cases run
      rfl
    | some piece =>
      obtain ⟨snglfmt, f'⟩ := piece
      have whole := run
      rw [sscanfLoopWith, if_neg given, next] at run
      dsimp only at run ⊢
      by_cases long : locbufSize ≤ snglfmt.length
      · rw [if_pos long] at run
        cases run
      rw [if_neg long] at run ⊢
      by_cases none' : w.bytes = []
      · rw [if_pos none']
        have wait := deliver_swait_nothing none'
        split
        · rename_i closed
          rw [if_pos closed] at wait
          rw [deliver_bind_done wait, deliver_bind, peek_nothing] at run
          split at run
          · rename_i found
            split at found
            · cases found
            · cases found
              cases run
              rfl
          · cases run
          · cases run
        · rename_i silent
          rw [if_neg silent] at wait
          rw [deliver_bind, wait] at run
          cases run
      · rw [if_neg none']
        obtain ⟨n, w₁, wait, bytes, ending, -⟩ := deliver_swait none'
        rw [deliver_bind_done wait, deliver_bind] at run
        cases peek : deliver (peekLoop snglfmt turns) w₁ with
        | blocked => rw [peek] at run; cases run
        | spun => rw [peek] at run; cases run
        | done r w₂ =>
          have ends := (peek_found turns w₁ (by rwa [bytes]) peek).1
          rw [bytes] at ends
          rw [if_neg (by omega)]
          obtain ⟨w₃, bytes', ending', -, piece⟩ := deliver_piece libc spins left
            (by simpa using given) next (Nat.lt_of_not_le long) none' wait bytes peek
          rw [piece] at whole
          dsimp only at whole ⊢
          split
          · rename_i failed
            rw [if_pos failed] at whole
            cases whole
            rw [bytes']
          · rename_i passed
            rw [if_neg passed] at whole
            split
            · rename_i empty
              rw [if_pos empty] at whole
              cases whole
              rw [bytes']
            · rename_i some'
              rw [if_neg some'] at whole
              cases tail : deliver (sscanfLoopWith libc spins turns arg left (i + 1) f') w₃ with
              | blocked => rw [tail] at whole; cases whole
              | spun => rw [tail] at whole; cases whole
              | done more w'' =>
                rw [tail] at whole
                cases whole
                have rest := ih (i + 1) f' w₃ tail
                rw [bytes', ending', ending] at rest
                rw [rest]
                rfl

end UnixProgramming.Ssl
