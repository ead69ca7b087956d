import Mathlib.Data.UInt
import UnixProgramming.Dbg.Arrays
import UnixProgramming.Heap.Cursor
import UnixProgramming.Ssl.Paths

/-!
# The tokens of a string

`dstptok` called again and again, with its static pointer into the string and
the array that it stores the tokens in.

- `tokens`: the runs between the break characters, each in pieces that fit;
- `dstptokAt_like`: one call is the `dstptok` of `Dbg.Basic`;
- `calls_tokens`: the calls give the tokens one after the other, then null.
-/

namespace UnixProgramming.Dbg

open Cursor
open Ssl (Byte CString cstr)
open Heap.Chars

/-! ## Runs and pieces -/

section
variable {α : Type} {p : α → Bool} {k : Nat} {l : List α}

/-- The maximal runs of units that do not satisfy `p`. -/
noncomputable def runs (p : α → Bool) (l : List α) : List (List α) :=
  (l.splitOnP p).filter (!·.isEmpty)

/-- Consecutive pieces of `k` units, the last one of what is left. -/
def cut (k : Nat) : List α → List (List α)
  | [] => []
  | a :: l => (a :: l).take k :: cut k (l.drop (k - 1))
termination_by l => l.length

theorem cut_nil (k : Nat) : cut k ([] : List α) = [] := by rw [cut]

theorem cut_step (some' : l ≠ []) (one : 0 < k) : cut k l = l.take k :: cut k (l.drop k) := by
  obtain ⟨k, rfl⟩ := Nat.exists_eq_add_of_lt one
  cases l with
  | nil => exact absurd rfl some'
  | cons a l =>
    rw [cut]
    simp

theorem cut_pieces {t : List α} (one : 0 < k) (h : t ∈ cut k l) : t ≠ [] ∧ t.length ≤ k := by
  fun_induction cut k l with
  | case1 => cases h
  | case2 a l ih =>
    rcases List.mem_cons.1 h with rfl | later
    · exact ⟨by simp; omega, List.length_take_le _ _⟩
    · exact ih later

theorem runs_skip {c : α} (h : p c) (l : List α) : runs p (c :: l) = runs p l := by
  have none' : ∀ x ∈ ([] : List α), p x = false := by simp
  have first := List.splitOnP_append_cons_of_forall_mem none' c h l
  rw [List.nil_append] at first
  rw [runs, first]
  rfl

theorem runs_dropWhile (p : α → Bool) : ∀ l : List α, runs p (l.dropWhile p) = runs p l
  | [] => rfl
  | c :: l => by
    rw [List.dropWhile_cons]
    split
    · rename_i h
      rw [runs_dropWhile p l, runs_skip h]
    · rfl

theorem runs_nil (p : α → Bool) : runs p [] = [] := by
  rw [runs, List.splitOnP_nil]
  rfl

/-- The first run, as far as a unit that satisfies `p` or the end. -/
theorem runs_append {run after : List α} (some' : run ≠ []) (clean : ∀ x ∈ run, p x = false)
    (stop : ∀ c ∈ after.head?, p c) : runs p (run ++ after) = run :: runs p after := by
  have kept : (!run.isEmpty) = true := by simpa using some'
  cases after with
  | nil =>
    rw [List.append_nil, runs, List.splitOnP_eq_singleton clean, runs_nil]
    exact List.filter_cons_of_pos kept
  | cons c after =>
    have here : p c := stop c rfl
    rw [runs_skip here, runs, List.splitOnP_append_cons_of_forall_mem clean c here]
    exact List.filter_cons_of_pos kept

/-- The runs, each in pieces of at most `k` units. -/
noncomputable def pieces (p : α → Bool) (k : Nat) (l : List α) : List (List α) :=
  (runs p l).flatMap (cut k)

theorem pieces_append {run after : List α} (clean : ∀ x ∈ run, p x = false)
    (stop : ∀ c ∈ after.head?, p c) :
    pieces p k (run ++ after) = cut k run ++ pieces p k after := by
  by_cases empty : run = []
  · rw [empty, cut_nil]
    rfl
  · rw [pieces, runs_append empty clean stop, List.flatMap_cons]
    rfl

theorem pieces_mem {t : List α} (one : 0 < k) (h : t ∈ pieces p k l) : t ≠ [] ∧ t.length ≤ k := by
  obtain ⟨run, -, piece⟩ := List.mem_flatMap.1 h
  exact cut_pieces one piece

/-- Where a run begins, its first piece comes first. -/
theorem pieces_step (one : 0 < k) (some' : l.takeWhile (!p ·) ≠ []) :
    let t := (l.takeWhile (!p ·)).take k
    pieces p k l = t :: pieces p k (l.drop t.length) := by
  dsimp only
  have clean : ∀ x ∈ l.takeWhile (!p ·), p x = false :=
    fun x mem => by simpa using List.mem_takeWhile_imp mem
  have stop : ∀ c ∈ (l.dropWhile (!p ·)).head?, p c := by
    intro c mem
    have ends := List.head?_dropWhile_not (!p ·) l
    rw [Option.mem_def.1 mem] at ends
    simpa using ends
  have whole := List.takeWhile_append_dropWhile (p := (!p ·)) (l := l)
  generalize l.takeWhile (!p ·) = run at *
  generalize l.dropWhile (!p ·) = after at *
  have behind : l.drop (run.take k).length = run.drop k ++ after := by
    have split' : l = run.take k ++ (run.drop k ++ after) := by
      rw [← List.append_assoc, List.take_append_drop, whole]
    nth_rw 1 [split']
    exact List.drop_left
  rw [behind, pieces_append (fun x mem => clean x (List.mem_of_mem_drop mem)) stop, ← whole,
    pieces_append clean stop, cut_step some' one]
  rfl

end

/-! ## The code -/

/-- `for(p= brk; *p && *s != *p; ++p) ;`, and what is at `p` then. -/
def brkAt (brk : List Byte) (c : Byte) : Option Byte := do
  let p ← skip (fun b => b ≠ 0 && c ≠ b) brk 0
  brk[p]?

/-- The `do` loop: the first character that is not in `brk`, if there is one. -/
def firstAt (str brk : List Byte) (s : Nat) : Option (Option Nat) :=
  if h : s < str.length then
    if str[s] = 0 then some none
    else do
      let b ← brkAt brk str[s]
      if b ≠ 0 then firstAt str brk (s + 1) else pure (some s)
  else none
termination_by str.length - s

/-- What calls leave for the next: the static `ss`, a pointer into the string
or null, which is also what they return, and the array `tok`. -/
structure Cursors where
  ss : Option Nat
  tok : List Byte

/-- `*tok= '\0'; ss= s; return s;` -/
def closeAt (tok : List Byte) (i s : Nat) : Option Cursors :=
  (blit tok i [0]).map (⟨some s, ·⟩)

/-- The `for` loop, with `i` characters in `tok` so far. -/
def fillAt (str brk : List Byte) : Nat → Nat → List Byte → Nat → Option Cursors
  | toklen + 2, s, tok, i => do
    let c ← str[s]?
    if c = 0 then closeAt tok i s
    else do
      let b ← brkAt brk c
      if c = b then closeAt tok i s
      else do
        let tok ← blit tok i [c]
        fillAt str brk (toklen + 1) (s + 1) tok (i + 1)
  | _, s, tok, i => closeAt tok i s

/-- `dstptok(s,tok,toklen,brk)`, where `s` is null or a pointer into the string.
`brk` and `tok` are arrays, no null pointers. -/
def dstptokAt (str brk : List Byte) (toklen : Nat) (s : Option Nat) (m : Cursors) :
    Option Cursors := do
  let tok ← blit m.tok 0 [0]
  match s.or m.ss with
  | none => pure ⟨none, tok⟩
  | some s =>
    let first ← firstAt str brk s
    match first with
    | none => pure ⟨none, tok⟩
    | some s => fillAt str brk toklen s tok 0

/-- `dstptok(s,tok,toklen,brk)`, then `dstptok(NULL,tok,toklen,brk)` and so on:
the token after each call, or nothing where it returns null. -/
def calls (str brk : List Byte) (toklen : Nat) :
    Nat → Option Nat → Cursors → Option (List (Option (List Byte)) × Cursors)
  | 0, _, m => some ([], m)
  | n + 1, s, m => do
    let m ← dstptokAt str brk toklen s m
    let (answers, last) ← calls str brk toklen n none m
    pure (m.ss.map (fun _ => cstr m.tok) :: answers, last)

/-! ## One call -/

variable {l rest bs : List Byte} {p : Nat}

/-- The character itself if the break set has it, else its terminator. -/
theorem brkAt_eq (clean : 0 ∉ bs) (c : Byte) :
    brkAt (terminated bs) c = some (if bs.contains c then c else 0) := by
  have inside : Cursor.Inside (skip (fun b => b ≠ 0 && c ≠ b) (terminated bs) 0)
      (At bs · (bs.dropWhile fun b => b ≠ 0 && c ≠ b)) := skip_inside (by simp) (At.start clean)
  obtain ⟨q, e, h⟩ := inside
  rw [brkAt, bind_of e, h.get]
  clear h e
  induction bs with
  | nil => rfl
  | cons b bs ih =>
    have here : b ≠ 0 := fun nul => clean (by simp [nul])
    by_cases found : c = b
    · subst found
      simp
    · rw [List.dropWhile_cons_of_pos (by simp [here, found]),
        ih fun mem => clean (List.mem_cons_of_mem b mem)]
      simp [found]

theorem firstAt_like (clean : 0 ∉ bs) (h : At l p rest) :
    Cursor.Inside (firstAt (terminated l) (terminated bs) p) fun first =>
      match rest.dropWhile bs.contains with
      | [] => first = none
      | r => ∃ q, first = some q ∧ At l q r := by
  obtain ⟨within, value⟩ := List.getElem?_eq_some_iff.1 h.get
  induction rest generalizing p with
  | nil =>
    rw [firstAt, dif_pos within, value]
    exact .pure rfl
  | cons c rest ih =>
    have unit : c ≠ 0 := fun e => h.clean_rest (by simp [e])
    rw [firstAt, dif_pos within, value, List.headD_cons, if_neg unit,
      bind_of (brkAt_eq clean c)]
    by_cases stop : bs.contains c
    · rw [if_pos stop, if_pos unit, List.dropWhile_cons_of_pos stop]
      obtain ⟨within', value'⟩ := List.getElem?_eq_some_iff.1 h.next.get
      exact ih h.next within' value'
    · rw [if_neg stop, if_neg (by simp), List.dropWhile_cons_of_neg stop]
      exact .pure ⟨p, rfl, h⟩

/-- The loop is the one of `Dbg.Arrays`, and `s` ends behind the token. -/
theorem fillAt_eq (clean : 0 ∉ bs) {toklen i : Nat} {tok : List Byte} (h : At l p rest) :
    fillAt (terminated l) (terminated bs) toklen p tok i =
      (tokenInto bs rest tok i toklen).map
        (⟨some (p + ((rest.take (toklen - 1)).takeWhile (!bs.contains ·)).length), ·⟩) := by
  induction rest generalizing p toklen i tok with
  | nil =>
    match toklen with
    | 0 | 1 => rfl
    | toklen + 2 =>
      rw [fillAt, h.get]
      rfl
  | cons c rest ih =>
    match toklen with
    | 0 | 1 => rfl
    | toklen + 2 =>
      have unit : c ≠ 0 := fun e => h.clean_rest (by simp [e])
      rw [fillAt, bind_of h.get, List.headD_cons, if_neg unit, bind_of (brkAt_eq clean c), tokenInto,
        if_pos (Nat.one_lt_succ_succ toklen)]
      by_cases stop : bs.contains c
      · have short : ((c :: rest).take (toklen + 2 - 1)).takeWhile (!bs.contains ·) = [] :=
          List.takeWhile_cons_of_neg (by simpa using stop)
        rw [if_pos stop, if_pos rfl, if_pos stop, short]
        rfl
      · have more : ((c :: rest).take (toklen + 2 - 1)).takeWhile (!bs.contains ·) =
            c :: (rest.take (toklen + 1 - 1)).takeWhile (!bs.contains ·) :=
          List.takeWhile_cons_of_pos (by simpa using stop)
        rw [if_neg stop, if_neg unit, if_neg stop, more, List.length_cons, Option.map_bind]
        refine Option.bind_congr fun tok' _ => ?_
        rw [ih h.next]
        congr 2
        funext a
        rw [Nat.add_assoc, Nat.add_comm 1]

/-- A token that `strcpy` could have stored is the string in its array. -/
theorem cstr_strcpyAt {a a' t : List Byte} (h : strcpyAt 0 a 0 t = some a') (clean : 0 ∉ t) :
    a'.length = a.length ∧ cstr a' = t :=
  ⟨strcpyAt_length h, Ssl.cstr_of_str (strcpyAt_str h clean)⟩

/-- What a call does: the next token is in `tok` and `ss` behind it, or the
token is empty and `ss` null. -/
theorem dstptokAt_like (clean : 0 ∉ bs) (h : At l p rest) {toklen : Nat} (one : 1 < toklen)
    {s : Option Nat} {m : Cursors} (there : s.or m.ss = some p) (room : m.tok.length = toklen) :
    Cursor.Inside (dstptokAt (terminated l) (terminated bs) toklen s m) fun m' =>
      m'.tok.length = toklen ∧ cstr m'.tok = (dstptok rest toklen bs).1 ∧
        match (dstptok rest toklen bs).2 with
        | none => m'.ss = none
        | some r => ∃ q, m'.ss = some q ∧ At l q r := by
  obtain ⟨tok, first⟩ : ∃ tok, blit m.tok 0 [0] = some tok :=
    ⟨_, blit_one (by rw [room]; exact Nat.lt_of_succ_lt one) 0⟩
  obtain ⟨start, e, found⟩ := firstAt_like clean h
  rw [dstptokAt, bind_of first, there]
  dsimp only
  rw [bind_of e, dstptok]
  cases r : rest.dropWhile bs.contains with
  | nil =>
    rw [r] at found
    subst found
    obtain ⟨length, stored⟩ := cstr_strcpyAt (t := []) first (List.not_mem_nil)
    exact .pure ⟨length.trans room, stored, rfl⟩
  | cons c r' =>
    rw [r] at found
    obtain ⟨q, rfl, hq⟩ := found
    dsimp only
    generalize token : (((c :: r').take (toklen - 1)).takeWhile (!bs.contains ·)) = t
    have short : t.length < m.tok.length := by
      have most := dstptok_length rest toklen bs
      simp only [dstptok, r, token] at most
      omega
    have clean_t : 0 ∉ t := by
      rw [← token]
      intro mem
      exact hq.clean_rest (List.mem_of_mem_take ((List.takeWhile_prefix _).subset mem))
    obtain ⟨tok', copied, -⟩ := strcpyAt_some (a := m.tok) (i := 0) (s := t) 0 (by omega)
    obtain ⟨length, stored⟩ := cstr_strcpyAt copied clean_t
    rw [fillAt_eq clean hq, tokenInto_eq, token, strcpyAt, blit_again first (by simp)]
    rw [strcpyAt] at copied
    rw [copied]
    refine .pure ⟨length.trans room, stored, _, rfl, hq.drop ?_⟩
    rw [← token]
    exact (List.takeWhile_prefix _).length_le.trans (List.length_take_le' _ _)

/-! ## All calls -/

/-- The tokens of a string: its runs of characters that are not in `brk`, in
pieces that fit in `toklen` bytes with their NUL. -/
noncomputable def tokens (brk : List Byte) (toklen : Nat) (s : List Byte) : List (List Byte) :=
  pieces brk.contains (toklen - 1) s

theorem dstptok_tokens {toklen : Nat} (one : 1 < toklen) (s brk : List Byte) :
    match (dstptok s toklen brk).2 with
    | none => tokens brk toklen s = []
    | some rest => tokens brk toklen s = (dstptok s toklen brk).1 :: tokens brk toklen rest := by
  have same : tokens brk toklen (s.dropWhile brk.contains) = tokens brk toklen s := by
    simp only [tokens, pieces, runs_dropWhile]
  have first := List.head?_dropWhile_not brk.contains s
  rw [dstptok, ← same]
  cases found : s.dropWhile brk.contains with
  | nil =>
    simp only [tokens, pieces, runs_nil]
    rfl
  | cons c r =>
    rw [found, List.head?_cons] at first
    have some' : (c :: r).takeWhile (!brk.contains ·) ≠ [] := by
      rw [List.takeWhile_cons_of_pos (by simpa using first)]
      exact List.cons_ne_nil _ _
    have step := pieces_step (Nat.sub_pos_of_lt one) some'
    rw [List.take_takeWhile] at step
    exact step

/-- Once `ss` is null, it stays so. -/
theorem calls_null {str bs : List Byte} {toklen : Nat} (some' : 0 < toklen) (n : Nat)
    {m : Cursors} (null : m.ss = none) (room : m.tok.length = toklen) :
    Cursor.Inside (calls str bs toklen n none m) fun r =>
      r.1 = List.replicate n none ∧ r.2.tok.length = toklen := by
  induction n generalizing m with
  | zero => exact .pure ⟨rfl, room⟩
  | succ n ih =>
    obtain ⟨tok, first⟩ : ∃ tok, blit m.tok 0 [0] = some tok :=
      ⟨_, blit_one (by rwa [room]) 0⟩
    have call : dstptokAt str bs toklen none m = some ⟨none, tok⟩ := by
      rw [dstptokAt, first, null]
      rfl
    rw [calls, bind_of call]
    refine (ih (m := ⟨none, tok⟩) rfl ((blit_length first).trans room)).bind ?_
    rintro ⟨_, last⟩ ⟨rfl, length⟩
    exact .pure ⟨rfl, length⟩

theorem calls_from (clean : 0 ∉ bs) {toklen : Nat} (one : 1 < toklen) (n : Nat) {s : Option Nat}
    {m : Cursors} (h : At l p rest) (there : s.or m.ss = some p) (room : m.tok.length = toklen) :
    Cursor.Inside (calls (terminated l) (terminated bs) toklen n s m) fun r =>
      r.1 = ((tokens bs toklen rest).map some ++ List.replicate n none).take n ∧
        r.2.tok.length = toklen := by
  induction n generalizing p rest s m with
  | zero => exact .pure ⟨rfl, room⟩
  | succ n ih =>
    rw [calls]
    refine (dstptokAt_like clean h one there room).bind ?_
    rintro m' ⟨room', stored, next⟩
    have spec := dstptok_tokens one rest bs
    cases behind : (dstptok rest toklen bs).2 with
    | none =>
      rw [behind] at spec next
      refine (calls_null (Nat.lt_of_succ_lt one) n next room').bind ?_
      rintro ⟨_, last⟩ ⟨rfl, length⟩
      refine .pure ⟨?_, length⟩
      rw [spec, List.map_nil, List.nil_append, List.take_of_length_le (by simp)]
      change m'.ss.map _ :: _ = _
      rw [next]
      rfl
    | some r =>
      rw [behind] at spec next
      obtain ⟨q, here, hq⟩ := next
      refine (ih (s := none) hq (by rw [here]; rfl) room').bind ?_
      rintro ⟨_, last⟩ ⟨rfl, length⟩
      refine .pure ⟨?_, length⟩
      change m'.ss.map _ :: _ = _
      -- behind the tokens that are left there is one null more than is looked at
      rw [here, stored, spec, List.map_cons, List.cons_append, List.take_succ_cons,
        List.replicate_succ', ← List.append_assoc,
        List.take_append_of_le_length (show n ≤ (_ ++ List.replicate n none).length by simp)]
      rfl

/-- **The calls give exactly the tokens**, in order, and null from then on. No
store is outside the `toklen` bytes of `tok`. -/
theorem calls_tokens (s brk : CString) {toklen : Nat} (one : 1 < toklen) {m : Cursors}
    (room : m.tok.length = toklen) (n : Nat) :
    (∃ last, calls s.array brk.array toklen n (some 0) m =
        some (((tokens brk.chars toklen s.chars).map some ++ List.replicate n none).take n, last) ∧
      last.tok.length = toklen) ∧
    ∀ t ∈ tokens brk.chars toklen s.chars, t ≠ [] ∧ t.length ≤ toklen - 1 := by
  refine ⟨?_, fun t mem => pieces_mem (Nat.sub_pos_of_lt one) mem⟩
  obtain ⟨⟨answers, last⟩, e, rfl, length⟩ :=
    calls_from brk.clean one n (s := some 0) (At.start s.clean) rfl room
  exact ⟨last, e, length⟩

/-- Three bytes for the tokens of `"abc d"`. -/
theorem calls_tokens_three : (∃ last, calls [97, 98, 99, 32, 100, 0] [32, 0] 3 5 (some 0)
      ⟨none, [1, 1, 1]⟩ =
        some (((tokens [32] 3 [97, 98, 99, 32, 100]).map some ++
          List.replicate 5 none).take 5, last) ∧
      last.tok.length = 3) ∧
    ∀ t ∈ tokens [32] 3 [97, 98, 99, 32, 100], t ≠ [] ∧ t.length ≤ 3 - 1 :=
  calls_tokens ⟨[97, 98, 99, 32, 100], by decide⟩ ⟨[32], by decide⟩ (by decide) rfl 5

end UnixProgramming.Dbg
