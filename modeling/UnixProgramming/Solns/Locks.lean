import Mathlib.Data.List.Chain
import UnixProgramming.Heap.Cursor
import UnixProgramming.Ssl.Scan

/-!
# Locked and unlocked text

`hw05soln` shows each line of a file twice, the bytes under a write lock and the
others. The arrays are static: what a line does not write is what earlier lines,
also those of other files, have left. `none` stands for an access outside of
them, and for an `int` that is too large.

- `mark_some`: what the loop over the positions leaves in both arrays;
- `Half.shows`: what is shown of a line;
- `locked_unlocked`: which lines are shown as they are meant to be.
-/

namespace UnixProgramming.Locks

open Heap.Chars
open Cursor (bind_of)
open Ssl (Byte fgets)

def BUFSIZE : Nat := 512

def newline : Byte := 10
def blank : Byte := 32

/-! ## The code -/

/-- A line as `fgets` stores it, where it is in its file, and the write locks on
that. -/
structure Line where
  chars : List Byte
  offset : Nat
  locked : Int → Bool

structure File where
  content : List Byte
  locked : Int → Bool

/-- `buf`, `Lbuf` and `Ubuf` -/
structure Bufs where
  buf : List Byte
  Lbuf : List Byte
  Ubuf : List Byte

/-- What is printed for a line. -/
structure Shown where
  line : Line
  locked : List Byte
  unlocked : List Byte

/-- A sum of two values of an `int` that is not negative. -/
def int (n : Int) : Option Int := if n < 2 ^ 31 then some n else none

/-- `for(ibuf= 0; ibuf < buflen; ++ibuf)`, with `n` positions to go. -/
def mark (locked : Int → Bool) (buf : List Byte) (offset : Int) :
    Nat → Nat → List Byte → List Byte → Option (List Byte × List Byte)
  | 0, _, Lbuf, Ubuf => some (Lbuf, Ubuf)
  | n + 1, ibuf, Lbuf, Ubuf => do
    let c ← buf[ibuf]?
    if c = newline then mark locked buf offset n (ibuf + 1) Lbuf Ubuf
    else do
      let i ← int (offset + ibuf)
      let Lbuf ← blit Lbuf ibuf [if locked i then c else blank]
      let Ubuf ← blit Ubuf ibuf [if locked i then blank else c]
      mark locked buf offset n (ibuf + 1) Lbuf Ubuf

/-- A turn of `while(fgets(buf,BUFSIZE,fp))`; `offset= ftell(fp)` was stored in an
`int` by the one before. -/
def turn (s : Bufs) (l : Line) : Option (Bufs × Shown) := do
  let buf ← strcpyAt 0 s.buf 0 l.chars
  let chars ← str 0 buf 0
  let offset := (l.offset : Int).bmod (2 ^ 32)
  let (Lbuf, Ubuf) ← mark l.locked buf offset (max 80 chars.length) 0 s.Lbuf s.Ubuf
  let locked ← str 0 Lbuf 0
  let unlocked ← str 0 Ubuf 0
  some (⟨buf, Lbuf, Ubuf⟩, ⟨l, locked, unlocked⟩)

def turns : Bufs → List Line → Option (List Shown)
  | _, [] => some []
  | s, l :: ls => do
    let (s, t) ← turn s l
    let ts ← turns s ls
    some (t :: ts)

/-- The lines that `fgets` delivers, for as many turns as are given. -/
def linesFrom (locked : Int → Bool) : Nat → Nat → List Byte → List Line
  | 0, _, _ => []
  | turns + 1, offset, file =>
    if file.isEmpty then []
    else
      ⟨(fgets (BUFSIZE - 1) file).1, offset, locked⟩ ::
        linesFrom locked turns (offset + (fgets (BUFSIZE - 1) file).1.length)
          (fgets (BUFSIZE - 1) file).2

def File.lines (f : File) : List Line := linesFrom f.locked f.content.length 0 f.content

/-- Static memory begins as zeros. -/
def start : Bufs where
  buf := List.replicate BUFSIZE 0
  Lbuf := List.replicate BUFSIZE 0
  Ubuf := List.replicate BUFSIZE 0

/-- The files that can be read, one after the other. -/
def main (files : List File) : Option (List Shown) := turns start (files.flatMap File.lines)

/-! ## What is to be shown -/

/-- A line without its newline. -/
def Line.text (l : Line) : List Byte := l.chars.takeWhile (· ≠ newline)

def Line.lock (l : Line) (i : Nat) : Bool := l.locked (l.offset + i)

/-- A character where it is to be shown, else a blank. -/
def cell (on : Bool) (c : Byte) : Byte := if on then c else blank

/-- Each character of the line is in one of the texts, by the lock on it. -/
def Shown.Apart (t : Shown) : Prop :=
  ∀ i c, t.line.text[i]? = some c → t.locked[i]? = some (cell (t.line.lock i) c) ∧
    t.unlocked[i]? = some (cell (!t.line.lock i) c)

/-- Behind the line there is nothing. -/
def Shown.Alone (t : Shown) : Prop :=
  (∀ c ∈ t.locked.drop t.line.text.length, c = blank) ∧
    ∀ c ∈ t.unlocked.drop t.line.text.length, c = blank

/-- No line is shorter than the one before. -/
def Growing (ls : List Line) : Prop := ls.IsChain fun l l' => l.text.length ≤ l'.text.length

/-- A line with a newline is not shorter than the one before, or that has a blank
in the place of the newline. -/
def Following (ls : List Line) : Prop :=
  ls.IsChain fun l l' => l'.chars ≠ l'.text → l.text.length ≤ l'.text.length ∨
    l.text[l'.text.length]? = some blank

/-! ## A loop over the positions -/

/-- What the loop leaves in an array, if it shows the characters that are `on`. -/
structure Marked (on : Nat → Bool) (buf : List Byte) (i n : Nat) (a a' : List Byte) : Prop where
  length : a'.length = a.length
  get : ∀ j, a'[j]? = if i ≤ j ∧ j < i + n ∧ buf[j]? ≠ some newline then
    buf[j]?.map (cell (on j)) else a[j]?

section
variable {on : Nat → Bool} {buf a a' : List Byte} {i n : Nat} {c : Byte}

theorem Marked.none : Marked on buf i 0 a a where
  length := rfl
  get := fun j => by
    rw [if_neg]
    omega

theorem Marked.skip (here : buf[i]? = some newline) (h : Marked on buf (i + 1) n a a') :
    Marked on buf i (n + 1) a a' where
  length := h.length
  get := fun j => by
    rw [h.get]
    by_cases same : j = i
    · subst same
      rw [if_neg (by omega), if_neg fun inside => inside.2.2 here]
    · refine if_congr ?_ rfl rfl
      constructor
      · exact fun ⟨low, high, other⟩ => ⟨by omega, by omega, other⟩
      · exact fun ⟨low, high, other⟩ => ⟨by omega, by omega, other⟩

theorem Marked.put (here : buf[i]? = some c) (other : c ≠ newline) (inside : i < a.length)
    (h : Marked on buf (i + 1) n (a.set i (cell (on i) c)) a') : Marked on buf i (n + 1) a a' where
  length := h.length.trans List.length_set
  get := fun j => by
    rw [h.get]
    by_cases same : j = i
    · subst same
      have char : buf[j]? ≠ some newline := by
        rw [here]
        exact fun newline' => other (Option.some.inj newline')
      rw [if_neg (by omega), if_pos ⟨Nat.le_refl _, by omega, char⟩, here,
        List.getElem?_set_self inside]
      rfl
    · rw [List.getElem?_set_ne (Ne.symm same)]
      refine if_congr ?_ rfl rfl
      constructor
      · exact fun ⟨low, high, char⟩ => ⟨by omega, by omega, char⟩
      · exact fun ⟨low, high, char⟩ => ⟨by omega, by omega, char⟩

/-- **What the loop leaves** in the array for the locked bytes, and in that for
the others. -/
theorem mark_some (locked : Int → Bool) (offset : Nat) {L U : List Byte}
    (inside : i + n ≤ buf.length) (insideL : i + n ≤ L.length) (insideU : i + n ≤ U.length)
    (small : offset + i + n ≤ 2 ^ 31) :
    ∃ L' U', mark locked buf offset n i L U = some (L', U') ∧
      Marked (fun j => locked (offset + j)) buf i n L L' ∧
      Marked (fun j => !locked (offset + j)) buf i n U U' := by
  induction n generalizing i L U with
  | zero => exact ⟨L, U, rfl, .none, .none⟩
  | succ n ih =>
    have here : buf[i]? = some buf[i] := List.getElem?_eq_getElem (by omega)
    rw [mark, bind_of here]
    by_cases ended : buf[i] = newline
    · rw [if_pos ended]
      rw [ended] at here
      obtain ⟨L', U', e, forL, forU⟩ :=
        ih (i := i + 1) (L := L) (U := U) (by omega) (by omega) (by omega) (by omega)
      exact ⟨L', U', e, forL.skip here, forU.skip here⟩
    · have sum : int (offset + i) = some ((offset : Int) + i) := if_pos (by omega)
      rw [if_neg ended, bind_of sum, bind_of (blit_one (by omega) _), bind_of (blit_one (by omega) _)]
      obtain ⟨L', U', e, forL, forU⟩ := ih (i := i + 1)
        (L := L.set i (cell (locked (offset + i)) buf[i]))
        (U := U.set i (cell (!locked (offset + i)) buf[i]))
        (by omega) (by rw [List.length_set]; omega) (by rw [List.length_set]; omega) (by omega)
      have opposite : (if locked (offset + i) then blank else buf[i]) =
          cell (!locked (offset + i)) buf[i] := by
        cases locked (offset + i) <;> rfl
      rw [opposite]
      exact ⟨L', U', e, forL.put here ended (by omega), forU.put here ended (by omega)⟩

end

/-! ## A line -/

section
variable {a b out cs : List Byte} {i n : Nat} {c : Byte}

theorem strcpyAt_get (h : strcpyAt 0 a 0 cs = some b) (i : Nat) :
    b[i]? = if i < cs.length then cs[i]? else if i = cs.length then some 0 else a[i]? := by
  have whole := blit_drop h
  rw [List.drop_zero, Nat.zero_add, List.length_append, List.length_singleton,
    List.append_assoc] at whole
  rw [whole, List.getElem?_append]
  by_cases inside : i < cs.length
  · rw [if_pos inside, if_pos inside]
  · obtain ⟨k, rfl⟩ := Nat.exists_eq_add_of_le (Nat.not_lt.1 inside)
    rw [if_neg inside, if_neg inside, Nat.add_sub_cancel_left]
    cases k with
    | zero => rw [if_pos (Nat.add_zero _), List.singleton_append, List.getElem?_cons_zero]
    | succ k =>
      rw [if_neg (by omega), List.singleton_append, List.getElem?_cons_succ, List.getElem?_drop]
      congr 1
      omega

/-- As far as there is no terminator, what is printed is what is in the array. -/
theorem str_getElem? (h : str 0 a 0 = some out) (filled : ∀ j ≤ i, ∃ c, a[j]? = some c ∧ c ≠ 0) :
    out[i]? = a[i]? := by
  obtain ⟨-, rest, split'⟩ := str_eq_some.1 h
  rw [List.drop_zero] at split'
  have inside : i < out.length := by
    by_contra behind
    obtain ⟨c, there, some'⟩ := filled out.length (by omega)
    rw [split', List.getElem?_append_right (Nat.le_refl _), Nat.sub_self] at there
    exact some' (Option.some.inj there).symm
  rw [split', List.getElem?_append_left inside]

theorem str_mem (h : str 0 a 0 = some out) (mem : c ∈ out.drop n) :
    ∃ i ≥ n, a[i]? = some c ∧ c ≠ 0 := by
  obtain ⟨clean, rest, split'⟩ := str_eq_some.1 h
  rw [List.drop_zero] at split'
  obtain ⟨k, there⟩ := List.mem_iff_getElem?.1 mem
  rw [List.getElem?_drop] at there
  have inside := (List.getElem?_eq_some_iff.1 there).1
  refine ⟨n + k, by omega, ?_, ne_of_mem_of_not_mem (List.mem_of_mem_drop mem) clean⟩
  rw [split', List.getElem?_append_left inside, there]

end

/-- What `fgets` delivers, in a file whose size an `int` can hold. -/
structure Line.Fits (l : Line) : Prop where
  short : l.chars.length < BUFSIZE
  shape : l.chars = l.text ∨ l.chars = l.text ++ [newline]
  small : l.offset + l.chars.length + 80 ≤ 2 ^ 31

structure Bufs.Sized (s : Bufs) : Prop where
  buf : s.buf.length = BUFSIZE
  Lbuf : s.Lbuf.length = BUFSIZE
  Ubuf : s.Ubuf.length = BUFSIZE
  lastL : s.Lbuf[BUFSIZE - 1]? = some 0
  lastU : s.Ubuf[BUFSIZE - 1]? = some 0

/-- What a turn does to the array that shows what is `on`. -/
structure Half (on : Nat → Bool) (l : Line) (buf a a' out : List Byte) : Prop where
  marked : Marked on buf 0 (max 80 (l.chars.takeWhile (· ≠ 0)).length) a a'
  shown : str 0 a' 0 = some out

structure After (l : Line) (s s' : Bufs) (t : Shown) : Prop where
  sized : s'.Sized
  line : t.line = l
  buf : strcpyAt 0 s.buf 0 l.chars = some s'.buf
  locked : Half l.lock l s'.buf s.Lbuf s'.Lbuf t.locked
  unlocked : Half (fun i => !l.lock i) l s'.buf s.Ubuf s'.Ubuf t.unlocked

section
variable {on : Nat → Bool} {l : Line} {s s' : Bufs} {t : Shown} {buf a a' b out : List Byte}
  {i n : Nat} {c : Byte}

theorem Marked.last (h : Marked on buf i n a a') (front : i + n < BUFSIZE)
    (last : a[BUFSIZE - 1]? = some 0) : a'[BUFSIZE - 1]? = some 0 := by
  rw [h.get, if_neg, last]
  omega

theorem start_sized : start.Sized := by
  refine ⟨List.length_replicate, List.length_replicate, List.length_replicate, ?_, ?_⟩
  all_goals exact List.getElem?_replicate_of_lt (by decide)

/-- **A turn.** No line leads outside of the arrays. -/
theorem turn_some (sized : s.Sized) (fits : l.Fits) : ∃ s' t, turn s l = some (s', t) ∧
    After l s s' t := by
  have short := fits.short
  have small := fits.small
  obtain ⟨buf, stored, length⟩ := strcpyAt_some (a := s.buf) (i := 0) (s := l.chars) 0
    (by rw [sized.buf]; omega)
  have most := (l.chars.takeWhile_prefix (· ≠ 0)).length_le
  have front : 0 + max 80 (l.chars.takeWhile (· ≠ 0)).length < BUFSIZE := by
    rw [BUFSIZE] at short ⊢
    omega
  have inside : 0 + max 80 (l.chars.takeWhile (· ≠ 0)).length ≤ buf.length := by
    rw [length, sized.buf]
    exact front.le
  obtain ⟨L, U, marked, forL, forU⟩ := mark_some l.locked l.offset (L := s.Lbuf) (U := s.Ubuf)
    inside (by rw [sized.Lbuf]; exact front.le) (by rw [sized.Ubuf]; exact front.le) (by omega)
  have lastL := forL.last front sized.lastL
  have lastU := forU.last front sized.lastU
  obtain ⟨locked, shownL⟩ := Option.isSome_iff_exists.1 (str_isSome lastL (Nat.zero_le _))
  obtain ⟨unlocked, shownU⟩ := Option.isSome_iff_exists.1 (str_isSome lastU (Nat.zero_le _))
  have offset : (l.offset : Int).bmod (2 ^ 32) = l.offset :=
    Int.bmod_eq_of_le (by omega) (by omega)
  refine ⟨⟨buf, L, U⟩, ⟨l, locked, unlocked⟩, ?_, ⟨?_, rfl, stored, ⟨forL, shownL⟩, ⟨forU, shownU⟩⟩⟩
  · rw [turn, bind_of stored, bind_of (strcpyAt_reads stored)]
    dsimp only
    rw [offset, bind_of marked]
    dsimp only
    rw [bind_of shownL, bind_of shownU]
  · exact ⟨length.trans sized.buf, forL.length.trans sized.Lbuf, forU.length.trans sized.Ubuf,
      lastL, lastU⟩

theorem turn_after (sized : s.Sized) (fits : l.Fits) (h : turn s l = some (s', t)) :
    After l s s' t := by
  obtain ⟨s₁, t₁, same, after⟩ := turn_some sized fits
  rw [h] at same
  cases same
  exact after

/-! ### The characters of the line -/

theorem cell_ne {p : Bool} (some' : c ≠ 0) : cell p c ≠ 0 := by
  cases p
  · exact (by decide : blank ≠ 0)
  · exact some'

theorem Line.text_get (h : l.text[i]? = some c) : l.chars[i]? = some c ∧ c ≠ newline := by
  obtain ⟨rest, split'⟩ := l.chars.takeWhile_prefix (· ≠ newline)
  have inside := (List.getElem?_eq_some_iff.1 h).1
  constructor
  · rw [← split']
    exact (List.getElem?_append_left inside).trans h
  · simpa using List.mem_takeWhile_imp (List.mem_of_getElem? h)

theorem buf_get (stored : strcpyAt 0 b 0 l.chars = some buf) (h : l.chars[i]? = some c) :
    buf[i]? = some c := by
  rw [strcpyAt_get stored, if_pos (List.getElem?_eq_some_iff.1 h).1, h]

theorem clean_takeWhile (clean : 0 ∉ l.chars) : l.chars.takeWhile (· ≠ 0) = l.chars :=
  List.takeWhile_eq_self_iff.2 fun c mem => by simpa using ne_of_mem_of_not_mem mem clean

/-- What the turn puts in the array for a character of the line. -/
theorem Half.puts (half : Half on l buf a a' out) (clean : 0 ∉ l.chars)
    (stored : strcpyAt 0 b 0 l.chars = some buf) (h : l.text[i]? = some c) :
    a'[i]? = some (cell (on i) c) := by
  obtain ⟨there, other⟩ := l.text_get h
  have inside := (List.getElem?_eq_some_iff.1 there).1
  have here := buf_get stored there
  have char : buf[i]? ≠ some newline := by
    rw [here]
    exact fun newline' => other (Option.some.inj newline')
  rw [half.marked.get, clean_takeWhile clean, if_pos ⟨Nat.zero_le _, by omega, char⟩, here]
  rfl

theorem Half.filled (half : Half on l buf a a' out) (clean : 0 ∉ l.chars)
    (stored : strcpyAt 0 b 0 l.chars = some buf) (inside : i < l.text.length) :
    ∃ c, a'[i]? = some c ∧ c ≠ 0 := by
  have there := List.getElem?_eq_getElem inside
  have mem := List.mem_of_getElem? (l.text_get there).1
  exact ⟨_, half.puts clean stored there, cell_ne (ne_of_mem_of_not_mem mem clean)⟩

/-- **What is shown of a line.** -/
theorem Half.shows (half : Half on l buf a a' out) (clean : 0 ∉ l.chars)
    (stored : strcpyAt 0 b 0 l.chars = some buf) (h : l.text[i]? = some c) :
    out[i]? = some (cell (on i) c) := by
  have inside := (List.getElem?_eq_some_iff.1 h).1
  rw [str_getElem? half.shown fun j before => half.filled clean stored (by omega)]
  exact half.puts clean stored h

/-- A NUL is not shown, nor is what is behind it. -/
theorem After.apart_iff (after : After l s s' t) (fits : l.Fits) : t.Apart ↔ 0 ∉ l.chars := by
  constructor
  · intro apart mem
    have there : 0 ∈ l.text := by
      rcases fits.shape with whole | ended
      · exact whole ▸ mem
      · rw [ended, List.mem_append] at mem
        exact mem.resolve_right (by decide)
    obtain ⟨i, h⟩ := List.mem_iff_getElem?.1 there
    rw [← after.line] at h
    obtain ⟨locked, unlocked⟩ := apart i 0 h
    cases lock : t.line.lock i with
    | true =>
      rw [lock] at locked
      exact (str_eq_some.1 after.locked.shown).1 (List.mem_of_getElem? locked)
    | false =>
      rw [lock] at unlocked
      exact (str_eq_some.1 after.unlocked.shown).1 (List.mem_of_getElem? unlocked)
  · intro clean i c h
    rw [after.line] at h ⊢
    exact ⟨after.locked.shows clean after.buf h, after.unlocked.shows clean after.buf h⟩

/-! ### What is behind the line -/

/-- From an index on, the array is empty but for one character. -/
def Calm (x : Byte) (a : List Byte) (n : Nat) : Prop := ∀ i ≥ n, ∀ c, a[i]? = some c → c = 0 ∨ c = x

structure Bufs.Calm (s : Bufs) (n : Nat) : Prop where
  buf : Locks.Calm newline s.buf n
  Lbuf : Locks.Calm blank s.Lbuf n
  Ubuf : Locks.Calm blank s.Ubuf n

theorem start_calm : start.Calm 0 := by
  have zeros (x : Byte) : Locks.Calm x (List.replicate BUFSIZE 0) 0 := by
    intro i _ c h
    exact .inl (List.eq_of_mem_replicate (List.mem_of_getElem? h))
  exact ⟨zeros _, zeros _, zeros _⟩

theorem Half.calm (half : Half on l buf a a' out) (calm : Calm newline buf n)
    (old : Calm blank a n) : Calm blank a' n := by
  intro i behind c h
  rw [half.marked.get] at h
  split at h
  case isTrue inside =>
    obtain ⟨d, there, rfl⟩ := Option.map_eq_some_iff.1 h
    rcases calm i behind d there with rfl | rfl
    · cases on i
      · exact .inr rfl
      · exact .inl rfl
    · exact absurd there inside.2.2
  case isFalse => exact old i behind c h

theorem Half.alone (half : Half on l buf a a' out) (calm : Calm blank a' n) :
    ∀ c ∈ out.drop n, c = blank := by
  intro c mem
  obtain ⟨i, behind, there, some'⟩ := str_mem half.shown mem
  exact (calm i behind c there).resolve_left some'

theorem buf_calm (fits : l.Fits) (stored : strcpyAt 0 b 0 l.chars = some buf)
    (calm : Calm newline b n) (growing : n ≤ l.text.length) : Calm newline buf l.text.length := by
  intro i behind c h
  rw [strcpyAt_get stored] at h
  split at h
  case isTrue inside =>
    rcases fits.shape with whole | ended
    · rw [whole] at inside
      omega
    · rw [ended, List.getElem?_append_right behind] at h
      exact .inr (List.mem_singleton.1 (List.mem_of_getElem? h))
  case isFalse =>
    split at h
    · exact .inl (Option.some.inj h).symm
    · exact calm i (by omega) c h

/-- **Step.** A line that is not shorter than those before is alone. -/
theorem After.alone (after : After l s s' t) (fits : l.Fits) (calm : s.Calm n)
    (growing : n ≤ l.text.length) : t.Alone ∧ s'.Calm l.text.length := by
  have more {x : Byte} {a : List Byte} (h : Calm x a n) : Calm x a l.text.length :=
    fun i behind => h i (Nat.le_trans growing behind)
  have forBuf := buf_calm fits after.buf calm.buf growing
  have forL := after.locked.calm forBuf (more calm.Lbuf)
  have forU := after.unlocked.calm forBuf (more calm.Ubuf)
  refine ⟨?_, forBuf, forL, forU⟩
  rw [Shown.Alone, after.line]
  exact ⟨after.locked.alone forL, after.unlocked.alone forU⟩

/-- In the place of the newline, there is what was there. -/
theorem Half.keeps (half : Half on l buf a a' out) (clean : 0 ∉ l.chars)
    (stored : strcpyAt 0 b 0 l.chars = some buf) (ended : l.chars = l.text ++ [newline])
    (old : a[l.text.length]? = some c) (some' : c ≠ 0) : c ∈ out.drop l.text.length := by
  have here : buf[l.text.length]? = some newline := by
    refine buf_get stored ?_
    rw [ended, List.getElem?_concat_length]
  have kept : a'[l.text.length]? = some c := by
    rw [half.marked.get, if_neg fun inside => inside.2.2 here, old]
  have shown : out[l.text.length]? = some c := by
    rw [str_getElem? half.shown, kept]
    intro j most
    rcases Nat.lt_or_eq_of_le most with inside | rfl
    · exact half.filled clean stored inside
    · exact ⟨c, kept, some'⟩
  rw [List.mem_iff_getElem?]
  exact ⟨0, by rw [List.getElem?_drop, Nat.add_zero, shown]⟩

/-- A line that is alone does not show the line before. -/
theorem After.following {l' : Line} {s'' : Bufs} {t' : Shown} (before : After l s s' t)
    (after : After l' s' s'' t') (fits : l'.Fits) (clean : 0 ∉ l.chars) (clean' : 0 ∉ l'.chars)
    (alone : t'.Alone) (ended : l'.chars ≠ l'.text) :
    l.text.length ≤ l'.text.length ∨ l.text[l'.text.length]? = some blank := by
  by_cases shorter : l'.text.length < l.text.length
  · right
    have there := List.getElem?_eq_getElem shorter
    have mem := List.mem_of_getElem? (l.text_get there).1
    have some' : l.text[l'.text.length] ≠ 0 := ne_of_mem_of_not_mem mem clean
    have newline' := fits.shape.resolve_left ended
    have forL := before.locked.puts clean before.buf there
    have forU := before.unlocked.puts clean before.buf there
    rw [Shown.Alone, after.line] at alone
    rw [there, Option.some.injEq]
    cases lock : l.lock l'.text.length with
    | true =>
      rw [lock] at forL
      exact alone.1 _ (after.locked.keeps clean' after.buf newline' forL some')
    | false =>
      rw [lock] at forU
      exact alone.2 _ (after.unlocked.keeps clean' after.buf newline' forU some')
  · exact .inl (Nat.not_lt.1 shorter)

end

/-! ## All lines -/

section
variable {l : Line} {ls : List Line} {s s' : Bufs} {t : Shown} {ts : List Shown} {n : Nat}

theorem turns_cons (h : turns s (l :: ls) = some ts) :
    ∃ s' t ts', turn s l = some (s', t) ∧ turns s' ls = some ts' ∧ ts = t :: ts' := by
  rw [turns] at h
  obtain ⟨⟨s', t⟩, first, h⟩ := Option.bind_eq_some_iff.1 h
  obtain ⟨ts', later, h⟩ := Option.bind_eq_some_iff.1 h
  exact ⟨s', t, ts', first, later, (Option.some.inj h).symm⟩

theorem turns_some (sized : s.Sized) (fits : ∀ l ∈ ls, l.Fits) :
    ∃ ts, turns s ls = some ts ∧ ts.map Shown.line = ls ∧
      ((∀ t ∈ ts, t.Apart) ↔ ∀ l ∈ ls, 0 ∉ l.chars) := by
  induction ls generalizing s with
  | nil => exact ⟨[], rfl, rfl, iff_of_true nofun nofun⟩
  | cons l ls ih =>
    obtain ⟨fits', later⟩ := List.forall_mem_cons.1 fits
    obtain ⟨s', t, first, after⟩ := turn_some sized fits'
    obtain ⟨ts, rest, lines, apart⟩ := ih after.sized later
    refine ⟨t :: ts, ?_, ?_, ?_⟩
    · rw [turns, bind_of first]
      dsimp only
      rw [rest]
      rfl
    · rw [List.map_cons, after.line, lines]
    · rw [List.forall_mem_cons, List.forall_mem_cons, after.apart_iff fits', apart]

theorem turns_alone (sized : s.Sized) (fits : ∀ l ∈ ls, l.Fits) (calm : s.Calm n)
    (first : ∀ l ∈ ls.head?, n ≤ l.text.length) (growing : Growing ls) (h : turns s ls = some ts) :
    ∀ t ∈ ts, t.Alone := by
  induction ls generalizing s n ts with
  | nil =>
    cases h
    exact nofun
  | cons l ls ih =>
    obtain ⟨fits', later⟩ := List.forall_mem_cons.1 fits
    obtain ⟨s', t, ts, turn', rest, rfl⟩ := turns_cons h
    have after := turn_after sized fits' turn'
    obtain ⟨alone, calm'⟩ := after.alone fits' calm (first l rfl)
    obtain ⟨second, growing⟩ := List.isChain_cons.1 growing
    exact List.forall_mem_cons.2 ⟨alone, ih after.sized later calm' second growing rest⟩

theorem turns_following {s₀ : Bufs} (before : After l s₀ s t) (fits : ∀ l ∈ ls, l.Fits)
    (clean : ∀ l' ∈ l :: ls, 0 ∉ l'.chars) (h : turns s ls = some ts) (alone : ∀ t ∈ ts, t.Alone) :
    Following (l :: ls) := by
  induction ls generalizing l s₀ s t ts with
  | nil => exact .singleton l
  | cons l' ls ih =>
    obtain ⟨clean', cleans⟩ := List.forall_mem_cons.1 clean
    obtain ⟨fits', later⟩ := List.forall_mem_cons.1 fits
    obtain ⟨s', t', ts, turn', rest, rfl⟩ := turns_cons h
    obtain ⟨alone', alones⟩ := List.forall_mem_cons.1 alone
    have after := turn_after before.sized fits' turn'
    exact .cons_cons (before.following after fits' clean' (cleans l' List.mem_cons_self) alone')
      (ih after later cleans rest alones)

end

/-! ## The lines of a file -/

section
variable {locked : Int → Bool} {turns offset : Nat} {file : List Byte}

theorem linesFrom_fits (small : offset + file.length + 80 ≤ 2 ^ 31) :
    ∀ l ∈ linesFrom locked turns offset file, l.Fits := by
  induction turns generalizing offset file with
  | zero => exact nofun
  | succ turns ih =>
    rw [linesFrom]
    split
    · exact nofun
    · have parts := congrArg List.length (Ssl.fgets_append (BUFSIZE - 1) file)
      rw [List.length_append] at parts
      refine List.forall_mem_cons.2 ⟨⟨?_, Ssl.fgets_takeWhile _ _, ?_⟩, ih (by omega)⟩
      · exact Nat.lt_of_le_of_lt (Ssl.fgets_length _ _) (by decide)
      · dsimp only
        omega

theorem linesFrom_chars (enough : file.length ≤ turns) :
    (linesFrom locked turns offset file).flatMap Line.chars = file := by
  induction turns generalizing offset file with
  | zero =>
    rw [List.length_eq_zero_iff.1 (Nat.le_zero.1 enough)]
    rfl
  | succ turns ih =>
    cases file with
    | nil => rfl
    | cons c file =>
      have parts := Ssl.fgets_append (BUFSIZE - 1) (c :: file)
      have first : 0 < (fgets (BUFSIZE - 1) (c :: file)).1.length := by
        rw [BUFSIZE, fgets]
        split <;> exact Nat.succ_pos _
      have lengths := congrArg List.length parts
      rw [List.length_append] at lengths
      rw [linesFrom, if_neg (by simp), List.flatMap_cons, ih (by omega)]
      exact parts

end

theorem File.lines_clean {f : File} : (∀ l ∈ f.lines, 0 ∉ l.chars) ↔ 0 ∉ f.content := by
  have whole : f.lines.flatMap Line.chars = f.content := linesFrom_chars (Nat.le_refl _)
  rw [← whole]
  simp

variable {files : List File}

theorem lines_fits (small : ∀ f ∈ files, f.content.length + 80 ≤ 2 ^ 31) :
    ∀ l ∈ files.flatMap File.lines, l.Fits := by
  intro l mem
  obtain ⟨f, there, mem⟩ := List.mem_flatMap.1 mem
  exact linesFrom_fits (by rw [Nat.zero_add]; exact small f there) l mem

theorem lines_clean :
    (∀ l ∈ files.flatMap File.lines, 0 ∉ l.chars) ↔ ∀ f ∈ files, 0 ∉ f.content := by
  constructor
  · intro clean f mem
    exact f.lines_clean.1 fun l there => clean l (List.mem_flatMap.2 ⟨f, mem, there⟩)
  · intro clean l mem
    obtain ⟨f, there, mem⟩ := List.mem_flatMap.1 mem
    exact f.lines_clean.2 (clean f there) l mem

theorem main_some (small : ∀ f ∈ files, f.content.length + 80 ≤ 2 ^ 31) :
    ∃ ts, main files = some ts ∧ ts.map Shown.line = files.flatMap File.lines ∧
      ((∀ t ∈ ts, t.Apart) ↔ ∀ f ∈ files, 0 ∉ f.content) := by
  obtain ⟨ts, e, lines, apart⟩ := turns_some start_sized (lines_fits small)
  exact ⟨ts, e, lines, apart.trans lines_clean⟩

theorem main_following {ts : List Shown} (small : ∀ f ∈ files, f.content.length + 80 ≤ 2 ^ 31)
    (clean : ∀ f ∈ files, 0 ∉ f.content) (e : main files = some ts) (alone : ∀ t ∈ ts, t.Alone) :
    Following (files.flatMap File.lines) := by
  have fits := lines_fits small
  have cleans := lines_clean.2 clean
  unfold main at e
  cases all : files.flatMap File.lines with
  | nil => exact .nil
  | cons l ls =>
    rw [all] at fits e cleans
    obtain ⟨fits', later⟩ := List.forall_mem_cons.1 fits
    obtain ⟨s', t, ts, turn', rest, rfl⟩ := turns_cons e
    have after := turn_after start_sized fits' turn'
    exact turns_following after later cleans rest (List.forall_mem_cons.1 alone).2

/-- **Which lines are shown as they are meant to be.** -/
theorem locked_unlocked (small : ∀ f ∈ files, f.content.length + 80 ≤ 2 ^ 31) :
    ∃ ts, main files = some ts ∧ ts.map Shown.line = files.flatMap File.lines ∧
      ((∀ t ∈ ts, t.Apart) ↔ ∀ f ∈ files, 0 ∉ f.content) ∧
      (Growing (files.flatMap File.lines) → ∀ t ∈ ts, t.Alone) ∧
      ((∀ f ∈ files, 0 ∉ f.content) → (∀ t ∈ ts, t.Alone) →
        Following (files.flatMap File.lines)) := by
  obtain ⟨ts, e, lines, apart⟩ := main_some small
  refine ⟨ts, e, lines, apart, fun growing => ?_, fun clean => main_following small clean e⟩
  exact turns_alone start_sized (lines_fits small) start_calm (fun _ _ => Nat.zero_le _) growing e

/-- The lines `a` and `bc`, and a lock on the `b`. -/
def longer : File := ⟨[97, 10, 98, 99, 10], fun i => i = 2⟩

theorem locked_unlocked_longer :
    ∃ ts, main [longer] = some ts ∧ (∀ t ∈ ts, t.Apart) ∧ ∀ t ∈ ts, t.Alone := by
  have small : ∀ f ∈ [longer], f.content.length + 80 ≤ 2 ^ 31 := by decide
  obtain ⟨ts, e, -, apart, alone, -⟩ := locked_unlocked small
  have growing : Growing ([longer].flatMap File.lines) := by
    unfold Growing
    decide
  exact ⟨ts, e, apart.2 (by decide), alone growing⟩

/-- The lines `abc` and `x`, without locks. -/
def shorter : File := ⟨[97, 98, 99, 10, 120, 10], fun _ => false⟩

/-- The second line is shown with the `b` of the first behind it. -/
theorem shorter_shows : ∃ ts, main [shorter] = some ts ∧ ¬ ∀ t ∈ ts, t.Alone := by
  have small : ∀ f ∈ [shorter], f.content.length + 80 ≤ 2 ^ 31 := by decide
  obtain ⟨ts, e, -⟩ := main_some small
  refine ⟨ts, e, fun alone => ?_⟩
  have following := main_following small (by decide) e alone
  have not' : ¬ Following ([shorter].flatMap File.lines) := by
    unfold Following
    decide
  exact not' following

end UnixProgramming.Locks
