import UnixProgramming.Heap.Chars
import UnixProgramming.Runs.Basic
import UnixProgramming.Dbg.Basic

/-!
# Strings made visible

`sprt` writes a string into the next of its five buffers, which grow with it, as
far as an `int` can say how long they are. The string may be in one of the
buffers itself, as the result of an earlier call is.

* `sprtLoop_writes`: nothing is cut off, and nothing is written outside, as long
  as the buffer can grow;
* `sprtOwn_copies`: a string further back in the buffer that is being written;
* `sprt_visible_iff`: when the result is the string in visible characters.
-/

namespace UnixProgramming.Dbg

open Ssl (Byte CString isdigit)
open Heap.Chars
open Runs

def BUFSIZE : Nat := 256
def SFTY : Nat := 20

/-- The greatest `int`. -/
def INT_MAX : Nat := 2 ^ 31 - 1

/-- What `sprt` is called with: a null pointer, 1 or -1, a string elsewhere, or a
place in one of the buffers. -/
inductive Pointer where
  | null
  | badPtr
  | string (s : CString)
  | inside (i : Fin 5) (k : Nat)

/-- `buflen` is an `int`: `sprtLoop` makes it no greater than `INT_MAX`. -/
structure DYNBUF where
  buf : Option (List Byte)
  buflen : Nat

/-- The static variables: `buf1` to `buf5`, and which of them `buf` points to. -/
structure Sprt where
  bufs : Fin 5 → DYNBUF
  buf : Fin 5

def Sprt.start : Sprt := ⟨fun _ => ⟨none, 0⟩, 4⟩

/-- The string in a buffer. -/
def Sprt.text (st : Sprt) (i : Fin 5) : Option (List Byte) :=
  (st.bufs i).buf.bind fun a => str 0 a 0

/-- `sprintf(b,..)` for one character. -/
def sprtChar (c : Byte) : List Byte :=
  if c < 31 then [94, c + 64]
  else if c ≥ 128 then
    126 :: (List.replicate (3 - (decimal c.toNat).length) 32 ++ decimal c.toNat)
  else [c]

/-- `realloc(a,n)`, with what is in the memory that is new. -/
def realloc (junk : Nat → Byte) (a : List Byte) (n : Nat) : List Byte :=
  a.take n ++ (List.range (n - a.length)).map fun i => junk (a.length + i)

/-- The loop of `sprt`, with the offsets of `b` and `bsfty` in the buffer: the
buffer and its length. A buffer that cannot be made longer ends the program. -/
def sprtLoop (junk : Nat → Byte) : List Byte → List Byte → Nat → Nat → Nat →
    Option (List Byte × Nat)
  | [], a, buflen, _, _ => some (a, buflen)
  | c :: s, a, buflen, b, bsfty =>
    if b < bsfty then
      (strcpyAt 0 a b (sprtChar c)).bind fun a =>
        (str 0 a b).bind fun w =>
          let b := b + w.length
          if b ≥ bsfty then
            if buflen + BUFSIZE ≤ INT_MAX then
              let buflen := buflen + BUFSIZE
              let a := realloc junk a buflen
              let bsfty := buflen - BUFSIZE
              (str 0 a b).bind fun w => sprtLoop junk s a buflen (b + w.length) bsfty
            else none
          else (str 0 a b).bind fun w => sprtLoop junk s a buflen (b + w.length) bsfty
    else some (a, buflen)

/-- The loop for a string in the buffer itself, from the offset `s` on: it reads
what it has written, and `realloc` takes the string away. No character is read
twice, so that it turns no more often than the buffer is long. -/
def sprtOwn : Nat → List Byte → Nat → Nat → Nat → Nat → Option (List Byte × Nat)
  | 0, _, _, _, _, _ => none
  | turns + 1, a, buflen, s, b, bsfty =>
    a[s]?.bind fun c =>
      if c ≠ 0 ∧ b < bsfty then
        (strcpyAt 0 a b (sprtChar c)).bind fun a =>
          (str 0 a b).bind fun w =>
            let b := b + w.length
            if b ≥ bsfty then none
            else (str 0 a b).bind fun w => sprtOwn turns a buflen (s + 1) (b + w.length) bsfty
      else some (a, buflen)

/-- `if(!buf1.buf) { .. }` -/
def Sprt.initialized (st : Sprt) : Fin 5 → DYNBUF :=
  if (st.bufs 0).buf.isNone then fun _ => ⟨some (List.replicate BUFSIZE 0), BUFSIZE⟩ else st.bufs

/-- From `buf->buf[0] = '\0'` on. -/
def sprtInto (junk : Nat → Byte) (bufs : Fin 5 → DYNBUF) (buf : Fin 5) (vs : Pointer)
    (a : List Byte) (buflen : Nat) : Option (List Byte × Nat) :=
  (blit a 0 [0]).bind fun a =>
    match vs with
    | .null => (strcpyAt 0 a 0 (text "null")).map fun a => (a, buflen)
    | .badPtr => (strcpyAt 0 a 0 (text "bad-ptr")).map fun a => (a, buflen)
    | .string s => sprtLoop junk s.chars a buflen 0 (buflen - SFTY)
    | .inside i k =>
      if i = buf then sprtOwn a.length a buflen k 0 (buflen - SFTY)
      else ((bufs i).buf.bind fun a' => str 0 a' k).bind fun s =>
        sprtLoop junk s a buflen 0 (buflen - SFTY)

/-- `sprt`; its result is the buffer that `buf` points to then. -/
def sprt (junk : Nat → Byte) (vs : Pointer) (st : Sprt) : Option Sprt :=
  let buf := st.buf + 1
  let d := st.initialized buf
  d.buf.bind fun a =>
    (sprtInto junk st.initialized buf vs a d.buflen).map fun (a, buflen) =>
      ⟨Function.update st.initialized buf ⟨some a, buflen⟩, buf⟩

/-! ## The loop -/

theorem decimal_isdigit {n : Nat} {c : Byte} (h : c ∈ decimal n) : isdigit c := by
  obtain ⟨d, hd, rfl⟩ := List.mem_map.1 h
  exact Ssl.isdigit_toDigits hd

/-- `%3d` of a byte from 128 on is its three digits. -/
theorem sprtChar_high {c : Byte} (high : c ≥ 128) :
    sprtChar c = 126 :: decimal c.toNat ∧ (decimal c.toNat).length = 3 := by
  have lo : 128 ≤ c.toNat := UInt8.le_iff_toNat_le.1 high
  have hi := c.toNat_lt
  have three : (decimal c.toNat).length = 3 := by
    rw [decimal, List.length_map]
    have le := Nat.length_toDigits_le_iff (n := c.toNat) (b := 10) (k := 3) (by decide) (by decide)
    have gt := Nat.length_toDigits_le_iff (n := c.toNat) (b := 10) (k := 2) (by decide) (by decide)
    have le' := le.2 (by omega)
    have gt' := gt.not.2 (by omega)
    omega
  have low : ¬ c < 31 := by
    rw [UInt8.lt_iff_toNat_lt]
    exact fun small => absurd (lo.trans small.le) (by decide)
  rw [sprtChar, if_neg low, if_pos high, three]
  exact ⟨rfl, rfl⟩

theorem sprtChar_length (c : Byte) : (sprtChar c).length ≤ 4 := by
  by_cases high : c ≥ 128
  · obtain ⟨eq, three⟩ := sprtChar_high high
    rw [eq, List.length_cons, three]
  · rw [sprtChar, if_neg high]
    split <;> simp

theorem sprtChar_clean {c : Byte} (some' : c ≠ 0) : 0 ∉ sprtChar c := by
  by_cases high : c ≥ 128
  · rw [(sprtChar_high high).1, List.mem_cons, not_or]
    exact ⟨by decide, fun m => absurd (decimal_isdigit m) (by decide)⟩
  rw [sprtChar, if_neg high]
  split
  · rename_i low
    have wraps : 0 ≠ c + 64 := by
      rw [UInt8.lt_iff_toNat_lt] at low
      intro zero
      have zero := congrArg UInt8.toNat zero
      rw [UInt8.toNat_add] at zero
      change c.toNat < 31 at low
      change 0 = (c.toNat + 64) % 2 ^ 8 at zero
      omega
    simpa using wraps
  · simpa using some'.symm

theorem realloc_length {junk : Nat → Byte} {a : List Byte} {n : Nat} (more : a.length ≤ n) :
    (realloc junk a n).length = n := by
  rw [realloc, List.length_append, List.length_take, List.length_map, List.length_range]
  omega

theorem realloc_str {junk : Nat → Byte} {a s : List Byte} {n : Nat} (more : a.length ≤ n)
    (h : str 0 a 0 = some s) : str 0 (realloc junk a n) 0 = some s := by
  obtain ⟨clean, rest, split'⟩ := str_eq_some.1 h
  rw [List.drop_zero] at split'
  have behind : a.drop 0 ++ (List.range (n - a.length)).map (fun i => junk (a.length + i)) =
      s ++ 0 :: (rest ++ (List.range (n - a.length)).map fun i => junk (a.length + i)) := by
    rw [List.drop_zero, split', List.append_assoc, List.cons_append]
  refine str_eq_some.2 ⟨clean, _, Eq.trans ?_ behind⟩
  rw [List.drop_zero, List.drop_zero, realloc, List.take_of_length_le more]

/-- What `sprt` writes, it leaves as it is the next time. -/
theorem sprtChar_again {c d : Byte} (h : d ∈ sprtChar c) : sprtChar d = [d] := by
  have plain {d : Byte} (low : 31 ≤ d.toNat) (high : d.toNat < 128) : sprtChar d = [d] := by
    rw [sprtChar, if_neg, if_neg]
    · rw [ge_iff_le, UInt8.le_iff_toNat_le]
      exact Nat.not_le.2 high
    · rw [UInt8.lt_iff_toNat_lt]
      exact Nat.not_lt.2 low
  by_cases high : c ≥ 128
  · rw [(sprtChar_high high).1] at h
    rcases List.mem_cons.1 h with rfl | digit
    · exact plain (by decide) (by decide)
    · have := Ssl.isdigit_iff.1 (decimal_isdigit digit)
      exact plain (by omega) (by omega)
  rw [sprtChar, if_neg high] at h
  rw [ge_iff_le, UInt8.le_iff_toNat_le] at high
  change ¬ 128 ≤ c.toNat at high
  split at h
  · rename_i low
    rw [UInt8.lt_iff_toNat_lt] at low
    change c.toNat < 31 at low
    have letter : (c + 64).toNat = c.toNat + 64 := by
      rw [UInt8.toNat_add]
      exact Nat.mod_eq_of_lt (by change c.toNat + 64 < 256; omega)
    simp only [List.mem_cons, List.not_mem_nil, or_false] at h
    rcases h with rfl | rfl
    · exact plain (by decide) (by decide)
    · exact plain (by omega) (by omega)
  · rename_i low
    rw [UInt8.lt_iff_toNat_lt] at low
    change ¬ c.toNat < 31 at low
    rw [List.mem_singleton.1 h]
    exact plain (by omega) (by omega)

/-- `t` has been written up to `b`, and there is room behind `bsfty`. -/
structure Writing (t a : List Byte) (buflen b bsfty : Nat) : Prop where
  length : a.length = buflen
  stored : str 0 a 0 = some t
  atEnd : b = t.length
  room : b < bsfty
  sfty : bsfty + SFTY ≤ buflen
  whole : BUFSIZE ∣ buflen
  int : buflen ≤ INT_MAX
  plain : ∀ c ∈ t, sprtChar c = [c]

/-- How many characters can be written with a buffer of this length, which grows
at `bsfty`. -/
def capacity (buflen bsfty : Nat) : Nat :=
  if buflen + BUFSIZE ≤ INT_MAX then INT_MAX + 1 - 2 * BUFSIZE else bsfty

theorem Writing.le_capacity {t a : List Byte} {buflen b bsfty : Nat}
    (h : Writing t a buflen b bsfty) : bsfty ≤ capacity buflen bsfty := by
  have sfty := h.sfty
  obtain ⟨n, rfl⟩ := h.whole
  unfold capacity
  split
  · rename_i grows
    rw [SFTY] at sfty
    rw [BUFSIZE, INT_MAX] at *
    omega
  · exact le_rfl

theorem Writing.lt_capacity {t a : List Byte} {buflen b bsfty : Nat}
    (h : Writing t a buflen b bsfty) : t.length < capacity buflen bsfty :=
  h.atEnd ▸ Nat.lt_of_lt_of_le h.room h.le_capacity

/-- Growing leaves the capacity as it is. -/
theorem capacity_grows {buflen bsfty : Nat} (whole : BUFSIZE ∣ buflen)
    (grows : buflen + BUFSIZE ≤ INT_MAX) :
    capacity (buflen + BUFSIZE) (buflen + BUFSIZE - BUFSIZE) = capacity buflen bsfty := by
  obtain ⟨n, rfl⟩ := whole
  unfold capacity
  rw [if_pos grows]
  rw [BUFSIZE, INT_MAX] at *
  split
  · rfl
  · omega

/-- What a store of a character leads to. -/
theorem Writing.stores {t a : List Byte} {buflen b bsfty : Nat} (h : Writing t a buflen b bsfty)
    {c : Byte} (some' : c ≠ 0) : ∃ u, strcpyAt 0 a b (sprtChar c) = some u ∧
      str 0 u b = some (sprtChar c) ∧ str 0 u 0 = some (t ++ sprtChar c) ∧ u.length = buflen ∧
      b + (sprtChar c).length < bsfty + SFTY := by
  obtain ⟨length, str', rfl, room, sfty, -, -, -⟩ := h
  have short := sprtChar_length c
  have clean := sprtChar_clean some'
  rw [SFTY] at *
  have fits : t.length + (sprtChar c).length < a.length := by omega
  obtain ⟨u, written, kept⟩ := strcpyAt_some 0 fits
  exact ⟨u, written, strcpyAt_str written clean, strcpyAt_append str' written clean,
    kept.trans length, by omega⟩

/-- The string that has been written ends behind its characters. -/
theorem str_atEnd {a s : List Byte} (h : str 0 a 0 = some s) : str 0 a s.length = some [] := by
  have behind := str_add h (n := s.length) le_rfl
  rwa [Nat.zero_add, List.drop_length] at behind

theorem plain_of_all {s : List Byte} (all : (s.all fun c => sprtChar c = [c]) = true) :
    ∀ c ∈ s, sprtChar c = [c] := by
  intro c hc
  exact of_decide_eq_true (List.all_eq_true.1 all c hc)

theorem plain_append {t s : List Byte} (ht : ∀ c ∈ t, sprtChar c = [c])
    (hs : ∀ c ∈ s, sprtChar c = [c]) : ∀ c ∈ t ++ s, sprtChar c = [c] := by
  intro c hc
  exact (List.mem_append.1 hc).elim (ht c) (hs c)

/-- One turn: the longest form of a character fits between `bsfty` and the end,
and behind it the buffer grows, if it can. -/
theorem Writing.turn {t a : List Byte} {buflen b bsfty : Nat} (h : Writing t a buflen b bsfty)
    (junk : Nat → Byte) {c : Byte} (some' : c ≠ 0) (s : List Byte) :
    ((t ++ sprtChar c).length < capacity buflen bsfty → ∃ a' buflen' b' bsfty',
      Writing (t ++ sprtChar c) a' buflen' b' bsfty' ∧ buflen ≤ buflen' ∧
      capacity buflen' bsfty' = capacity buflen bsfty ∧
      sprtLoop junk (c :: s) a buflen b bsfty = sprtLoop junk s a' buflen' b' bsfty') ∧
    (capacity buflen bsfty ≤ (t ++ sprtChar c).length →
      sprtLoop junk (c :: s) a buflen b bsfty = none) := by
  obtain ⟨u, written, here, stored, length', fits⟩ := h.stores some'
  have plain := plain_append h.plain fun d hd => sprtChar_again (c := c) hd
  obtain ⟨length, str', rfl, room, sfty, whole, int, -⟩ := h
  have more : (t ++ sprtChar c).length = t.length + (sprtChar c).length := List.length_append
  by_cases grows : t.length + (sprtChar c).length ≥ bsfty
  · by_cases can : buflen + BUFSIZE ≤ INT_MAX
    · have stored' : str 0 (realloc junk u (buflen + BUFSIZE)) 0 = some (t ++ sprtChar c) :=
        realloc_str (by omega) stored
      have empty := str_atEnd stored'
      rw [more] at empty
      have writing : Writing (t ++ sprtChar c) (realloc junk u (buflen + BUFSIZE))
          (buflen + BUFSIZE) (t.length + (sprtChar c).length) (buflen + BUFSIZE - BUFSIZE) := by
        refine ⟨realloc_length (by omega), stored', more.symm, ?_, ?_,
          (Nat.dvd_add_right whole).2 (Nat.dvd_refl _), can, plain⟩
        · omega
        · rw [SFTY, BUFSIZE]
          omega
      have loop : sprtLoop junk (c :: s) a buflen t.length bsfty =
          sprtLoop junk s (realloc junk u (buflen + BUFSIZE)) (buflen + BUFSIZE)
            (t.length + (sprtChar c).length) (buflen + BUFSIZE - BUFSIZE) := by
        rw [sprtLoop, if_pos room, written, Option.bind_some, here, Option.bind_some]
        simp only [grows, if_true, can, empty, Option.bind_some, List.length_nil, Nat.add_zero]
      have same : capacity (buflen + BUFSIZE) (buflen + BUFSIZE - BUFSIZE) = capacity buflen bsfty :=
        capacity_grows whole can
      refine ⟨fun _ => ⟨_, _, _, _, writing, by omega, same, loop⟩, fun full => ?_⟩
      have lt := writing.lt_capacity
      rw [same] at lt
      omega
    · have full : capacity buflen bsfty = bsfty := if_neg can
      rw [full, more]
      refine ⟨fun lt => absurd grows (Nat.not_le.2 lt), fun _ => ?_⟩
      rw [sprtLoop, if_pos room, written, Option.bind_some, here, Option.bind_some]
      simp only [grows, if_true, can, if_false]
  · have empty := str_atEnd stored
    rw [more] at empty
    have writing : Writing (t ++ sprtChar c) u buflen (t.length + (sprtChar c).length) bsfty :=
      ⟨length', stored, more.symm, by omega, sfty, whole, int, plain⟩
    refine ⟨fun _ => ⟨_, _, _, _, writing, le_rfl, rfl, ?_⟩, fun full => ?_⟩
    · rw [sprtLoop, if_pos room, written, Option.bind_some, here, Option.bind_some]
      simp only [grows, if_false, empty, Option.bind_some, List.length_nil, Nat.add_zero]
    · exact absurd writing.lt_capacity (Nat.not_lt.2 full)

/-- **The loop writes every character**, and only into the buffer, as long as
that can grow. -/
theorem sprtLoop_writes (junk : Nat → Byte) {s : List Byte} (clean : 0 ∉ s) {t a : List Byte}
    {buflen b bsfty : Nat} (h : Writing t a buflen b bsfty) :
    ((t ++ s.flatMap sprtChar).length < capacity buflen bsfty → ∃ a' buflen' b' bsfty',
      sprtLoop junk s a buflen b bsfty = some (a', buflen') ∧ buflen ≤ buflen' ∧
      Writing (t ++ s.flatMap sprtChar) a' buflen' b' bsfty') ∧
    (capacity buflen bsfty ≤ (t ++ s.flatMap sprtChar).length →
      sprtLoop junk s a buflen b bsfty = none) := by
  induction s generalizing t a buflen b bsfty with
  | nil =>
    rw [List.flatMap_nil, List.append_nil]
    exact ⟨fun _ => ⟨a, buflen, b, bsfty, rfl, le_rfl, h⟩,
      fun full => absurd h.lt_capacity (Nat.not_lt.2 full)⟩
  | cons c s ih =>
    obtain ⟨other, clean⟩ := List.ne_and_not_mem_of_not_mem_cons clean
    obtain ⟨fits, full⟩ := h.turn junk other.symm s
    rw [List.flatMap_cons, ← List.append_assoc]
    by_cases room : (t ++ sprtChar c).length < capacity buflen bsfty
    · obtain ⟨a', buflen', b', bsfty', writing, more, same, turn⟩ := fits room
      rw [turn, ← same]
      obtain ⟨rest, stops⟩ := ih clean writing
      refine ⟨fun lt => ?_, stops⟩
      obtain ⟨a'', buflen'', b'', bsfty'', loop, more', writing'⟩ := rest lt
      exact ⟨a'', buflen'', b'', bsfty'', loop, more.trans more', writing'⟩
    · have none' := full (Nat.not_lt.1 room)
      refine ⟨fun lt => absurd ?_ room, fun _ => none'⟩
      rw [List.length_append] at lt
      omega

/-- Whatever is read from the buffer itself, it is written as anything else. -/
theorem sprtOwn_writes {turns : Nat} {t a : List Byte} {buflen s b bsfty : Nat}
    (h : Writing t a buflen b bsfty) {r : List Byte × Nat}
    (run : sprtOwn turns a buflen s b bsfty = some r) :
    r.2 = buflen ∧ ∃ t' b', Writing t' r.1 buflen b' bsfty := by
  induction turns generalizing t a s b with
  | zero => cases run
  | succ turns ih =>
    rw [sprtOwn] at run
    obtain ⟨c, -, run⟩ := Option.bind_eq_some_iff.1 run
    split at run
    · rename_i on
      obtain ⟨u, written, here, stored, length', fits⟩ := h.stores on.1
      have plain := plain_append h.plain fun d hd => sprtChar_again (c := c) hd
      have more : (t ++ sprtChar c).length = b + (sprtChar c).length := by
        rw [List.length_append, h.atEnd]
      have empty := str_atEnd stored
      rw [more] at empty
      rw [written, Option.bind_some, here, Option.bind_some] at run
      dsimp only at run
      split at run
      · cases run
      · rename_i room
        rw [empty, Option.bind_some] at run
        exact ih ⟨length', stored, more.symm, Nat.not_le.1 room, h.sfty, h.whole, h.int, plain⟩ run
    · cases run
      exact ⟨rfl, t, b, h⟩

/-- A string in the buffer itself, further back than what is being written, is
copied, if it holds nothing but what `sprt` writes. -/
theorem sprtOwn_copies {v : List Byte} (plain : ∀ c ∈ v, sprtChar c = [c]) {turns : Nat}
    {t a : List Byte} {buflen s b bsfty : Nat} (h : Writing t a buflen b bsfty) (behind : b < s)
    (there : str 0 a s = some v) (short : b + v.length < bsfty) (enough : v.length < turns) :
    ∃ a', sprtOwn turns a buflen s b bsfty = some (a', buflen) ∧ str 0 a' 0 = some (t ++ v) := by
  induction v generalizing turns t a s b with
  | nil =>
    obtain ⟨turns, rfl⟩ := Nat.exists_eq_succ_of_ne_zero (Nat.ne_zero_of_lt enough)
    have nul := getElem?_end there
    rw [List.length_nil, Nat.add_zero] at nul
    refine ⟨a, ?_, by rw [List.append_nil, h.stored]⟩
    rw [sprtOwn, nul, Option.bind_some, if_neg (by simp)]
  | cons c v ih =>
    obtain ⟨turns, rfl⟩ := Nat.exists_eq_succ_of_ne_zero (Nat.ne_zero_of_lt enough)
    obtain ⟨itself, plain⟩ := List.forall_mem_cons.1 plain
    have first := getElem?_inside (s := []) there
    rw [List.length_nil, Nat.add_zero] at first
    have some' : c ≠ 0 := fun nul => (str_eq_some.1 there).1 (nul ▸ List.mem_cons_self)
    obtain ⟨u, written, here, stored, length', -⟩ := h.stores some'
    rw [itself] at written here stored
    rw [List.length_cons] at short enough
    have room : ¬ b + 1 ≥ bsfty := by omega
    have empty := str_atEnd stored
    have more : (t ++ [c]).length = b + 1 := by rw [List.length_append, h.atEnd]; rfl
    rw [more] at empty
    have rest : str 0 u (s + 1) = some v := by
      have kept : u.drop (s + 1) = a.drop (s + 1) := blit_behind written (by simp; omega)
      have further := str_behind (s := []) there
      rw [List.length_nil, Nat.add_zero] at further
      rw [str, kept]
      exact further
    have writing : Writing (t ++ [c]) u buflen (b + 1) bsfty :=
      ⟨length', stored, more.symm, Nat.not_le.1 room, h.sfty, h.whole, h.int,
        plain_append h.plain (List.forall_mem_singleton.2 itself)⟩
    obtain ⟨a', run, str'⟩ := ih plain writing (Nat.succ_lt_succ behind) rest (by omega)
      (by omega : v.length < turns)
    refine ⟨a', ?_, by rw [str', List.append_assoc]; rfl⟩
    rw [sprtOwn, first, Option.bind_some, if_pos ⟨some', h.room⟩, itself, written, Option.bind_some,
      here, Option.bind_some]
    simp only [List.length_singleton, room, if_false, empty, Option.bind_some, List.length_nil,
      Nat.add_zero]
    exact run

/-! ## One call -/

/-- An allocated buffer, and the string in it. -/
structure DYNBUF.Holds (d : DYNBUF) (t : List Byte) : Prop where
  stored : ∃ a, d.buf = some a ∧ a.length = d.buflen ∧ str 0 a 0 = some t
  size : BUFSIZE ≤ d.buflen
  whole : BUFSIZE ∣ d.buflen
  int : d.buflen ≤ INT_MAX
  short : t.length + SFTY < d.buflen
  plain : ∀ c ∈ t, sprtChar c = [c]

/-- None of the buffers has been allocated, or all of them. -/
def Sprt.Sound (st : Sprt) : Prop :=
  (∀ i, (st.bufs i).buf = none) ∨ ∀ i, ∃ t, (st.bufs i).Holds t

/-- The string that is pointed to: in a buffer, what an earlier call has put there. -/
def Pointer.points (st : Sprt) : Pointer → Option (List Byte)
  | null => none
  | badPtr => none
  | string s => some s.chars
  | inside i k => (st.text i).bind fun t => if k ≤ t.length then some (t.drop k) else none

theorem initialized_holds {st : Sprt} (sound : st.Sound) (i : Fin 5) :
    ∃ t, (st.initialized i).Holds t := by
  unfold Sprt.initialized
  obtain none' | all := sound
  · rw [if_pos (by simp [none' 0])]
    refine ⟨[], ⟨_, rfl, List.length_replicate, ?_⟩, le_rfl, Nat.dvd_refl _, by decide, by decide,
      by simp⟩
    exact str_eq_some.2 ⟨by simp, List.replicate (BUFSIZE - 1) 0, rfl⟩
  · obtain ⟨t, ⟨a, some', -⟩, -⟩ := all 0
    rw [if_neg (by simp [some'])]
    exact all i

theorem initialized_same {st : Sprt} (sound : st.Sound) {i : Fin 5} {t : List Byte}
    (there : st.text i = some t) : st.initialized i = st.bufs i := by
  obtain none' | all := sound
  · rw [Sprt.text, none' i] at there
    cases there
  · obtain ⟨t, ⟨a, some', -⟩, -⟩ := all 0
    rw [Sprt.initialized, if_neg (by simp [some'])]

theorem text_holds {st : Sprt} (sound : st.Sound) {i : Fin 5} {t : List Byte}
    (there : st.text i = some t) : (st.initialized i).Holds t := by
  obtain ⟨t', holds⟩ := initialized_holds sound i
  obtain ⟨a, buf, -, stored⟩ := holds.stored
  rw [Sprt.text, ← initialized_same sound there, buf, Option.bind_some, stored] at there
  cases there
  exact holds

/-- The buffer that the call writes into, as it finds it. -/
def Sprt.next (st : Sprt) : DYNBUF := st.initialized (st.buf + 1)

/-- A call writes into the next buffer and leaves the others. -/
structure Shows (t : List Byte) (st st' : Sprt) : Prop where
  sound : st'.Sound
  buf : st'.buf = st.buf + 1
  text : st'.text st'.buf = some t
  others : ∀ i t, i ≠ st'.buf → st.text i = some t → st'.text i = some t

/-- What is written into the next buffer is what the call shows. -/
theorem shows_of_into {junk : Nat → Byte} {vs : Pointer} {st : Sprt} (sound : st.Sound)
    {a a' t : List Byte} {buflen : Nat} (buf : st.next.buf = some a)
    (into : sprtInto junk st.initialized (st.buf + 1) vs a st.next.buflen = some (a', buflen))
    (holds : DYNBUF.Holds ⟨some a', buflen⟩ t) :
    ∃ st', sprt junk vs st = some st' ∧ Shows t st st' := by
  have result : sprt junk vs st =
      some ⟨Function.update st.initialized (st.buf + 1) ⟨some a', buflen⟩, st.buf + 1⟩ := by
    unfold Sprt.next at buf into
    simp only [sprt, buf, into, Option.bind_some, Option.map_some]
  obtain ⟨a'', same, -, shown⟩ := holds.stored
  cases same
  refine ⟨_, result, .inr fun i => ?_, rfl, ?_, fun i t other there => ?_⟩
  · by_cases here : i = st.buf + 1
    · subst here
      exact ⟨t, by simpa using holds⟩
    · simpa [here] using initialized_holds sound i
  · simpa [Sprt.text] using shown
  · rw [← there, Sprt.text, Sprt.text, ← initialized_same sound there]
    exact congrArg (fun d : DYNBUF => d.buf.bind fun a => str 0 a 0) (Function.update_of_ne other ..)

/-- The next buffer, emptied. -/
theorem next_empty {st : Sprt} (sound : st.Sound) : ∃ a u, st.next.buf = some a ∧
    blit a 0 [0] = some u ∧ Writing [] u st.next.buflen 0 (st.next.buflen - SFTY) ∧
    BUFSIZE ≤ st.next.buflen := by
  obtain ⟨t, ⟨a, buf, length, -⟩, size, whole, int, -, -⟩ := initialized_holds sound (st.buf + 1)
  change BUFSIZE ≤ st.next.buflen at size
  have inside : 0 + ([] : List Byte).length < a.length := by
    rw [length]
    exact Nat.lt_of_lt_of_le (by decide) size
  obtain ⟨u, cleared, kept⟩ := strcpyAt_some 0 inside
  have room : 0 < st.next.buflen - SFTY ∧ st.next.buflen - SFTY + SFTY ≤ st.next.buflen := by
    rw [BUFSIZE] at size
    rw [SFTY]
    omega
  exact ⟨a, u, buf, cleared, ⟨kept.trans length, strcpyAt_str cleared (by simp), rfl, room.1, room.2,
    whole, int, by simp⟩, size⟩

/-- What the loop leaves behind is the string in the buffer. -/
theorem Writing.holds {t a : List Byte} {buflen b bsfty : Nat} (h : Writing t a buflen b bsfty)
    (size : BUFSIZE ≤ buflen) : DYNBUF.Holds ⟨some a, buflen⟩ t := by
  refine ⟨⟨a, rfl, h.length, h.stored⟩, size, h.whole, h.int, ?_, h.plain⟩
  have room := h.room
  rw [h.atEnd] at room
  exact Nat.lt_of_lt_of_le (Nat.add_lt_add_right room SFTY) h.sfty

/-- A short text that is copied into the buffer. -/
theorem Writing.copies {a : List Byte} {buflen bsfty : Nat} (h : Writing [] a buflen 0 bsfty)
    (size : BUFSIZE ≤ buflen) {s : List Byte} (short : s.length + SFTY < BUFSIZE) (clean : 0 ∉ s)
    (plain : ∀ c ∈ s, sprtChar c = [c]) :
    ∃ a', strcpyAt 0 a 0 s = some a' ∧ DYNBUF.Holds ⟨some a', buflen⟩ s := by
  have place : 0 + s.length < a.length := by
    rw [h.length]
    omega
  obtain ⟨a', copied, length⟩ := strcpyAt_some 0 place
  exact ⟨a', copied, ⟨a', rfl, length.trans h.length, strcpyAt_str copied clean⟩, size, h.whole,
    h.int, Nat.lt_of_lt_of_le short size, plain⟩

/-- **A string elsewhere** is written whole if the buffer can grow as far. -/
theorem sprt_elsewhere (junk : Nat → Byte) {vs : Pointer} {st : Sprt} (sound : st.Sound)
    {s : List Byte} (clean : 0 ∉ s)
    (reads : ∀ u, sprtInto junk st.initialized (st.buf + 1) vs u st.next.buflen =
      (blit u 0 [0]).bind fun a =>
        sprtLoop junk s a st.next.buflen 0 (st.next.buflen - SFTY)) :
    ((s.flatMap sprtChar).length < capacity st.next.buflen (st.next.buflen - SFTY) →
      ∃ st', sprt junk vs st = some st' ∧ Shows (s.flatMap sprtChar) st st') ∧
    (capacity st.next.buflen (st.next.buflen - SFTY) ≤ (s.flatMap sprtChar).length →
      sprt junk vs st = none) := by
  obtain ⟨a, u, buf, cleared, writing, size⟩ := next_empty sound
  obtain ⟨fits, full⟩ := sprtLoop_writes junk clean writing
  rw [List.nil_append] at fits full
  constructor
  · intro lt
    obtain ⟨a', buflen', b', bsfty', loop, more, writing'⟩ := fits lt
    apply shows_of_into sound buf _ (writing'.holds (size.trans more))
    rw [reads, cleared, Option.bind_some, loop]
  · intro ge
    have into : sprtInto junk st.initialized (st.buf + 1) vs a st.next.buflen = none := by
      rw [reads, cleared, Option.bind_some, full ge]
    unfold Sprt.next at buf into
    simp only [sprt, buf, into, Option.bind_some, Option.map_none]

/-- **A string in the buffer that is written**: gone if it is the whole, and
copied if it is a part further back. -/
theorem sprt_own (junk : Nat → Byte) {st : Sprt} (sound : st.Sound) {t : List Byte}
    (there : st.text (st.buf + 1) = some t) {k : Nat} (inside : k ≤ t.length) :
    ∃ st', sprt junk (.inside (st.buf + 1) k) st = some st' ∧
      Shows (if k = 0 then [] else t.drop k) st st' := by
  obtain ⟨a, u, buf, cleared, writing, size⟩ := next_empty sound
  obtain ⟨⟨a', buf', -, stored⟩, -, -, -, short, plain⟩ := text_holds sound there
  cases buf.symm.trans buf'
  change t.length + SFTY < st.next.buflen at short
  have into (r : Option (List Byte × Nat))
      (run : sprtOwn u.length u st.next.buflen k 0 (st.next.buflen - SFTY) = r) :
      sprtInto junk st.initialized (st.buf + 1) (.inside (st.buf + 1) k) a st.next.buflen = r := by
    rw [sprtInto, cleared, Option.bind_some]
    exact (if_pos rfl).trans run
  have long : t.length < u.length := by
    rw [writing.length]
    omega
  by_cases first : k = 0
  · subst first
    rw [if_pos rfl]
    have nul : u[0]? = some 0 := getElem?_end writing.stored
    obtain ⟨turns, more⟩ := Nat.exists_eq_succ_of_ne_zero (Nat.ne_zero_of_lt long)
    apply shows_of_into sound buf (into (some (u, st.next.buflen)) _) (writing.holds size)
    rw [more, sprtOwn, nul, Option.bind_some, if_neg (by simp)]
  · rw [if_neg first]
    have kept : u.drop k = a.drop k := blit_behind cleared (by simp; omega)
    have further : str 0 u k = some (t.drop k) := by
      have here := str_add stored inside
      rw [Nat.zero_add] at here
      rw [str, kept]
      exact here
    have plain' : ∀ c ∈ t.drop k, sprtChar c = [c] := fun c hc => plain c (List.mem_of_mem_drop hc)
    have fits : (t.drop k).length ≤ t.length := by
      rw [List.length_drop]
      omega
    obtain ⟨a', run, str'⟩ := sprtOwn_copies plain' writing (Nat.pos_of_ne_zero first) further
      (by omega) (Nat.lt_of_le_of_lt fits long)
    obtain ⟨-, t'', b', writing'⟩ := sprtOwn_writes writing run
    have same' := writing'.stored
    rw [str'] at same'
    cases same'
    exact shows_of_into sound buf (into _ run) (writing'.holds size)

/-- **Whatever it is called with**, a call that comes to its end shows a string in
the next buffer. -/
theorem sprt_sound {junk : Nat → Byte} {vs : Pointer} {st st' : Sprt} (sound : st.Sound)
    (call : sprt junk vs st = some st') : ∃ t, Shows t st st' := by
  obtain ⟨a, u, buf, cleared, writing, size⟩ := next_empty sound
  have shows {t : List Byte} (h : ∃ st', sprt junk vs st = some st' ∧ Shows t st st') :
      ∃ t, Shows t st st' := by
    obtain ⟨st'', call', shown⟩ := h
    rw [call] at call'
    cases call'
    exact ⟨t, shown⟩
  have written {s : List Byte} (clean : 0 ∉ s)
      (reads : ∀ u, sprtInto junk st.initialized (st.buf + 1) vs u st.next.buflen =
        (blit u 0 [0]).bind fun a =>
          sprtLoop junk s a st.next.buflen 0 (st.next.buflen - SFTY)) : ∃ t, Shows t st st' := by
    obtain ⟨fits, full⟩ := sprt_elsewhere junk sound clean reads
    by_cases lt : (s.flatMap sprtChar).length < capacity st.next.buflen (st.next.buflen - SFTY)
    · exact shows (fits lt)
    · rw [full (Nat.not_lt.1 lt)] at call
      cases call
  cases vs with
  | null =>
    obtain ⟨a', copied, holds⟩ := writing.copies size (s := text "null") (by decide) (by decide)
      (plain_of_all rfl)
    apply shows (shows_of_into sound buf _ holds)
    simp only [sprtInto, cleared, copied, Option.bind_some, Option.map_some]
  | badPtr =>
    obtain ⟨a', copied, holds⟩ := writing.copies size (s := text "bad-ptr") (by decide) (by decide)
      (plain_of_all rfl)
    apply shows (shows_of_into sound buf _ holds)
    simp only [sprtInto, cleared, copied, Option.bind_some, Option.map_some]
  | string s => exact written s.clean fun _ => rfl
  | inside i k =>
    have taken : ∃ r, sprtInto junk st.initialized (st.buf + 1) (.inside i k) a st.next.buflen =
        some r := by
      unfold Sprt.next at buf
      rw [sprt, buf, Option.bind_some] at call
      obtain ⟨r, into, -⟩ := Option.map_eq_some_iff.1 call
      exact ⟨r, into⟩
    obtain ⟨r, into⟩ := taken
    by_cases own : i = st.buf + 1
    · have run := into
      rw [sprtInto, cleared, Option.bind_some] at run
      obtain ⟨same, t, b, writing'⟩ := sprtOwn_writes writing ((if_pos own).symm.trans run)
      obtain ⟨a', buflen⟩ := r
      cases same
      exact shows (shows_of_into sound buf into (writing'.holds size))
    · have run := into
      rw [sprtInto, cleared, Option.bind_some] at run
      replace run := (if_neg own).symm.trans run
      obtain ⟨s, read, -⟩ := Option.bind_eq_some_iff.1 run
      obtain ⟨a', -, str'⟩ := Option.bind_eq_some_iff.1 read
      refine written (str_eq_some.1 str').1 fun w => ?_
      rw [sprtInto]
      apply congrArg _ (funext fun a => ?_)
      dsimp only
      rw [if_neg own, read, Option.bind_some]

/-! ## Visible characters -/

/-- A byte in visible characters. -/
def caret (c : Byte) : List Byte :=
  if c = 127 then [94, 63]
  else if c < 32 then [94, c + 64]
  else if c ≥ 128 then 126 :: decimal c.toNat
  else [c]

def visible (c : Byte) : Bool := 32 ≤ c && c ≤ 126

theorem visible_iff {c : Byte} : visible c ↔ 32 ≤ c.toNat ∧ c.toNat ≤ 126 := by
  simp [visible, UInt8.le_iff_toNat_le]

theorem caret_visible (c : Byte) : ∀ d ∈ caret c, visible d := by
  unfold caret
  split
  · exact List.forall_mem_cons.2 ⟨by decide, List.forall_mem_singleton.2 (by decide)⟩
  split
  · rename_i low
    rw [UInt8.lt_iff_toNat_lt] at low
    change c.toNat < 32 at low
    have letter : (c + 64).toNat = c.toNat + 64 := by
      rw [UInt8.toNat_add]
      exact Nat.mod_eq_of_lt (by change c.toNat + 64 < 256; omega)
    intro d hd
    simp only [List.mem_cons, List.not_mem_nil, or_false] at hd
    obtain rfl | rfl := hd
    · decide
    · rw [visible_iff]
      omega
  split
  · intro d hd
    obtain rfl | digit := List.mem_cons.1 hd
    · decide
    · rw [visible_iff]
      have := Ssl.isdigit_iff.1 (decimal_isdigit digit)
      omega
  · rename_i delete low high
    intro d hd
    obtain rfl := List.mem_singleton.1 hd
    rw [visible_iff]
    rw [UInt8.lt_iff_toNat_lt] at low
    rw [ge_iff_le, UInt8.le_iff_toNat_le] at high
    have delete' : d.toNat ≠ 127 := fun eq => delete (UInt8.toNat_inj.1 eq)
    change ¬ d.toNat < 32 at low
    change ¬ 128 ≤ d.toNat at high
    omega

/-- The two control characters that are not made visible. -/
theorem sprtChar_eq_caret {c : Byte} (unit : c ≠ 31) (delete : c ≠ 127) : sprtChar c = caret c := by
  by_cases high : c ≥ 128
  · rw [(sprtChar_high high).1, caret, if_neg delete, if_neg, if_pos high]
    rw [UInt8.lt_iff_toNat_lt]
    exact fun small => absurd ((UInt8.le_iff_toNat_le.1 high).trans small.le) (by decide)
  · have same : c < 31 ↔ c < 32 := by
      rw [UInt8.lt_iff_toNat_lt, UInt8.lt_iff_toNat_lt]
      change c.toNat < 31 ↔ c.toNat < 32
      have unit' : c.toNat ≠ 31 := fun eq => unit (UInt8.toNat_inj.1 eq)
      omega
    rw [sprtChar, caret, if_neg delete, if_neg high, if_neg high]
    simp only [same]

/-- **The strings that are made visible**: those without 31 and 127. -/
theorem shown_iff (v : List Byte) :
    (v.flatMap sprtChar = v.flatMap caret ∧ ∀ c ∈ v.flatMap sprtChar, visible c) ↔
      31 ∉ v ∧ 127 ∉ v := by
  constructor
  · rintro ⟨-, all⟩
    have shown {c : Byte} (itself : sprtChar c = [c]) (hidden : visible c = false) : c ∉ v := by
      intro there
      have := all c (List.mem_flatMap.2 ⟨c, there, by simp [itself]⟩)
      rw [hidden] at this
      cases this
    exact ⟨shown rfl rfl, shown rfl rfl⟩
  · rintro ⟨unit, delete⟩
    have same : v.flatMap sprtChar = v.flatMap caret :=
      List.flatMap_congr fun c hc =>
        sprtChar_eq_caret (ne_of_mem_of_not_mem hc unit) (ne_of_mem_of_not_mem hc delete)
    refine ⟨same, fun c hc => ?_⟩
    rw [same] at hc
    obtain ⟨d, -, hd⟩ := List.mem_flatMap.1 hc
    exact caret_visible d c hd

/-- There is room for the string in visible characters: the buffer grows to
2^31 - 256 bytes, and has room for 2^31 - 512 of them, or for 20 fewer than it
has bytes if it is as long as that already. -/
def Sprt.Room (st : Sprt) (v : List Byte) : Prop :=
  (v.flatMap caret).length < capacity st.next.buflen (st.next.buflen - SFTY)

section
variable {st : Sprt} {vs : Pointer} {v : List Byte}

theorem points_clean (sound : st.Sound) (points : vs.points st = some v) : 0 ∉ v := by
  cases vs with
  | null => cases points
  | badPtr => cases points
  | string s =>
    cases points
    exact s.clean
  | inside i k =>
    obtain ⟨t, there, points⟩ := Option.bind_eq_some_iff.1 points
    obtain ⟨a, -, -, stored⟩ := (text_holds sound there).stored
    split at points
    · cases points
      exact fun m => (str_eq_some.1 stored).1 (List.mem_of_mem_drop m)
    · cases points

/-- A string that is not the whole of the buffer that is written. -/
theorem sprt_points (junk : Nat → Byte) (sound : st.Sound) (points : vs.points st = some v)
    (apart : vs ≠ .inside (st.buf + 1) 0) :
    ((v.flatMap sprtChar).length < capacity st.next.buflen (st.next.buflen - SFTY) →
      ∃ st', sprt junk vs st = some st' ∧ Shows (v.flatMap sprtChar) st st') ∧
    (capacity st.next.buflen (st.next.buflen - SFTY) ≤ (v.flatMap sprtChar).length →
      sprt junk vs st = none) := by
  have clean := points_clean sound points
  cases vs with
  | null => cases points
  | badPtr => cases points
  | string s =>
    cases points
    exact sprt_elsewhere junk sound clean fun _ => rfl
  | inside i k =>
    obtain ⟨t, there, points⟩ := Option.bind_eq_some_iff.1 points
    split at points
    · rename_i inside
      cases points
      obtain ⟨⟨a, buf, -, stored⟩, -, -, -, short, plain⟩ := text_holds sound there
      by_cases own : i = st.buf + 1
      · subst own
        have further : k ≠ 0 := by
          rintro rfl
          exact apart rfl
        have same : (t.drop k).flatMap sprtChar = t.drop k := by
          rw [List.flatMap_congr fun c hc => plain c (List.mem_of_mem_drop hc),
            List.flatMap_singleton']
        obtain ⟨st', call, shows⟩ := sprt_own junk sound there inside
        rw [if_neg further] at shows
        rw [same]
        refine ⟨fun _ => ⟨st', call, shows⟩, fun full => ?_⟩
        obtain ⟨_, u, -, -, writing, -⟩ := next_empty sound
        have fits := writing.le_capacity
        change t.length + SFTY < st.next.buflen at short
        rw [List.length_drop] at full
        omega
      · apply sprt_elsewhere junk sound clean
        intro u
        have read : ((st.initialized i).buf.bind fun a' => str 0 a' k) = some (t.drop k) := by
          rw [buf, Option.bind_some]
          have here := str_add stored inside
          rwa [Nat.zero_add] at here
        rw [sprtInto]
        apply congrArg _ (funext fun a => ?_)
        dsimp only
        rw [if_neg own, read, Option.bind_some]
    · cases points

end

/-! ## Sequences of calls -/

/-- The static variables, and the results so far, the last one first: which
buffer each of them is in, and what it was. -/
structure Shown where
  st : Sprt
  results : List (Fin 5 × List Byte)

def Shown.start : Shown := ⟨.start, []⟩

/-- A call, with what is in the memory that it allocates. -/
def sprtStep (s : Shown) (c : (Nat → Byte) × Pointer) : Option Shown :=
  (sprt c.1 c.2 s.st).bind fun st => (st.text st.buf).map fun t => ⟨st, (st.buf, t) :: s.results⟩

/-- The last five results are in the five buffers. -/
structure Shown.Kept (s : Shown) : Prop where
  sound : s.st.Sound
  results : ∀ k < 5, ∀ r ∈ s.results[k]?, (r.1.val + k) % 5 = s.st.buf.val ∧ s.st.text r.1 = some r.2

theorem start_kept : Shown.start.Kept := ⟨.inl fun _ => rfl, fun _ _ _ no => nomatch no⟩

/-- What a call adds to the results, and which of them stay as they are. -/
structure Adds (t : List Byte) (s s' : Shown) : Prop where
  results : s'.results = (s'.st.buf, t) :: s.results
  text : s'.st.text s'.st.buf = some t
  others : ∀ r ∈ s.results.take 4, s'.st.text r.1 = some r.2

/-- Four buffers stay as they are. -/
theorem shows_kept {s : Shown} (kept : s.Kept) {c : (Nat → Byte) × Pointer} {st : Sprt}
    {t : List Byte} (call : sprt c.1 c.2 s.st = some st) (shows : Shows t s.st st) :
    ∃ s', sprtStep s c = some s' ∧ s'.Kept ∧ Adds t s s' := by
  have step : sprtStep s c = some ⟨st, (st.buf, t) :: s.results⟩ := by
    rw [sprtStep, call, Option.bind_some, shows.text, Option.map_some]
  have buf : st.buf.val = (s.st.buf.val + 1) % 5 := by
    rw [shows.buf]
    exact Fin.val_add ..
  have earlier (k : Nat) (last : k < 4) (r : Fin 5 × List Byte) (there : r ∈ s.results[k]?) :
      (r.1.val + (k + 1)) % 5 = st.buf.val ∧ st.text r.1 = some r.2 := by
    obtain ⟨place, text⟩ := kept.results k (by omega) r there
    have other : r.1 ≠ st.buf := by
      intro same
      have same := congrArg Fin.val same
      omega
    exact ⟨by omega, shows.others _ _ other text⟩
  refine ⟨_, step, ⟨shows.sound, fun k hk r there => ?_⟩, rfl, shows.text, fun r hr => ?_⟩
  · cases k with
    | zero =>
      cases there
      exact ⟨Nat.mod_eq_of_lt st.buf.isLt, shows.text⟩
    | succ k => exact earlier k (by omega) r there
  · obtain ⟨k, hk⟩ := List.mem_iff_getElem?.1 hr
    rw [List.getElem?_take] at hk
    split at hk
    · rename_i last
      exact (earlier k last r hk).2
    · cases hk

theorem run_kept {calls : List ((Nat → Byte) × Pointer)} {s s' : Shown} (kept : s.Kept)
    (run' : run sprtStep s calls = some s') : s'.Kept := by
  induction calls generalizing s with
  | nil =>
    cases run'
    exact kept
  | cons c calls ih =>
    obtain ⟨t, step, rest⟩ := Option.bind_eq_some_iff.1 run'
    obtain ⟨st, call, -⟩ := Option.bind_eq_some_iff.1 step
    obtain ⟨_, shows⟩ := sprt_sound kept.sound call
    obtain ⟨t', step', kept', -⟩ := shows_kept kept call shows
    rw [step] at step'
    cases step'
    exact ih kept' rest

/-- The call comes to its end without an access outside the buffer, adds the
string in visible characters to the results and leaves the four before. -/
def MakesVisible (before : Shown) (c : (Nat → Byte) × Pointer) (v : List Byte) : Prop :=
  ∃ after, sprtStep before c = some after ∧ Adds (v.flatMap caret) before after ∧
    ∀ ch ∈ v.flatMap caret, visible ch

/-- What has been added is what the call shows. -/
theorem makesVisible_iff {s : Shown} (kept : s.Kept) {c : (Nat → Byte) × Pointer} {t : List Byte}
    (h : ∃ st, sprt c.1 c.2 s.st = some st ∧ Shows t s.st st) (v : List Byte) :
    MakesVisible s c v ↔ t = v.flatMap caret ∧ ∀ ch ∈ t, visible ch := by
  obtain ⟨st, call, shows⟩ := h
  obtain ⟨s', step, -, adds⟩ := shows_kept kept call shows
  constructor
  · rintro ⟨after, step', adds', all⟩
    rw [step] at step'
    cases step'
    have same := adds.text
    rw [adds'.text] at same
    cases same
    exact ⟨rfl, all⟩
  · rintro ⟨rfl, all⟩
    exact ⟨s', step, adds, all⟩

/-- **`sprt` behind any other calls** makes a string visible exactly if neither
31 nor 127 is in it, there is room for it, and it is not in the buffer whose turn
it is, as the result of the fifth call before is. -/
theorem sprt_visible_iff {calls : List ((Nat → Byte) × Pointer)} {before : Shown}
    (run' : run sprtStep .start calls = some before) (junk : Nat → Byte) {vs : Pointer}
    {v : List Byte} (points : vs.points before.st = some v) :
    MakesVisible before (junk, vs) v ↔
      (31 ∉ v ∧ 127 ∉ v) ∧ before.st.Room v ∧ (vs = .inside (before.st.buf + 1) 0 → v = []) := by
  have kept := run_kept start_kept run'
  by_cases own : vs = .inside (before.st.buf + 1) 0
  · subst own
    rw [imp_iff_right rfl]
    obtain ⟨t, there, same⟩ := Option.bind_eq_some_iff.1 points
    cases same
    have gone := sprt_own junk kept.sound there (Nat.zero_le _)
    apply (makesVisible_iff (c := (junk, _)) kept gone t).trans
    constructor
    · rintro ⟨empty, -⟩
      have nothing : t = [] := by
        cases t with
        | nil => rfl
        | cons c t =>
          have some' : caret c ≠ [] := by
            unfold caret
            split_ifs <;> simp
          simp [some'] at empty
      subst nothing
      obtain ⟨_, u, -, -, writing, -⟩ := next_empty kept.sound
      exact ⟨by simp, writing.lt_capacity, rfl⟩
    · rintro ⟨-, -, empty⟩
      cases empty
      exact ⟨rfl, by simp⟩
  · rw [and_iff_left fun same => absurd same own]
    obtain ⟨fits, full⟩ := sprt_points junk kept.sound points own
    have lengths (h : 31 ∉ v ∧ 127 ∉ v) : v.flatMap sprtChar = v.flatMap caret :=
      ((shown_iff v).2 h).1
    by_cases room : (v.flatMap sprtChar).length <
        capacity before.st.next.buflen (before.st.next.buflen - SFTY)
    · apply (makesVisible_iff kept (fits room) v).trans
      apply (shown_iff v).trans
      refine ⟨fun plain => ⟨plain, ?_⟩, And.left⟩
      rw [Sprt.Room, ← lengths plain]
      exact room
    · apply iff_of_false
      · rintro ⟨after, step, -⟩
        rw [sprtStep, full (Nat.not_lt.1 room)] at step
        cases step
      · rintro ⟨plain, room'⟩
        rw [Sprt.Room, ← lengths plain] at room'
        exact room room'

/-- After `sprt` of an `a` and the character 1. -/
def afterOne : Shown :=
  (run sprtStep .start [(fun _ => 0, .string ⟨[97, 1], by decide⟩)]).getD .start

/-- Its result is made visible in its turn. -/
theorem sprt_visible_result :
    MakesVisible afterOne (fun _ => 0, .inside 0 0) [97, 94, 65] := by
  have ends : (run sprtStep .start [(fun _ => 0, .string ⟨[97, 1], by decide⟩)]).isSome := by
    decide +kernel
  obtain ⟨before, run'⟩ := Option.isSome_iff_exists.1 ends
  have same : before = afterOne := by rw [afterOne, run', Option.getD_some]
  rw [same] at run'
  have points : (Pointer.inside 0 0).points afterOne.st = some [97, 94, 65] := by decide +kernel
  apply (sprt_visible_iff run' (fun _ => 0) points).2
  refine ⟨by simp, ?_, ?_⟩
  · change _ < _
    decide +kernel
  · have turn : afterOne.st.buf + 1 = 1 := by decide +kernel
    rw [turn]
    nofun

/-- The string of the one character 31. -/
def unitString : CString := ⟨[31], by decide⟩

/-- It is shown as it is. -/
theorem sprt_unit : ¬ MakesVisible .start (fun _ => 0, .string unitString) [31] := by
  have points : (Pointer.string unitString).points Shown.start.st = some [31] := rfl
  have shows := (sprt_points (fun _ => 0) start_kept.sound points nofun).1 (by decide +kernel)
  intro visible
  obtain ⟨same, -⟩ := (makesVisible_iff (c := (fun _ => 0, .string unitString)) start_kept shows
    [31]).1 visible
  revert same
  decide

end UnixProgramming.Dbg
