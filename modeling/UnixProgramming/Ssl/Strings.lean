import UnixProgramming.Ssl.Sockio

/-!
# Strings over a Socket

`Sputs` calls on one side, `Sgets` calls with one buffer on the other. `Sgets`
leaves two of the `maxbuf` bytes of its buffer unused where one is needed for
the NUL, and a string that fills the rest is taken off the stream without its
NUL.

* `sgetsCalls`: the strings come back for as long as they are shorter;
* `sgets_undoes_sputs`: and only then.
-/

namespace UnixProgramming.Ssl

open Pipe

/-! ## The calls -/

def sputsCalls : List (List Byte) → Proc Unit
  | [] => .ret ()
  | s :: strs => do
    sputs s
    sputsCalls strs

/-- `n` calls of `Sgets` with one buffer: what each call returns, a string or a
null pointer. -/
def sgetsCalls (spins maxbuf : Nat) : Nat → List Byte → Proc (List (Option (List Byte)))
  | 0, _ => .ret []
  | n + 1, buf => do
    let (ok, buf) ← sgets spins buf maxbuf
    let more ← sgetsCalls spins maxbuf n buf
    return (if ok then some (cstr buf) else none) :: more

/-- The bytes that the calls of `Sputs` send. -/
def sentStrings (strs : List (List Byte)) : List Byte :=
  (exec (sputsCalls strs) ⟨[], .silent, []⟩).wrote.flatten

@[simp] theorem sentStrings_nil : sentStrings [] = [] := rfl

@[simp] theorem sentStrings_cons (s : List Byte) (strs : List (List Byte)) :
    sentStrings (s :: strs) = withNul s ++ sentStrings strs := rfl

/-- The run that the two sides are to agree on: the strings as they were, and
each call has consumed its string and the NUL behind it. -/
def Undone (strs : List (List Byte)) (rest : List Byte) (ending : Ending)
    (r : Outcome Byte Note (List (Option (List Byte)))) : Prop :=
  ∃ ticks, r = ⟨[], strs.map fun s => .read (withNul s),
    .done (strs.map some) ⟨rest, ending, ticks⟩⟩

/-! ## One call -/

section
variable (spins : Nat) {maxbuf : Nat} {buf s : List Byte} (ending : Ending) (ticks : List Nat)

/-- A string that leaves a third byte of the buffer free is read with its NUL. -/
theorem exec_sgets_whole (noNul : 0 ∉ s) (short : s.length + 2 < maxbuf)
    (size : buf.length = maxbuf) (rest : List Byte) : ∃ buf' ticks', buf'.length = maxbuf ∧
      cstr buf' = s ∧ exec (sgets spins buf maxbuf) ⟨withNul s ++ rest, ending, ticks⟩ =
        ⟨[], [.read (withNul s)], .done (true, buf') ⟨rest, ending, ticks'⟩⟩ := by
  have field : Field (maxbuf - 2) s [0] := ⟨noNul, .inl ⟨by omega, rfl⟩⟩
  obtain ⟨⟨ok, buf'⟩, ticks', ⟨rfl, same, size'⟩, -, run⟩ :=
    exec_reads (reads_sgets spins field (by omega) size) (untimed_sgets ..) rest ending ticks
  exact ⟨buf', ticks', size', same, run⟩

/-- Of a longer one the call takes what fills the buffer as it counts it, and
never the NUL. -/
theorem exec_sgets_part (noNul : 0 ∉ s) (long : maxbuf ≤ s.length + 2) (two : 2 ≤ maxbuf)
    (size : buf.length = maxbuf) (rest : List Byte) : ∃ buf' w',
      exec (sgets spins buf maxbuf) ⟨withNul s ++ rest, ending, ticks⟩ =
        ⟨[], [.read (s.take (maxbuf - 2))], .done (true, buf') w'⟩ := by
  by_cases room : maxbuf = 2
  · subst room
    exact ⟨_, _, rfl⟩
  · have field : Field (maxbuf - 2) (s.take (maxbuf - 2)) [] :=
      ⟨fun h => noNul (List.mem_of_mem_take h), .inr ⟨by rw [List.length_take]; omega, rfl⟩⟩
    obtain ⟨⟨ok, buf'⟩, ticks', ⟨rfl, -⟩, -, run⟩ :=
      exec_reads (reads_sgets spins field (by omega) size) (untimed_sgets ..)
        (s.drop (maxbuf - 2) ++ 0 :: rest) ending ticks
    have unread : withNul s ++ rest =
        s.take (maxbuf - 2) ++ [] ++ (s.drop (maxbuf - 2) ++ 0 :: rest) := by
      rw [List.append_nil, ← List.append_assoc, List.take_append_drop, withNul,
        List.append_assoc, List.singleton_append]
    rw [List.append_nil] at run
    exact ⟨buf', _, by rw [unread, List.append_nil]; exact run⟩

end

/-! ## All calls -/

/-- After a call that gave its string, all depends on the calls that follow. -/
theorem undone_cons {s rest : List Byte} {strs : List (List Byte)} {ending : Ending}
    (p : Proc (List (Option (List Byte)))) (w : Wire Byte) :
    Undone (s :: strs) rest ending ((exec (p >>= fun more => .ret (some s :: more)) w).after []
      [.read (withNul s)]) ↔ Undone strs rest ending (exec p w) := by
  rw [exec_bind]
  generalize exec p w = r
  obtain ⟨wrote, notes, fate⟩ := r
  cases fate <;> simp [Undone, Outcome.after]

/-- **`Sgets` undoes `Sputs` where three bytes of the buffer stay free**, and
in no other case, whatever the buffer held and however the stream is cut. -/
theorem sgets_undoes_sputs (spins : Nat) {maxbuf : Nat} (two : 2 ≤ maxbuf)
    (strs : List (List Byte)) (noNul : ∀ s ∈ strs, 0 ∉ s) (buf : List Byte)
    (size : buf.length = maxbuf) (rest : List Byte) (ending : Ending) (ticks : List Nat) :
    Undone strs rest ending
        (exec (sgetsCalls spins maxbuf strs.length buf) ⟨sentStrings strs ++ rest, ending, ticks⟩) ↔
      ∀ s ∈ strs, s.length + 2 < maxbuf := by
  induction strs generalizing buf ticks with
  | nil => exact ⟨fun _ s hs => absurd hs List.not_mem_nil, fun _ => ⟨ticks, rfl⟩⟩
  | cons s strs ih =>
    have plain := noNul s List.mem_cons_self
    have unread : sentStrings (s :: strs) ++ rest = withNul s ++ (sentStrings strs ++ rest) := by simp
    rw [List.length_cons, sgetsCalls, unread, List.forall_mem_cons]
    by_cases short : s.length + 2 < maxbuf
    · obtain ⟨buf', ticks', size', same, run⟩ :=
        exec_sgets_whole spins ending ticks plain short size (sentStrings strs ++ rest)
      rw [exec_bind_done run, and_iff_right short,
        ← ih (fun t ht => noNul t (.tail _ ht)) buf' size' ticks', ← undone_cons (s := s)]
      simp only [if_true, same]
      rfl
    · -- the first mark of the run is not the one of the string and its NUL
      obtain ⟨buf', w', run⟩ :=
        exec_sgets_part spins ending ticks plain (by omega) two size (sentStrings strs ++ rest)
      rw [exec_bind_done run]
      refine iff_of_false ?_ fun all => short all.1
      rintro ⟨ticks', same⟩
      have marks := congrArg Outcome.notes same
      simp only [Outcome.after_notes, List.map_cons, List.singleton_append, List.cons.injEq,
        Note.read.injEq] at marks
      have lengths := congrArg List.length marks.1
      simp only [withNul, List.length_take, List.length_append, List.length_singleton] at lengths
      omega

theorem sgets_undoes_sputs_ls : Undone [[108, 115], []] [7] .closed
    (exec (sgetsCalls 0 5 2 [1, 2, 3, 4, 5]) ⟨[108, 115, 0, 0, 7], .closed, [1, 1, 1, 2]⟩) :=
  (sgets_undoes_sputs 0 (by decide) [[108, 115], []] (by decide) [1, 2, 3, 4, 5] rfl [7] .closed
    [1, 1, 1, 2]).2 (by decide)

/-- A string of two characters fits a buffer of four bytes with its NUL. Its
NUL stays behind and is the next string. -/
theorem sgets_leaves_nul : (∀ s ∈ [[108, 115], [97]], (0 : Byte) ∉ s ∧ s.length + 1 ≤ 4) ∧
    (exec (sgetsCalls 0 4 2 [0, 0, 0, 0])
      ⟨sentStrings [[108, 115], [97]] ++ [], .closed, []⟩).fate.value =
        some [some [108, 115], some []] ∧
    ¬ Undone [[108, 115], [97]] [] .closed
      (exec (sgetsCalls 0 4 2 [0, 0, 0, 0]) ⟨sentStrings [[108, 115], [97]] ++ [], .closed, []⟩) := by
  refine ⟨by decide, by decide, ?_⟩
  rintro ⟨ticks, same⟩
  exact absurd (congrArg (·.fate.value) same) (by simp only [Fate.value]; decide)

end UnixProgramming.Ssl
