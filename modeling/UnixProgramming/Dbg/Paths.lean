import UnixProgramming.Dbg.Basic
import UnixProgramming.Ssl.Paths

/-!
# The debugger's search of a path

The other copy of `fopenv`, with an upper-case mode for files that are not in
the current directory. It mends the path no more than the first.

* `fopenv_keeps`: when the two copies leave the environment as it was.
-/

namespace UnixProgramming.Dbg

open Ssl (Byte CString sep cstr followed cstr_of_str split_dir takeWhile_dir takeWhile_last
  followed_last followed_dir set_end set_sep)
open Heap.Chars

def CTRLBUF : Nat := 32

def isupper (c : Byte) : Bool := 65 ≤ c && c ≤ 90

/-- `for(s= brk= env; brk; s= brk + 1)`, with the environment's array and the
offset of `s` in it; `last` is the offset behind `endchar`. In front of the
array is the `=` of the environment. -/
def fopenvLoop (opens : List Byte → Bool) (filename : List Byte) :
    Nat → List Byte → Nat → Option (List Byte) × List Byte
  | 0, mem, _ => (none, mem)
  | turns + 1, mem, s =>
    let rest := cstr (mem.drop s)
    let brk := if sep ∈ rest then some (s + (rest.takeWhile (· ≠ sep)).length) else none
    let last := brk.getD (s + rest.length)
    let charhold := mem.getD last 0
    let mem := mem.set last 0
    let endchar := if last = 0 then 61 else mem.getD (last - 1) 0
    let file := cstr (mem.drop s) ++ if endchar = 47 then filename else 47 :: filename
    if opens file then (some file, mem)
    else
      let mem := mem.set last charhold
      match brk with
      | some brk => fopenvLoop opens filename turns mem (brk + 1)
      | none => (none, mem)

/-- `ctrlbuf`: the mode with its first letter in lower case. -/
def ctrlMode (ctrl : List Byte) : List Byte :=
  if isupper (ctrl.headD 0) then (ctrl.headD 0 + 32) :: ctrl.tail else ctrl

/-- `fopenv`; a mode that `ctrlbuf` does not hold has no result. -/
def fopenv (fopen : List Byte → List Byte → Bool) (filename ctrl : List Byte)
    (env : Option (List Byte)) : Option (Option (List Byte) × Option (List Byte)) :=
  if ctrl.length ≥ CTRLBUF then none
  else if (!isupper (ctrl.headD 0) || env.isNone) ∧ fopen filename (ctrlMode ctrl) then
    some (some filename, env)
  else
    match env with
    | none => some (none, none)
    | some mem =>
      let r := fopenvLoop (fopen · (ctrlMode ctrl)) filename (mem.length + 1) mem 0
      some (r.1, some r.2)

/-- A file in a directory; a `/` at the end of the directory's name is enough. -/
def inDir (filename dir : List Byte) : List Byte :=
  dir ++ if dir.getLast? = some 47 then filename else 47 :: filename

/-- `*endchar` is the last character of the directory, or that in front of it. -/
theorem endchar_eq {mem dir rest : List Byte} {s : Nat} (there : str 0 mem s = some (dir ++ rest))
    (front : s = 0 ∨ mem[s - 1]? = some sep) :
    (if s + dir.length = 0 then (61 : Byte) else
      (mem.set (s + dir.length) 0).getD (s + dir.length - 1) 0) = 47 ↔
      dir.getLast? = some 47 := by
  obtain rfl | ⟨dir, c, rfl⟩ := List.eq_nil_or_concat dir
  · refine iff_of_false ?_ (by simp)
    rw [List.length_nil, Nat.add_zero]
    split
    · decide
    · rename_i inside
      rw [List.getD_eq_getElem?_getD, List.getElem?_set_ne (by omega), front.resolve_left inside]
      decide
  · rw [List.concat_eq_append, List.append_assoc, List.singleton_append] at there
    rw [List.concat_eq_append, List.length_append, List.length_singleton, if_neg (by omega),
      List.getD_eq_getElem?_getD, List.getElem?_set_ne (by omega), ← Nat.add_assoc,
      Nat.add_sub_cancel, getElem?_inside there, Option.getD_some, List.getLast?_concat, Option.some_inj]

theorem file_eq {mem dir rest : List Byte} {s : Nat} (there : str 0 mem s = some (dir ++ rest))
    (front : s = 0 ∨ mem[s - 1]? = some sep) (filename : List Byte) :
    (dir ++ if (if s + dir.length = 0 then (61 : Byte) else
        (mem.set (s + dir.length) 0).getD (s + dir.length - 1) 0) = 47
      then filename else 47 :: filename) = inDir filename dir := by
  rw [inDir]
  simp only [endchar_eq there front]

/-- **The path is mended**, unless the file is in a directory that a separator follows. -/
theorem fopenvLoop_mends (opens : List Byte → Bool) (filename : List Byte) {turns : Nat}
    {mem r : List Byte} {s : Nat} (there : str 0 mem s = some r) (enough : r.length < turns)
    (front : s = 0 ∨ mem[s - 1]? = some sep) :
    (fopenvLoop opens filename turns mem s).2 = mem ↔
      ∀ dir ∈ followed r, ¬ opens (inDir filename dir) := by
  induction turns generalizing r s with
  | zero => omega
  | succ turns ih =>
    rw [fopenvLoop]
    obtain last | ⟨dir, rest, first, rfl⟩ := split_dir r
    · rw [followed_last last]
      refine iff_of_true ?_ (by simp)
      have charhold : mem.getD (s + r.length) 0 = 0 := by
        rw [List.getD_eq_getElem?_getD, getElem?_end there, Option.getD_some]
      simp only [cstr_of_str there, if_neg last, Option.getD_none, charhold, set_end there]
      rw [apply_ite Prod.snd, ite_self]
    · rw [followed_dir first, List.forall_mem_cons]
      have found : sep ∈ dir ++ sep :: rest := by simp
      have charhold : mem.getD (s + dir.length) 0 = sep := by
        rw [List.getD_eq_getElem?_getD, getElem?_inside there, Option.getD_some]
      simp only [cstr_of_str there, if_pos found, takeWhile_dir first, Option.getD_some, charhold,
        cstr_of_str (cut_str there), file_eq there front, set_back (getElem?_inside there)]
      split
      · rename_i found
        exact iff_of_false (set_sep there) fun none' => none'.1 found
      · rename_i missing
        have next := ih (str_behind there) (by simp at enough; omega) (.inr (getElem?_inside there))
        rw [next]
        exact (and_iff_right missing).symm

/-- **When `fopenv` leaves the path as it was.** In the first copy, exactly if the
file is in the current directory or in no directory that a separator follows;
in the debugger's copy too, for a mode that its buffer holds, where an
upper-case mode keeps it from looking into the current directory. -/
theorem fopenv_keeps (fopen : List Byte → List Byte → Bool) (filename ctrl : List Byte)
    (env : Option CString) :
    ((Ssl.fopenv fopen filename ctrl (env.map CString.array)).2 = env.map CString.array ↔
      fopen filename ctrl ∨
        ∀ path ∈ env, ∀ dir ∈ followed path.chars, ¬ fopen (dir ++ 47 :: filename) ctrl) ∧
    ((∃ file, fopenv fopen filename ctrl (env.map CString.array) =
        some (file, env.map CString.array)) ↔
      ctrl.length < CTRLBUF ∧
        ((!isupper (ctrl.headD 0) || env.isNone) ∧ fopen filename (ctrlMode ctrl) ∨
          ∀ path ∈ env, ∀ dir ∈ followed path.chars,
            ¬ fopen (inDir filename dir) (ctrlMode ctrl))) := by
  refine ⟨Ssl.fopenv_mends fopen filename ctrl env, ?_⟩
  unfold fopenv
  by_cases long : ctrl.length ≥ CTRLBUF
  · rw [if_pos long]
    refine iff_of_false (fun none' => nomatch none'.choose_spec) fun short => ?_
    exact absurd short.1 (by omega)
  rw [if_neg long, and_iff_right (Nat.not_le.1 long)]
  simp only [Option.isNone_map]
  by_cases here : (!isupper (ctrl.headD 0) || env.isNone) ∧ fopen filename (ctrlMode ctrl)
  · rw [if_pos here]
    exact iff_of_true ⟨_, rfl⟩ (.inl here)
  · rw [if_neg here, or_iff_right here]
    cases env with
    | none => simp
    | some path =>
      have enough : path.chars.length < path.array.length + 1 := by
        rw [CString.array, Ssl.withNul, List.length_append]
        exact Nat.lt_succ_of_le (Nat.le_add_right _ _)
      have mends := fopenvLoop_mends (fopen · (ctrlMode ctrl)) filename path.str enough (.inl rfl)
      simpa using mends

/-- The file `f` is in the directory `a` of the path `a:b`, which is `a` then. -/
theorem fopenv_cuts : (Ssl.fopenv (fun path _ => path == text "a/f") (text "f") (text "r")
      (some (text "a:b" ++ [0]))).2 = some (text "a" ++ 0 :: text "b" ++ [0]) ∧
    fopenv (fun path _ => path == text "a/f") (text "f") (text "r") (some (text "a:b" ++ [0])) =
      some (some (text "a/f"), some (text "a" ++ 0 :: text "b" ++ [0])) := by
  decide

end UnixProgramming.Dbg
