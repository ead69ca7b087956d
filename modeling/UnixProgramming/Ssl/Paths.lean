import UnixProgramming.Heap.Chars
import UnixProgramming.Ssl.Basic

/-!
# Searching the directories of a path

`fopenv` of the Socket library. The path is cut in place, in the environment,
and not mended where a file is found.

* `fopenvLoop_mends`: which path is searched, and what is left of it.
-/

namespace UnixProgramming.Ssl

open Heap.Chars

/-- `PATHSEP` and `MACHINE_SEP`, a `:`. -/
def sep : Byte := 58

/-- `while(*env)`, with the environment's array and the offset of `env` in it: the
file that is opened, and the array then. -/
def fopenvLoop (opens : List Byte → Bool) (filename : List Byte) :
    Nat → List Byte → Nat → Option (List Byte) × List Byte
  | 0, mem, _ => (none, mem)
  | turns + 1, mem, env =>
    let rest := cstr (mem.drop env)
    if rest = [] then (none, mem)
    else
      let s := env + (rest.takeWhile (· ≠ sep)).length
      let more := mem[s]? = some sep
      let mem := mem.set s 0
      let buf := cstr (mem.drop env) ++ 47 :: filename
      if opens buf then (some buf, mem)
      else if more then fopenvLoop opens filename turns (mem.set s sep) (s + 1)
      else fopenvLoop opens filename turns mem s

/-- `fopenv`, where `fopen` says what can be opened in which mode and `env` is
the array that `getenv` gives: the file, and the array then. -/
def fopenv (fopen : List Byte → List Byte → Bool) (filename ctrl : List Byte)
    (env : Option (List Byte)) : Option (List Byte) × Option (List Byte) :=
  if fopen filename ctrl then (some filename, env)
  else
    match env with
    | none => (none, none)
    | some mem =>
      let r := fopenvLoop (fopen · ctrl) filename (mem.length + 1) mem 0
      (r.1, some r.2)

theorem cstr_of_str {a s : List Byte} {i : Nat} (h : str 0 a i = some s) : cstr (a.drop i) = s := by
  obtain ⟨clean, rest, split'⟩ := str_eq_some.1 h
  rw [split', cstr_append_nul clean]

theorem CString.str (s : CString) : Heap.Chars.str 0 s.array 0 = some s.chars :=
  str_eq_some.2 ⟨s.clean, [], rfl⟩

/-- The first of several directories, or the only one. -/
theorem split_dir (r : List Byte) : sep ∉ r ∨ ∃ dir rest, sep ∉ dir ∧ r = dir ++ sep :: rest := by
  by_cases there : sep ∈ r
  · obtain ⟨dir, rest, rfl, first⟩ := List.eq_append_cons_of_mem there
    exact .inr ⟨dir, rest, first, rfl⟩
  · exact .inl there

theorem takeWhile_dir {dir rest : List Byte} (first : sep ∉ dir) :
    (dir ++ sep :: rest).takeWhile (· ≠ sep) = dir := by
  rw [List.takeWhile_append_of_pos fun c hc => by simpa using ne_of_mem_of_not_mem hc first]
  simp

theorem takeWhile_last {r : List Byte} (last : sep ∉ r) : r.takeWhile (· ≠ sep) = r :=
  List.takeWhile_eq_self_iff.2 fun c hc => by simpa using ne_of_mem_of_not_mem hc last

/-- The directories that a separator follows. -/
def followed (path : List Byte) : List (List Byte) := (path.splitOn sep).dropLast

theorem followed_last {r : List Byte} (last : sep ∉ r) : followed r = [] := by
  rw [followed, List.splitOn_eq_singleton last]
  rfl

theorem followed_dir {dir : List Byte} (first : sep ∉ dir) (rest : List Byte) :
    followed (dir ++ sep :: rest) = dir :: followed rest := by
  rw [followed, List.splitOn_append_cons_self_of_not_mem first,
    List.dropLast_cons_of_ne_nil (List.splitOn_ne_nil sep rest), followed]

theorem set_end {mem r : List Byte} {env : Nat} (there : str 0 mem env = some r) :
    mem.set (env + r.length) 0 = mem := by
  obtain ⟨inside, nul⟩ := List.getElem?_eq_some_iff.1 (getElem?_end there)
  rw [← nul, List.set_getElem_self]

theorem set_sep {mem dir rest : List Byte} {env : Nat}
    (there : str 0 mem env = some (dir ++ sep :: rest)) : mem.set (env + dir.length) 0 ≠ mem :=
  set_ne (getElem?_inside there) (by decide)

theorem fopenvLoop_end (opens : List Byte → Bool) (filename : List Byte) (turns : Nat)
    {mem : List Byte} {env : Nat} (there : str 0 mem env = some []) :
    fopenvLoop opens filename turns mem env = (none, mem) := by
  cases turns with
  | zero => rfl
  | succ turns => rw [fopenvLoop, cstr_of_str there, if_pos rfl]

/-- **The path is mended**, unless the file is in a directory that a separator follows. -/
theorem fopenvLoop_mends (opens : List Byte → Bool) (filename : List Byte) {turns : Nat}
    {mem r : List Byte} {env : Nat} (there : str 0 mem env = some r) (enough : r.length < turns) :
    (fopenvLoop opens filename turns mem env).2 = mem ↔
      ∀ dir ∈ followed r, ¬ opens (dir ++ 47 :: filename) := by
  induction turns generalizing r env with
  | zero => omega
  | succ turns ih =>
    obtain last | ⟨dir, rest, first, rfl⟩ := split_dir r
    · rw [followed_last last]
      refine iff_of_true ?_ (by simp)
      by_cases nothing : r = []
      · subst nothing
        rw [fopenvLoop_end _ _ _ there]
      have more : mem[env + r.length]? ≠ some sep := by
        rw [getElem?_end there]
        decide
      rw [fopenvLoop]
      simp only [cstr_of_str there, if_neg nothing, takeWhile_last last, set_end there, if_neg more]
      split
      · rfl
      · have behind := str_add there (n := r.length) le_rfl
        rw [List.drop_length] at behind
        rw [fopenvLoop_end _ _ _ behind]
    · rw [followed_dir first, List.forall_mem_cons]
      have dirs : dir ++ sep :: rest ≠ [] := by simp
      rw [fopenvLoop]
      simp only [cstr_of_str there, if_neg dirs, takeWhile_dir first, if_pos (getElem?_inside there),
        cstr_of_str (cut_str there), set_back (getElem?_inside there)]
      split
      · rename_i found
        exact iff_of_false (set_sep there) fun none' => none'.1 found
      · rename_i missing
        have next := ih (str_behind there) (by simp at enough; omega)
        rw [next]
        exact (and_iff_right missing).symm

/-- When `fopenv` leaves the environment as it was. -/
theorem fopenv_mends (fopen : List Byte → List Byte → Bool) (filename ctrl : List Byte)
    (env : Option CString) :
    (fopenv fopen filename ctrl (env.map CString.array)).2 = env.map CString.array ↔
      fopen filename ctrl ∨
        ∀ path ∈ env, ∀ dir ∈ followed path.chars, ¬ fopen (dir ++ 47 :: filename) ctrl := by
  unfold fopenv
  split
  · rename_i here
    exact iff_of_true rfl (.inl here)
  · rename_i elsewhere
    rw [or_iff_right elsewhere]
    cases env with
    | none => simp
    | some path =>
      have enough : path.chars.length < path.array.length + 1 := by
        rw [CString.array, withNul, List.length_append]
        exact Nat.lt_succ_of_le (Nat.le_add_right _ _)
      have mends := fopenvLoop_mends (fopen · ctrl) filename path.str enough
      simpa using mends

end UnixProgramming.Ssl
