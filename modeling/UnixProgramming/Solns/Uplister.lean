import Mathlib.Data.List.Infix
import UnixProgramming.Heap.Cursor
import UnixProgramming.Ssl.Basic

/-!
# Listing up to the root

`uplister.c`: the recursion that cuts the last name off `path` and never closes a
directory. `none` stands for a recursion that is deeper than it is given calls,
and for an access outside `path`.

- `UpLister_up`: from a directory below the root on, all of them in order;
- `UpLister_root`: what the root itself is listed as;
- `main_lists`: the current directories for which the listing is right.
-/

namespace UnixProgramming.Uplister

open Heap.Chars
open Cursor (bind_of str_get)
open Ssl (Byte)

def PATH_MAX : Nat := 4096

/-- `'/'` and `':'` -/
def slashChar : Byte := 47
def colon : Byte := 58

/-! ## The code -/

/-- What `d_type` says that the program tells apart. -/
inductive DType where
  | dir
  | fifo
  | lnk
  | reg
  | other
  deriving DecidableEq

structure Dirent where
  d_name : List Byte
  d_type : DType
  deriving DecidableEq

/-- What one call lists: the directory that it has opened, the line with its
name, and the lines with its entries. -/
structure Listing where
  dirname : List Byte
  header : List Byte
  files : List (List Byte)
  deriving DecidableEq

/-- `dirname`: it is `path`, or a string constant. -/
inductive Dirname where
  | path
  | root
  deriving DecidableEq

def indent (depth : Nat) : List Byte := (List.replicate depth [32, 32]).flatten

def mark : DType → List Byte
  | .dir => [47]
  | .fifo => [124]
  | .lnk => [64]
  | .reg => []
  | .other => [63]

/-- The loop over `readdir`. -/
def fileLines (depth : Nat) (dir : List Dirent) : List (List Byte) :=
  (dir.filter fun file => file.d_name ≠ [46] ∧ file.d_name ≠ [46, 46]).map fun file =>
    indent depth ++ file.d_name ++ mark file.d_type

/-- The offset of the last `c` in the string. -/
def strrchr (s : List Byte) (c : Byte) : Option Nat :=
  if c ∈ s then some (s.length - 1 - (s.reverse.takeWhile (· ≠ c)).length) else none

/-- The string that `dirname` points at. -/
def Dirname.str (path : List Byte) : Dirname → Option (List Byte)
  | .path => Heap.Chars.str 0 path 0
  | .root => some [slashChar]

/-- `UpLister(dirname,depth)`, where `opendir` says what is in a directory and
`fds` files can still be opened: what is listed, and whether it came back. -/
def UpLister (opendir : List Byte → Option (List Dirent)) :
    Nat → List Byte → Dirname → Nat → Nat → Option (List Listing × Bool)
  | 0, _, _, _, _ => none
  | _ + 1, _, _, _, 0 => some ([], false)
  | calls + 1, path, dirname, depth, fds + 1 => do
    let name ← dirname.str path
    match opendir name with
    | none => pure ([], false)
    | some dir => do
      let s ← str 0 path 0
      match strrchr s slashChar with
      | none => do
        -- show root, too
        let listing := ⟨name, indent (depth - 1) ++ [slashChar, colon], fileLines depth dir⟩
        pure ([listing], true)
      | some slash => do
        let header := indent (depth - 1) ++ s.drop (slash + 1) ++ [colon]
        let path ← blit path slash [0]
        let c ← path[0]?
        let (listings, back) ← UpLister opendir calls path (if c = 0 then .root else .path)
          (depth + 1) fds
        pure (⟨name, header, fileLines depth dir⟩ :: listings, back)

/-- `getcwd(path,PATH_MAX+1)`, in memory that begins as zeros. -/
def getcwd (cwd : List Byte) : Option (List Byte) :=
  if cwd.length < PATH_MAX + 1 then strcpyAt 0 (List.replicate (PATH_MAX + 1) 0) 0 cwd else none

def main (opendir : List Byte → Option (List Dirent)) (calls fds : Nat) (cwd : List Byte) :
    Option (List Listing × Bool) :=
  match getcwd cwd with
  | none => some ([], false)
  | some path => UpLister opendir calls path .path 0 fds

/-! ## Directories -/

structure Name where
  chars : List Byte
  some' : chars ≠ []
  clean : 0 ∉ chars
  flat : slashChar ∉ chars

/-- A directory by the names on its path from the root. -/
abbrev Dir := List Name

/-- The names, each behind a slash. -/
def chain (d : Dir) : List Byte := d.flatMap fun x => slashChar :: x.chars

def Dir.path (d : Dir) : List Byte := if d = [] then [slashChar] else chain d

/-- The name that a directory has. -/
def Dir.name (d : Dir) : List Byte :=
  match d.getLast? with
  | none => [slashChar]
  | some x => x.chars

/-- The directory and those above it, up to the root. -/
def Dir.up (d : Dir) : List Dir := d.inits.reverse

/-- What is to be listed for a directory. -/
def listing (files : Dir → List Dirent) (d : Dir) (depth : Nat) : Listing :=
  ⟨d.path, indent (depth - 1) ++ d.name ++ [colon], fileLines depth (files d)⟩

/-- Every directory on the path is readable, and these are the entries. -/
def Readable (opendir : List Byte → Option (List Dirent)) (files : Dir → List Dirent) (d : Dir) :
    Prop :=
  ∀ e ∈ d.up, opendir e.path = some (files e)

theorem up_nil : Dir.up [] = [[]] := rfl

theorem up_concat (d : Dir) (x : Name) : Dir.up (d ++ [x]) = (d ++ [x]) :: Dir.up d := by
  rw [Dir.up, List.inits_append, List.reverse_append]
  rfl

theorem up_length (d : Dir) : d.up.length = d.length + 1 := by
  rw [Dir.up, List.length_reverse, List.length_inits]

theorem chain_concat (d : Dir) (x : Name) : chain (d ++ [x]) = chain d ++ slashChar :: x.chars := by
  rw [chain, List.flatMap_append, List.flatMap_singleton]
  rfl

theorem chain_eq_nil {d : Dir} : chain d = [] ↔ d = [] := by
  cases d <;> simp [chain]

theorem chain_clean (d : Dir) : 0 ∉ chain d := by
  intro mem
  obtain ⟨x, -, there⟩ := List.mem_flatMap.1 mem
  rcases List.mem_cons.1 there with slash | inside
  · exact absurd slash (by decide)
  · exact x.clean inside

/-- The last name is behind the last slash. -/
theorem strrchr_concat (s : List Byte) {x : List Byte} (flat : slashChar ∉ x) :
    strrchr (s ++ slashChar :: x) slashChar = some s.length := by
  have behind : (s ++ slashChar :: x).reverse.takeWhile (· ≠ slashChar) = x.reverse := by
    rw [List.reverse_append, List.reverse_cons, List.append_assoc, List.takeWhile_append_of_pos]
    · simp
    · intro c mem
      simpa using ne_of_mem_of_not_mem (List.mem_reverse.1 mem) flat
  rw [strrchr, if_pos (by simp), behind]
  simp only [List.length_append, List.length_cons, List.length_reverse]
  congr 1
  omega

/-! ## The recursion -/

variable {opendir : List Byte → Option (List Dirent)} {files : Dir → List Dirent} {d : Dir}
  {calls depth fds : Nat} {path : List Byte}

theorem Readable.up {x : Name} (h : Readable opendir files (d ++ [x])) : Readable opendir files d :=
  fun e above => h e (by rw [up_concat]; exact List.mem_cons_of_mem _ above)

theorem Readable.here (h : Readable opendir files d) : opendir d.path = some (files d) :=
  h d (List.mem_reverse.2 ((List.mem_inits _ _).2 (List.prefix_refl d)))

/-- Where `path` is empty, the call for the root lists it and ends. -/
theorem UpLister_end {dirname : Dirname} {s : List Byte} {dir : List Dirent} (enough : 0 < calls)
    (none' : str 0 path 0 = some []) (name : dirname.str path = some s)
    (there : opendir s = some dir) :
    UpLister opendir calls path dirname depth (fds + 1) =
      some ([⟨s, indent (depth - 1) ++ [slashChar, colon], fileLines depth dir⟩], true) := by
  obtain ⟨calls, rfl⟩ := Nat.exists_eq_succ_of_ne_zero enough.ne'
  rw [UpLister, bind_of name, there]
  dsimp only
  rw [bind_of none']
  rfl

/-- Where there is a slash, the name behind it goes and the next call is for
what is left. -/
theorem UpLister_name (calls depth fds : Nat) {dirname : Dirname} {s t : List Byte}
    {dir : List Dirent} {x : List Byte} (flat : slashChar ∉ x)
    (here : str 0 path 0 = some (t ++ slashChar :: x)) (name : dirname.str path = some s)
    (there : opendir s = some dir) :
    ∃ path', str 0 path' 0 = some t ∧
      UpLister opendir (calls + 1) path dirname depth (fds + 1) =
        (UpLister opendir calls path' (if t = [] then .root else .path) (depth + 1) fds).map
          fun r => (⟨s, indent (depth - 1) ++ x ++ [colon], fileLines depth dir⟩ :: r.1, r.2) := by
  have inside := str_length_lt here
  rw [Nat.zero_add, List.length_append, List.length_cons] at inside
  have cut := cut_str here
  rw [Nat.zero_add] at cut
  have behind : (t ++ slashChar :: x).drop (t.length + 1) = x := by
    rw [List.drop_append, List.drop_of_length_le (by omega)]
    simp
  refine ⟨path.set t.length 0, cut, ?_⟩
  rw [UpLister, bind_of name, there]
  dsimp only
  rw [bind_of here, strrchr_concat t flat]
  dsimp only
  rw [bind_of (blit_one (by omega) 0), bind_of (str_get cut), behind]
  have first : (t.headD 0 = 0) ↔ t = [] := by
    have clean := (str_eq_some.1 cut).1
    cases t with
    | nil => exact iff_of_true rfl rfl
    | cons c t =>
      exact iff_of_false (fun nul => clean (List.mem_cons.2 (.inl nul.symm))) (List.cons_ne_nil c t)
  have arg : (if t.headD 0 = 0 then Dirname.root else .path) = if t = [] then .root else .path :=
    if_congr first rfl rfl
  rw [arg]
  cases UpLister opendir calls (path.set t.length 0) (if t = [] then .root else .path)
    (depth + 1) fds <;> rfl

/-- What the calls from here on list: each directory as it comes, for as long as
it can be opened. -/
def listings (files : Dir → List Dirent) (d : Dir) (depth fds : Nat) : List Listing :=
  ((d.up.zipIdx depth).take fds).map fun e => listing files e.1 e.2

/-- **From a directory on, the recursion lists it and all those above it**, and
comes back if each of them can be opened. -/
theorem UpLister_up (depth fds : Nat) (readable : Readable opendir files d)
    (here : str 0 path 0 = some (chain d)) (enough : d.length < calls) :
    UpLister opendir calls path (if d = [] then .root else .path) depth fds =
      some (listings files d depth fds, decide (d.length < fds)) := by
  induction d using List.reverseRecOn generalizing calls path depth fds with
  | nil =>
    obtain ⟨calls, rfl⟩ := Nat.exists_eq_succ_of_ne_zero enough.ne'
    rw [if_pos rfl]
    cases fds with
    | zero => rfl
    | succ fds =>
      have name : Dirname.root.str path = some (Dir.path []) := rfl
      rw [UpLister_end enough here name readable.here, listings]
      simp [Dir.up, listing, Dir.name]
  | append_singleton d x ih =>
    rw [List.length_append, List.length_singleton] at enough ⊢
    obtain ⟨calls, rfl⟩ := Nat.exists_eq_succ_of_ne_zero (Nat.ne_zero_of_lt enough)
    have below : d ++ [x] ≠ [] := by simp
    rw [if_neg below]
    cases fds with
    | zero => rfl
    | succ fds =>
      have name : Dirname.path.str path = some (Dir.path (d ++ [x])) := by
        rw [Dirname.str, here, Dir.path, if_neg below]
      rw [chain_concat] at here
      obtain ⟨path', here', step⟩ := UpLister_name calls depth fds x.flat here name readable.here
      have arg : (if chain d = [] then Dirname.root else .path) =
          if d = [] then .root else .path := by
        simp only [chain_eq_nil]
      rw [step, arg, ih _ _ readable.up here' (by omega), Option.map_some, listings, listings,
        up_concat, List.zipIdx_cons, List.take_succ_cons, List.map_cons, listing, Dir.name,
        List.getLast?_concat]
      simp

/-- **The root is listed twice**, once without a name. -/
theorem UpLister_root (readable : Readable opendir files [])
    (here : str 0 path 0 = some [slashChar]) (enough : 1 < calls) :
    UpLister opendir calls path .path 0 fds =
      some (([⟨[slashChar], [colon], fileLines 0 (files [])⟩, listing files [] 1]).take fds,
        decide (1 < fds)) := by
  obtain ⟨calls, rfl⟩ := Nat.exists_eq_succ_of_ne_zero (Nat.ne_zero_of_lt enough)
  have more : ([] : Dir).length < calls := Nat.lt_of_succ_lt_succ enough
  cases fds with
  | zero => rfl
  | succ fds =>
    have there : opendir [slashChar] = some (files []) := readable.here
    have name : Dirname.path.str path = some [slashChar] := here
    obtain ⟨path', here', step⟩ := UpLister_name calls 0 fds (x := []) (t := []) List.not_mem_nil
      here name there
    have above := UpLister_up 1 fds readable here' more
    rw [if_pos rfl] at above step
    rw [step, above, listings]
    cases fds <;> simp [Dir.up, indent]

/-! ## The program -/

/-- What is to be listed from a directory on. -/
def right (files : Dir → List Dirent) (d : Dir) : List Listing :=
  d.up.zipIdx.map fun e => listing files e.1 e.2

theorem path_clean (d : Dir) : 0 ∉ d.path := by
  rw [Dir.path]
  split
  · decide
  · exact chain_clean d

theorem getcwd_some (short : d.path.length ≤ PATH_MAX) :
    ∃ path, getcwd d.path = some path ∧ str 0 path 0 = some d.path := by
  obtain ⟨path, stored, -⟩ := strcpyAt_some (a := List.replicate (PATH_MAX + 1) 0) (i := 0)
    (s := d.path) 0 (by rw [List.length_replicate]; omega)
  exact ⟨path, by rw [getcwd, if_pos (Nat.lt_succ_of_le short), stored],
    strcpyAt_str stored (path_clean d)⟩

theorem main_root (readable : Readable opendir files []) (enough : 1 < calls) :
    main opendir calls fds (Dir.path []) =
      some (([⟨[slashChar], [colon], fileLines 0 (files [])⟩, listing files [] 1]).take fds,
        decide (1 < fds)) := by
  obtain ⟨path, got, here⟩ := getcwd_some (d := []) (by decide)
  rw [main, got]
  exact UpLister_root readable here enough

theorem main_below (readable : Readable opendir files d) (below : d ≠ [])
    (short : d.path.length ≤ PATH_MAX) (enough : d.length < calls) :
    main opendir calls fds d.path = some (listings files d 0 fds, decide (d.length < fds)) := by
  obtain ⟨path, got, here⟩ := getcwd_some short
  rw [Dir.path, if_neg below] at here
  have from' := UpLister_up 0 fds readable here enough
  rw [if_neg below] at from'
  rw [main, got]
  exact from'

/-- **Which directories are listed right**: with as many calls as there are
directories and one more the program always ends. -/
theorem main_lists (readable : Readable opendir files d) (fds : Nat) :
    ∃ r, (∀ calls > d.length + 1, main opendir calls fds d.path = some r) ∧
      (r = (right files d, true) ↔ d ≠ [] ∧ d.path.length ≤ PATH_MAX ∧ d.length < fds) := by
  by_cases root : d = []
  · subst root
    refine ⟨_, fun calls enough => main_root readable enough, ?_⟩
    refine iff_of_false (fun same => ?_) (fun h => h.1 rfl)
    have listed := congrArg Prod.fst same
    match fds with
    | 0 => cases listed
    | 1 =>
      have header := congrArg (fun l : List Listing => l.map (·.header)) listed
      simp [right, Dir.up, listing, Dir.name, indent] at header
    | fds + 2 => exact absurd (congrArg List.length listed) (by simp [right, Dir.up])
  by_cases short : d.path.length ≤ PATH_MAX
  · refine ⟨_, fun calls enough => main_below readable root short (by omega), ?_⟩
    by_cases opens : d.length < fds
    · refine iff_of_true ?_ ⟨root, short, opens⟩
      rw [listings, List.take_of_length_le (by rw [List.length_zipIdx, up_length]; omega),
        decide_eq_true opens]
      rfl
    · refine iff_of_false (fun same => ?_) fun h => opens h.2.2
      have back := congrArg Prod.snd same
      exact opens (of_decide_eq_true back)
  · refine ⟨([], false), fun calls _ => ?_, iff_of_false (fun same => ?_) fun h => short h.2.1⟩
    · have long : getcwd d.path = none := by
        rw [getcwd, if_neg (by omega)]
      rw [main, long]
    · cases congrArg Prod.snd same

/-- A root that is empty. -/
def bare (s : List Byte) : Option (List Dirent) := if s = [slashChar] then some [] else none

/-- From the root, there is one listing without a name and a second with it. -/
theorem main_root_twice :
    main bare 3 10 (Dir.path []) =
        some ([⟨[slashChar], [colon], []⟩, ⟨[slashChar], [slashChar, colon], []⟩], true) ∧
      right (fun _ => []) [] = [⟨[slashChar], [slashChar, colon], []⟩] := by
  refine ⟨?_, rfl⟩
  have readable : Readable bare (fun _ => []) [] := by simp [Readable, up_nil, Dir.path, bare]
  exact main_root readable (by decide)

/-- A directory with one name. -/
def aDir : Dir := [⟨[97], by decide, by decide, by decide⟩]

theorem main_lists_one :
    ∃ r, (∀ calls > 2, main (fun _ => some []) calls 10 aDir.path = some r) ∧
      r = (right (fun _ => []) aDir, true) := by
  have readable : Readable (fun _ => some []) (fun _ => []) aDir := fun _ _ => rfl
  obtain ⟨r, ends, iff⟩ := main_lists readable 10
  exact ⟨r, ends, iff.2 (by decide)⟩

end UnixProgramming.Uplister
