import Mathlib.Logic.Function.Basic
import UnixProgramming.Ssl.Caller
import UnixProgramming.Ssl.Paths

/-!
# Searching machines for a server

`Sopenv` cuts its `sktname` and a variable of the environment in place.

* `machines`: the machines that a variable names;
* `Searches`: what a search is, and the spec of `sopenv`;
* `sopenvLoop_answered`: what one pass over the variable tries and leaves.
-/

namespace UnixProgramming.Ssl

open Heap.Chars

/-- `BUFSIZE` of `Sopenv.c`. -/
def sopenvBuf : Nat := 256

/-- `"SKTPATH"` -/
def sktpath : List Byte := [83, 75, 84, 80, 65, 84, 72]

/-- `"PMSHARE"` -/
def pmshareVar : List Byte := [80, 77, 83, 72, 65, 82, 69]

/-- The arrays that `getenv` gives. -/
abbrev Environ := List Byte → Option (List Byte)

/-- An environment of strings. -/
def Environ.holding (vars : List Byte → Option CString) : Environ :=
  fun v => (vars v).map CString.array

/-- What the library asks its machine, when the environment is this. -/
def Environ.machine (environ : Environ) (hostname : List Byte) : Machine :=
  ⟨hostname, (environ pmshareVar).map cstr⟩

/-- What `Sopenv` returns and leaves behind, and as a ghost its calls of `Sopen`. -/
structure Searched where
  skt : Option Socket
  sktname : List Byte
  environ : Environ
  tries : List (List Byte × Option Socket)

/-- `while(*env)`, with the variable's array and the offset of `env` in it: the
Socket, the array then, and the calls of `Sopen`. -/
def sopenvLoop (f : Frame) (hostname sktname ctrl : List Byte) (environ : Environ)
    (envVar : List Byte) :
    Nat → List Byte → Nat → Script (Option Socket × List Byte × List (List Byte × Option Socket))
  | 0, mem, _ => .ret (none, mem, [])
  | turns + 1, mem, env =>
    let rest := cstr (mem.drop env)
    if rest = [] then .ret (none, mem, [])
    else
      let s := env + (rest.takeWhile (· ≠ sep)).length
      let more := mem[s]? = some sep
      let cut := mem.set s 0
      let buf := cstr sktname ++ 64 :: cstr (cut.drop env)
      if sopenvBuf ≤ buf.length then .fault
      else
        let m := Environ.machine (Function.update environ envVar (some cut)) hostname
        (sopenSktname f m (withNul buf) ctrl).bind fun r =>
          let mem := if more then cut.set s sep else cut
          match r.1 with
          | some skt => .ret (some skt, mem, [(buf, some skt)])
          | none =>
            (sopenvLoop f hostname sktname ctrl environ envVar turns mem
              (if more then s + 1 else s)).bind fun l => .ret (l.1, l.2.1, (buf, none) :: l.2.2)

/-- `if(at) *at= '@';` -/
def mendAt (at? : Option Nat) (sktname : List Byte) : List Byte :=
  match at? with
  | none => sktname
  | some i => sktname.set i 64

/-- `if(!env_var || !*env_var) env_var= "SKTPATH";` -/
def envVarOf (envVar : Option (List Byte)) : List Byte :=
  match envVar with
  | none => sktpath
  | some v => if cstr v = [] then sktpath else cstr v

def sopenv (f : Frame) (hostname sktname ctrl : List Byte) (envVar : Option (List Byte))
    (environ : Environ) : Script Searched :=
  (sopenSktname f (environ.machine hostname) sktname ctrl).bind fun r =>
    let tried := (cstr sktname, r.1)
    if r.1.isSome ∨ cstr ctrl = [115] ∨ cstr ctrl = [83] then .ret ⟨r.1, r.2, environ, [tried]⟩
    else
      let at? := strchrAt r.2
      let sktname := cutAt r.2
      match environ (envVarOf envVar) with
      | none => .ret ⟨none, mendAt at? sktname, environ, [tried]⟩
      | some mem =>
        (sopenvLoop f hostname sktname ctrl environ (envVarOf envVar) (mem.length + 1) mem 0).bind
          fun l => .ret ⟨l.1, mendAt at? sktname,
            Function.update environ (envVarOf envVar) (some l.2.1), tried :: l.2.2⟩

/-! ## The search -/

/-- The machines that a variable names: no trailing empty one. -/
def machines (path : List Byte) : List (List Byte) :=
  if (path.splitOn sep).getLast? = some [] then followed path else path.splitOn sep

/-- What is tried in turn: the `sktname`, and its name at each of the machines. -/
def candidates (sktname : CString) (path : Option CString) : List (List Byte) :=
  sktname.chars :: ((path.map fun path => machines path.chars).getD []).map fun machine =>
    sktname.chars.takeWhile (· ≠ 64) ++ 64 :: machine

/-- **A search**: each candidate in turn, until the first that opens. -/
inductive Searches : List (List Byte) → List (List Byte × Option Socket) → Option Socket → Prop
  | never : Searches [] [] none
  | opened (text : List Byte) (skt : Socket) (texts : List (List Byte)) :
      Searches (text :: texts) [(text, some skt)] (some skt)
  | next (text : List Byte) {texts : List (List Byte)} {tries : List (List Byte × Option Socket)}
      {skt : Option Socket} (later : Searches texts tries skt) :
      Searches (text :: texts) ((text, none) :: tries) skt

theorem machines_last {r : List Byte} (last : sep ∉ r) (there : r ≠ []) : machines r = [r] := by
  rw [machines, List.splitOn_eq_singleton last, if_neg]
  simpa using there

theorem machines_dir {dir : List Byte} (first : sep ∉ dir) (rest : List Byte) :
    machines (dir ++ sep :: rest) = dir :: machines rest := by
  have last : (dir :: rest.splitOn sep).getLast? = (rest.splitOn sep).getLast? := by
    rw [List.getLast?_cons, List.getLast?_eq_some_getLast (List.splitOn_ne_nil sep rest)]
    rfl
  rw [machines, machines, followed_dir first, List.splitOn_append_cons_self_of_not_mem first, last]
  split <;> rfl

/-! ## One pass over the variable -/

section
variable {f : Frame} {hostname sktname ctrl : List Byte} {environ : Environ} {envVar : List Byte}

/-- The loop at its end. -/
theorem sopenvLoop_end (turns : Nat) {mem : List Byte} {env : Nat}
    (there : str 0 mem env = some []) :
    sopenvLoop f hostname sktname ctrl environ envVar turns mem env = .ret (none, mem, []) := by
  cases turns with
  | zero => rfl
  | succ turns => rw [sopenvLoop, cstr_of_str there, if_pos rfl]

/-- What a turn of the loop does for a machine, and the loop behind it. -/
def sopenvTurn (f : Frame) (hostname sktname ctrl : List Byte) (environ : Environ)
    (envVar mem machine cut : List Byte)
    (later : Script (Option Socket × List Byte × List (List Byte × Option Socket))) :
    Script (Option Socket × List Byte × List (List Byte × Option Socket)) :=
  let buf := cstr sktname ++ 64 :: machine
  if sopenvBuf ≤ buf.length then .fault
  else
    (sopenSktname f (Environ.machine (Function.update environ envVar (some cut)) hostname)
      (withNul buf) ctrl).bind fun r =>
      match r.1 with
      | some skt => .ret (some skt, mem, [(buf, some skt)])
      | none => later.bind fun l => .ret (l.1, l.2.1, (buf, none) :: l.2.2)

/-- A machine that a separator follows: the array is mended in this turn. -/
theorem sopenvLoop_dir (turns : Nat) {mem dir rest : List Byte} {env : Nat} (first : sep ∉ dir)
    (there : str 0 mem env = some (dir ++ sep :: rest)) :
    sopenvLoop f hostname sktname ctrl environ envVar (turns + 1) mem env =
      sopenvTurn f hostname sktname ctrl environ envVar mem dir (mem.set (env + dir.length) 0)
        (sopenvLoop f hostname sktname ctrl environ envVar turns mem (env + dir.length + 1)) := by
  have dirs : dir ++ sep :: rest ≠ [] := by simp
  rw [sopenvLoop]
  simp only [cstr_of_str there, if_neg dirs, takeWhile_dir first, if_pos (getElem?_inside there),
    cstr_of_str (cut_str there), set_back (getElem?_inside there)]
  rfl

/-- The last machine: there is nothing to mend. -/
theorem sopenvLoop_last (turns : Nat) {mem r : List Byte} {env : Nat} (last : sep ∉ r)
    (some' : r ≠ [])
    (there : str 0 mem env = some r) :
    sopenvLoop f hostname sktname ctrl environ envVar (turns + 1) mem env =
      sopenvTurn f hostname sktname ctrl environ envVar mem r mem (.ret (none, mem, [])) := by
  have more : mem[env + r.length]? ≠ some sep := by
    rw [getElem?_end there]
    decide
  have behind := str_add there (n := r.length) le_rfl
  rw [List.drop_length] at behind
  rw [sopenvLoop]
  simp only [cstr_of_str there, if_neg some', takeWhile_last last, set_end there, if_neg more,
    sopenvLoop_end turns behind]
  rfl

theorem sopenvTurn_answered {mem machine cut : List Byte} {texts : List (List Byte)}
    {later : Script (Option Socket × List Byte × List (List Byte × Option Socket))}
    (searches : ∀ {replies l}, later.answered replies = some l →
      l.2.1 = mem ∧ Searches texts l.2.2 l.1)
    {replies : List Reply} {l : Option Socket × List Byte × List (List Byte × Option Socket)}
    (h : (sopenvTurn f hostname sktname ctrl environ envVar mem machine cut later).answered replies =
      some l) :
    l.2.1 = mem ∧ Searches ((cstr sktname ++ 64 :: machine) :: texts) l.2.2 l.1 := by
  unfold sopenvTurn at h
  dsimp only at h
  split at h
  · cases replies <;> cases h
  obtain ⟨_, _, ⟨skt, buf⟩, -, -, h⟩ := Script.answered_bind.1 h
  cases skt with
  | some skt =>
    obtain ⟨-, rfl⟩ := Script.answered_ret.1 h
    exact ⟨rfl, .opened _ skt texts⟩
  | none =>
    obtain ⟨_, _, l', -, looked, h⟩ := Script.answered_bind.1 h
    obtain ⟨-, rfl⟩ := Script.answered_ret.1 h
    obtain ⟨mended, search⟩ := searches looked
    exact ⟨mended, .next _ search⟩

/-- **One pass**: the machines of the variable are searched, and it is mended. -/
theorem sopenvLoop_answered {turns : Nat} {mem r : List Byte} {env : Nat}
    (there : str 0 mem env = some r) (enough : r.length < turns) {replies : List Reply}
    {l : Option Socket × List Byte × List (List Byte × Option Socket)}
    (h : (sopenvLoop f hostname sktname ctrl environ envVar turns mem env).answered replies =
      some l) :
    l.2.1 = mem ∧
      Searches ((machines r).map fun machine => cstr sktname ++ 64 :: machine) l.2.2 l.1 := by
  induction turns generalizing r env replies l with
  | zero => omega
  | succ turns ih =>
    obtain last | ⟨dir, rest, first, rfl⟩ := split_dir r
    · by_cases nothing : r = []
      · subst nothing
        rw [sopenvLoop_end _ there] at h
        obtain ⟨-, rfl⟩ := Script.answered_ret.1 h
        exact ⟨rfl, .never⟩
      · rw [sopenvLoop_last turns last nothing there] at h
        rw [machines_last last nothing]
        refine sopenvTurn_answered (fun {replies l} h => ?_) h
        obtain ⟨-, rfl⟩ := Script.answered_ret.1 h
        exact ⟨rfl, .never⟩
    · rw [sopenvLoop_dir turns first there] at h
      rw [machines_dir first, List.map_cons]
      exact sopenvTurn_answered (ih (str_behind there) (by simp at enough; omega)) h

theorem sopenvTurn_safe {mem machine cut : List Byte}
    {later : Script (Option Socket × List Byte × List (List Byte × Option Socket))}
    (clean : 0 ∉ machine) (fits : (cstr sktname ++ 64 :: machine).length < bufsize)
    (safe : later.Safe) :
    (sopenvTurn f hostname sktname ctrl environ envVar mem machine cut later).Safe := by
  have whole : 0 ∉ cstr sktname ++ 64 :: machine := by
    simpa [clean] using cstr_noNul sktname
  have inside : ¬ sopenvBuf ≤ (cstr sktname ++ 64 :: machine).length := by
    have : bufsize < sopenvBuf := by decide
    omega
  unfold sopenvTurn
  dsimp only
  rw [if_neg inside, sopenSktname_fits _ _ _ (by rwa [withNul, cstr_append_nul whole])]
  refine (sopen_safe _ _ _ _).bind fun r => ?_
  split
  · trivial
  · exact safe.bind fun _ => trivial

theorem sopenvLoop_safe {turns : Nat} {mem r : List Byte} {env : Nat}
    (there : str 0 mem env = some r)
    (fits : ∀ machine ∈ machines r, (cstr sktname ++ 64 :: machine).length < bufsize) :
    (sopenvLoop f hostname sktname ctrl environ envVar turns mem env).Safe := by
  have clean := (str_eq_some.1 there).1
  induction turns generalizing r env with
  | zero => trivial
  | succ turns ih =>
    obtain last | ⟨dir, rest, first, rfl⟩ := split_dir r
    · by_cases nothing : r = []
      · subst nothing
        rw [sopenvLoop_end _ there]
        trivial
      · rw [machines_last last nothing] at fits
        rw [sopenvLoop_last turns last nothing there]
        exact sopenvTurn_safe clean (fits r (List.mem_singleton_self r)) trivial
    · rw [machines_dir first, List.forall_mem_cons] at fits
      rw [sopenvLoop_dir turns first there]
      have behind := str_behind there
      refine sopenvTurn_safe (fun c => clean (List.mem_append_left _ c)) fits.1 ?_
      exact ih behind fits.2 (str_eq_some.1 behind).1

end

/-! ## Sopenv -/

theorem mendAt_cutAt (s : CString) : mendAt (strchrAt s.array) (cutAt s.array) = s.array := by
  by_cases h : 64 ∈ s.chars
  · obtain ⟨i, first, there⟩ := strchrAt_some h
    rw [cutAt, first]
    exact set_back there 0
  · rw [cutAt, strchrAt_none h]
    rfl

section
variable {f : Frame} {hostname ctrl : List Byte} {sktname : CString} {envVar : Option (List Byte)}
  {vars : List Byte → Option CString}

/-- A client's `Sopenv` behind its first `Sopen`. -/
def sopenvElsewhere (f : Frame) (hostname ctrl : List Byte) (sktname : CString)
    (envVar : Option (List Byte)) (vars : List Byte → Option CString) : Script Searched :=
  match vars (envVarOf envVar) with
  | none => .ret ⟨none, sktname.array, Environ.holding vars, [(sktname.chars, none)]⟩
  | some path =>
    (sopenvLoop f hostname (cutAt sktname.array) ctrl (Environ.holding vars) (envVarOf envVar)
      (path.array.length + 1) path.array 0).bind fun l =>
        .ret ⟨l.1, sktname.array,
          Function.update (Environ.holding vars) (envVarOf envVar) (some l.2.1),
          (sktname.chars, none) :: l.2.2⟩

theorem sopenv_client (f : Frame) (hostname : List Byte) (envVar : Option (List Byte))
    (vars : List Byte → Option CString) (client : (cstr ctrl).headD 0 ∈ [98, 99])
    (short : sktname.chars.length < bufsize) : ∃ opens : Script (Option Socket), opens.Safe ∧
      sopenv f hostname sktname.array ctrl envVar (Environ.holding vars) = opens.bind fun
        | some skt => .ret ⟨some skt, sktname.array, Environ.holding vars,
            [(sktname.chars, some skt)]⟩
        | none => sopenvElsewhere f hostname ctrl sktname envVar vars := by
  have noServer : (cstr ctrl).headD 0 ∉ [115, 83] := by
    obtain b | c := List.mem_pair.1 client
    · rw [b]
      decide
    · rw [c]
      decide
  obtain ⟨opens, safe, kept⟩ :=
    sopen_kept f ((Environ.holding vars).machine hostname) sktname.array noServer
  refine ⟨opens, safe, ?_⟩
  rw [sopenv, sopenSktname_fits _ _ _ (by rwa [cstr_array]), kept, Script.bind_assoc]
  congr 1
  funext skt
  cases skt with
  | some skt =>
    rw [Script.bind, if_pos (.inl rfl), cstr_array]
  | none =>
    have other : ¬ ((none : Option Socket).isSome ∨ cstr ctrl = [115] ∨ cstr ctrl = [83]) := by
      rintro (opened | server | server)
      · cases opened
      · rw [server] at noServer
        exact noServer (by decide)
      · rw [server] at noServer
        exact noServer (by decide)
    rw [Script.bind, if_neg other, sopenvElsewhere]
    dsimp only
    rw [mendAt_cutAt, cstr_array, Environ.holding]
    cases vars (envVarOf envVar) <;> rfl

theorem sopenv_safe (client : (cstr ctrl).headD 0 ∈ [98, 99])
    (fits : ∀ text ∈ candidates sktname (vars (envVarOf envVar)), text.length < bufsize) :
    (sopenv f hostname sktname.array ctrl envVar (Environ.holding vars)).Safe := by
  rw [candidates, List.forall_mem_cons, List.forall_mem_map] at fits
  obtain ⟨short, fits⟩ := fits
  obtain ⟨opens, safe, search⟩ := sopenv_client f hostname envVar vars client short
  rw [search]
  refine safe.bind fun skt => ?_
  cases skt with
  | some skt => trivial
  | none =>
    dsimp only [sopenvElsewhere]
    cases var : vars (envVarOf envVar) with
    | none => trivial
    | some path =>
      rw [var] at fits
      refine (sopenvLoop_safe path.str fun machine there => ?_).bind fun _ => trivial
      rw [cstr_cutAt]
      exact fits machine there

theorem sopenv_answered (client : (cstr ctrl).headD 0 ∈ [98, 99])
    (short : sktname.chars.length < bufsize) {replies : List Reply} {r : Searched}
    (h : (sopenv f hostname sktname.array ctrl envVar (Environ.holding vars)).answered replies =
      some r) :
    Searches (candidates sktname (vars (envVarOf envVar))) r.tries r.skt ∧
      r.sktname = sktname.array ∧ r.environ = Environ.holding vars := by
  obtain ⟨opens, -, search⟩ := sopenv_client f hostname envVar vars client short
  rw [search] at h
  obtain ⟨_, _, skt, -, -, h⟩ := Script.answered_bind.1 h
  cases skt with
  | some skt =>
    obtain ⟨-, rfl⟩ := Script.answered_ret.1 h
    exact ⟨.opened _ skt _, rfl, rfl⟩
  | none =>
    dsimp only [sopenvElsewhere] at h
    cases var : vars (envVarOf envVar) with
    | none =>
      rw [var] at h
      obtain ⟨-, rfl⟩ := Script.answered_ret.1 h
      exact ⟨.next _ .never, rfl, rfl⟩
    | some path =>
      rw [var] at h
      obtain ⟨_, _, l, -, looked, h⟩ := Script.answered_bind.1 h
      obtain ⟨-, rfl⟩ := Script.answered_ret.1 h
      have enough : path.chars.length < path.array.length + 1 := by
        simp only [CString.array, withNul, List.length_append]
        omega
      obtain ⟨mended, search⟩ := sopenvLoop_answered path.str enough looked
      rw [cstr_cutAt] at search
      have same : Environ.holding vars (envVarOf envVar) = some path.array := by
        rw [Environ.holding, var, Option.map_some]
      refine ⟨.next _ search, rfl, ?_⟩
      dsimp only
      rw [mended, ← same, Function.update_eq_self]

end

/-- **Sopenv's search**: a client's `sktname`, then its name at each machine of the
variable, until the first that opens; both strings are then as they were. -/
theorem sopenv_searches (f : Frame) (hostname ctrl : List Byte) (sktname : CString)
    (envVar : Option (List Byte)) (vars : List Byte → Option CString)
    (client : (cstr ctrl).headD 0 ∈ [98, 99])
    (fits : ∀ text ∈ candidates sktname (vars (envVarOf envVar)), text.length < bufsize) :
    (sopenv f hostname sktname.array ctrl envVar (Environ.holding vars)).Safe ∧
    ∀ replies r,
      (sopenv f hostname sktname.array ctrl envVar (Environ.holding vars)).answered replies = some r →
      Searches (candidates sktname (vars (envVarOf envVar))) r.tries r.skt ∧
      r.sktname = sktname.array ∧ r.environ = Environ.holding vars :=
  ⟨sopenv_safe client fits, fun _ _ h => sopenv_answered client (fits _ List.mem_cons_self) h⟩

/-- `SKTPATH=a:b:` -/
def aThenB (v : List Byte) : Option CString :=
  if v = sktpath then some ⟨[97, 58, 98, 58], by decide⟩ else none

/-- Nobody answers: the client `n@h` is tried as it is, as `n@a` and as `n@b`. -/
theorem sopenv_searches_two : ∃ r,
    (sopenv ⟨List.replicate bufsize 0, List.length_replicate, 0⟩ [] nAtH.array [99] none
      (Environ.holding aThenB)).answered [.dialled none, .dialled none, .dialled none] = some r ∧
    Searches [[110, 64, 104], [110, 64, 97], [110, 64, 98]] r.tries r.skt ∧
    r.sktname = nAtH.array ∧ r.environ = Environ.holding aThenB := by
  have run : ∃ r, (sopenv ⟨List.replicate bufsize 0, List.length_replicate, 0⟩ [] nAtH.array [99]
      none (Environ.holding aThenB)).answered [.dialled none, .dialled none, .dialled none] =
        some r := ⟨_, rfl⟩
  obtain ⟨r, run⟩ := run
  exact ⟨r, run, (sopenv_searches ⟨List.replicate bufsize 0, List.length_replicate, 0⟩ [] [99]
    nAtH none aThenB (by decide) (by decide)).2 _ r run⟩

end UnixProgramming.Ssl
