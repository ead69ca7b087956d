import UnixProgramming.Dbg.Effects
import UnixProgramming.Dbg.Database
import UnixProgramming.Dbg.Names
import UnixProgramming.Dbg.Visible
import UnixProgramming.Heap.Chars

/-!
# The command line

`initdbg`: the command line is put together in `locbuf` for the first call of
`edbg`, and what stands behind a `-@` is read as commands, files and numbers.

* `buildMain_isSome`, `escape_eq`: what goes well in `locbuf`;
* `readArgs_left`: what the commands and files leave of the arguments;
* `initdbg_right`: when all of it goes well;
* `initdbg_enters`: `main` is the function that is entered.
-/

namespace UnixProgramming.Dbg

open Ssl (Byte CString isspace isdigit sscanfD fgetsAll)
open Heap.Chars

/-! ## locbuf -/

/-- The static array. -/
abbrev Locbuf := { a : List Byte // a.length = DBGBUF }

def Locbuf.zero : Locbuf := ⟨List.replicate DBGBUF 0, List.length_replicate⟩

/-- `%d` -/
def decimalInt (n : Int) : List Byte := if n < 0 then 45 :: decimal n.natAbs else decimal n.natAbs

/-- What the loop over the arguments appends; `locbuflen` is an `int`. -/
def argPieces : List (List Byte) → Int → List (List Byte)
  | [], _ => []
  | arg :: argv, locbuflen =>
    let locbuflen := (locbuflen + arg.length + 1).bmod (2 ^ 32)
    if locbuflen > DBGBUF - 3 then []
    else
      let quote := if arg.any fun c => c = 32 ∨ c = 9 then [text "\""] else []
      quote ++ [arg] ++ quote ++ [if argv.isEmpty then text ">)" else text " "] ++
        argPieces argv locbuflen

/-- `"main(argc=%d,argv<"` -/
def mainHead (iargc : Nat) : List Byte :=
  text "main(argc=" ++ decimal iargc ++ text ",argv<"

def mainPieces (argc : Int) (argv : List (List Byte)) : List (List Byte) :=
  if argc > 0 then argPieces argv 0 else []

/-- `sprintf` and the calls of `strcat` behind it. -/
def buildMain (argc : Int) (argv : List (List Byte)) (locbuf : List Byte) : Option (List Byte) :=
  (strcpyAt 0 locbuf 0 (mainHead argc.natAbs)).bind fun locbuf =>
    strcats 0 locbuf (mainPieces argc argv)

/-- The text that is built from the arguments. -/
def mainText (argc : Int) (argv : List (List Byte)) : List Byte :=
  mainHead argc.natAbs ++ (mainPieces argc argv).flatten

/-- `for(b= locbuf; b && *b; ++b)`: every `%` is doubled. -/
def escape : Nat → List Byte → Nat → Option (List Byte)
  | 0, a, _ => some a
  | turns + 1, a, b =>
    (str 0 a b).bind fun s =>
      match s.findIdx? (· = 37) with
      | none => some a
      | some i =>
        (memmove a (b + i + 1) (b + i) (DBGBUF - (b + i))).bind fun a =>
        (blit a (b + i) [37]).bind fun a => escape turns a (b + i + 2)

/-- What `printf` makes of a format in which `%` stands only for itself. -/
def unescape : List Byte → List Byte
  | 37 :: 37 :: s => 37 :: unescape s
  | c :: s => c :: unescape s
  | [] => []

/-! ## Arguments -/

/-- Where `initdbg` comes to an end without a call of `edbg`. -/
inductive Stop where
  | locbuf
  | nullFrame
  | failed (e : Failure)
  | unopened (dbgfile : List Byte)

/-- `*argc`, the call of `edbg`, and the state before it. -/
structure Started where
  argc : Int
  call : Call
  s : State

/-- `(*argv)[0] == '-' && (*argv)[1] == '@'` -/
def isAt (arg : List Byte) : Bool := arg.head? = some 45 && arg.tail.head? = some 64

/-- The number of arguments before a `-@`, the argument, and those behind it. -/
def findAt : List (List Byte) → Nat → Option (Nat × List Byte × List (List Byte))
  | [], _ => none
  | arg :: argv, newargc =>
    if isAt arg then some (newargc, arg, argv) else findAt argv (newargc + 1)

/-- `-` and `+` may begin a number. -/
def startsNumber (arg : List Byte) : Bool :=
  arg.head? = some 45 || arg.head? = some 43 || isdigit (arg.headD 0)

section
variable (env : Env) (files : List Byte → Option (List Byte)) (u : Nat → Unset)

/-- A call of `initdbg3`, by its number. -/
def callInitdbg3 (p : Nat × State) (buf : List Byte) : Except Stop (Nat × State) :=
  match initdbg3 env (u p.1) buf p.2 with
  | .ok s => .ok (p.1 + 1, s)
  | .error e => .error (.failed e)

def initdbg2 (dbgfile : List Byte) (p : Nat × State) : Except Stop (Nat × State) :=
  match files dbgfile with
  | none => .error (.unopened dbgfile)
  | some file => (fgetsAll DBGBUF (file.length + 1) file).foldlM (callInitdbg3 env u) p

/-- Commands and files up to a number: what is left of the arguments, and
`use_default`. -/
def readArgs : List (List Byte) → Nat → Nat × State →
    Except Stop (List (List Byte) × Nat × Nat × State)
  | [], use_default, p => .ok ([], use_default, p)
  | arg :: argv, use_default, p =>
    if startsNumber arg then .ok (arg :: argv, use_default, p)
    else if arg = text "thrd" then
      (callInitdbg3 env u p arg).bind fun p => readArgs argv use_default p
    else if arg.any isspace then (callInitdbg3 env u p arg).bind fun p => readArgs argv 0 p
    else (initdbg2 env files u arg p).bind fun p => readArgs argv 0 p

/-- `on main` if nothing else has been read. -/
def readDefault (use_default : Nat) (use_dflt_lvl : Int) (p : Nat × State) :
    Except Stop (Nat × State) :=
  if use_default = 1 then callInitdbg3 env u p (text "on main " ++ decimalInt use_dflt_lvl)
  else if use_default = 2 then
    callInitdbg3 env u p (text "on main " ++ decimalInt use_dflt_lvl ++ text " > tmp")
  else .ok p

/-- All that the arguments behind a `-@` say, up to a number. -/
def readCommands (arg : List Byte) (argv : List (List Byte)) (s : State) :
    Except Stop (List (List Byte) × State) :=
  let use_default := if arg[2]? = some 64 then 2 else 1
  let use_dflt_lvl :=
    if isdigit ((arg.drop (use_default + 1)).headD 0) then
      (sscanfD (arg.drop (use_default + 1))).getD 0
    else 1
  (readArgs env files u argv use_default (0, s)).bind fun (argv, use_default, p) =>
    (readDefault env u use_default use_dflt_lvl p).map fun p => (argv, p.2)

end

/-- `thrd->dbghd->status= DBG_ONDIS` -/
def disableHead : List DBG → List DBG
  | [] => []
  | [dbghd] => [{ dbghd with status := .ondis }]
  | dbg :: below => dbg :: disableHead below

/-- `sscanf(*argv,"%d",&dtst)`; a number that is not negative changes the status
of the outermost function. -/
def readNumber (arg : List Byte) (dtst : Int) (s : State) : Except Stop (Int × State) :=
  let dtst := (sscanfD arg).getD dtst
  if dtst < 0 then .ok (DBG_DTSTOFF, s)
  else if s.thrd.stack = [] then .error .nullFrame
  else .ok (dtst, s.setStack (disableHead s.thrd.stack))

/-- The one or two numbers. -/
def readNumbers (argv : List (List Byte)) (s : State) : Except Stop State :=
  match argv with
  | [] => .ok (s.setDtst DBG_DTSTOFF DBG_DTSTOFF)
  | [arg] => (readNumber arg s.g.dtst1 s).map fun (dtst1, s) => s.setDtst dtst1 DBG_DTSTOFF
  | arg :: arg' :: _ =>
    (readNumber arg s.g.dtst1 s).bind fun (dtst1, s) =>
      (readNumber arg' s.g.dtst2 s).map fun (dtst2, s) => s.setDtst dtst1 dtst2

/-! ## initdbg -/

/-- `initdbg` up to its call of `edbg`. -/
def initdbgCall (env : Env) (files : List Byte → Option (List Byte)) (u : Nat → Unset)
    (locbuf : Locbuf) (argc : Int) (argv : List (List Byte)) (s : State) : Except Stop Started :=
  let s := (s.setFp .stdout).setDtst DBG_DTSTOFF DBG_DTSTOFF
  match ((buildMain argc argv locbuf.1).bind fun a => escape DBGBUF a 0).bind (str 0 · 0) with
  | none => .error .locbuf
  | some fmt =>
    let call := ⟨fmt, [], unescape fmt⟩
    match if argc > 0 then findAt argv.tail 1 else findAt argv 0 with
    | none => .ok ⟨argc, call, s⟩
    | some (newargc, arg, argv) =>
      (readCommands env files u arg argv s).bind fun (argv, s) =>
        (readNumbers argv s).map fun s => ⟨newargc, call, s⟩

/-- `*argc` and the state behind the call of `edbg`. -/
def initdbg (env : Env) (files : List Byte → Option (List Byte)) (u : Nat → Unset)
    (locbuf : Locbuf) (argc : Int) (argv : List (List Byte)) (s : State) :
    Except Stop (Int × State) :=
  (initdbgCall env files u locbuf argc argv s).bind fun started =>
    match edbg env started.call started.s with
    | .ok s => .ok (started.argc, s)
    | .error e => .error (.failed e)

/-! ## The text in locbuf -/

section
variable {argc : Int} {argv : List (List Byte)} {a : List Byte}

theorem mainHead_clean (iargc : Nat) : 0 ∉ mainHead iargc := by
  have digits : (0 : Byte) ∉ decimal iargc := fun there => absurd (decimal_isdigit there) (by decide)
  have front : (0 : Byte) ∉ text "main(argc=" := by decide
  have back : (0 : Byte) ∉ text ",argv<" := by decide
  simp only [mainHead, List.mem_append, not_or]
  exact ⟨⟨front, digits⟩, back⟩

theorem argPieces_clean (clean : ∀ arg ∈ argv, 0 ∉ arg) (locbuflen : Int) :
    ∀ s ∈ argPieces argv locbuflen, 0 ∉ s := by
  induction argv generalizing locbuflen with
  | nil => exact fun _ there => nomatch there
  | cons arg argv ih =>
    obtain ⟨first, later⟩ := List.forall_mem_cons.1 clean
    have quote : ∀ s ∈ (if arg.any fun c => c = 32 ∨ c = 9 then [text "\""] else []),
        (0 : Byte) ∉ s := by
      intro s there
      split at there
      · rw [List.mem_singleton.1 there]
        decide
      · cases there
    rw [argPieces]
    dsimp only
    split
    · exact fun _ there => nomatch there
    · intro s there
      simp only [List.mem_append, List.mem_singleton] at there
      obtain (((there | rfl) | there) | rfl) | there := there
      · exact quote s there
      · exact first
      · exact quote s there
      · split <;> decide
      · exact ih later _ s there

theorem mainPieces_clean (clean : ∀ arg ∈ argv, 0 ∉ arg) : ∀ s ∈ mainPieces argc argv, 0 ∉ s := by
  unfold mainPieces
  split
  · exact argPieces_clean clean 0
  · exact fun _ there => nomatch there

/-- The text goes into `locbuf` exactly if there is a place for all of it. -/
theorem buildMain_isSome (argc : Int) (locbuf : Locbuf) (clean : ∀ arg ∈ argv, 0 ∉ arg) :
    (buildMain argc argv locbuf.1).isSome ↔ (mainText argc argv).length < DBGBUF := by
  have length := locbuf.2
  rw [buildMain, mainText, List.length_append]
  cases stored : strcpyAt 0 locbuf.1 0 (mainHead argc.natAbs) with
  | none =>
    have full := mt strcpyAt_isSome.2 (by rw [stored]; exact Bool.false_ne_true)
    rw [Option.bind_none]
    exact iff_of_false Bool.false_ne_true (by omega)
  | some a =>
    have reads := strcpyAt_str stored (mainHead_clean _)
    rw [Option.bind_some, strcats_isSome reads (mainPieces_clean clean), strcpyAt_length stored,
      length]

theorem buildMain_str {locbuf : Locbuf} (clean : ∀ arg ∈ argv, 0 ∉ arg)
    (h : buildMain argc argv locbuf.1 = some a) :
    str 0 a 0 = some (mainText argc argv) ∧ a.length = DBGBUF := by
  obtain ⟨a', stored, appended⟩ := Option.bind_eq_some_iff.1 h
  have reads := strcpyAt_str stored (mainHead_clean _)
  obtain ⟨reads', length⟩ := strcats_str reads (mainPieces_clean clean) appended
  exact ⟨reads', length.trans ((strcpyAt_length stored).trans locbuf.2)⟩

/-- **Doubling a `%`** moves the whole rest of `locbuf` by one character. -/
theorem escape_eq {s : List Byte} (reads : str 0 a 0 = some s) (length : a.length = DBGBUF) :
    escape DBGBUF a 0 = if 37 ∈ s then none else some a := by
  obtain ⟨turns, some'⟩ : ∃ turns, DBGBUF = turns + 1 := ⟨_, rfl⟩
  rw [some', escape, reads, Option.bind_some]
  cases search : s.findIdx? (· = 37) with
  | none =>
    have other := List.findIdx?_eq_none_iff.1 search
    rw [if_neg fun there => by simpa using other 37 there]
  | some i =>
    obtain ⟨inside, percent, -⟩ := List.findIdx?_eq_some_iff_getElem.1 search
    have there : (37 : Byte) ∈ s := by
      rw [← of_decide_eq_true percent]
      exact List.getElem_mem inside
    have before := str_length_lt reads
    have room : 0 + i + 1 + ((a.drop (0 + i)).take (DBGBUF - (0 + i))).length > a.length := by
      simp only [List.length_take, List.length_drop]
      omega
    have full : memmove a (0 + i + 1) (0 + i) (DBGBUF - (0 + i)) = none := by
      unfold memmove
      split
      · rw [blit, if_neg (Nat.not_le.2 room)]
      · rfl
    rw [if_pos there]
    dsimp only
    rw [full, Option.bind_none]

theorem unescape_plain {s : List Byte} (plain : 37 ∉ s) : unescape s = s := by
  fun_induction unescape s with
  | case1 s ih => exact absurd List.mem_cons_self plain
  | case2 c s _ ih => rw [ih fun there => plain (.tail _ there)]
  | case3 => rfl

end

/-! ## What the commands leave -/

def State.dtsts (s : State) : Int × Int := (s.g.dtst1, s.g.dtst2)

/-- The functions on the stack and the numbers are as they were. -/
def Untouched (s s' : State) : Prop := s'.chain = s.chain ∧ s'.dtsts = s.dtsts

theorem Untouched.trans {s t u : State} (h : Untouched s t) (h' : Untouched t u) : Untouched s u :=
  ⟨h'.1.trans h.1, h'.2.trans h.2⟩

theorem parsePreqs_dtsts {turns : Nat} {d e : DBGCMD} {b modebuf rest last : List Byte} {s t : State}
    (h : parsePreqs turns d b modebuf s = .ok (e, rest, last, t)) : t.dtsts = s.dtsts := by
  induction turns generalizing d b modebuf s with
  | zero =>
    cases h
    rfl
  | succ turns ih =>
    rw [parsePreqs_succ] at h
    split at h
    · cases h
      rfl
    dsimp only at h
    split at h
    · cases h
    split at h
    · have warned := ih h
      exact warned
    · exact ih h

theorem parseOut_dtsts {d e : DBGCMD} {b modebuf : List Byte} {s t : State}
    (h : parseOut d b modebuf s = .ok (e, t)) : t.dtsts = s.dtsts := by
  unfold parseOut at h
  dsimp only at h
  split at h
  · split at h
    · cases h
    · split at h <;> cases h <;> rfl
  · cases h
    rfl

theorem readCommand_dtsts {u : Unset} {buf modebuf fnamebuf : List Byte} {s t : State} {d : DBGCMD}
    (h : readCommand u buf modebuf fnamebuf s = .ok (d, t)) : t.dtsts = s.dtsts := by
  have allocated (found : Option (Nat × DBGCMD)) :
      (allocCmd u fnamebuf found s).2.2.dtsts = s.dtsts := by
    unfold allocCmd
    split <;> rfl
  obtain ⟨d₁, b₁, d₂, b₂, last, s₂, s₃, -, preqs, out, rfl⟩ := readCommand_stages rfl h
  change s₃.dtsts = s.dtsts
  rw [parseOut_dtsts out, parsePreqs_dtsts preqs, ← allocated (s.g.cmds.find _)]
  split <;> rfl

theorem readLine_dtsts {u : Unset} {buf : List Byte} {s t : State} {d : Option DBGCMD}
    (h : readLine u buf s = .ok (d, t)) : t.dtsts = s.dtsts := by
  have deleted (f : List Byte) (found : Option (Nat × DBGCMD)) : (del f found s).dtsts = s.dtsts := by
    unfold del
    split
    · rfl
    · split <;> rfl
  unfold readLine at h
  dsimp only at h
  split at h
  · cases h
    rfl
  split at h
  · cases h
  split at h
  · cases h
    exact deleted _ _
  · obtain ⟨⟨d', t'⟩, made, same⟩ := map_ok h
    cases same
    exact readCommand_dtsts made

theorem refresh_dtsts {env : Env} {d : Option DBGCMD} {s t : State}
    (h : refresh env d s = .ok t) : t.dtsts = s.dtsts := by
  unfold refresh at h
  split at h
  · split at h
    · obtain ⟨dbgtl, below, fp, outs, ws, -, rfl⟩ := edbg2_ok h
      rfl
    · cases h
      rfl
  · cases h
    rfl

/-- A line keeps the functions and the numbers. -/
theorem initdbg3_kept {env : Env} {u : Unset} {buf : List Byte} {s t : State}
    (h : initdbg3 env u buf s = .ok t) : Untouched s t := by
  refine ⟨(initdbg3_adjusts h).chain, ?_⟩
  rw [initdbg3_eq] at h
  obtain ⟨⟨d, s'⟩, read, refreshed⟩ := bind_ok h
  exact (refresh_dtsts refreshed).trans (readLine_dtsts read)

section
variable {env : Env} {files : List Byte → Option (List Byte)} {u : Nat → Unset}

theorem callInitdbg3_kept {p q : Nat × State} {buf : List Byte}
    (h : callInitdbg3 env u p buf = .ok q) : Untouched p.2 q.2 := by
  unfold callInitdbg3 at h
  split at h
  · rename_i s read
    cases h
    exact initdbg3_kept read
  · cases h

theorem initdbg2_kept {p q : Nat × State} {dbgfile : List Byte}
    (h : initdbg2 env files u dbgfile p = .ok q) : Untouched p.2 q.2 := by
  unfold initdbg2 at h
  split at h
  · cases h
  rename_i file _
  revert h
  generalize fgetsAll DBGBUF (file.length + 1) file = bufs
  intro h
  induction bufs generalizing p with
  | nil =>
    cases h
    exact ⟨rfl, rfl⟩
  | cons buf bufs ih =>
    obtain ⟨p', first, h⟩ := bind_ok h
    exact (callInitdbg3_kept first).trans (ih h)

/-- **The commands and files** leave the arguments from the first number on. -/
theorem readArgs_left {argv left' : List (List Byte)} {use_default use_default' : Nat}
    {p q : Nat × State}
    (h : readArgs env files u argv use_default p = .ok (left', use_default', q)) :
    left' = argv.dropWhile (!startsNumber ·) ∧ Untouched p.2 q.2 := by
  induction argv generalizing use_default p with
  | nil =>
    cases h
    exact ⟨rfl, rfl, rfl⟩
  | cons arg argv ih =>
    rw [readArgs] at h
    split at h
    · rename_i number
      cases h
      rw [List.dropWhile_cons_of_neg (by simpa using number)]
      exact ⟨rfl, rfl, rfl⟩
    rename_i word
    rw [List.dropWhile_cons_of_pos (by simpa using word)]
    have next {p' : Nat × State} {use_default : Nat} (first : Untouched p.2 p'.2)
        (h : readArgs env files u argv use_default p' = .ok (left', use_default', q)) :
        left' = argv.dropWhile (!startsNumber ·) ∧ Untouched p.2 q.2 := by
      obtain ⟨rest, later⟩ := ih h
      exact ⟨rest, first.trans later⟩
    split at h
    · obtain ⟨p', read, h⟩ := bind_ok h
      exact next (callInitdbg3_kept read) h
    split at h
    · obtain ⟨p', read, h⟩ := bind_ok h
      exact next (callInitdbg3_kept read) h
    · obtain ⟨p', read, h⟩ := bind_ok h
      exact next (initdbg2_kept read) h

theorem readCommands_left {arg : List Byte} {argv left' : List (List Byte)} {s t : State}
    (h : readCommands env files u arg argv s = .ok (left', t)) :
    left' = argv.dropWhile (!startsNumber ·) ∧ Untouched s t := by
  obtain ⟨⟨rest, use_default, p⟩, read, h⟩ := bind_ok h
  obtain ⟨q, default', h⟩ := map_ok h
  cases h
  obtain ⟨left', kept⟩ := readArgs_left read
  refine ⟨left', kept.trans ?_⟩
  unfold readDefault at default'
  split at default'
  · exact callInitdbg3_kept default'
  split at default'
  · exact callInitdbg3_kept default'
  · cases default'
    exact ⟨rfl, rfl⟩

section
variable {e : Stop} (inside : e = .locbuf ∨ e = .nullFrame)
include inside

theorem callInitdbg3_ne (p : Nat × State) (buf : List Byte) :
    callInitdbg3 env u p buf ≠ .error e := by
  unfold callInitdbg3
  rcases inside with rfl | rfl
  · split <;> nofun
  · split <;> nofun

theorem initdbg2_ne (p : Nat × State) (dbgfile : List Byte) :
    initdbg2 env files u dbgfile p ≠ .error e := by
  unfold initdbg2
  split
  · rcases inside with rfl | rfl <;> nofun
  rename_i file _
  generalize fgetsAll DBGBUF (file.length + 1) file = bufs
  induction bufs generalizing p with
  | nil => nofun
  | cons buf bufs ih => exact bind_ne (callInitdbg3_ne inside p buf) fun p' _ => ih p'

theorem readArgs_ne (argv : List (List Byte)) (use_default : Nat) (p : Nat × State) :
    readArgs env files u argv use_default p ≠ .error e := by
  induction argv generalizing use_default p with
  | nil => nofun
  | cons arg argv ih =>
    rw [readArgs]
    split
    · nofun
    split
    · exact bind_ne (callInitdbg3_ne inside p arg) fun p' _ => ih _ p'
    split
    · exact bind_ne (callInitdbg3_ne inside p arg) fun p' _ => ih _ p'
    · exact bind_ne (initdbg2_ne inside p arg) fun p' _ => ih _ p'

theorem readCommands_ne (arg : List Byte) (argv : List (List Byte)) (s : State) :
    readCommands env files u arg argv s ≠ .error e := by
  refine bind_ne (readArgs_ne inside argv _ (0, s)) fun ⟨rest, use_default, p⟩ _ => ?_
  refine map_ne ?_
  unfold readDefault
  split
  · exact callInitdbg3_ne inside _ _
  split
  · exact callInitdbg3_ne inside _ _
  · nofun

end

end

/-! ## Numbers -/

theorem disableHead_eq_nil {stack : List DBG} : disableHead stack = [] ↔ stack = [] := by
  match stack with
  | [] => exact Iff.rfl
  | [dbghd] => exact iff_of_false (List.cons_ne_nil _ _) (List.cons_ne_nil _ _)
  | dbg :: dbg' :: below => exact iff_of_false (List.cons_ne_nil _ _) (List.cons_ne_nil _ _)

/-- Reading a number reaches for the outermost function only if it is not negative. -/
theorem readNumber_eq (arg : List Byte) (dtst : Int) (s : State) :
    readNumber arg dtst s = .error .nullFrame ∧ s.thrd.stack = [] ∧
        ¬ (sscanfD arg).getD dtst < 0 ∨
      ∃ d t, readNumber arg dtst s = .ok (d, t) ∧ (t.thrd.stack = [] ↔ s.thrd.stack = []) ∧
        t.dtsts = s.dtsts ∧ (s.thrd.stack = [] → (sscanfD arg).getD dtst < 0) := by
  unfold readNumber
  dsimp only
  split
  · rename_i negative
    exact .inr ⟨_, s, rfl, Iff.rfl, rfl, fun _ => negative⟩
  rename_i natural
  split
  · rename_i none'
    exact .inl ⟨rfl, none', natural⟩
  · rename_i some'
    exact .inr ⟨_, _, rfl, disableHead_eq_nil, rfl, fun none' => absurd none' some'⟩

/-- The numbers do without a function if they are negative. -/
theorem readNumbers_eq {argv : List (List Byte)} {s : State}
    (off : s.dtsts = (DBG_DTSTOFF, DBG_DTSTOFF)) :
    readNumbers argv s = .error .nullFrame ∧ s.thrd.stack = [] ∧
        (∃ n ∈ argv.take 2, ¬ (sscanfD n).getD DBG_DTSTOFF < 0) ∨
      (∃ t, readNumbers argv s = .ok t) ∧
        (s.thrd.stack = [] → ∀ n ∈ argv.take 2, (sscanfD n).getD DBG_DTSTOFF < 0) := by
  have dtst1 : s.g.dtst1 = DBG_DTSTOFF := congrArg Prod.fst off
  match argv with
  | [] => exact .inr ⟨⟨_, rfl⟩, fun _ _ there => nomatch there⟩
  | [arg] =>
    rw [readNumbers, dtst1]
    obtain ⟨failed, none', natural⟩ | ⟨d, t, read, -, -, negative⟩ := readNumber_eq arg DBG_DTSTOFF s
    · exact .inl ⟨by rw [failed]; rfl, none', arg, List.mem_cons_self, natural⟩
    · refine .inr ⟨⟨_, by rw [read]; rfl⟩, fun none' n there => ?_⟩
      rw [List.mem_singleton.1 there]
      exact negative none'
  | arg :: arg' :: argv =>
    rw [readNumbers, dtst1]
    obtain ⟨failed, none', natural⟩ | ⟨d, t, read, same, kept, negative⟩ :=
      readNumber_eq arg DBG_DTSTOFF s
    · exact .inl ⟨by rw [failed]; rfl, none', arg, List.mem_cons_self, natural⟩
    have dtst2 : t.g.dtst2 = DBG_DTSTOFF := congrArg Prod.snd (kept.trans off)
    rw [read, Except.bind]
    dsimp only
    rw [dtst2]
    obtain ⟨failed, none', natural⟩ | ⟨d', t', read', -, -, negative'⟩ :=
      readNumber_eq arg' DBG_DTSTOFF t
    · exact .inl ⟨by rw [failed]; rfl, same.1 none', arg', .tail _ List.mem_cons_self, natural⟩
    · refine .inr ⟨⟨_, by rw [read']; rfl⟩, fun none' n there => ?_⟩
      obtain rfl | there := List.mem_cons.1 there
      · exact negative none'
      · rw [List.mem_singleton.1 there]
        exact negative' (same.2 none')

/-! ## Every command line -/

theorem findAt_none {argv : List (List Byte)} {newargc : Nat} (h : findAt argv newargc = none) :
    argv.takeWhile (!isAt ·) = argv := by
  induction argv generalizing newargc with
  | nil => rfl
  | cons arg argv ih =>
    rw [findAt] at h
    split at h
    · cases h
    · rename_i other
      rw [List.takeWhile_cons_of_pos (by simpa using other), ih h]

theorem findAt_some {argv rest : List (List Byte)} {newargc n : Nat} {arg : List Byte}
    (h : findAt argv newargc = some (n, arg, rest)) :
    n = newargc + (argv.takeWhile (!isAt ·)).length := by
  induction argv generalizing newargc with
  | nil => cases h
  | cons arg' argv ih =>
    rw [findAt] at h
    split at h
    · rename_i there
      cases h
      rw [List.takeWhile_cons_of_neg (by simpa using there)]
      rfl
    · rename_i other
      rw [List.takeWhile_cons_of_pos (by simpa using other), ih h, List.length_cons]
      omega

/-- What there is in `locbuf` for `edbg`. -/
theorem locbuf_eq {argc : Int} {argv : List (List Byte)} (locbuf : Locbuf)
    (clean : ∀ arg ∈ argv, 0 ∉ arg) :
    ((buildMain argc argv locbuf.1).bind fun a => escape DBGBUF a 0).bind (str 0 · 0) =
      if (mainText argc argv).length < DBGBUF ∧ 37 ∉ mainText argc argv then
        some (mainText argc argv)
      else none := by
  have fits := buildMain_isSome argc locbuf clean
  cases built : buildMain argc argv locbuf.1 with
  | none =>
    rw [built] at fits
    rw [if_neg fun both => Bool.false_ne_true (fits.2 both.1)]
    rfl
  | some a =>
    rw [built] at fits
    obtain ⟨reads, length⟩ := buildMain_str clean built
    rw [Option.bind_some, escape_eq reads length]
    by_cases percent : 37 ∈ mainText argc argv
    · rw [if_pos percent, if_neg fun both => both.2 percent]
      rfl
    · rw [if_neg percent, if_pos ⟨fits.1 rfl, percent⟩, Option.bind_some, reads]

/-- A text that is too long, or has a `%` in it, leaves `locbuf`. -/
theorem initdbgCall_outside {env : Env} {files : List Byte → Option (List Byte)} {u : Nat → Unset}
    {locbuf : Locbuf} {argc : Int} {argv : List (List Byte)} {s : State}
    (clean : ∀ arg ∈ argv, 0 ∉ arg)
    (h : ¬ ((mainText argc argv).length < DBGBUF ∧ 37 ∉ mainText argc argv)) :
    initdbgCall env files u locbuf argc argv s = .error .locbuf := by
  unfold initdbgCall
  dsimp only
  rw [locbuf_eq locbuf clean, if_neg h]

/-- The arguments of a program. -/
def argvOf (pgmname : CString) (args : List CString) : List (List Byte) :=
  (pgmname :: args).map CString.chars

theorem argvOf_clean (pgmname : CString) (args : List CString) :
    ∀ arg ∈ argvOf pgmname args, 0 ∉ arg := by
  intro arg there
  obtain ⟨chars, -, rfl⟩ := List.mem_map.1 there
  exact chars.clean

/-- `initdbg` stays inside `locbuf`, reaches for no function that is not there,
leaves the number of arguments before the first `-@`, and has the text printed. -/
structure StartsRight (argv : List (List Byte)) (r : Except Stop Started) : Prop where
  locbuf : r ≠ .error .locbuf
  frame : r ≠ .error .nullFrame
  argc : ∀ started, r = .ok started → started.argc = 1 + (argv.tail.takeWhile (!isAt ·)).length
  printed : ∀ started, r = .ok started → started.call.chars = mainText argv.length argv

theorem StartsRight.of_ok {argv : List (List Byte)} {started : Started}
    (argc : started.argc = 1 + (argv.tail.takeWhile (!isAt ·)).length)
    (printed : started.call.chars = mainText argv.length argv) : StartsRight argv (.ok started) where
  locbuf := nofun
  frame := nofun
  argc := by
    rintro _ ⟨⟩
    exact argc
  printed := by
    rintro _ ⟨⟩
    exact printed

theorem StartsRight.of_error {argv : List (List Byte)} {e : Stop} (locbuf : e ≠ .locbuf)
    (frame : e ≠ .nullFrame) : StartsRight argv (.error e) where
  locbuf h := locbuf (by cases h; rfl)
  frame h := frame (by cases h; rfl)
  argc _ h := nomatch h
  printed _ h := nomatch h

/-- No number that is read behind commands and files is one that is not negative. -/
def NoNumber (env : Env) (files : List Byte → Option (List Byte)) (u : Nat → Unset)
    (argv : List (List Byte)) (s : State) : Prop :=
  ∀ newargc arg rest, findAt argv.tail 1 = some (newargc, arg, rest) →
    (∃ left' t, readCommands env files u arg rest
      ((s.setFp .stdout).setDtst DBG_DTSTOFF DBG_DTSTOFF) = .ok (left', t)) →
    ∀ n ∈ (rest.dropWhile (!startsNumber ·)).take 2, (sscanfD n).getD DBG_DTSTOFF < 0

/-- Behind a `-@`: right, unless a number changes the status of a function that is
not there. -/
theorem found_right {env : Env} {files : List Byte → Option (List Byte)} {u : Nat → Unset}
    {argv : List (List Byte)} {s : State} {newargc : Nat} {arg : List Byte}
    {rest : List (List Byte)} {call : Call} (search : findAt argv.tail 1 = some (newargc, arg, rest))
    (printed : call.chars = mainText argv.length argv) :
    StartsRight argv ((readCommands env files u arg rest
        ((s.setFp .stdout).setDtst DBG_DTSTOFF DBG_DTSTOFF)).bind fun (argv, s) =>
          (readNumbers argv s).map fun s => ⟨newargc, call, s⟩) ↔
      (s.thrd.stack = [] → NoNumber env files u argv s) := by
  cases commands : readCommands env files u arg rest
      ((s.setFp .stdout).setDtst DBG_DTSTOFF DBG_DTSTOFF) with
  | error e =>
    refine iff_of_true (.of_error ?_ ?_) fun _ newargc' arg' rest' found ok => ?_
    · rintro rfl
      exact readCommands_ne (.inl rfl) arg rest _ commands
    · rintro rfl
      exact readCommands_ne (.inr rfl) arg rest _ commands
    · rw [search] at found
      cases found
      obtain ⟨left', t, ok⟩ := ok
      rw [commands] at ok
      cases ok
  | ok read =>
    obtain ⟨left', t⟩ := read
    obtain ⟨rfl, chain, dtsts⟩ := readCommands_left commands
    have none' : t.thrd.stack = [] ↔ s.thrd.stack = [] := by
      rw [← List.map_eq_nil_iff (f := DBG.funcname), ← List.map_eq_nil_iff (f := DBG.funcname)]
      exact Eq.congr_left chain
    dsimp only [Except.bind]
    obtain ⟨failed, empty, n, there, natural⟩ | ⟨⟨t', numbers⟩, negative⟩ := readNumbers_eq dtsts
    · rw [failed]
      refine iff_of_false (fun right => right.frame rfl) fun harmless => natural ?_
      exact harmless (none'.1 empty) newargc arg rest search ⟨_, t, commands⟩ n there
    · rw [numbers]
      refine iff_of_true (.of_ok ?_ printed) fun empty newargc' arg' rest' found _ => ?_
      · rw [findAt_some search]
        rfl
      · rw [search] at found
        cases found
        exact negative (none'.2 empty)

/-- **Every command line.** `initdbg` does right exactly if the text fits `locbuf`
and there is no `%` in it, and no number is read that is not negative, or there is
a function already. -/
theorem initdbg_right (env : Env) (files : List Byte → Option (List Byte)) (u : Nat → Unset)
    (locbuf : Locbuf) (pgmname : CString) (args : List CString) (s : State) :
    StartsRight (argvOf pgmname args) (initdbgCall env files u locbuf
        (argvOf pgmname args).length (argvOf pgmname args) s) ↔
      ((mainText (argvOf pgmname args).length (argvOf pgmname args)).length < DBGBUF ∧
        37 ∉ mainText (argvOf pgmname args).length (argvOf pgmname args)) ∧
      (s.thrd.stack = [] → NoNumber env files u (argvOf pgmname args) s) := by
  have clean := argvOf_clean pgmname args
  have front : (argvOf pgmname args).length = 1 + (argvOf pgmname args).tail.length :=
    Nat.add_comm _ _
  generalize argvOf pgmname args = argv at clean front ⊢
  have positive : (argv.length : Int) > 0 := by omega
  by_cases fits : (mainText argv.length argv).length < DBGBUF ∧ 37 ∉ mainText argv.length argv
  swap
  · exact iff_of_false (fun right => right.locbuf (initdbgCall_outside clean fits))
      fun both => fits both.1
  rw [and_iff_right fits]
  unfold initdbgCall
  dsimp only
  rw [locbuf_eq locbuf clean, if_pos fits, if_pos positive]
  dsimp only
  have printed := unescape_plain fits.2
  cases search : findAt argv.tail 1 with
  | none =>
    refine iff_of_true (.of_ok ?_ printed) fun _ newargc arg rest found => ?_
    · rw [findAt_none search]
      exact congrArg Nat.cast front
    · rw [search] at found
      cases found
  | some found => exact found_right search printed

/-- A `%`, enough arguments with blanks, and a number behind a `-@`. -/
theorem initdbg_wrong :
    initdbgCall .zero (fun _ => none) (fun _ => .zero) .zero 2 [text "prog", text "50%"]
      (.initial .stderr) = .error .locbuf ∧
    initdbgCall .zero (fun _ => none) (fun _ => .zero) .zero 401
      (text "prog" :: List.replicate 400 (text "a b")) (.initial .stderr) = .error .locbuf ∧
    initdbgCall .zero (fun _ => none) (fun _ => .zero) .zero 3 [text "prog", text "-@", text "7"]
      (.initial .stderr) = .error .nullFrame := by
  refine ⟨initdbgCall_outside (by decide) (by decide),
    initdbgCall_outside ?_ (by decide +kernel), ?_⟩
  · intro arg there
    obtain rfl | there := List.mem_cons.1 there
    · decide
    · rw [List.eq_of_mem_replicate there]
      decide
  · unfold initdbgCall
    dsimp only
    rw [locbuf_eq .zero (by decide), if_pos (by decide)]
    rfl

/-- `initdbg` calls `edbg` with the text, where it gets there. -/
theorem initdbgCall_fmt {env : Env} {files : List Byte → Option (List Byte)} {u : Nat → Unset}
    {locbuf : Locbuf} {argc : Int} {argv : List (List Byte)} {s : State} {started : Started}
    (clean : ∀ arg ∈ argv, 0 ∉ arg)
    (h : initdbgCall env files u locbuf argc argv s = .ok started) :
    started.call.fmt = mainText argc argv := by
  unfold initdbgCall at h
  dsimp only at h
  rw [locbuf_eq locbuf clean] at h
  split at h
  · cases h
  · rename_i fmt there
    obtain rfl : fmt = mainText argc argv := by
      split at there
      · exact (Option.some_inj.1 there).symm
      · cases there
    split at h
    · cases h
      rfl
    · obtain ⟨read, -, h⟩ := bind_ok h
      obtain ⟨t, -, rfl⟩ := map_ok h
      rfl

/-- The function that the program starts with. -/
def mainName : FunctionName :=
  ⟨text "main", by decide, fun c there => by
    have legal : (text "main").all fun c =>
        c ≠ 0 ∧ c < 128 ∧ isspace c = false ∧ c ≠ 40 ∧ c ≠ 37 := by decide
    exact of_decide_eq_true (List.all_eq_true.1 legal c there)⟩

theorem mainText_enters {argc : Int} {argv : List (List Byte)} {call : Call}
    (fmt : call.fmt = mainText argc argv) : Enter mainName.chars call := by
  obtain ⟨_, arg, chars⟩ := call
  obtain rfl : _ = mainText argc argv := fmt
  have front : text "main(argc=" = text "main" ++ text "(argc=" := by decide
  rw [mainText, mainHead, front, List.append_assoc, List.append_assoc, List.append_assoc]
  exact .literal _ _ _ fun c there => by cases there; decide

/-- **`main` is entered** by every `initdbg` that returns. -/
theorem initdbg_enters {env : Env} {files : List Byte → Option (List Byte)} {u : Nat → Unset}
    {locbuf : Locbuf} {argc newargc : Int} {argv : List (List Byte)} {s t : State}
    (clean : ∀ arg ∈ argv, 0 ∉ arg)
    (h : initdbg env files u locbuf argc argv s = .ok (newargc, t)) :
    ∃ top s', Enters env (text "main") top s' t := by
  obtain ⟨started, called, entered⟩ := bind_ok h
  split at entered
  swap
  · cases entered
  rename_i t' entered'
  cases entered
  obtain ⟨funcname, top, named, enters⟩ := edbg_enters entered'
  obtain cut | ⟨long, -⟩ := edbgName_eq (mainText_enters (initdbgCall_fmt clean called))
  · rw [cut] at named
    cases named
    exact ⟨top, _, enters⟩
  · exact absurd long (by decide)

end UnixProgramming.Dbg
