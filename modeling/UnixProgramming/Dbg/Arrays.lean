import UnixProgramming.Dbg.History
import UnixProgramming.Dbg.Names
import UnixProgramming.Heap.Chars

/-!
# The debugger's arrays

What the calls store in `edbg`'s `buf`, in `thrd->dbgbuf`, in the `funcname` of
`DBG`, `DBGCMD` and `DBGPREQ` and in the `fname` of `edbg2`, and what they read
there. `none` stands for an access outside one of them.

* `dstptokInto_eq`: a token in an array;
* `access_inside`: a call whose texts fit stays inside;
* `arrays_inside`: so do all calls of a run.
-/

namespace UnixProgramming.Dbg

open Runs
open Ssl (Byte stpblk stpnxt isspace)
open Heap (DList Keyed lookup)
open Heap.Chars

/-! ## Tokens -/

/-- The second loop of `dstptok`, from a character that is in no `brk` on. -/
def tokenInto (brk : List Byte) : List Byte → List Byte → Nat → Nat → Option (List Byte)
  | [], a, tok, _ => blit a tok [0]
  | c :: s, a, tok, toklen =>
    if toklen > 1 then
      if brk.contains c then blit a tok [0]
      else (blit a tok [c]).bind fun a => tokenInto brk s a (tok + 1) (toklen - 1)
    else blit a tok [0]

def dstptokInto (s a : List Byte) (toklen : Nat) (brk : List Byte) : Option (List Byte) :=
  (blit a 0 [0]).bind fun a =>
    match s.dropWhile brk.contains with
    | [] => some a
    | s => tokenInto brk s a 0 toklen

theorem tokenInto_eq (brk s : List Byte) {a : List Byte} {tok toklen : Nat} :
    tokenInto brk s a tok toklen =
      strcpyAt 0 a tok ((s.take (toklen - 1)).takeWhile (!brk.contains ·)) := by
  induction s generalizing a tok toklen with
  | nil => rw [List.take_nil]; rfl
  | cons c s ih =>
    rw [tokenInto]
    by_cases more : toklen > 1
    · obtain ⟨n, rfl⟩ : ∃ n, toklen = n + 2 := ⟨toklen - 2, by omega⟩
      rw [if_pos more, Nat.add_succ_sub_one, List.take_succ_cons]
      by_cases stop : brk.contains c
      · rw [if_pos stop, List.takeWhile_cons_of_neg (by simpa using stop)]
        rfl
      · rw [if_neg stop, List.takeWhile_cons_of_pos (by simpa using stop), strcpyAt,
          List.cons_append]
        refine (Option.bind_congr fun a' _ => ?_).trans (blit_cons a tok c _)
        rw [ih, strcpyAt, Nat.add_sub_assoc (by decide)]
        rfl
    · rw [if_neg more, Nat.sub_eq_zero_of_le (Nat.not_lt.1 more)]
      rfl

/-- **`dstptok` stores its token**, if the array has a place for the terminator. -/
theorem dstptokInto_eq (s : List Byte) {a : List Byte} (toklen : Nat) (brk : List Byte)
    (some' : 0 < a.length) :
    dstptokInto s a toklen brk = strcpyAt 0 a 0 (dstptok s toklen brk).1 := by
  have place : 0 + [(0 : Byte)].length ≤ a.length := by rwa [Nat.zero_add]
  obtain ⟨a', first⟩ := Option.isSome_iff_exists.1 (blit_isSome.2 place)
  rw [dstptokInto, first, Option.bind_some, dstptok]
  cases s.dropWhile brk.contains with
  | nil => exact first.symm
  | cons c rest =>
    dsimp only
    rw [tokenInto_eq]
    exact blit_again first (by simp)

theorem dstptok_length (s : List Byte) (toklen : Nat) (brk : List Byte) :
    (dstptok s toklen brk).1.length ≤ toklen - 1 := by
  unfold dstptok
  split
  · exact Nat.zero_le _
  · exact (List.takeWhile_prefix _).length_le.trans (List.length_take_le _ _)

theorem dstptok_mem {s brk : List Byte} {toklen : Nat} {c : Byte}
    (h : c ∈ (dstptok s toklen brk).1) : c ∈ s := by
  unfold dstptok at h
  split at h
  · cases h
  · have token := List.mem_of_mem_take ((List.takeWhile_prefix _).subset h)
    exact (List.dropWhile_suffix _).subset token

/-! ## What the calls store and read -/

/-- `edbg`'s `buf`, the `dbgbuf` of the thread, and the memory of `fname`. -/
structure Arrays where
  buf : List Byte
  dbgbuf : List Byte
  fname : List Byte

/-- The function name in `buf`. -/
def edbgBuf (c : Call) (buf : List Byte) : Option (List Byte) :=
  if [37, 115].isPrefixOf c.fmt then strcpyAt 0 buf 0 c.name
  else (dstptokInto c.fmt buf DBGBUF (text "(")).bind fun buf => blit buf (FUNCBUF - 1) [0]

/-- `memset(funcname,0,sizeof(funcname)); strcpy(funcname,name)` -/
def setFuncname (name : List Byte) : Option (List Byte) :=
  strcpyAt 0 (List.replicate FUNCBUF 0) 0 name

/-- The name of an output file in `fname`. -/
def openFname (id : Nat) (filename fname : List Byte) : Option (List Byte) :=
  (strcpyAt 0 fname 0 filename).bind fun fname =>
    (str 0 fname 0).bind fun s =>
      if s.contains 37 then strcpyAt 0 fname (s.length - 1) (decimal id) else some fname

/-- The output that `edbg2` opens. -/
def closedOut (d : Option DBGCMD) (s : State) : Option DBGOUT :=
  (((firing d s.chain).bind DBGCMD.dbgout).bind s.g.outs.val?).filter fun o => o.fp.isNone

def edbg2Fname (d : Option DBGCMD) (s : State) (fname : List Byte) : Option (List Byte) :=
  match closedOut d s with
  | none => some fname
  | some dbgout => openFname s.thrd.id dbgout.filename fname

/-- The entry line in `dbgbuf`. -/
def enterDbgbuf (c : Call) (s : State) (dbgbuf : List Byte) : Option (List Byte) :=
  if s.thrd.stack.head?.any fun dbgtl => dbgtl.status = .on ∨ dbgtl.status = .ondis then
    (snprintf 0 dbgbuf DBGBUF c.chars).bind fun dbgbuf => strcat 0 dbgbuf (text "\x7b\n")
  else some dbgbuf

def edbgAccess (env : Env) (c : Call) (s : State) (m : Arrays) : Option Arrays :=
  (edbgBuf c m.buf).bind fun buf =>
  -- `for(b= buf + 1; *b; ++b)` also behind an empty name
  (str 0 buf 1).bind fun rest =>
    if (buf.headD 0 :: rest).any (· ≥ 128) then some { m with buf := buf }
    else
      (str 0 buf 0).bind fun funcname =>
      (setFuncname funcname).bind fun _ =>
        let d := findCmd s.g.cmds funcname
        (edbg2Fname d (push env funcname s) m.fname).bind fun fname =>
          match edbg2 env d (push env funcname s) with
          | .error _ => some { m with buf := buf, fname := fname }
          | .ok s => (enterDbgbuf c s m.dbgbuf).map fun dbgbuf => ⟨buf, dbgbuf, fname⟩

/-- `dbgbuf` against the name of the current function. -/
def rdbgAccess (c : Call) (s : State) (m : Arrays) : Option Arrays :=
  let token dbgbuf := dstptokInto (stpblk c.fmt) dbgbuf DBGBUF (text " \t(")
  match s.thrd.stack with
  | [] => some m
  | dbgtl :: _ =>
    if dbgtl.status = .unknown then some m
    else
      (if dbgtl.status = .off then token m.dbgbuf else some m.dbgbuf).bind fun dbgbuf =>
      (if [37, 115].isPrefixOf c.fmt then strcpyAt 0 dbgbuf 0 c.name
        else token dbgbuf).bind fun dbgbuf =>
      (str 0 dbgbuf 0).map fun _ => { m with dbgbuf := dbgbuf }

/-- `dbgbuf[slen-1]` -/
def readLast (dbgbuf : List Byte) : Nat → Option Byte
  | 0 => none
  | slen + 1 => dbgbuf[slen]?

/-- Whether a `dprintf` of this detail level prints, and more than newlines. -/
def prints (detail : Int) (fmt : List Byte) (dbgtl : DBG) : Bool :=
  dbgtl.status = .on ∧ (detail < 0 ∧ dbgtl.detail = -detail ∨ detail ≥ 0 ∧ dbgtl.detail ≥ detail) ∧
    (fmt.takeWhile (· = 10)).length ≠ fmt.length

def dprintfAccess (detail : Int) (c : Call) (s : State) (m : Arrays) : Option Arrays :=
  if s.thrd.stack.head?.any (prints detail c.fmt) then
    (snprintf 0 m.dbgbuf DBGBUF c.chars).bind fun dbgbuf =>
    (str 0 dbgbuf 0).bind fun printed =>
    (readLast dbgbuf printed.length).map fun _ => { m with dbgbuf := dbgbuf }
  else some m

def dlongjmpAccess (c : Call) (s : State) (m : Arrays) : Option Arrays :=
  if s.thrd.stack = [] ∨ c.fmt = [] then some m
  else
    (dstptokInto (stpblk c.fmt) m.dbgbuf DBGBUF (text " \t(")).bind fun dbgbuf =>
    (str 0 dbgbuf 0).map fun _ => { m with dbgbuf := dbgbuf }

/-! ## What a line stores -/

/-- `sscanf(s,"%s",word)` into `modebuf` or `fnamebuf`, with what is in it before. -/
def sscanfInto (s word : List Byte) : Option (List Byte) :=
  match sscanfS s with
  | none => some word
  | some w => if w.length ≥ DBGBUF then none else some w

/-- The loop of `parsePreqs` with the names that it copies: what is left of the
line, and what is in `modebuf` behind it. -/
def preqsInto : Nat → List Byte → List Byte → Option (List Byte × List Byte)
  | 0, b, modebuf => some (b, modebuf)
  | turns + 1, b, modebuf =>
    if b = [] ∨ b.head? = some 62 then some (b, modebuf)
    else
      let next := (stpnxt b fmtSB).getD []
      (sscanfInto b modebuf).bind fun modebuf =>
        match preqOf modebuf with
        | none => preqsInto turns next modebuf
        | some preq =>
          let modebuf := if isalpha (modebuf.headD 0) then modebuf.take (FUNCBUF - 1)
            else modebuf.take FUNCBUF
          (setFuncname preq.funcname).bind fun _ => preqsInto turns next modebuf

/-- `command` up to the output file. -/
def commandAccess (u : Unset) (buf modebuf fnamebuf : List Byte) (s : State) : Option Unit :=
  let found := s.g.cmds.find fun d => d.funcname == fnamebuf
  let (p, d, s) := allocCmd u fnamebuf found s
  (if found.isNone then setFuncname fnamebuf else some d.funcname).bind fun _ =>
    match parseDetail buf (defaults modebuf (prvCmd s.g.cmds p) d) with
    | .error _ => some ()
    | .ok (d, b) =>
      let b := (parseColons d b).2
      (preqsInto (b.length + 1) b modebuf).bind fun (b, modebuf) =>
        if b.head? = some 62 then (sscanfInto b.tail modebuf).map fun _ => () else some ()

def lineAccess (u : Unset) (buf : List Byte) (s : State) : Option Unit :=
  let buf := stripped buf
  if buf = [] then some ()
  else
    (sscanfInto buf u.modebuf).bind fun modebuf =>
    (sscanfInto ((stpblk buf).dropWhile (!isspace ·)) u.fnamebuf).bind fun fnamebuf =>
      if modebuf = text "del" then some ()
      else commandAccess u buf modebuf (fnamebuf.take (FUNCBUF - 1)) s

def initdbg3Access (u : Unset) (buf : List Byte) (s : State) (m : Arrays) : Option Arrays :=
  (lineAccess u buf s).bind fun _ =>
    match readLine u buf s with
    | .error _ => some m
    | .ok (none, _) => some m
    | .ok (some d, s) =>
      if s.thrd.stack.head?.any fun dbgtl => d.funcname = dbgtl.funcname then
        (edbg2Fname (some d) s m.fname).map fun fname => { m with fname := fname }
      else some m

/-- All of a call's accesses. -/
def access (env : Env) (s : State) (m : Arrays) : Act → Option Arrays
  | .edbg c => edbgAccess env c s m
  | .rdbg c => rdbgAccess c s m
  | .dprintf detail c => dprintfAccess detail c s m
  | .initdbg3 u buf => initdbg3Access u buf s m
  | .dlongjmp _ c => dlongjmpAccess c s m
  | .dbgswitch _ => some m
  | .dsetjmp _ => some m

/-- A call on the state and in the arrays. -/
def stepArrays (env : Env) (p : State × Arrays) (a : Act) : Option (State × Arrays) :=
  (step env p.1 a).bind fun s => (access env p.1 p.2 a).map fun m => (s, m)

/-! ## Texts that fit -/

/-- The arrays between calls: there is a terminator at the end of every name in
`buf`. -/
structure Arrays.Held (m : Arrays) : Prop where
  buf : m.buf.length = DBGBUF
  stop : m.buf[FUNCBUF - 1]? = some 0
  dbgbuf : m.dbgbuf.length = DBGBUF
  fname : m.fname.length = FUNCBUF

/-- A name from the arguments fits `funcname`, or it fits `buf` and is not legal. -/
def NameFits (c : Call) : Prop :=
  [37, 115].isPrefixOf c.fmt → c.name.length < FUNCBUF ∨
    c.name.length < DBGBUF ∧ c.name.any (· ≥ 128)

/-- If an output file is opened then its name fits `fname`, also with the number
of the thread. -/
def FileFits (d : Option DBGCMD) (s : State) : Prop :=
  ∀ dbgout ∈ closedOut d s,
    max dbgout.filename.length (outName s.thrd.id dbgout.filename).length < FUNCBUF

/-- If an entry line is kept then there is a place for what is appended to it. -/
def EntryFits (c : Call) (dbgtl : DBG) : Prop :=
  dbgtl.status = .on ∨ dbgtl.status = .ondis → (c.chars.takeWhile (· ≠ 0)).length + 2 < DBGBUF

/-- What goes into the arrays fits them. -/
def Fits (env : Env) (s : State) : Act → Prop
  | .edbg c => NameFits c ∧ ∀ funcname, edbgName c = .ok funcname → ¬ funcname.any (· ≥ 128) →
      FileFits (findCmd s.g.cmds funcname) (push env funcname s) ∧
      EntryFits c (processed (findCmd s.g.cmds funcname) (funcname :: s.chain) s.thrd.stack.head?
        (newFrame env funcname s))
  | .rdbg c => ∀ dbgtl ∈ s.thrd.stack.head?, dbgtl.status ≠ .unknown →
      [37, 115].isPrefixOf c.fmt → c.name.length < DBGBUF
  | .dprintf detail c => ∀ dbgtl ∈ s.thrd.stack.head?, prints detail c.fmt dbgtl →
      c.chars.headD 0 ≠ 0
  | .initdbg3 u buf => ShortWords (stripped buf) ∧ ∀ d t, readLine u buf s = .ok (some d, t) →
      ∀ dbgtl ∈ t.thrd.stack.head?, d.funcname = dbgtl.funcname → FileFits (some d) t
  | .dbgswitch _ | .dsetjmp _ | .dlongjmp _ _ => True

section
variable {a : List Byte}

/-- A token fits an array that is as long as `dstptok` is told. -/
theorem dstptokInto_some (s brk : List Byte) (h : a.length = DBGBUF) :
    ∃ a', dstptokInto s a DBGBUF brk = some a' ∧ a'.length = DBGBUF ∧
      str 0 a' 0 = some ((dstptok s DBGBUF brk).1.takeWhile (· ≠ 0)) := by
  have some' : 0 < a.length := by rw [h]; decide
  have short := dstptok_length s DBGBUF brk
  have place : 0 + (dstptok s DBGBUF brk).1.length < a.length := by omega
  obtain ⟨a', stored, length⟩ := strcpyAt_some 0 place
  refine ⟨a', (dstptokInto_eq s DBGBUF brk some').trans stored, length.trans h, ?_⟩
  exact strcpyAt_reads stored

/-- A text that is cut to the length of the array. -/
theorem snprintf_some (chars : List Byte) (h : a.length = DBGBUF) :
    ∃ a', snprintf 0 a DBGBUF chars = some a' ∧ a'.length = DBGBUF ∧
      str 0 a' 0 = some ((chars.take (DBGBUF - 1)).takeWhile (· ≠ 0)) := by
  have cut := List.length_take_le (DBGBUF - 1) chars
  have : 0 < DBGBUF := by decide
  have place : 0 + (chars.take (DBGBUF - 1)).length < a.length := by omega
  obtain ⟨a', stored, length⟩ := strcpyAt_some 0 place
  exact ⟨a', stored, length.trans h, strcpyAt_reads stored⟩

theorem openFname_some {id : Nat} {filename : List Byte} (h : a.length = FUNCBUF)
    (fits : max filename.length (outName id filename).length < FUNCBUF) :
    ∃ a', openFname id filename a = some a' ∧ a'.length = FUNCBUF := by
  have place : 0 + filename.length < a.length := by omega
  obtain ⟨a', stored, length⟩ := strcpyAt_some 0 place
  have reads := strcpyAt_reads stored
  rw [openFname, stored, Option.bind_some, reads, Option.bind_some]
  split
  · rename_i percent
    have there : filename.contains 37 := by
      rw [List.contains_iff_mem] at percent ⊢
      exact (List.takeWhile_prefix _).subset percent
    have shorter := (List.takeWhile_prefix (l := filename) (· ≠ (0 : Byte))).length_le
    rw [outName, if_pos there, List.length_append, List.length_dropLast] at fits
    have place' : (filename.takeWhile (· ≠ 0)).length - 1 + (decimal id).length < a'.length := by
      omega
    obtain ⟨a'', stored', length'⟩ := strcpyAt_some 0 place'
    exact ⟨a'', stored', length'.trans (length.trans h)⟩
  · exact ⟨a', rfl, length.trans h⟩

theorem edbg2Fname_some {d : Option DBGCMD} {s : State} (h : a.length = FUNCBUF)
    (fits : FileFits d s) : ∃ a', edbg2Fname d s a = some a' ∧ a'.length = FUNCBUF := by
  unfold edbg2Fname
  split
  · exact ⟨a, rfl, h⟩
  · rename_i dbgout closed
    exact openFname_some h (fits dbgout closed)

/-! ## Calls that stay inside -/

theorem edbgName_length {c : Call} {funcname : List Byte} (h : edbgName c = .ok funcname) :
    funcname.length < FUNCBUF := by
  unfold edbgName at h
  split at h
  · split at h
    · cases h
    · rename_i short
      cases h
      exact Nat.not_le.1 short
  · cases h
    exact (List.length_take_le _ _).trans_lt (by decide)

/-- The name in `buf` behind a format of its own. -/
theorem edbgBuf_format {c : Call} (literal : ¬ [37, 115].isPrefixOf c.fmt) (clean : 0 ∉ c.fmt)
    (h : a.length = DBGBUF) : ∃ a' funcname, edbgBuf c a = some a' ∧ a'.length = DBGBUF ∧
      edbgName c = .ok funcname ∧ str 0 a' 0 = some funcname ∧ a'[FUNCBUF - 1]? = some 0 := by
  obtain ⟨a', stored, length, reads⟩ := dstptokInto_some c.fmt (text "(") h
  have inside : FUNCBUF - 1 < a'.length := by
    rw [length]
    decide
  have whole : (dstptok c.fmt DBGBUF (text "(")).1.takeWhile (· ≠ 0) =
      (dstptok c.fmt DBGBUF (text "(")).1 := by
    refine List.takeWhile_eq_self_iff.2 fun x there => ?_
    simpa using ne_of_mem_of_not_mem (dstptok_mem there) clean
  have cut := set_str reads (FUNCBUF - 1)
  rw [whole, Nat.zero_add] at cut
  refine ⟨a'.set (FUNCBUF - 1) 0, _, ?_, ?_, ?_, cut, ?_⟩
  · rw [edbgBuf, if_neg literal, stored, Option.bind_some, blit_one inside]
  · rw [List.length_set, length]
  · rw [edbgName, if_neg literal]
  · exact List.getElem?_set_self inside

/-- A name from the arguments in `buf`. -/
theorem edbgBuf_argument {c : Call} (argument : [37, 115].isPrefixOf c.fmt) (clean : 0 ∉ c.name)
    (h : a.length = DBGBUF) (stop : a[FUNCBUF - 1]? = some 0) (short : c.name.length < DBGBUF) :
    ∃ a', edbgBuf c a = some a' ∧ a'.length = DBGBUF ∧ str 0 a' 0 = some c.name ∧
      (c.name.length < FUNCBUF → edbgName c = .ok c.name ∧ a'[FUNCBUF - 1]? = some 0) := by
  have place : 0 + c.name.length < a.length := by omega
  obtain ⟨a', stored, length⟩ := strcpyAt_some 0 place
  have reads := strcpyAt_str stored clean
  refine ⟨a', by rw [edbgBuf, if_pos argument, stored], length.trans h, reads, fun fits => ⟨?_, ?_⟩⟩
  · rw [edbgName, if_pos argument, if_neg (by omega)]
  · by_cases last : c.name.length = FUNCBUF - 1
    · have ends := getElem?_end reads
      rwa [Nat.zero_add, last] at ends
    · have kept := blit_behind stored (j := FUNCBUF - 1) (by
        rw [List.length_append, List.length_singleton]
        omega)
      have first := congrArg List.head? kept
      rwa [List.head?_drop, List.head?_drop, stop] at first

/-- The scan of `buf` sees every character of the name. -/
theorem scan_name {name rest : List Byte} (reads : str 0 a 0 = some name)
    (scan : str 0 a 1 = some rest) (illegal : name.any (· ≥ 128)) :
    (a.headD 0 :: rest).any (· ≥ 128) := by
  cases name with
  | nil => cases illegal
  | cons c name =>
    have behind := str_add reads (n := 1) (by simp)
    rw [Nat.zero_add, scan] at behind
    cases behind
    obtain ⟨-, tail, split'⟩ := str_eq_some.1 reads
    rw [List.drop_zero] at split'
    rw [split']
    exact illegal

theorem takeWhile_cut (p : Byte → Bool) (s : List Byte) (n : Nat) :
    ((s.take n).takeWhile p).length ≤ (s.takeWhile p).length := by
  induction s generalizing n with
  | nil => simp
  | cons c s ih =>
    cases n with
    | zero => simp
    | succ n =>
      rw [List.take_succ_cons, List.takeWhile_cons, List.takeWhile_cons]
      split
      · exact Nat.succ_le_succ (ih n)
      · exact Nat.le_refl 0

theorem enterDbgbuf_some {c : Call} {s : State} {dbgtl : DBG} {below : List DBG}
    (stack : s.thrd.stack = dbgtl :: below) (h : a.length = DBGBUF) (fits : EntryFits c dbgtl) :
    ∃ a', enterDbgbuf c s a = some a' ∧ a'.length = DBGBUF := by
  unfold enterDbgbuf
  rw [stack, List.head?_cons, Option.any_some]
  split
  · rename_i active
    have place := fits (by simpa using active)
    obtain ⟨a', stored, length, reads⟩ := snprintf_some c.chars h
    have cut := takeWhile_cut (· ≠ 0) c.chars (DBGBUF - 1)
    have room : ((c.chars.take (DBGBUF - 1)).takeWhile (· ≠ 0)).length +
        (text "\x7b\n").length < a'.length := by
      rw [length]
      exact (Nat.add_le_add_right cut 2).trans_lt place
    obtain ⟨a'', appended⟩ := Option.isSome_iff_exists.1 ((strcat_isSome reads).2 room)
    rw [stored, Option.bind_some]
    exact ⟨a'', appended, (strcat_length appended).trans length⟩
  · exact ⟨a, rfl, h⟩

section
variable {env : Env} {s : State} {m : Arrays} {c : Call}

/-- What is in `buf`: the name that `edbg` takes, or one that it does not accept. -/
theorem edbgBuf_fits (clean : 0 ∉ c.fmt ∧ 0 ∉ c.name) (held : m.Held) (fits : NameFits c) :
    ∃ buf, edbgBuf c m.buf = some buf ∧ buf.length = DBGBUF ∧
      ∃ name, str 0 buf 0 = some name ∧
        (edbgName c = .ok name ∧ buf[FUNCBUF - 1]? = some 0 ∨
          name.any (· ≥ 128) ∧ ∀ funcname, edbgName c ≠ .ok funcname) := by
  by_cases argument : [37, 115].isPrefixOf c.fmt
  · have short : c.name.length < DBGBUF := by
      have : FUNCBUF < DBGBUF := by decide
      rcases fits argument with fits | fits <;> omega
    obtain ⟨buf, filled, length, reads, ok⟩ :=
      edbgBuf_argument argument clean.2 held.buf held.stop short
    refine ⟨buf, filled, length, c.name, reads, ?_⟩
    by_cases small : c.name.length < FUNCBUF
    · exact .inl (ok small)
    · refine .inr ⟨((fits argument).resolve_left small).2, fun funcname taken => ?_⟩
      rw [edbgName, if_pos argument, if_pos (Nat.not_lt.1 small)] at taken
      cases taken
  · obtain ⟨buf, name, filled, length, taken, reads, stop⟩ :=
      edbgBuf_format argument clean.1 held.buf
    exact ⟨buf, filled, length, name, reads, .inl ⟨taken, stop⟩⟩

/-- **`edbg` stays inside**, and if it returns then the next call finds the
arrays as this one has. -/
theorem edbgAccess_inside (clean : 0 ∉ c.fmt ∧ 0 ∉ c.name) (held : m.Held)
    (fits : Fits env s (.edbg c)) : ∃ m', edbgAccess env c s m = some m' ∧
      ∀ s', edbg env c s = .ok s' → m'.Held := by
  obtain ⟨buf, filled, length, name, reads, ends⟩ := edbgBuf_fits clean held fits.1
  obtain ⟨rest, scan⟩ : ∃ rest, str 0 buf 1 = some rest := by
    obtain ⟨-, stop⟩ | ⟨illegal, -⟩ := ends
    · exact Option.isSome_iff_exists.1 (str_isSome stop (by decide))
    · cases name with
      | nil => cases illegal
      | cons c name => exact ⟨_, str_add reads (n := 1) (by simp)⟩
  unfold edbgAccess
  rw [filled, Option.bind_some, scan, Option.bind_some]
  by_cases illegal : (buf.headD 0 :: rest).any (· ≥ 128)
  · rw [if_pos illegal]
    refine ⟨_, rfl, fun s' returned => ?_⟩
    obtain ⟨funcname, top, taken, -⟩ := edbg_enters returned
    obtain ⟨-, stop⟩ | ⟨-, other⟩ := ends
    · exact ⟨length, stop, held.dbgbuf, held.fname⟩
    · exact absurd taken (other funcname)
  · have legal := mt (scan_name reads scan) illegal
    obtain ⟨taken, stop⟩ := ends.resolve_right fun both => legal both.1
    have place : 0 + name.length < (List.replicate FUNCBUF (0 : Byte)).length := by
      rw [List.length_replicate, Nat.zero_add]
      exact edbgName_length taken
    obtain ⟨funcname, copied, -⟩ := strcpyAt_some 0 place
    obtain ⟨file, entry⟩ := fits.2 name taken legal
    obtain ⟨fname, opened, fnameLength⟩ := edbg2Fname_some held.fname file
    rw [if_neg illegal, reads, Option.bind_some, setFuncname, copied, Option.bind_some]
    dsimp only
    rw [opened, Option.bind_some]
    cases processed' : edbg2 env (findCmd s.g.cmds name) (push env name s) with
    | error e => exact ⟨_, rfl, fun _ _ => ⟨length, stop, held.dbgbuf, fnameLength⟩⟩
    | ok t =>
      have stack : (push env name s).thrd.stack = newFrame env name s :: s.thrd.stack := rfl
      rw [edbg2_eq stack] at processed'
      obtain ⟨t', -, rfl⟩ := map_ok processed'
      obtain ⟨dbgbuf, entered, dbgbufLength⟩ :=
        enterDbgbuf_some (s := t'.setStack (_ :: s.thrd.stack)) rfl held.dbgbuf entry
      exact ⟨_, congrArg (Option.map _) entered,
        fun _ _ => ⟨length, stop, dbgbufLength, fnameLength⟩⟩

theorem rdbgAccess_inside (held : m.Held) (fits : Fits env s (.rdbg c)) :
    ∃ m', rdbgAccess c s m = some m' ∧ m'.Held := by
  have token (a : List Byte) (h : a.length = DBGBUF) :
      ∃ a', dstptokInto (stpblk c.fmt) a DBGBUF (text " \t(") = some a' ∧ a'.length = DBGBUF ∧
        ∃ t, str 0 a' 0 = some t := by
    obtain ⟨a', stored, length, reads⟩ := dstptokInto_some (stpblk c.fmt) (text " \t(") h
    exact ⟨a', stored, length, _, reads⟩
  unfold rdbgAccess
  dsimp only
  cases stack : s.thrd.stack with
  | nil => exact ⟨m, rfl, held⟩
  | cons dbgtl below =>
    dsimp only
    split
    · exact ⟨m, rfl, held⟩
    rename_i known
    obtain ⟨dbgbuf, first, length⟩ : ∃ dbgbuf, (if dbgtl.status = .off then
        dstptokInto (stpblk c.fmt) m.dbgbuf DBGBUF (text " \t(") else some m.dbgbuf) = some dbgbuf ∧
        dbgbuf.length = DBGBUF := by
      split
      · obtain ⟨a', stored, length, -⟩ := token m.dbgbuf held.dbgbuf
        exact ⟨a', stored, length⟩
      · exact ⟨_, rfl, held.dbgbuf⟩
    obtain ⟨dbgbuf', second, length', t, reads⟩ : ∃ dbgbuf', (if [37, 115].isPrefixOf c.fmt then
        strcpyAt 0 dbgbuf 0 c.name else dstptokInto (stpblk c.fmt) dbgbuf DBGBUF (text " \t(")) =
          some dbgbuf' ∧ dbgbuf'.length = DBGBUF ∧ ∃ t, str 0 dbgbuf' 0 = some t := by
      split
      · rename_i argument
        have short := fits dbgtl (by rw [stack]; rfl) known argument
        have place : 0 + c.name.length < dbgbuf.length := by omega
        obtain ⟨a', stored, length'⟩ := strcpyAt_some 0 place
        exact ⟨a', stored, length'.trans length, _, strcpyAt_reads stored⟩
      · exact token dbgbuf length
    rw [first, Option.bind_some, second, Option.bind_some, reads]
    exact ⟨_, rfl, { held with dbgbuf := length' }⟩

/-- The last character of a text is in the array where there is one. -/
theorem readLast_some {a t : List Byte} (reads : str 0 a 0 = some t) (some' : t ≠ []) :
    ∃ c, readLast a t.length = some c := by
  have inside := str_length_lt reads
  cases t with
  | nil => exact absurd rfl some'
  | cons c t =>
    rw [List.length_cons] at inside
    exact ⟨_, List.getElem?_eq_getElem (by omega)⟩

theorem dprintfAccess_inside {detail : Int} (held : m.Held)
    (fits : Fits env s (.dprintf detail c)) : ∃ m', dprintfAccess detail c s m = some m' ∧ m'.Held := by
  unfold dprintfAccess
  split
  · rename_i printing
    obtain ⟨dbgtl, top, printing⟩ := (Option.any_eq_true _ _).1 printing
    have first := fits dbgtl top printing
    obtain ⟨dbgbuf, stored, length, reads⟩ := snprintf_some c.chars held.dbgbuf
    have some' : (c.chars.take (DBGBUF - 1)).takeWhile (· ≠ 0) ≠ [] := by
      cases chars : c.chars with
      | nil =>
        rw [chars] at first
        exact absurd rfl first
      | cons x chars' =>
        rw [chars] at first
        rw [DBGBUF, List.take_succ_cons, List.takeWhile_cons_of_pos (by simpa using first)]
        exact List.cons_ne_nil _ _
    obtain ⟨x, last⟩ := readLast_some reads some'
    rw [stored, Option.bind_some, reads, Option.bind_some, last]
    exact ⟨_, rfl, { held with dbgbuf := length }⟩
  · exact ⟨m, rfl, held⟩

theorem dlongjmpAccess_inside (held : m.Held) : ∃ m', dlongjmpAccess c s m = some m' ∧ m'.Held := by
  unfold dlongjmpAccess
  split
  · exact ⟨m, rfl, held⟩
  · obtain ⟨a', stored, length, reads⟩ := dstptokInto_some (stpblk c.fmt) (text " \t(") held.dbgbuf
    rw [stored, Option.bind_some, reads]
    exact ⟨_, rfl, { held with dbgbuf := length }⟩

/-! ## Lines of short words -/

theorem setFuncname_some {name : List Byte} (short : name.length < FUNCBUF) :
    ∃ a, setFuncname name = some a := by
  refine Option.isSome_iff_exists.1 (strcpyAt_isSome.2 ?_)
  rwa [List.length_replicate, Nat.zero_add]

theorem sscanfInto_some {b : List Byte} (short : ShortWords b) (word : List Byte) :
    ∃ w, sscanfInto b word = some w := by
  unfold sscanfInto
  split
  · exact ⟨_, rfl⟩
  · rename_i w read
    obtain ⟨isWord, there⟩ := sscanfS_word read
    exact ⟨w, if_neg (Nat.not_le.2 (short w isWord there))⟩

theorem preqOf_length {modebuf : List Byte} {preq : DBGPREQ} (h : preqOf modebuf = some preq) :
    preq.funcname.length < FUNCBUF := by
  unfold preqOf at h
  dsimp only at h
  split at h
  · cases h
  split at h
  · cases h
    exact (List.length_take_le _ _).trans_lt (by decide)
  · cases h
    rw [List.length_tail]
    exact (Nat.sub_le_sub_right (List.length_take_le _ _) 1).trans_lt (by decide)

theorem preqsInto_some (turns : Nat) {b : List Byte} (modebuf : List Byte) (short : ShortWords b) :
    ∃ b' w, preqsInto turns b modebuf = some (b', w) ∧ b' <:+ b := by
  induction turns generalizing b modebuf with
  | zero => exact ⟨b, modebuf, rfl, List.suffix_refl b⟩
  | succ turns ih =>
    rw [preqsInto]
    split
    · exact ⟨b, modebuf, rfl, List.suffix_refl b⟩
    have next := stpnxt_behind b fmtSB
    obtain ⟨w, read⟩ := sscanfInto_some short modebuf
    dsimp only
    rw [read, Option.bind_some]
    cases preq : preqOf w with
    | none =>
      obtain ⟨b', w', rest, behind⟩ := ih w (short.behind next)
      exact ⟨b', w', rest, behind.trans next⟩
    | some p =>
      obtain ⟨a, copied⟩ := setFuncname_some (preqOf_length preq)
      dsimp only
      rw [copied, Option.bind_some]
      obtain ⟨b', w', rest, behind⟩ := ih _ (short.behind next)
      exact ⟨b', w', rest, behind.trans next⟩

theorem commandAccess_some {u : Unset} {buf modebuf fnamebuf : List Byte} (short : ShortWords buf)
    (name : fnamebuf.length < FUNCBUF) : ∃ r, commandAccess u buf modebuf fnamebuf s = some r := by
  unfold commandAccess
  dsimp only
  obtain ⟨a, copied⟩ : ∃ a, (if (s.g.cmds.find fun d => d.funcname == fnamebuf).isNone then
      setFuncname fnamebuf else some (allocCmd u fnamebuf
        (s.g.cmds.find fun d => d.funcname == fnamebuf) s).2.1.funcname) = some a := by
    split
    · exact setFuncname_some name
    · exact ⟨_, rfl⟩
  rw [copied, Option.bind_some]
  split
  · exact ⟨_, rfl⟩
  · rename_i d b detail
    have behind := (parseColons_behind d b).trans (parseDetail_behind detail)
    obtain ⟨b', w, rest, behind'⟩ :=
      preqsInto_some ((parseColons d b).2.length + 1) modebuf (short.behind behind)
    rw [rest, Option.bind_some]
    dsimp only
    split
    · obtain ⟨w', read⟩ := sscanfInto_some
        (short.behind ((List.tail_suffix b').trans (behind'.trans behind))) w
      exact ⟨(), by rw [read]; rfl⟩
    · exact ⟨_, rfl⟩

theorem lineAccess_some {u : Unset} {buf : List Byte} (short : ShortWords (stripped buf)) :
    ∃ r, lineAccess u buf s = some r := by
  unfold lineAccess
  dsimp only
  split
  · exact ⟨_, rfl⟩
  have behind := (List.dropWhile_suffix (!isspace ·)).trans (Ssl.stpblk_suffix (stripped buf))
  obtain ⟨mode, read⟩ := sscanfInto_some short u.modebuf
  obtain ⟨fname, read'⟩ := sscanfInto_some (short.behind behind) u.fnamebuf
  rw [read, Option.bind_some, read', Option.bind_some]
  split
  · exact ⟨_, rfl⟩
  · exact commandAccess_some short ((List.length_take_le _ _).trans_lt (by decide))

theorem initdbg3Access_inside {u : Unset} {buf : List Byte} (held : m.Held)
    (fits : Fits env s (.initdbg3 u buf)) :
    ∃ m', initdbg3Access u buf s m = some m' ∧ m'.Held := by
  obtain ⟨short, file⟩ := fits
  obtain ⟨r, line⟩ := lineAccess_some (u := u) (s := s) short
  rw [initdbg3Access, line, Option.bind_some]
  split
  · exact ⟨m, rfl, held⟩
  · exact ⟨m, rfl, held⟩
  · rename_i d t read
    split
    · rename_i current
      obtain ⟨dbgtl, top, same⟩ := (Option.any_eq_true _ _).1 current
      obtain ⟨fname, opened, length⟩ :=
        edbg2Fname_some held.fname (file d t read dbgtl top (by simpa using same))
      exact ⟨_, congrArg (Option.map _) opened, { held with fname := length }⟩
    · exact ⟨m, rfl, held⟩

/-- **A call whose texts fit stays inside.** -/
theorem access_inside {a : Act} (clean : ∀ c, a = .edbg c → 0 ∉ c.fmt ∧ 0 ∉ c.name)
    (held : m.Held) (fits : Fits env s a) : ∃ m', access env s m a = some m' ∧
      ∀ s', step env s a = some s' → m'.Held := by
  have always {r : Option Arrays} (inside : ∃ m', r = some m' ∧ m'.Held) :
      ∃ m', r = some m' ∧ ∀ s', step env s a = some s' → m'.Held := by
    obtain ⟨m', eq, held'⟩ := inside
    exact ⟨m', eq, fun _ _ => held'⟩
  cases a with
  | edbg c =>
    obtain ⟨m', eq, next⟩ := edbgAccess_inside (clean c rfl) held fits
    exact ⟨m', eq, fun s' h => next s' (toOption_some h)⟩
  | rdbg c => exact always (rdbgAccess_inside held fits)
  | dprintf detail c => exact always (dprintfAccess_inside held fits)
  | initdbg3 u buf => exact always (initdbg3Access_inside held fits)
  | dlongjmp jb c => exact always (dlongjmpAccess_inside held)
  | dbgswitch on => exact always ⟨m, rfl, held⟩
  | dsetjmp jb => exact always ⟨m, rfl, held⟩

end

end

/-! ## Names that are stored -/

/-- The names in a command have their terminators in their arrays. -/
def CmdFits (d : DBGCMD) : Prop :=
  d.funcname.length < FUNCBUF ∧ ∀ preq ∈ d.preqs.vals, preq.funcname.length < FUNCBUF

/-- All names have. -/
structure NamesFit (s : State) : Prop where
  frames : ∀ dbg ∈ s.thrd.stack, dbg.funcname.length < FUNCBUF
  cmds : ∀ d ∈ s.g.cmds.vals, CmdFits d

def CmdsFit (cmds : DList DBGCMD) : Prop :=
  ∃ cells, Keyed DBGCMD.funcname cmds cells ∧
    ∀ f d, lookup DBGCMD.funcname cells f = some d → CmdFits d

theorem CmdsFit.empty {cmds : DList DBGCMD} (h : cmds.Is []) : CmdsFit cmds :=
  ⟨[], ⟨h, List.nodup_nil⟩, fun _ _ there => nomatch there⟩

/-- What holds between calls. -/
structure Named (s : State) : Prop where
  linked : Linked s.g
  cmds : CmdsFit s.g.cmds
  chain : ∀ funcname ∈ s.chain, funcname.length < FUNCBUF

theorem Named.fit {s : State} (h : Named s) : NamesFit s := by
  constructor
  · intro dbg there
    exact h.chain _ (List.mem_map_of_mem there)
  · obtain ⟨cells, keyed, fits⟩ := h.cmds
    intro d there
    rw [DList.vals_eq keyed.linked] at there
    obtain ⟨cell, inside, rfl⟩ := List.mem_map.1 there
    exact fits _ _ (keyed.mem inside)

/-- The prerequisites of a line are cut to their arrays. -/
theorem parsePreqs_names {turns : Nat} {d e : DBGCMD} {b modebuf rest last : List Byte}
    {s t : State} (h : parsePreqs turns d b modebuf s = .ok (e, rest, last, t))
    (held : ∃ cells, d.preqs.Is cells ∧ ∀ cell ∈ cells, cell.2.funcname.length < FUNCBUF) :
    ∃ cells, e.preqs.Is cells ∧ ∀ cell ∈ cells, cell.2.funcname.length < FUNCBUF := by
  induction turns generalizing d b modebuf s with
  | zero =>
    cases h
    exact held
  | succ turns ih =>
    rw [parsePreqs_succ] at h
    split at h
    · cases h
      exact held
    dsimp only at h
    split at h
    · cases h
    cases preq : preqOf ((sscanfS b).getD modebuf) with
    | none =>
      simp only [preq] at h
      exact ih h held
    | some p =>
      simp only [preq] at h
      obtain ⟨cells, linked, short⟩ := held
      refine ih h ⟨_, Heap.DList.append_is linked p, fun cell there => ?_⟩
      obtain there | there := List.mem_append.1 there
      · exact short cell there
      · rw [List.mem_singleton.1 there]
        exact preqOf_length preq

theorem readCommand_names {u : Unset} {buf modebuf fnamebuf : List Byte} {s t : State} {d : DBGCMD}
    (linked : Linked s.g) (h : readCommand u buf modebuf fnamebuf s = .ok (d, t)) :
    ∀ preq ∈ d.preqs.vals, preq.funcname.length < FUNCBUF := by
  obtain ⟨cells, db⟩ := linked
  obtain ⟨p, d₀, s₀, -, -, alloc, -, empty, -⟩ := allocCmd_held db u fnamebuf
  obtain ⟨d₁, b₁, d₂, b₂, last, s₂, s₃, detail, preqs, out, -⟩ := readCommand_stages alloc h
  have none' : (parseColons d₁ b₁).1.preqs = d₀.preqs :=
    (parseColons_kept d₁ b₁).2.trans (parseDetail_kept detail).2
  obtain ⟨cells', linked', short⟩ := parsePreqs_names preqs ⟨[], none' ▸ empty, nofun⟩
  intro preq there
  rw [(parseOut_kept out).2.1, DList.vals_eq linked'] at there
  obtain ⟨cell, inside, rfl⟩ := List.mem_map.1 there
  exact short cell inside

theorem readLine_cmdsFit {u : Unset} {buf : List Byte} {s t : State} {d : Option DBGCMD}
    (named : Named s) (h : readLine u buf s = .ok (d, t)) : CmdsFit t.g.cmds := by
  obtain ⟨cells, keyed, fits⟩ := named.cmds
  unfold readLine at h
  dsimp only at h
  split at h
  · cases h
    exact ⟨cells, keyed, fits⟩
  split at h
  · cases h
  split at h
  · cases h
    obtain ⟨cells', keyed', looked⟩ := del_keyed keyed _
    refine ⟨cells', keyed', fun f d there => ?_⟩
    rw [looked] at there
    split at there
    · cases there
    · exact fits f d there
  · obtain ⟨⟨d', t'⟩, made, same⟩ := map_ok h
    cases same
    obtain ⟨cells', keyed', looked⟩ := readCommand_keyed named.linked keyed made
    refine ⟨cells', keyed', fun f d there => ?_⟩
    have key := Heap.Keyed.lookup_key there
    rw [looked] at there
    split at there
    · rename_i name
      cases there
      refine ⟨?_, readCommand_names named.linked made⟩
      rw [key, ← name]
      exact (List.length_take_le _ _).trans_lt (by decide)
    · exact fits f d there

/-- **Every call keeps the names in their arrays.** -/
theorem step_named {env : Env} {s s' : State} {a : Act} (named : Named s)
    (h : step env s a = some s') : Named s' := by
  have linked := step_linked named.linked h
  have ok := toOption_some h
  have chain : ∀ funcname ∈ s'.chain, funcname.length < FUNCBUF := by
    intro funcname there
    by_cases entry : ∃ c, a = .edbg c
    · obtain ⟨c, rfl⟩ := entry
      obtain ⟨name, top, taken, enters⟩ := edbg_enters ok
      rw [enters.chain] at there
      obtain rfl | there := List.mem_cons.1 there
      · exact edbgName_length taken
      · exact named.chain _ there
    · exact named.chain _ ((step_pops (fun c e => entry ⟨c, e⟩) h).subset there)
  refine ⟨linked, ?_, chain⟩
  by_cases line : ∃ u buf, a = .initdbg3 u buf
  · obtain ⟨u, buf, rfl⟩ := line
    change initdbg3 env u buf s = .ok s' at ok
    rw [initdbg3_eq] at ok
    obtain ⟨⟨d, t⟩, read, refreshed⟩ := bind_ok ok
    rw [refresh_cmds refreshed]
    exact readLine_cmdsFit named read
  · obtain same | emptied := call_cmds ok fun u buf e => line ⟨u, buf, e⟩
    · exact same ▸ named.cmds
    · rw [emptied]
      exact .empty ⟨rfl, rfl, by simp, by simp, by simp⟩

/-! ## All runs -/

/-- The next call stays inside the arrays. -/
def Inside (env : Env) (p : State × Arrays) (a : Act) : Prop := (access env p.1 p.2 a).isSome

instance (env : Env) (p : State × Arrays) : DecidablePred (Inside env p) := fun _ =>
  inferInstanceAs (Decidable (_ = true))

theorem run_inside {env : Env} {acts : List Act} {s : State} {m : Arrays}
    (clean : ∀ c, .edbg c ∈ acts → 0 ∉ c.fmt ∧ 0 ∉ c.name) (named : Named s) (held : m.Held)
    (fits : Tried (step env) (Fits env) s acts) :
    Tried (stepArrays env) (Inside env) (s, m) acts ∧
      Always (stepArrays env) (fun p => NamesFit p.1) (s, m) acts := by
  induction acts generalizing s m with
  | nil => exact ⟨trivial, named.fit, trivial⟩
  | cons a acts ih =>
    obtain ⟨here, later⟩ := fits
    have first (c : Call) (e : a = .edbg c) : 0 ∉ c.fmt ∧ 0 ∉ c.name :=
      clean c (e ▸ List.mem_cons_self)
    obtain ⟨m', stored, held'⟩ := access_inside first held here
    have next (p : State × Arrays) (hp : stepArrays env (s, m) a = some p) :
        Tried (stepArrays env) (Inside env) p acts ∧
          Always (stepArrays env) (fun p => NamesFit p.1) p acts := by
      obtain ⟨s', hs', hp⟩ := Option.bind_eq_some_iff.1 hp
      obtain ⟨m'', stored', rfl⟩ := Option.map_eq_some_iff.1 hp
      cases stored.symm.trans stored'
      exact ih (fun c there => clean c (.tail _ there)) (step_named named hs') (held' s' hs')
        (later s' hs')
    refine ⟨⟨Option.isSome_iff_exists.2 ⟨m', stored⟩, fun p hp => (next p hp).1⟩, named.fit, ?_⟩
    exact fun p hp => (next p hp).2

/-- **The arrays in any run**, from a thread on that has entered no function, in a
program with no commands: where what goes into them fits at every call, every
call stays inside them, and in every state that is reached all names that are
stored have their terminators in their arrays. -/
theorem arrays_inside {env : Env} {s₀ : State} {m₀ : Arrays}
    (start : s₀.thrd.stack = [] ∧ s₀.g.cmds = DList.empty) (held : m₀.Held) {acts : List Act}
    (clean : ∀ c, .edbg c ∈ acts → 0 ∉ c.fmt ∧ 0 ∉ c.name)
    (fits : Tried (step env) (Fits env) s₀ acts) :
    Tried (stepArrays env) (Inside env) (s₀, m₀) acts ∧
      Always (stepArrays env) (fun p => NamesFit p.1) (s₀, m₀) acts := by
  obtain ⟨stack, cmds⟩ := start
  have none' : s₀.g.cmds.Is [] := cmds ▸ Heap.DList.empty_is
  refine run_inside clean ⟨⟨[], none', by simp⟩, .empty none', ?_⟩ held fits
  rw [State.chain, stack]
  simp

/-- The arrays when the program starts: `buf` is static. -/
def Arrays.zero : Arrays :=
  ⟨List.replicate DBGBUF 0, List.replicate DBGBUF 0, List.replicate FUNCBUF 0⟩

theorem Arrays.zero_held : Arrays.zero.Held where
  buf := List.length_replicate
  stop := by rw [Arrays.zero, List.getElem?_replicate_of_lt (by decide)]
  dbgbuf := List.length_replicate
  fname := List.length_replicate

theorem arrays_inside_f : Tried (stepArrays .zero) (Inside .zero) (.initial .stdout, .zero)
    [.initdbg3 .zero (text "on f 1"), .edbg ⟨text "%s(%d)", text "f", text "f(3)"⟩,
      .dprintf 1 (.of "x\n"), .rdbg (.of "f")] := by
  have clean : ∀ c, .edbg c ∈ ([.initdbg3 .zero (text "on f 1"), .edbg ⟨text "%s(%d)", text "f",
      text "f(3)"⟩, .dprintf 1 (.of "x\n"), .rdbg (.of "f")] : List Act) →
      0 ∉ c.fmt ∧ 0 ∉ c.name := by
    simp only [List.mem_cons, List.not_mem_nil, or_false]
    rintro c (h | h | h | h)
    all_goals cases h
    decide
  have fits : Tried (step .zero) (Fits .zero) (.initial .stdout) [.initdbg3 .zero (text "on f 1"),
      .edbg ⟨text "%s(%d)", text "f", text "f(3)"⟩, .dprintf 1 (.of "x\n"), .rdbg (.of "f")] := by
    refine ⟨⟨fun w _ there => there.length_le.trans_lt (by decide), ?_⟩, ?_⟩
    · rintro d t ⟨⟩ dbgtl ⟨⟩
    rintro s₁ ⟨⟩
    refine ⟨⟨fun _ => .inl (by decide), ?_⟩, ?_⟩
    · rintro funcname ⟨⟩ -
      refine ⟨?_, fun _ => by decide⟩
      rintro dbgout ⟨⟩
    rintro s₂ ⟨⟩
    refine ⟨?_, ?_⟩
    · rintro dbgtl ⟨⟩ -
      decide
    rintro s₃ ⟨⟩
    refine ⟨?_, fun _ _ => trivial⟩
    rintro dbgtl ⟨⟩ - argument
    exact absurd argument (by decide)
  exact (arrays_inside ⟨rfl, rfl⟩ Arrays.zero_held clean fits).1

/-- A name of 66 letters goes into a `funcname`, and an empty text is read at its
last character. -/
theorem arrays_outside :
    ¬ Inside .zero (.initial .stdout, .zero) (.edbg ⟨text "%s", List.replicate FUNCBUF 97,
      List.replicate FUNCBUF 97⟩) ∧
    ∃ s, run (step .zero) (.initial .stdout) [.initdbg3 .zero (text "on f 1"), .edbg (.of "f(x)")] =
      some s ∧ ¬ Inside .zero (s, .zero) (.dprintf 1 ⟨text "%s", [], []⟩) := by
  constructor
  · decide +kernel
  · have printing : (run (step .zero) (.initial .stdout) [.initdbg3 .zero (text "on f 1"),
        .edbg (.of "f(x)")]).any fun s => s.thrd.stack.head?.any (prints 1 (text "%s")) := by
      decide +kernel
    obtain ⟨s, ran, on⟩ := (Option.any_eq_true _ _).1 printing
    obtain ⟨dbgbuf, stored, -, reads⟩ := snprintf_some [] Arrays.zero_held.dbgbuf
    refine ⟨s, ran, ?_⟩
    rw [Inside, access, dprintfAccess, if_pos on, stored, Option.bind_some, reads,
      Option.bind_some, List.take_nil]
    exact Bool.false_ne_true

end UnixProgramming.Dbg
