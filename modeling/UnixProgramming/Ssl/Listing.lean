import UnixProgramming.Ssl.Closing
import UnixProgramming.Ssl.Scan

/-!
# The listing of spmtable

`pm_table` sends the PortTable as two-byte fields and strings; `spmtable.c`
reads them back and prints them.

* `printPMtable`: the client;
* `listing`: what it is to print;
* `shown`: what the bytes of the strings come to.
-/

namespace UnixProgramming.Ssl

open Pipe Heap

/-! ## The strings of the PortTable -/

/-- A PortTable entry of C strings. -/
def PortTable.Text (p : PortTable) : Prop := 0 ∉ p.sktname ∧ ∀ host ∈ p.sharehost, 0 ∉ host

def Spm.Texts (st : Spm) : Prop := ∀ p ∈ st.ports.vals, p.Text

theorem decimalDigits_isdigit {n : Nat} {c : Byte} (h : c ∈ decimalDigits n) : isdigit c := by
  obtain ⟨d, hd, rfl⟩ := List.mem_map.1 h
  exact isdigit_toDigits hd

theorem PortTable.Text.line {p : PortTable} (h : p.Text) : 0 ∉ p.line := by
  have digits : 0 ∉ decimalDigits p.port.toNat := fun m =>
    absurd (decimalDigits_isdigit m) (by decide)
  obtain ⟨name, host, port⟩ := p
  obtain ⟨hname, hhost⟩ := h
  cases host with
  | none => simpa [PortTable.line] using ⟨hname, digits⟩
  | some host => simpa [PortTable.line] using ⟨hname, hhost host rfl, digits⟩

theorem TableStep.texts {table table' : List PortTable} (step : TableStep table table')
    (h : ∀ p ∈ table, p.Text) : ∀ p ∈ table', p.Text := by
  intro p hp
  cases step with
  | same => exact h p hp
  | made name host port =>
    rcases List.mem_append.1 hp with old | new
    · exact h p old
    · obtain rfl := List.mem_singleton.1 new
      refine ⟨cstr_noNul _, fun copy hc => ?_⟩
      obtain ⟨s, -, rfl⟩ := Option.map_eq_some_iff.1 hc
      exact cstr_noNul s
  | taken => exact h p (List.mem_of_mem_eraseP hp)

theorem reachable_texts {st : Spm} (h : Reachable st) : st.Texts := by
  induction h with
  | start sys he dashF =>
    intro p hp
    have none' : (Spm.start (firewallStart sys he dashF)).ports.vals = [] :=
      DList.vals_eq DList.empty_is
    rw [none'] at hp
    cases hp
  | next v before run _ ih =>
    exact (exec_all (session_keeps v.around v.peer (reachable_valid before)) run).2.texts ih

/-! ## spmtable -/

/-- `Sread`: one `recv`, and what is then in `buf`. -/
def sread (buflen : Nat) (buf : List Byte) : Proc (Int × List Byte) := .recv buflen fun
  | none => .ret (0, buf.set 0 0)
  | some u => .ret (if u.isEmpty then (0, buf.set 0 0) else (u.length, overlay buf 0 u))

/-- What `printPMtable` prints, its colours apart. -/
inductive Output where
  /-- `Current %s Portmaster Servers` -/
  | current
  /-- `%2d: %s` -/
  | entry (icnt : Nat) (locbuf : List Byte)
  /-- `%s's PortMaster currently has no servers` -/
  | noServers
  /-- `%s's PortMaster is not responding` -/
  | notResponding
  /-- `%s's PortMaster is refusing connections` -/
  | refusing
  /-- `%s's PortMaster is not responding with entry count` -/
  | noCount
  /-- `%s abruptly ceased sending server names` -/
  | ceased
  /-- `%s disconnected unexpectedly!` -/
  | disconnected
  deriving DecidableEq, Repr

/-- `BUFSIZE` of `spmtable.c`. -/
def tableBufsize : Nat := 256

/-- What the stack holds where `printPMtable` has its `cnt` and its `locbuf`. -/
structure Automatic where
  cnt : List Byte
  locbuf : List Byte
  cnt_size : cnt.length = 2
  locbuf_size : locbuf.length = tableBufsize

/-- `for(itry= 0; itry < PM_MAXTRY; ++itry)` with so many tries to go; `none`
when `printPMtable` goes on behind it. -/
def askTable : Nat → Proc (Option Output)
  | 0 => return none
  | left + 1 => do
    swrite (htons PM.table)
    if (← stimeoutwait) < 0 then return some .notResponding
    let r ← sread 2 (htons PM.table)
    if ntohs r.2 = PM.ok then return none
    else if ntohs r.2 = PM.sorryReply then return some .refusing
    else askTable left

/-- `for(icnt= 1; cnt > 0; --cnt, ++icnt)` -/
def showEntries (spins : Nat) : List Byte → Nat → Nat → Proc (List Output)
  | _, 0, _ => return []
  | locbuf, cnt + 1, icnt => do
    if (← stimeoutwait) < 0 then return [.ceased]
    let r ← sgets spins locbuf tableBufsize
    if r.1 = false then return [.disconnected]
    let more ← showEntries spins r.2 cnt (icnt + 1)
    return .entry icnt (cstr r.2) :: more

/-- From the wait for the number of entries on. -/
def showTable (spins : Nat) (a : Automatic) : Proc (List Output) := do
  if (← stimeoutwait) < 0 then return [.noCount]
  let r ← sread 2 a.cnt
  if ntohs r.2 = 0 then return [.noServers]
  let more ← showEntries spins a.locbuf (ntohs r.2).toNat 1
  return .current :: more

/-- `printPMtable` behind its `Sopen_clientport`. -/
def printPMtable (spins : Nat) (a : Automatic) : Proc (List Output) := do
  match ← askTable PM.maxtry with
  | some out => return [out]
  | none => showTable spins a

/-- What `pm_table` sends, in one piece. -/
def answer (st : Spm) : List Byte := (exec (pmTable st) ⟨[], .silent, []⟩).wrote.flatten

/-- One line for each entry, in the order of registration. -/
def listing (table : List PortTable) : List Output :=
  if table = [] then [.noServers]
  else .current :: ((table.map PortTable.line).zipIdx 1).map fun l => .entry l.2 l.1

/-- The strings of `lines` as they travel. -/
def flat (lines : List (List Byte)) : List Byte := (lines.map withNul).flatten

theorem answer_eq (st : Spm) : answer st =
    htons PM.ok ++ htons (UInt16.ofNat st.ports.vals.length) ++
      flat (st.ports.vals.map PortTable.line) := by
  have strings (bufs : List (List Byte)) (r : Exit × Spm) (w : Wire Byte) :
      exec (swriteAll bufs >>= fun _ => .ret r) w = ⟨bufs, [], .done r w⟩ := by
    induction bufs with
    | nil => rfl
    | cons buf bufs ih =>
      change (exec (swriteAll bufs >>= fun _ => .ret r) w).after [buf] [] = _
      rw [ih]
      rfl
  change ((exec (swriteAll _ >>= fun _ => .ret _) _).after [_] [] |>.after [_] []).wrote.flatten = _
  rw [strings, flat, List.map_map]
  rfl

/-! ## The calls of spmtable -/

/-- The next call finds two bytes, if there are two. -/
def Whole (ticks : List Nat) : Prop := 2 ≤ ticks.headD 1

instance (ticks : List Nat) : Decidable (Whole ticks) :=
  inferInstanceAs (Decidable (2 ≤ ticks.headD 1))

section
variable {q : List Byte} {e : Ending} {ticks : List Nat}

theorem exec_stimeoutwait_some (some' : q ≠ []) (on : 0 ∉ ticks) : ∃ n, 0 < n ∧
    exec stimeoutwait ⟨q, e, ticks⟩ = ⟨[], [], .done n ⟨q, e, ticks.drop 2⟩⟩ := by
  obtain ⟨n, hn, peek⟩ := exec_peekQty e ticks.tail some'
  refine ⟨n, hn, ?_⟩
  have ready : exec stimeoutwait ⟨q, e, ticks⟩ = exec peekQty ⟨q, e, ticks.tail⟩ := by
    rcases exec_await_timed ⟨q, e, ticks⟩ (fun ready => if ready then peekQty else .ret (-2)) with
      ⟨same, -⟩ | ⟨-, given⟩
    · exact same
    · exact absurd (given on).1 some'
  rw [ready, peek, ← List.tail_drop, List.drop_one]

theorem exec_sread_whole {w buf : List Byte} (hw : w.length = 2) (hb : buf.length = 2)
    (whole : Whole ticks) : exec (sread 2 buf) ⟨w ++ q, e, ticks⟩ =
      ⟨[], [], .done (2, w) ⟨q, e, ticks.tail⟩⟩ := by
  obtain ⟨x, y, rfl⟩ := List.length_eq_two.1 hw
  obtain ⟨a, b, rfl⟩ := List.length_eq_two.1 hb
  have share : (⟨[x, y] ++ q, e, ticks⟩ : Wire Byte).share 2 = 2 := by
    simp only [Wire.share]
    unfold Whole at whole
    omega
  simp only [List.cons_append, List.nil_append] at share ⊢
  simp [sread, exec, share, Wire.drop, Wire.next, overlay]

/-- The other byte stays as it was. -/
theorem exec_sread_part {x a b : Byte} (part : ¬ Whole ticks) :
    exec (sread 2 [a, b]) ⟨x :: q, e, ticks⟩ =
      ⟨[], [], .done (1, [x, b]) ⟨q, e, ticks.tail⟩⟩ := by
  have share : (⟨x :: q, e, ticks⟩ : Wire Byte).share 2 = 1 := by
    simp only [Wire.share]
    unfold Whole at part
    omega
  simp [sread, exec, share, Wire.drop, Wire.next, overlay]

theorem exec_sread_some (some' : q ≠ []) (ticks : List Nat) (buf : List Byte) :
    ∃ u v, u ≠ [] ∧ u.length ≤ 2 ∧ q = u ++ v ∧ exec (sread 2 buf) ⟨q, e, ticks⟩ =
      ⟨[], [], .done (u.length, overlay buf 0 u) ⟨v, e, ticks.tail⟩⟩ := by
  obtain ⟨u, v, hu, hl, hq, run⟩ := @exec_recv_some Byte Note (Int × List Byte) _ some' 2
    (by decide) e ticks
  refine ⟨u, v, hu, hl, hq, ?_⟩
  rw [sread, run]
  simp [hu]

end

/-! ## The strings -/

/-- What `Sgets` of `spmtable.c` has room for. -/
def tableRoom : Nat := tableBufsize - 2

/-- What the loop of `printPMtable` prints from the bytes `q`, or `none` where
it waits for ever. -/
def shown (e : Ending) : Nat → Nat → List Byte → Option (List Output)
  | 0, _, _ => some []
  | cnt + 1, icnt, q =>
    if q = [] then some [.ceased] else
    match gets tableRoom q with
    | none => if e = .closed then some [.disconnected] else none
    | some (s, rest) => (shown e cnt (icnt + 1) rest).map (.entry icnt s :: ·)

theorem tail_drop_punctual {ticks : List Nat} (on : 0 ∉ ticks) (n : Nat) : 0 ∉ ticks.drop n :=
  fun m => on (List.mem_of_mem_drop m)

/-- The run of a program that returns from a wait with the bytes at hand. -/
theorem exec_inTime {α : Type} {q : List Byte} {e : Ending} {ticks : List Nat} (on : 0 ∉ ticks)
    (late k : Proc α) : ∃ ticks', 0 ∉ ticks' ∧
    (exec (stimeoutwait >>= fun n => if n < 0 then late else k) ⟨q, e, ticks⟩).fate =
      (exec (if q = [] then late else k) ⟨q, e, ticks'⟩).fate := by
  obtain ⟨n, ticks', on', run, ⟨pos, some'⟩ | ⟨neg, none'⟩⟩ := exec_stimeoutwait ⟨q, e, ticks⟩
  · refine ⟨ticks', on' on, ?_⟩
    rw [exec_bind_done run, if_neg (by omega), if_neg some']
    rfl
  · refine ⟨ticks', on' on, ?_⟩
    rw [exec_bind_done run, if_pos neg, if_pos (none' on)]
    rfl

/-- **The loop prints what the bytes come to**, however they are cut. -/
theorem exec_showEntries (spins : Nat) (e : Ending) : ∀ (cnt icnt : Nat) (q locbuf : List Byte)
    (ticks : List Nat) (out : List Output), 0 ∉ ticks → locbuf.length = tableBufsize →
    ((∃ w, (exec (showEntries spins locbuf cnt icnt) ⟨q, e, ticks⟩).fate = .done out w) ↔
      shown e cnt icnt q = some out) := by
  intro cnt
  induction cnt with
  | zero =>
    intro icnt q locbuf ticks out _ _
    simp [showEntries, shown]
  | succ cnt ih =>
    intro icnt q locbuf ticks out on size
    obtain ⟨ticks', on', run⟩ := exec_inTime (q := q) (e := e) on (.ret [.ceased])
      (sgets spins locbuf tableBufsize >>= fun r =>
        if r.1 = false then .ret [.disconnected] else
          showEntries spins r.2 cnt (icnt + 1) >>= fun more =>
            .ret (.entry icnt (cstr r.2) :: more))
    have run : (exec (showEntries spins locbuf (cnt + 1) icnt) ⟨q, e, ticks⟩).fate = _ := run
    rw [run, shown]
    by_cases some' : q = []
    · rw [if_pos some', if_pos some']
      simp
    rw [if_neg some', if_neg some']
    cases field : gets tableRoom q with
    | none =>
      obtain ⟨noNul, short⟩ := gets_none field
      obtain ⟨ticks'', -, cut⟩ := exec_sgets_cut e ticks' spins noNul short size
      rw [exec_bind, cut]
      cases e with
      | closed => simp [cutShort]
      | silent => simp [cutShort]
    | some found =>
      obtain ⟨s, rest⟩ := found
      obtain ⟨z, isField, rfl⟩ := gets_some field
      obtain ⟨⟨ok, buf⟩, ticks'', ⟨rfl, str, size'⟩, on'', whole⟩ :=
        exec_reads (reads_sgets spins isField (by decide) size)
          (untimed_sgets spins locbuf tableBufsize) rest e ticks'
      dsimp only at str size'
      rw [exec_bind_done whole]
      simp only [Bool.true_eq_false, if_false, Outcome.after_fate, str]
      have more (out' : List Output) := ih (icnt + 1) rest buf ticks'' out' (on'' on') size'
      constructor
      · rintro ⟨w, ends⟩
        obtain ⟨out', w', fate, same⟩ := exec_bind_fate.1 ends
        cases same
        rw [(more out').1 ⟨_, fate⟩]
        rfl
      · intro prints
        obtain ⟨out', there, rfl⟩ := Option.map_eq_some_iff.1 prints
        obtain ⟨w', fate⟩ := (more out').2 there
        exact ⟨w', exec_bind_fate.2 ⟨out', w', fate, rfl⟩⟩

/-- The strings of `lines`, one after the other, are what `Sgets` finds. -/
def Takes : List (List Byte) → List Byte → Prop
  | [], _ => True
  | l :: lines, q => ∃ rest, gets tableRoom q = some (l, rest) ∧ Takes lines rest

/-- The lines that are to be printed, from a number on. -/
def numbered (icnt : Nat) (lines : List (List Byte)) : List Output :=
  (lines.zipIdx icnt).map fun l => .entry l.2 l.1

/-- The loop prints these lines and nothing else. -/
theorem shown_numbered (e : Ending) : ∀ (cnt icnt : Nat) (lines : List (List Byte)) (q : List Byte),
    shown e cnt icnt q = some (numbered icnt lines) ↔ cnt = lines.length ∧ Takes lines q := by
  intro cnt
  induction cnt with
  | zero =>
    intro icnt lines q
    cases lines with
    | nil => simp [shown, numbered, Takes]
    | cons l lines => simp [shown, numbered]
  | succ cnt ih =>
    intro icnt lines q
    rw [shown]
    by_cases some' : q = []
    · subst some'
      cases lines with
      | nil => simp [numbered]
      | cons l lines => simp [numbered, Takes, gets, cstr, tableRoom, tableBufsize]
    rw [if_neg some']
    cases field : gets tableRoom q with
    | none =>
      cases lines with
      | nil => cases e <;> simp [numbered]
      | cons l lines => cases e <;> simp [numbered, Takes, field]
    | some found =>
      obtain ⟨s, rest⟩ := found
      cases lines with
      | nil => simp [numbered]
      | cons l lines =>
        have tail := ih (icnt + 1) lines rest
        have head : numbered icnt (l :: lines) = .entry icnt l :: numbered (icnt + 1) lines := rfl
        simp only [Option.map_eq_some_iff, head, List.cons.injEq, Output.entry.injEq, Takes, field,
          Option.some.injEq, Prod.mk.injEq, List.length_cons, Nat.add_right_cancel_iff]
        constructor
        · rintro ⟨out, prints, ⟨-, rfl⟩, rfl⟩
          obtain ⟨cnt', takes⟩ := tail.1 prints
          exact ⟨cnt', rest, ⟨rfl, rfl⟩, takes⟩
        · rintro ⟨cnt', rest', ⟨rfl, rfl⟩, takes⟩
          exact ⟨_, tail.2 ⟨cnt', takes⟩, ⟨trivial, rfl⟩, rfl⟩

/-! ## Lines and their bytes -/

section
variable {lines : List (List Byte)} {l q rest : List Byte}

theorem flat_cons (l : List Byte) (lines : List (List Byte)) :
    flat (l :: lines) = l ++ [0] ++ flat lines := rfl

/-- How long the lines of a listing may be: the last one needs no room for its
NUL, which nobody reads. -/
def Fit : List (List Byte) → Prop
  | [] => True
  | [l] => l.length ≤ tableRoom
  | l :: lines => l.length < tableRoom ∧ Fit lines

instance decidableFit : ∀ lines, Decidable (Fit lines)
  | [] => .isTrue trivial
  | [l] => inferInstanceAs (Decidable (l.length ≤ tableRoom))
  | l :: l' :: lines =>
    have := decidableFit (l' :: lines)
    inferInstanceAs (Decidable (l.length < tableRoom ∧ Fit (l' :: lines)))

theorem gets_short (noNul : 0 ∉ l) (short : l.length < tableRoom) :
    gets tableRoom (l ++ [0] ++ rest) = some (l, rest) :=
  gets_field ⟨noNul, .inl ⟨short, rfl⟩⟩ rest

/-- A line that fills the room leaves its NUL behind. -/
theorem gets_full (noNul : 0 ∉ l) (full : l.length = tableRoom) :
    gets tableRoom (l ++ [0] ++ rest) = some (l, 0 :: rest) := by
  have field := gets_field ⟨noNul, .inr ⟨full, rfl⟩⟩ (0 :: rest)
  simpa using field

theorem gets_length (found : gets tableRoom q = some (l, rest)) : l.length ≤ tableRoom := by
  obtain ⟨z, ⟨-, ⟨short, -⟩ | ⟨full, -⟩⟩, -⟩ := gets_some found
  · omega
  · omega

theorem takes_cons (found : gets tableRoom q = some (l, rest)) :
    Takes (l :: lines) q ↔ Takes lines rest := by
  constructor
  · rintro ⟨rest', found', more⟩
    rw [found] at found'
    cases found'
    exact more
  · exact fun more => ⟨rest, found, more⟩

/-- **What is sent is read back exactly when every line has room.** -/
theorem takes_flat : ∀ {lines : List (List Byte)}, (∀ l ∈ lines, 0 ∉ l ∧ l ≠ []) →
    (Takes lines (flat lines) ↔ Fit lines) := by
  intro lines
  induction lines with
  | nil => exact fun _ => Iff.rfl
  | cons l lines ih =>
    intro text
    obtain ⟨noNul, -⟩ := text l (by simp)
    have tail := ih fun l' hl' => text l' (by simp [hl'])
    rw [flat_cons]
    rcases Nat.lt_trichotomy l.length tableRoom with short | full | long
    · rw [takes_cons (gets_short noNul short), tail]
      cases lines with
      | nil => exact iff_of_true trivial (Nat.le_of_lt short)
      | cons l' lines => exact ⟨fun fit => ⟨short, fit⟩, fun fit => fit.2⟩
    · rw [takes_cons (gets_full noNul full)]
      cases lines with
      | nil => exact iff_of_true trivial (Nat.le_of_eq full)
      | cons l' lines =>
        -- the next string is the NUL that has been left
        refine iff_of_false ?_ fun fit => Nat.lt_irrefl _ (full ▸ fit.1)
        rintro ⟨rest, found, -⟩
        have empty : gets tableRoom (0 :: flat (l' :: lines)) = some ([], flat (l' :: lines)) :=
          gets_short (l := []) (by simp) (by decide)
        rw [empty] at found
        cases found
        exact (text [] (by simp)).2 rfl
    · refine iff_of_false ?_ ?_
      · rintro ⟨rest, found, -⟩
        exact absurd (gets_length found) (by omega)
      · intro fit
        cases lines with
        | nil => exact absurd fit (Nat.not_le_of_lt long)
        | cons l' lines => exact absurd fit.1 (Nat.lt_asymm long)

/-- The bytes that are not a NUL. -/
def weight (q : List Byte) : Nat := q.countP (· ≠ 0)

theorem weight_append (q q' : List Byte) : weight (q ++ q') = weight q + weight q' :=
  List.countP_append

theorem Takes.weight_le : ∀ {lines : List (List Byte)} {q : List Byte}, Takes lines q →
    weight (flat lines) ≤ weight q := by
  intro lines
  induction lines with
  | nil => intro q _; exact Nat.zero_le _
  | cons l lines ih =>
    rintro q ⟨rest, found, more⟩
    obtain ⟨z, -, rfl⟩ := gets_some found
    have tail := ih more
    have nul : weight [0] = 0 := rfl
    rw [flat_cons, weight_append, weight_append, weight_append, weight_append, nul]
    omega

/-- Behind the first byte of the strings they are not to be found. -/
theorem not_takes_drop (text : ∀ l ∈ lines, 0 ∉ l ∧ l ≠ []) (some' : lines ≠ []) (n : Nat) :
    ¬ Takes lines ((flat lines).drop (n + 1)) := by
  intro takes
  have le := takes.weight_le
  obtain ⟨l, lines, rfl⟩ := List.exists_cons_of_ne_nil some'
  obtain ⟨noNul, hl⟩ := text l (by simp)
  obtain ⟨b, l, rfl⟩ := List.exists_cons_of_ne_nil hl
  have nonzero : b ≠ 0 := fun zero => noNul (by simp [zero])
  have more : flat ((b :: l) :: lines) = b :: (l ++ [0] ++ flat lines) := rfl
  rw [more, List.drop_succ_cons] at le
  have tail : weight ((l ++ [0] ++ flat lines).drop n) ≤ weight (l ++ [0] ++ flat lines) :=
    (List.drop_sublist _ _).countP_le
  have head : weight (b :: (l ++ [0] ++ flat lines)) = weight (l ++ [0] ++ flat lines) + 1 :=
    List.countP_cons_of_pos (by simpa using nonzero)
  omega

/-- A list that goes on like itself one place further on is constant. -/
theorem constant_of_shift : ∀ {l : List Byte} {b : Byte} {q : List Byte}, l <+: b :: (l ++ q) →
    ∀ c ∈ l, c = b := by
  intro l
  induction l with
  | nil => intro b q _ c hc; cases hc
  | cons a l ih =>
    intro b q shift c hc
    rw [List.cons_append, List.cons_prefix_cons] at shift
    obtain ⟨rfl, shift⟩ := shift
    rcases List.mem_cons.1 hc with rfl | hc
    · rfl
    · exact ih shift c hc

/-- Nor are they behind one byte too many: a line is not all of one character. -/
theorem not_takes_cons (mixed : ∀ l ∈ lines, 32 ∈ l ∧ 58 ∈ l) (some' : lines ≠ []) (b : Byte) :
    ¬ Takes lines (b :: flat lines) := by
  obtain ⟨l, lines, rfl⟩ := List.exists_cons_of_ne_nil some'
  rintro ⟨rest, found, -⟩
  obtain ⟨z, -, same⟩ := gets_some found
  have shift : l <+: b :: (l ++ ([0] ++ flat lines)) :=
    ⟨z ++ rest, by rw [← List.append_assoc, ← same, flat_cons, List.append_assoc]⟩
  obtain ⟨blank, colon⟩ := mixed l (by simp)
  have first := constant_of_shift shift _ blank
  have second := constant_of_shift shift _ colon
  rw [← first] at second
  exact absurd second (by decide)

end

theorem PortTable.line_mixed (p : PortTable) : 32 ∈ p.line ∧ 58 ∈ p.line := by
  obtain ⟨name, host, port⟩ := p
  cases host <;> simp [PortTable.line]

theorem PortTable.line_ne_nil (p : PortTable) : p.line ≠ [] := List.ne_nil_of_mem p.line_mixed.1

/-! ## The two fields before the strings -/

/-- A complaint is not the listing. -/
theorem listing_ne {out : Output} (other : out ≠ .noServers) {table : List PortTable}
    {w w' : Wire Byte} : (exec (.ret [out] : Proc _) w).fate ≠ .done (listing table) w' := by
  intro ends
  have same : [out] = listing table := (Fate.done.injEq .. ▸ ends).1
  cases table with
  | nil => exact other (List.cons.inj same).1
  | cons p table => cases same

/-- The listing comes out. -/
def Lists (spins : Nat) (a : Automatic) (st : Spm) (e : Ending) (ticks : List Nat) : Prop :=
  ∃ w, (exec (printPMtable spins a) ⟨answer st, e, ticks⟩).fate = .done (listing st.ports.vals) w

/-- A byte of the reply alone is no `PM_OK`. -/
theorem read_ok {u : List Byte} (some' : u ≠ []) (short : u.length ≤ 2)
    (ok : ntohs (overlay (htons PM.table) 0 u) = PM.ok) : u = htons PM.ok := by
  match u, some', short with
  | [x], _, _ =>
    have same : htons (ntohs [x, 9]) = [x, 9] := htons_ntohs x 9
    have ok : ntohs [x, 9] = PM.ok := ok
    rw [ok] at same
    simp [htons, PM.ok] at same
  | [x, y], _, _ =>
    have ok : ntohs [x, y] = PM.ok := ok
    rw [← ok, htons_ntohs]

/-- How the tries end: with a complaint, or on a `PM_OK` or worn out, each try
having taken a byte at least. -/
theorem exec_askTable (e : Ending) : ∀ (left : Nat) (q : List Byte) (ticks : List Nat)
    (r : Option Output) (w : Wire Byte), 0 ∉ ticks →
    (exec (askTable left) ⟨q, e, ticks⟩).fate = .done r w →
    r = some .notResponding ∨ r = some .refusing ∨ r = none ∧ ∃ j ticks',
      w = ⟨q.drop j, e, ticks'⟩ ∧ 0 ∉ ticks' ∧
        (left ≤ j ∨ ∃ i, j = i + 2 ∧ (q.drop i).take 2 = htons PM.ok) := by
  intro left
  induction left with
  | zero =>
    rintro q ticks r w on run
    cases run
    exact .inr (.inr ⟨rfl, 0, ticks, rfl, on, .inl (Nat.zero_le _)⟩)
  | succ left ih =>
    intro q ticks r w on run
    obtain ⟨ticks', on', same⟩ := exec_inTime (q := q) (e := e) on (.ret (some .notResponding))
      (sread 2 (htons PM.table) >>= fun r =>
        if ntohs r.2 = PM.ok then .ret none
        else if ntohs r.2 = PM.sorryReply then .ret (some .refusing)
        else askTable left)
    have same : (exec (askTable (left + 1)) ⟨q, e, ticks⟩).fate = _ := same
    rw [same] at run
    by_cases some' : q = []
    · rw [if_pos some'] at run
      cases run
      exact .inl rfl
    rw [if_neg some'] at run
    obtain ⟨u, v, hu, hl, rfl, read⟩ := exec_sread_some (e := e) some' ticks'
      (htons PM.table)
    rw [exec_bind_done read, Outcome.after_fate] at run
    have pos := List.length_pos_iff.2 hu
    have on'' : 0 ∉ ticks'.tail := fun m => on' (List.mem_of_mem_tail m)
    dsimp only at run
    split at run
    · rename_i ok
      cases run
      have whole := read_ok hu hl ok
      refine .inr (.inr ⟨rfl, 2, _, ?_, on'', .inr ⟨0, rfl, ?_⟩⟩)
      · rw [whole]; rfl
      · rw [whole]; rfl
    · split at run
      · cases run
        exact .inr (.inl rfl)
      · rcases ih v _ r w on'' run with said | said | ⟨none', j, ts, rfl, hts, far⟩
        · exact .inl said
        · exact .inr (.inl said)
        · refine .inr (.inr ⟨none', u.length + j, ts, ?_, hts, ?_⟩)
          · rw [← List.drop_drop, List.drop_left]
          · rcases far with worn | ⟨i, rfl, ok⟩
            · exact .inl (by omega)
            · refine .inr ⟨u.length + i, (Nat.add_assoc ..).symm, ?_⟩
              rwa [← List.drop_drop, List.drop_left]

section
variable {spins : Nat} {a : Automatic} {e : Ending}

/-- The number of entries has come in, whole or not: what it says and what is
left decide. -/
theorem showTable_iff {q v buf : List Byte} {ticks ticks' : List Nat} {n : Int}
    (some' : q ≠ []) (on : 0 ∉ ticks) (on' : 0 ∉ ticks')
    (read : exec (sread 2 a.cnt) ⟨q, e, ticks.drop 2⟩ = ⟨[], [], .done (n, buf) ⟨v, e, ticks'⟩⟩)
    (table : List PortTable) :
    (∃ w, (exec (showTable spins a) ⟨q, e, ticks⟩).fate = .done (listing table) w) ↔
      (ntohs buf).toNat = table.length ∧ Takes (table.map PortTable.line) v := by
  obtain ⟨m, pos, wait⟩ := exec_stimeoutwait_some (e := e) some' on
  have run : (exec (showTable spins a) ⟨q, e, ticks⟩).fate =
      (exec (if ntohs buf = 0 then .ret [.noServers] else
        showEntries spins a.locbuf (ntohs buf).toNat 1 >>= fun more => .ret (.current :: more))
          ⟨v, e, ticks'⟩).fate := by
    rw [showTable, exec_bind_done wait, if_neg (by omega), Outcome.after_fate,
      exec_bind_done read, Outcome.after_fate]
    rfl
  rw [run]
  by_cases zero : ntohs buf = 0
  · rw [if_pos zero, zero]
    cases table with
    | nil => simp [listing, Takes]
    | cons p table => simp [listing]
  · rw [if_neg zero]
    have nonzero : (ntohs buf).toNat ≠ 0 := fun h => zero (UInt16.toNat_inj.1 h)
    cases table with
    | nil =>
      refine iff_of_false ?_ fun h => nonzero h.1
      rintro ⟨w, ends⟩
      obtain ⟨out, w', -, same⟩ := exec_bind_fate.1 ends
      cases same
    | cons p table =>
      have prints := (exec_showEntries spins e (ntohs buf).toNat 1 v a.locbuf ticks'
        (numbered 1 ((p :: table).map PortTable.line)) on' a.locbuf_size).trans
          (shown_numbered e _ 1 _ v)
      rw [List.length_map] at prints
      rw [← prints]
      constructor
      · rintro ⟨w, ends⟩
        obtain ⟨out, w', fate, same⟩ := exec_bind_fate.1 ends
        cases same
        exact ⟨_, fate⟩
      · rintro ⟨w, fate⟩
        exact ⟨w, exec_bind_fate.2 ⟨_, w, fate, rfl⟩⟩

variable {st : Spm} {ticks : List Nat} (on : 0 ∉ ticks)

/-- The strings that `pm_table` sends. -/
def Spm.lines (st : Spm) : List (List Byte) := st.ports.vals.map PortTable.line

theorem Spm.Texts.lines (h : st.Texts) : ∀ l ∈ st.lines, 0 ∉ l ∧ l ≠ [] := by
  intro l hl
  obtain ⟨p, hp, rfl⟩ := List.mem_map.1 hl
  exact ⟨(h p hp).line, p.line_ne_nil⟩

theorem Spm.lines_mixed (st : Spm) : ∀ l ∈ st.lines, 32 ∈ l ∧ 58 ∈ l := by
  intro l hl
  obtain ⟨p, -, rfl⟩ := List.mem_map.1 hl
  exact p.line_mixed

include on

/-- A whole `PM_OK` ends the tries. -/
theorem printPMtable_whole (whole : Whole (ticks.drop 2)) (q : List Byte) :
    (exec (printPMtable spins a) ⟨htons PM.ok ++ q, e, ticks⟩).fate =
      (exec (showTable spins a) ⟨q, e, ticks.drop 3⟩).fate := by
  obtain ⟨n, pos, wait⟩ :=
    exec_stimeoutwait_some (q := htons PM.ok ++ q) (e := e) (by simp [htons]) on
  have read : exec (sread 2 (htons PM.table)) ⟨htons PM.ok ++ q, e, ticks.drop 2⟩ =
    ⟨[], [], .done (2, htons PM.ok) ⟨q, e, (ticks.drop 2).tail⟩⟩ := exec_sread_whole rfl rfl whole
  have ask : exec (askTable PM.maxtry) ⟨htons PM.ok ++ q, e, ticks⟩ =
      ⟨[htons PM.table], [], .done none ⟨q, e, ticks.drop 3⟩⟩ := by
    change (exec (stimeoutwait >>= _) _).after [htons PM.table] [] = _
    rw [exec_bind_done wait, if_neg (by omega), exec_bind_done read, List.tail_drop]
    rfl
  rw [printPMtable, exec_bind_done ask, Outcome.after_fate]

/-- Behind some of the strings the listing does not come out. -/
theorem not_lists_behind (h : st.Texts) (n : Nat) {w : Wire Byte} :
    (exec (showTable spins a) ⟨(flat st.lines).drop n, e, ticks⟩).fate ≠
      .done (listing st.ports.vals) w := by
  intro ends
  by_cases some' : (flat st.lines).drop n = []
  · obtain ⟨ticks', -, run⟩ := exec_inTime (q := (flat st.lines).drop n) (e := e) on
      (.ret [.noCount]) (sread 2 a.cnt >>= fun r => if ntohs r.2 = 0 then .ret [.noServers] else
        showEntries spins a.locbuf (ntohs r.2).toNat 1 >>= fun more => .ret (.current :: more))
    rw [if_pos some'] at run
    exact listing_ne (by decide) (run.symm.trans ends)
  · obtain ⟨u, v, hu, -, split, read⟩ := exec_sread_some (e := e) some' (ticks.drop 2) a.cnt
    have on' : 0 ∉ (ticks.drop 2).tail := fun m =>
      tail_drop_punctual on 2 (List.mem_of_mem_tail m)
    obtain ⟨-, takes⟩ := (showTable_iff some' on on' read st.ports.vals).1 ⟨w, ends⟩
    have pos := List.length_pos_iff.2 hu
    obtain ⟨k, len⟩ : ∃ k, u.length = k + 1 := ⟨u.length - 1, by omega⟩
    have behind : v = (flat st.lines).drop (n + k + 1) := by
      rw [Nat.add_assoc, ← len, ← List.drop_drop, split, List.drop_left]
    have lines : st.lines ≠ [] := by
      intro none'
      rw [none'] at some'
      exact some' List.drop_nil
    rw [behind] at takes
    exact not_takes_drop h.lines lines _ takes

/-- The first byte alone leaves `PM_TABLE` in the variable. -/
theorem exec_askTable_part (part : ¬ Whole (ticks.drop 2)) (left : Nat) (q : List Byte) :
    (exec (askTable (left + 1)) ⟨0 :: q, e, ticks⟩).fate =
      (exec (askTable left) ⟨q, e, ticks.drop 3⟩).fate := by
  obtain ⟨n, pos, wait⟩ := exec_stimeoutwait_some (e := e) (List.cons_ne_nil 0 q) on
  have read := exec_sread_part (q := q) (x := 0) (a := 0) (b := 9) (e := e) part
  change ((exec (stimeoutwait >>= _) _).after [htons PM.table] []).fate = _
  rw [Outcome.after_fate, exec_bind_done wait, if_neg (by omega), Outcome.after_fate]
  change (exec (sread 2 [0, 9] >>= _) _).fate = _
  rw [exec_bind_done read, List.tail_drop]
  rfl

/-- Half a `PM_OK` is taken for no answer, and the tries eat up what follows. -/
theorem not_lists_part (h : st.Texts) (part : ¬ Whole (ticks.drop 2)) :
    ¬ Lists spins a st e ticks := by
  rintro ⟨w, ends⟩
  have sent : answer st = 0 :: (7 :: (htons (UInt16.ofNat st.ports.vals.length) ++
    flat st.lines)) := answer_eq st
  rw [sent] at ends
  obtain ⟨r, w', asked, ends⟩ := exec_bind_fate.1 ends
  rw [show PM.maxtry = 19 + 1 from rfl, exec_askTable_part on part] at asked
  rcases exec_askTable e 19 _ _ r w' (tail_drop_punctual on 3) asked with
    rfl | rfl | ⟨rfl, j, ticks', rfl, on', far⟩
  · exact listing_ne (by decide) ends
  · exact listing_ne (by decide) ends
  · obtain ⟨k, rfl⟩ : ∃ k, j = k + 3 := by
      rcases far with worn | ⟨i, rfl, ok⟩
      · exact ⟨j - 3, by omega⟩
      · cases i with
        | zero => simp [htons, PM.ok] at ok
        | succ i => exact ⟨i, rfl⟩
    exact not_lists_behind on' h k ends

/-- The number of entries comes whole. -/
theorem lists_whole (h : st.Texts) (mesg : Whole (ticks.drop 2)) (cnt : Whole (ticks.drop 5)) :
    Lists spins a st e ticks ↔ st.ports.vals.length < 65536 ∧ Fit st.lines := by
  have sent : answer st = htons PM.ok ++ (htons (UInt16.ofNat st.ports.vals.length) ++
    flat st.lines) := answer_eq st
  have read := exec_sread_whole (q := flat st.lines) (e := e)
    (htons_length (UInt16.ofNat st.ports.vals.length)) a.cnt_size cnt
  have on' : 0 ∉ (ticks.drop 5).tail := fun m => tail_drop_punctual on 5 (List.mem_of_mem_tail m)
  unfold Lists
  rw [sent]
  simp only [printPMtable_whole on mesg]
  rw [showTable_iff (by simp [htons]) (tail_drop_punctual on 3) on'
    (by rw [List.drop_drop]; exact read), ← Spm.lines, takes_flat h.lines, ntohs_htons,
    UInt16.toNat_ofNat']
  refine and_congr_left' ?_
  omega

/-- Half a number leaves the other half to the strings, unless there are none. -/
theorem lists_part (mesg : Whole (ticks.drop 2)) (cnt : ¬ Whole (ticks.drop 5)) :
    Lists spins a st e ticks ↔ st.ports.vals = [] ∧ a.cnt[1]? = some 0 := by
  obtain ⟨x, y, size⟩ := List.length_eq_two.1 a.cnt_size
  obtain ⟨hi, lo, field⟩ := List.length_eq_two.1
    (htons_length (UInt16.ofNat st.ports.vals.length))
  have sent : answer st = htons PM.ok ++ (hi :: (lo :: flat st.lines)) := by
    rw [answer_eq, field, List.append_assoc]
    rfl
  have read := exec_sread_part (q := lo :: flat st.lines) (e := e) (x := hi) (a := x) (b := y) cnt
  have on' : 0 ∉ (ticks.drop 5).tail := fun m => tail_drop_punctual on 5 (List.mem_of_mem_tail m)
  unfold Lists
  rw [sent]
  simp only [printPMtable_whole on mesg]
  rw [showTable_iff (List.cons_ne_nil _ _) (tail_drop_punctual on 3) on'
    (by rw [List.drop_drop, size]; exact read), ← Spm.lines, size]
  by_cases none' : st.ports.vals = []
  · have zero : hi = 0 := by
      rw [none'] at field
      exact (List.cons.inj field).1.symm
    rw [none', zero, Spm.lines, none']
    simp only [ntohs, UInt16.toNat_ofNat', Takes, List.map_nil, and_true, true_and,
      List.getElem?_cons_succ, List.getElem?_cons_zero, Option.some.injEq, ← UInt8.toNat_inj]
    simp
  · refine iff_of_false ?_ fun fits => none' fits.1
    rintro ⟨-, takes⟩
    refine not_takes_cons st.lines_mixed ?_ lo takes
    rw [Spm.lines]
    simpa using none'

omit on in
/-- **The listing of spmtable.** It comes out exactly when each of the two
single `recv` finds both its bytes, the number of entries fits into one of
them, and every line has room in the buffer it is received into. Of a count cut
short an empty table makes nothing if the stack happens to hold the other byte. -/
theorem listing_iff {st : Spm} (h : Reachable st) (spins : Nat) (a : Automatic) (e : Ending)
    {ticks : List Nat} (on : 0 ∉ ticks) : Lists spins a st e ticks ↔
      Whole (ticks.drop 2) ∧ (Whole (ticks.drop 5) ∨ st.ports.vals = [] ∧ a.cnt[1]? = some 0) ∧
        st.ports.vals.length < 65536 ∧ Fit st.lines := by
  have text := reachable_texts h
  by_cases mesg : Whole (ticks.drop 2)
  · rw [and_iff_right mesg]
    by_cases cnt : Whole (ticks.drop 5)
    · rw [lists_whole on text mesg cnt, and_iff_right (Or.inl cnt)]
    · rw [lists_part on mesg cnt, or_iff_right cnt]
      constructor
      · rintro ⟨none', zero⟩
        refine ⟨⟨none', zero⟩, by rw [none']; decide, ?_⟩
        rw [Spm.lines, none']
        trivial
      · exact fun fits => fits.1
  · exact iff_of_false (not_lists_part on text mesg) fun fits => mesg fits.1

/-- A stack of zeros. -/
def blankStack : Automatic where
  cnt := [0, 0]
  locbuf := List.replicate tableBufsize 0
  cnt_size := rfl
  locbuf_size := List.length_replicate

end

theorem listing_sharedPort :
    Lists 0 blankStack sharedPortMaster .closed [2, 2, 2, 2, 2, 2] := by
  have few : sharedPortMaster.ports.vals.length < 65536 := by decide +kernel
  have fit : Fit sharedPortMaster.lines := by decide +kernel
  exact (listing_iff sharedPortMaster_reachable 0 blankStack .closed (by decide)).2
    ⟨by decide, .inl (by decide), few, fit⟩

/-- Two servers, and the first half of their number comes alone: none is printed. -/
theorem half_count_lists_nobody : ¬ ∀ st, Reachable st → ∀ spins a e ticks, 0 ∉ ticks →
    Lists spins a st e ticks := by
  intro always
  obtain ⟨w, ends⟩ := always _ sharedPortMaster_reachable 0 blankStack .closed [2, 2, 2]
    (by decide)
  have prints := congrArg Fate.value ends
  have nobody : (exec (printPMtable 0 blankStack)
      ⟨answer sharedPortMaster, .closed, [2, 2, 2]⟩).fate.value = some [.noServers] := by
    decide +kernel
  rw [nobody] at prints
  have some' : listing sharedPortMaster.ports.vals ≠ [.noServers] := by decide +kernel
  exact some' (Option.some.inj prints).symm

end UnixProgramming.Ssl
