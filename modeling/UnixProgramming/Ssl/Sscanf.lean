import UnixProgramming.Pipe.Delivery
import UnixProgramming.Ssl.Formats

/-!
# Sprintf and Sscanf

`Sprintf` sends a formatted text with its NUL; `Sscanf` takes it off the
stream conversion by conversion, peeking until it has seen what follows the
part that the conversion reads.

* `deliver_peekLoop`: the peeking ends on the whole part, however it arrives;
* `sscanf_undoes_sprintf`: the values come back, and the message is consumed.
-/

namespace UnixProgramming.Ssl

open Pipe

/-! ## The functions -/

/-- `Sprintf`: its result is the length of the text. -/
def sprintf (fmt : List Byte) (args : List Arg) : Proc Int := do
  let buf := vsprintf none fmt args
  swrite (withNul (cstr buf))
  return buf.length

/-- `Speek`: its result, and what it has put into `buf`. -/
def speek (buflen : Nat) : Proc (Int × List Byte) := .await true fun ready =>
  if ready then .peek buflen fun
    | none => .ret (-1, [])
    | some u => .ret (if u.isEmpty then -1 else u.length, u)
  else .ret (0, [])

/-- `do { .. } while(b && b == bufend);`, for so many turns: `buf` and `b - buf`,
or `none` where `Speek` fails. -/
def peekLoop (snglfmt : List Byte) : Nat → Proc (Option (List Byte × Nat))
  | 0 => .spin
  | turns + 1 => do
    let r ← speek (PM.bigbuf - 1)
    if r.1 < 0 then return none
    match stpnxt (cstr r.2) snglfmt with
    | none => .spin
    | some s =>
      let b := (cstr r.2).length - s.length
      if b = r.2.length then peekLoop snglfmt turns
      else return some (r.2, b)

/-- The loop of `Sscanf` at its argument number `i`: `cnt` and what has been
stored in the arguments from there on. `arg` says which arguments are no null
pointers, those behind the last that has been given included. A call whose
piece has been written behind `locbuf` is not one that returns. -/
def sscanfLoop (spins turns : Nat) (arg : Nat → Bool) :
    Nat → Nat → List Byte → Proc (Nat × List (Option Arg))
  | 0, _, _ => return (0, [])
  | left + 1, i, f =>
    if arg i = false then return (0, [])
    else match strnxtfmt f with
      | none => return (0, [])
      | some (snglfmt, f) =>
        if locbufSize ≤ snglfmt.length then .spin
        else do
          let _ ← swait
          match ← peekLoop snglfmt turns with
          | none => return (0, [])
          | some (buf, b) =>
            let b := if buf.getD b 0 = 0 then b + 1 else b
            let buf ← sreadbytes spins b
            let r := Libc.sscanf (cstr buf) snglfmt
            if r.1 = 0 then return (0, [r.2])
            else if buf.length = 0 then return (1, [r.2])
            else
              let more ← sscanfLoop spins turns arg left (i + 1) f
              return (more.1 + 1, r.2 :: more.2)

/-- `Sscanf`: a turn uses up a character of the format at least. -/
def sscanf (spins turns : Nat) (fmt : List Byte) (arg : Nat → Bool) :
    Proc (Nat × List (Option Arg)) :=
  sscanfLoop spins turns arg (fmt.length + 1) 0 fmt

/-! ## Peeking -/

section
variable {w : Arrivals Byte}

/-- A call lets a delivery land, if there is one to come. -/
theorem land_progress (w : Arrivals Byte) :
    w.land.coming.length < w.coming.length ∨ w.coming = [] ∧ w.land = w := by
  obtain ⟨here, coming, ending⟩ := w
  cases coming with
  | nil => exact .inr ⟨rfl, by simp [Arrivals.land]⟩
  | cons d ds => exact .inl (Nat.lt_succ_self _)

/-- Either something more has arrived, or all that comes is there. -/
theorem deliver_speek (some' : w.bytes ≠ []) (len : Nat) (pos : 0 < len) :
    ∃ u w', deliver (speek len) w = .done ((u.length : Int), u) w' ∧ u <+: w.bytes.take len ∧
      w'.bytes = w.bytes ∧ w'.ending = w.ending ∧ w'.coming <:+ w.coming ∧
        (w'.coming.length < w.coming.length ∨ u = w.bytes.take len) := by
  by_cases nothing : w.land.here = [] ∧ ¬ w.land.Over
  · refine ⟨[], w.land, if_pos nothing, List.nil_prefix, w.land_bytes, rfl, w.land_suffix, .inl ?_⟩
    rcases land_progress w with less | ⟨none', same⟩
    · exact less
    · rw [same] at nothing
      exact absurd (by rw [Arrivals.bytes, nothing.1, none']; rfl) some'
  · rcases w.land.settled with ⟨-, empty⟩ | ⟨b, h, here, bytes⟩
    · rw [w.land_bytes] at empty
      exact absurd empty some'
    rw [w.land_bytes] at bytes
    refine ⟨(b :: h).take len, w.land.land.settle, ?_, ?_, by simp, by simp, ?_, ?_⟩
    · have run : deliver (speek len) w = deliver (.peek len fun
          | none => .ret (-1, [])
          | some u => .ret (if u.isEmpty then -1 else u.length, u) : Proc (Int × List Byte))
            w.land := if_neg nothing
      rw [run]
      simp only [deliver, here]
      have some'' : ¬ ((b :: h).take len).isEmpty = true := by
        obtain ⟨n, rfl⟩ : ∃ n, len = n + 1 := ⟨len - 1, by omega⟩
        simp
      rw [if_neg some'']
    · rw [bytes]
      exact (List.prefix_append (b :: h) _).take len
    · exact (w.land.land.settle_suffix.trans w.land.land_suffix).trans w.land_suffix
    · have fewer := w.land.land.settle_suffix.trans w.land.land_suffix
      rcases land_progress w with less | ⟨none', -⟩
      · exact .inl (Nat.lt_of_le_of_lt fewer.length_le less)
      · have all : w.land.land.settle.coming = [] :=
          List.suffix_nil.1 (none' ▸ fewer.trans w.land_suffix)
        right
        rw [bytes, all]
        simp

/-- **The peeking ends on the whole part**, however it arrives: with a prefix of
it in the buffer `stpnxt` comes to the end of the buffer, with what follows it
there too `stpnxt` stops before. -/
theorem deliver_peekLoop {snglfmt tok q : List Byte} {b : Byte} (next : b = 32 ∨ b = 0)
    (noNul : 0 ∉ tok) (room : tok.length < PM.bigbuf - 1)
    (part : ∀ u, u <+: tok → stpnxt u snglfmt = some [])
    (whole : ∀ rest, Stop rest → stpnxt (tok ++ rest) snglfmt = some rest) :
    ∀ turns (w : Arrivals Byte), w.bytes = tok ++ b :: q → w.coming.length < turns →
      ∃ buf w', deliver (peekLoop snglfmt turns) w = .done (some (buf, tok.length)) w' ∧
        buf.getD tok.length 0 = b ∧ w'.bytes = w.bytes ∧ w'.ending = w.ending ∧
          w'.coming <:+ w.coming := by
  intro turns
  induction turns with
  | zero => intro w _ patient; omega
  | succ turns ih =>
    intro w unread patient
    have some' : w.bytes ≠ [] := by simp [unread]
    obtain ⟨u, w', run, prefix', bytes, ending, fewer, progress⟩ :=
      deliver_speek some' (PM.bigbuf - 1) (by decide)
    have pos : ¬ (u.length : Int) < 0 := by omega
    rw [peekLoop, deliver_bind_done run]
    simp only [if_neg pos]
    replace prefix' := prefix'.trans (List.take_prefix _ _)
    rw [unread] at prefix'
    by_cases short : u.length ≤ tok.length
    · -- the bytes seen are a part of the part
      have inside : u <+: tok :=
        List.prefix_of_prefix_length_le prefix' (List.prefix_append _ _) short
      have plain : cstr u = u := by
        simpa [cstr] using fun c hc (zero : c = 0) => noNul (zero ▸ inside.subset hc)
      have more : w'.coming.length < w.coming.length := by
        rcases progress with less | all
        · exact less
        · rw [all, unread, List.length_take, List.length_append, List.length_cons] at short
          omega
      obtain ⟨buf, w'', again, char, bytes', ending', fewer'⟩ :=
        ih w' (bytes.trans unread) (by omega)
      refine ⟨buf, w'', ?_, char, bytes'.trans bytes, ending'.trans ending, fewer'.trans fewer⟩
      rw [plain, part u inside]
      simp only [List.length_nil, Nat.sub_zero, if_true]
      exact again
    · -- the next character is there
      have seen : tok ++ [b] <+: u :=
        List.prefix_of_prefix_length_le ⟨q, by simp⟩ prefix' (by simp; omega)
      obtain ⟨u', rfl⟩ := seen
      have split : cstr (tok ++ [b] ++ u') = tok ++ cstr (b :: u') := by
        rw [List.append_assoc, cstr_append noNul]
        rfl
      have stop : Stop (cstr (b :: u')) := by
        rcases next with rfl | rfl
        · rintro c ⟨⟩
          rfl
        · rintro c ⟨⟩
      rw [split, whole _ stop]
      have here : (tok ++ cstr (b :: u')).length - (cstr (b :: u')).length = tok.length := by
        rw [List.length_append, Nat.add_sub_cancel]
      have before : ¬ tok.length = (tok ++ [b] ++ u').length := by
        simp only [List.length_append, List.length_singleton]
        omega
      simp only [here, if_neg before]
      exact ⟨_, w', rfl, by simp, bytes, ending, fewer⟩

/-! ## Conversions -/

theorem deliver_swait (some' : w.bytes ≠ []) : ∃ n w', deliver swait w = .done n w' ∧
    w'.bytes = w.bytes ∧ w'.ending = w.ending ∧ w'.coming <:+ w.coming := by
  obtain ⟨n, w', -, run⟩ := deliver_of_exec (P := fun _ => True) (p := swait) (w := w)
    (q := w.bytes) (e := w.ending) fun ticks => by
      obtain ⟨n, -, run⟩ := exec_swait w.ending ticks some'
      exact ⟨n, ticks.tail.tail, trivial, by rw [run]⟩
  exact ⟨n, w', run⟩

variable {turns : Nat} {arg : Nat → Bool}

/-- **One conversion** takes its word, and the NUL if that is what follows. -/
theorem deliver_conversion (spins : Nat) {lead : List Byte} (hl : Lead lead) {c : Conv} {a : Arg}
    (takes : c.Takes a) {b : Byte} (next : b = 32 ∨ b = 0) {q : List Byte}
    (room : (lead ++ c.word a).length < PM.bigbuf - 1)
    (unread : w.bytes = lead ++ c.word a ++ b :: q) (patient : w.coming.length < turns) {i : Nat}
    (given : arg i = true) (left : Nat) (f : List Byte) :
    ∃ w', deliver (sscanfLoop spins turns arg (left + 1) i (lead ++ c.text ++ f)) w =
        deliver (sscanfLoop spins turns arg left (i + 1) f >>= fun more =>
          .ret (more.1 + 1, some a :: more.2)) w' ∧
      w'.bytes = (if b = 0 then q else b :: q) ∧ w'.ending = w.ending ∧ w'.coming <:+ w.coming := by
  obtain ⟨word, some'⟩ := takes.word
  have noNul : 0 ∉ lead ++ c.word a := by
    rcases hl with rfl | rfl
    · exact takes.noNul
    · simpa using takes.noNul
  obtain ⟨n, w₁, wait, bytes₁, ending₁, fewer₁⟩ := deliver_swait (w := w) (by simp [unread])
  obtain ⟨buf, w₂, peek, char, bytes₂, ending₂, fewer₂⟩ :=
    deliver_peekLoop next noNul room (fun u hu => stpnxt_part hl word hu)
      (fun rest stop => stpnxt_whole hl word some' stop) turns w₁ (bytes₁.trans unread)
      (Nat.lt_of_le_of_lt fewer₁.length_le patient)
  -- what is read of the stream, and what is left of it
  obtain ⟨taken, rest, split, count, str, left'⟩ : ∃ taken rest,
      lead ++ c.word a ++ b :: q = taken ++ rest ∧
      (if b = 0 then (lead ++ c.word a).length + 1 else (lead ++ c.word a).length) = taken.length ∧
      cstr taken = lead ++ c.word a ∧ rest = if b = 0 then q else b :: q := by
    rcases next with rfl | rfl
    · refine ⟨lead ++ c.word a, 32 :: q, rfl, rfl, ?_, rfl⟩
      have plain := cstr_append noNul []
      simpa [cstr] using plain
    · refine ⟨lead ++ c.word a ++ [0], q, by simp, ?_, cstr_append_nul noNul [], rfl⟩
      simp [Nat.add_assoc]
  obtain ⟨_, w₃, rfl, read, bytes₃, ending₃, fewer₃⟩ :=
    deliver_reads (reads_sreadbytes spins taken) (untimed_sreadbytes spins _)
      ((bytes₂.trans (bytes₁.trans unread)).trans split)
  refine ⟨w₃, ?_, bytes₃.trans left', ending₃.trans (ending₂.trans ending₁),
    fewer₃.trans (fewer₂.trans fewer₁)⟩
  rw [sscanfLoop, if_neg (by simp [given]), strnxtfmt_conv hl]
  dsimp only
  rw [if_neg (Nat.not_le_of_lt (piece_fits hl c)), deliver_bind_done wait, deliver_bind_done peek]
  dsimp only
  rw [char, count, deliver_bind_done read, str, sscanf_word hl takes]
  have some'' : ¬ taken.length = 0 := by
    rw [← count]
    have pos := List.length_pos_iff.2 some'
    split
    · omega
    · rw [List.length_append]
      omega
  dsimp only
  rw [if_neg (by decide), if_neg some'']
  rfl

/-- **All conversions**, one after the other, and the NUL with the last. -/
theorem deliver_fields (spins : Nat) {rest : List Byte} : ∀ (fields : List (Conv × Arg))
    (f : Conv × Arg) (lead : List Byte) {w : Arrivals Byte} {i left : Nat}, Lead lead →
    (∀ g ∈ f :: fields, g.1.Takes g.2) → (∀ j ≤ fields.length, arg (i + j) = true) →
    w.bytes = lead ++ f.1.word f.2 ++ spacedWords fields ++ 0 :: rest →
    (lead ++ f.1.word f.2 ++ spacedWords fields).length < PM.bigbuf - 1 →
    w.coming.length < turns → fields.length < left →
    ∃ w', deliver (sscanfLoop spins turns arg left i
        (lead ++ f.1.text ++ spacedCodes (fields.map Prod.fst))) w =
          .done (fields.length + 1, (f :: fields).map fun g => some g.2) w' ∧
      w'.bytes = rest ∧ w'.ending = w.ending := by
  intro fields
  induction fields with
  | nil =>
    intro f lead w i left hl takes given unread room patient many
    obtain ⟨left, rfl⟩ : ∃ n, left = n + 1 := ⟨left - 1, by omega⟩
    have turn : arg i = true := given 0 (Nat.zero_le _)
    rw [spacedWords, List.flatMap_nil, List.append_nil] at unread room
    obtain ⟨w', run, bytes, ending, -⟩ := deliver_conversion spins hl
      (takes f (by simp)) (.inr rfl) room unread patient turn left []
    refine ⟨w', ?_, bytes, ending⟩
    have ended : sscanfLoop spins turns arg left (i + 1) [] = .ret (0, []) := by
      cases left with
      | zero => rfl
      | succ left =>
        rw [sscanfLoop]
        split <;> rfl
    change deliver (sscanfLoop spins turns arg (left + 1) i (lead ++ f.1.text ++ [])) w = _
    rw [run, ended]
    rfl
  | cons g fields ih =>
    intro f lead w i left hl takes given unread room patient many
    obtain ⟨left, rfl⟩ : ∃ n, left = n + 1 := ⟨left - 1, by omega⟩
    rw [List.length_cons] at many given
    have turn : arg i = true := given 0 (Nat.zero_le _)
    rw [spacedWords_cons] at unread room
    have more : w.bytes = lead ++ f.1.word f.2 ++ 32 :: (g.1.word g.2 ++ spacedWords fields ++
        0 :: rest) := by
      rw [unread]
      simp
    have here : (lead ++ f.1.word f.2).length < PM.bigbuf - 1 := by
      simp only [List.length_append] at room ⊢
      omega
    obtain ⟨w₁, run, bytes, ending, fewer⟩ := deliver_conversion spins hl
      (takes f (by simp)) (.inl rfl) here more patient turn left
        (spacedCodes ((g :: fields).map Prod.fst))
    rw [if_neg (by decide)] at bytes
    have given' : ∀ j ≤ fields.length, arg (i + 1 + j) = true := fun j hj => by
      rw [Nat.add_assoc, Nat.add_comm 1]
      exact given (j + 1) (by omega)
    have room' : ([32] ++ g.1.word g.2 ++ spacedWords fields).length < PM.bigbuf - 1 := by
      simp only [List.length_append] at room ⊢
      omega
    obtain ⟨w', tail, bytes', ending'⟩ := ih g [32] (.inr rfl)
      (fun h hh => takes h (List.mem_cons_of_mem _ hh)) given'
      (by rw [bytes]; simp) room' (Nat.lt_of_le_of_lt fewer.length_le patient)
      (show fields.length < left by omega)
    refine ⟨w', ?_, bytes', ending'.trans ending⟩
    rw [List.map_cons, spacedCodes_cons] at run ⊢
    rw [run, deliver_bind_done tail]
    rfl

end

/-- A format has a character for each conversion, and more. -/
theorem length_le_spacedCodes (cs : List Conv) : cs.length ≤ (spacedCodes cs).length := by
  induction cs with
  | nil => exact Nat.le_refl _
  | cons c cs ih =>
    rw [spacedCodes_cons, List.length_append, List.length_append, List.length_cons,
      List.length_singleton]
    omega

theorem spacedWords_noNul {fields : List (Conv × Arg)} (takes : ∀ g ∈ fields, g.1.Takes g.2) :
    0 ∉ spacedWords fields := by
  intro zero
  obtain ⟨g, hg, mem⟩ := List.mem_flatMap.1 zero
  rcases List.mem_cons.1 mem with blank | inside
  · cases blank
  · exact (takes g hg).noNul inside

/-- What `Sprintf` sends. -/
def sent (fmt : List Byte) (args : List Arg) : List Byte :=
  (exec (sprintf fmt args) ⟨[], .silent, []⟩).wrote.flatten

/-- **`Sscanf` undoes `Sprintf`.** However the bytes of the message and of what
is queued behind it arrive, and if the peeking goes on until they have: as
many conversions as there are in the format, the values that have been sent,
and the message taken off the stream with its NUL. -/
theorem sscanf_undoes_sprintf (f : Conv × Arg) (fields : List (Conv × Arg))
    (takes : ∀ g ∈ f :: fields, g.1.Takes g.2)
    (short : (vsprintf none (format ((f :: fields).map Prod.fst))
      ((f :: fields).map Prod.snd)).length ≤ PM.bigbuf - 2)
    (w : Arrivals Byte) (rest : List Byte)
    (unread : w.bytes =
      sent (format ((f :: fields).map Prod.fst)) ((f :: fields).map Prod.snd) ++ rest)
    (spins turns : Nat) (patient : w.coming.length < turns) (arg : Nat → Bool)
    (given : ∀ i < (f :: fields).length, arg i = true) :
    ∃ w', deliver (sscanf spins turns (format ((f :: fields).map Prod.fst)) arg) w =
        .done ((f :: fields).length, (f :: fields).map fun g => some g.2) w' ∧
      w'.bytes = rest ∧ w'.ending = w.ending := by
  have text := vsprintf_format (f :: fields)
  have noNul : 0 ∉ sentence (f :: fields) := by
    intro zero
    rcases List.mem_append.1 zero with first | more
    · exact (takes f (by simp)).noNul first
    · exact spacedWords_noNul (fun g hg => takes g (List.mem_cons_of_mem _ hg)) more
  have message : sent (format ((f :: fields).map Prod.fst)) ((f :: fields).map Prod.snd) =
      sentence (f :: fields) ++ [0] := by
    change withNul (cstr (vsprintf none _ _)) ++ [] = _
    have whole := cstr_append noNul []
    rw [List.append_nil] at whole
    rw [text, List.append_nil, whole]
    simp [cstr, withNul]
  rw [text] at short
  rw [message] at unread
  have long := length_le_spacedCodes (fields.map Prod.fst)
  rw [List.length_map] at long
  apply deliver_fields spins fields f [] (.inl rfl) takes
    (fun j hj => by rw [Nat.zero_add]; exact given j (by simp; omega))
    (by rw [unread]; simp [sentence])
    (Nat.lt_of_le_of_lt short (by decide)) patient
  change fields.length < (f.1.text ++ spacedCodes (fields.map Prod.fst)).length + 1
  rw [List.length_append]
  omega

/-- `%hd %s %lx` with -5, `ab` and 255. -/
def someFields : List (Conv × Arg) :=
  [(.d .short, .int (-5)), (.s, .str [97, 98]), (.x .long, .int 255)]

/-- `-5 ab ff`, its NUL and an `x` behind it, in pieces and with a pause. -/
def inPieces : Arrivals Byte :=
  ⟨[45], [[53], [], [32, 97], [98, 32, 102], [102], [0, 120]], .silent⟩

theorem sscanf_undoes_sprintf_someFields :
    ∃ w', deliver (sscanf 0 7 (format (someFields.map Prod.fst)) fun i => decide (i < 3)) inPieces =
        .done (3, [some (.int (-5)), some (.str [97, 98]), some (.int 255)]) w' ∧
      w'.bytes = [120] ∧ w'.ending = .silent :=
  sscanf_undoes_sprintf (.d .short, .int (-5)) [(.s, .str [97, 98]), (.x .long, .int 255)]
    (by decide +kernel) (by decide +kernel) inPieces [120] (by decide +kernel) 0 7 (by decide)
    (fun i => decide (i < 3)) (by decide)

end UnixProgramming.Ssl
