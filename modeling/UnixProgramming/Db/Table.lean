import UnixProgramming.Calls.Pool
import UnixProgramming.Db.Interface

/-!
# What the database is for

A table from keys to data, and the calls that look into it and change it, each
of them at once. Processes that use the library do so through handles; what the
kernel does with their locks is here as well.
-/

namespace UnixProgramming.Db

open Calls (Prog Pool Sem)
open Ssl (Byte)

/-- A string that can be a key: it does not end the text of an index record or
part it, and is not too long for one. -/
@[ext] structure Key where
  text : List Byte
  nonempty : text ≠ []
  short : text.length ≤ 999
  clean : SEP ∉ text
  noNul : 0 ∉ text
  deriving DecidableEq

/-- A string that can be stored, in memory of the caller's own. -/
structure Data where
  text : List Byte
  nonempty : text ≠ []
  short : text.length + 1 ≤ DATLEN_MAX
  noNul : 0 ∉ text
  deriving DecidableEq

abbrev Table := Key → Option Data

/-! ## The calls -/

/-- What a store is to do about a record that is there, or is not. -/
inductive Flag where
  | insert
  | replace
  | store
  deriving DecidableEq

def Flag.code : Flag → Int
  | insert => DB_INSERT
  | replace => DB_REPLACE
  | store => DB_STORE

theorem Flag.code_replace {flag : Flag} : flag.code = DB_REPLACE ↔ flag = .replace := by
  cases flag <;> decide

theorem Flag.code_insert {flag : Flag} : flag.code = DB_INSERT ↔ flag = .insert := by
  cases flag <;> decide

theorem Flag.code_some (flag : Flag) :
    ¬ (flag.code ≠ DB_INSERT ∧ flag.code ≠ DB_REPLACE ∧ flag.code ≠ DB_STORE) := by
  cases flag <;> decide

inductive Req where
  | fetch (key : Key)
  | delete (key : Key)
  | store (key : Key) (data : Data) (flag : Flag)

abbrev Reply : Req → Type
  | .fetch _ => Option (List Byte)
  | .delete _ => Int
  | .store .. => Int

/-- What a call is to hand over, and to leave of the table. -/
def Req.answer : (c : Req) → Table → Reply c × Table
  | .fetch key, m => ((m key).map Data.text, m)
  | .delete key, m => if (m key).isSome then (0, Function.update m key none) else (-1, m)
  | .store key data flag, m =>
    if (m key).isSome then
      if flag = .insert then (1, m) else (0, Function.update m key (some data))
    else if flag = .replace then (-1, m)
    else (0, Function.update m key (some data))

/-- A call through one of the handles of a process. -/
abbrev Req.On := Nat × Req

abbrev Reply.On (c : Req.On) : Type := Reply c.2

/-- Each call at once, on one table for all. -/
def spec (ι : Type) : Sem ι Table Reply.On := fun _ c m r m' => c.2.answer m = (r, m')

/-- The function of the library. -/
def Req.action (turns : Nat) : (c : Req) → Action (Reply c)
  | .fetch key => db_fetch turns key.text
  | .delete key => db_delete turns key.text
  | .store key data flag => db_store turns key.text (.own data.text) flag.code

/-- The function of the library on one of the handles. -/
def body (turns : Nat) (c : Req.On) (handles : Nat → Handle) :
    Prog Answer (Reply.On c × (Nat → Handle)) :=
  (c.2.action turns).run (handles c.1) >>= fun x =>
    .ret (x.1, Function.update handles c.1 x.2)

/-- A program that uses the library. -/
abbrev Client (β : Type) := Prog Reply.On β

def Client.library {β : Type} (turns : Nat) (client : Client β) (handles : Nat → Handle) :
    Prog Answer β :=
  client.via (body turns) handles

/-! ## Files and locks -/

variable {ι : Type} [DecidableEq ι]

/-- For each process and each byte, the lock the process has on it, and whether
that is a write lock. -/
abbrev Locks (ι : Type) := ι → File → Nat → Option Bool

structure World (ι : Type) where
  files : Files
  locks : Locks ι

/-- The bytes of a lock. A length of 0 is all up to the end, wherever that will be. -/
def covers (off len n : Nat) : Prop := off ≤ n ∧ (len = 0 ∨ n < off + len)

instance (off len n : Nat) : Decidable (covers off len n) := inferInstanceAs (Decidable (_ ∧ _))

/-- No other process is in the way. -/
def Grant (L : Locks ι) (i : ι) (f : File) (write : Bool) (off len : Nat) : Prop :=
  ∀ j, j ≠ i → ∀ n, covers off len n → ∀ mode, L j f n = some mode → write = false ∧ mode = false

def Locks.set (L : Locks ι) (i : ι) (f : File) (off len : Nat) (mode : Option Bool) : Locks ι :=
  Function.update L i fun g n => if g = f ∧ covers off len n then mode else L i g n

/-- What a system call of process `i` does. It waits for a lock, and comes back
from no stop. -/
def sem (i : ι) (c : Sys) (s : World ι) (r : Answer c) (s' : World ι) : Prop :=
  c.answer s.files = some (r, s'.files) ∧
    match c with
    | .lock f write off len => Grant s.locks i f write off len ∧
        s'.locks = s.locks.set i f off len (some write)
    | .unlock f off len => s'.locks = s.locks.set i f off len none
    | _ => s'.locks = s.locks

/-- An index file that the pointers reach, and a data file whose offsets have
at most 18 digits. -/
def World.Small (s : World ι) : Prop :=
  (s.files.content .idx).length ≤ 9999999 ∧ (s.files.content .dat).length < 10 ^ 18

instance (s : World ι) : Decidable s.Small := inferInstanceAs (Decidable (_ ∧ _))

/-- What happens as long as the files are small enough. -/
def semSmall : Sem ι (World ι) Answer := fun i c s r s' => sem i c s r s' ∧ s'.Small

/-! ### One process among others -/

/-- The locks of the others are on bytes that are in `taken`. -/
def World.Beside (i : ι) (taken : List (File × Nat)) (s : World ι) : Prop :=
  ∀ j, j ≠ i → ∀ f n, s.locks j f n ≠ none → (f, n) ∈ taken

/-- A lock is on no byte of these. -/
def Sys.Clear (taken : List (File × Nat)) : Sys → Prop
  | .lock f _ off len => ∀ b ∈ taken, ¬ (b.1 = f ∧ covers off len b.2)
  | _ => True

instance (taken : List (File × Nat)) : DecidablePred (Sys.Clear taken)
  | .lock f _ off len => inferInstanceAs (Decidable (∀ b ∈ taken, ¬ (b.1 = f ∧ covers off len b.2)))
  | .openf .. | .size _ | .read .. | .write .. | .unlock .. | .stop _ => isTrue trivial

/-- What a system call leaves of the locks. -/
def Sys.leave (i : ι) : Sys → Locks ι → Locks ι
  | .lock f mode off len, L => L.set i f off len (some mode)
  | .unlock f off len, L => L.set i f off len none
  | _, L => L

/-- What a system call of process `i` does where no lock of the others is in its way. -/
def World.answer (i : ι) (taken : List (File × Nat)) (c : Sys) (s : World ι) :
    Option (Answer c × World ι) :=
  ((c.answer s.files).map fun x => (x.1, ⟨x.2, c.leave i s.locks⟩)).filter fun x =>
    c.Clear taken ∧ x.2.Small

/-- A lock is on this byte alone. -/
def Sys.OnlyAt (f : File) (o : Nat) : Sys → Bool
  | .lock g _ off len => g = f && off = o && len = 1
  | _ => true

theorem Sys.leave_other {i j : ι} (other : j ≠ i) (c : Sys) (L : Locks ι) : c.leave i L j = L j := by
  cases c with
  | lock | unlock => exact Function.update_of_ne other _ _
  | openf | size | read | write | stop => rfl

theorem World.answer_sem {i : ι} (taken : List (File × Nat)) (c : Sys) (s : World ι)
    (x : Answer c × World ι) (beside : s.Beside i taken)
    (answered : World.answer i taken c s = some x) :
    semSmall i c s x.1 x.2 ∧ x.2.Beside i taken := by
  obtain ⟨answered, ok⟩ := Option.filter_eq_some_iff.1 answered
  obtain ⟨y, does, rfl⟩ := Option.map_eq_some_iff.1 answered
  obtain ⟨clear, small⟩ := of_decide_eq_true ok
  refine ⟨⟨⟨does, ?_⟩, small⟩, fun j other f n lock => beside j other f n ?_⟩
  · cases c with
    | lock f write off len =>
      refine ⟨fun j other n here mode lock => ?_, rfl⟩
      have mem : (f, n) ∈ taken := beside j other f n (by rw [lock]; exact nofun)
      exact absurd ⟨rfl, here⟩ (clear _ mem)
    | openf | size | read | write | unlock | stop => rfl
  · dsimp only at lock
    rwa [Sys.leave_other other] at lock

/-- The process takes the lock of one byte. -/
theorem World.answer_only {i : ι} (taken : List (File × Nat)) (f : File) (o : Nat) (c : Sys)
    (s : World ι) (x : Answer c × World ι)
    (first : s.Beside i taken ∧ ∀ g n, s.locks i g n ≠ none → (g, n) = (f, o))
    (answered : (if c.OnlyAt f o then World.answer i taken c s else none) = some x) :
    semSmall i c s x.1 x.2 ∧ x.2.Beside i taken ∧
      ∀ g n, x.2.locks i g n ≠ none → (g, n) = (f, o) := by
  obtain ⟨only, answered⟩ := Option.ite_none_right_eq_some.1 answered
  obtain ⟨does, beside⟩ := World.answer_sem taken c s x first.1 answered
  refine ⟨does, beside, fun g n lock => ?_⟩
  obtain ⟨answered, -⟩ := Option.filter_eq_some_iff.1 answered
  obtain ⟨y, -, rfl⟩ := Option.map_eq_some_iff.1 answered
  replace lock : c.leave i s.locks i g n ≠ none := lock
  have before := first.2 g n
  cases c with
  | lock f' mode off len =>
    simp only [Sys.OnlyAt, Bool.and_eq_true, decide_eq_true_eq] at only
    obtain ⟨⟨rfl, rfl⟩, rfl⟩ := only
    rw [Sys.leave, Locks.set, Function.update_self] at lock
    split at lock
    · rename_i here
      obtain ⟨rfl, low, high⟩ := here
      exact congrArg _ (by omega)
    · exact before lock
  | unlock f' off len =>
    rw [Sys.leave, Locks.set, Function.update_self] at lock
    split at lock
    · exact absurd rfl lock
    · exact before lock
  | openf | size | read | write | stop => exact before lock

end UnixProgramming.Db
