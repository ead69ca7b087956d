import UnixProgramming.Db.Open
import UnixProgramming.Db.Store

/-!
# The library side by side

Any number of processes with any programs over the library, in any order of
their system calls.

* `does_request`, `library_wp`: one process, with the others in between;
* `library_simulates`: each call is done at one moment.
-/

namespace UnixProgramming.Db

open Calls (Prog Pool Terms)
open Ssl (Byte)

variable {ι β : Type} [DecidableEq ι] {i : ι} {s : State ι β} {c : Client β} {turns : Nat}

/-- Every call of the library. -/
theorem does_request (many : 9999999 < turns) {n : Nat} (req : Req) {k : Reply req → Client β}
    {h : Handle} (idle : Idle i (.call (n, req) k) s) :
    Does i (req.action turns) (fun r _ s' => Idle i (k r) s') h s := by
  cases req with
  | fetch key => exact does_fetch many idle
  | delete key => exact does_delete many idle
  | store key data flag => exact does_store many idle

/-- **Every program over the library**, call after call. -/
theorem library_wp (many : 9999999 < turns) (handles : Nat → Handle) (idle : Idle i c s) :
    (terms ι β).wp semSmall i (c.library turns handles) (fun b s' => Idle i (.ret b) s') s := by
  induction c generalizing handles s with
  | ret b => exact fun s' others => Idle.stable.next idle others
  | call d k ih =>
    obtain ⟨n, req⟩ := d
    have first := does_request many req (h := handles n) idle
    refine Terms.wp_bind.2 (Terms.wp_bind.2 (Terms.wp.mono first fun x s' idle' => ?_))
    exact fun s'' others => ih x.1 _ (Idle.stable.next idle' others)

/-! ## A program -/

/-- A store through the only handle of a program. -/
def insert (key : Key) (data : Data) : Client Int := Prog.ask ((0, .store key data .insert) : Req.On)

def alpha : Key := ⟨[65, 108, 112, 104, 97], by decide, by decide, by decide, by decide⟩
def beta : Key := ⟨[98, 101, 116, 97], by decide, by decide, by decide, by decide⟩
def gamma : Key := ⟨[103, 97, 109, 109, 97], by decide, by decide, by decide, by decide⟩

def data1 : Data := ⟨[100, 97, 116, 97, 49], by decide, by decide, by decide⟩
def dataForBeta : Data :=
  ⟨[68, 97, 116, 97, 32, 102, 111, 114, 32, 98, 101, 116, 97], by decide, by decide, by decide⟩
def record3 : Data := ⟨[114, 101, 99, 111, 114, 100, 51], by decide, by decide, by decide⟩

/-- `t4.c` behind its `db_open`: the message with which it ends. -/
def t4 : Client (Option String) := do
  if (← insert alpha data1) ≠ 0 then return some "db_store error for alpha"
  else if (← insert beta dataForBeta) ≠ 0 then return some "db_store error for beta"
  else if (← insert gamma record3) ≠ 0 then return some "db_store error for gamma"
  else return none

/-! ## Side by side -/

/-- The programs over the library, each with its handles. -/
def start (turns : Nat) (w : World ι) (clients : ι → Client β) (handles : ι → Nat → Handle) :
    Pool Answer ι (World ι) β :=
  ⟨w, fun i => (clients i).library turns (handles i)⟩

/-- **The calls of any number of processes are done one at a time.** Whatever
the order of the system calls, and as long as the files are small enough, all that
the processes get to know is what they would with a table for all, on which each
call is done at once. -/
theorem library_simulates (many : 9999999 < turns) {w : World ι} {m : Table} (holds : w.Holds m)
    (clients : ι → Client β) (handles : ι → Nat → Handle) :
    Pool.Simulates semSmall (spec ι) (start turns w clients handles) ⟨m, clients⟩ := by
  obtain ⟨g, rest⟩ := holds
  refine Terms.simulates (T := terms ι β) (g := g.withPool ⟨m, clients⟩) (fun g => g.pool)
    (fun i s s' guar => guar.pool) fun i => ?_
  exact (library_wp many (handles i) (rest.idle clients i)).mono fun b s idle => idle.prog

/-- Two processes that run `t4.c` on one new database. -/
theorem library_simulates_t4 : Pool.Simulates semSmall (spec (Fin 2))
    (start 10000000 (emptyWorld (Fin 2)) (fun _ => t4) fun _ _ => {})
    ⟨fun _ => none, fun _ => t4⟩ :=
  library_simulates (by decide) emptyWorld_clean.holds _ _

end UnixProgramming.Db
