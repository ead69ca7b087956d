import UnixProgramming.Db.Order

/-!
# Processes that are killed

A process that is killed makes no more system calls, and the kernel gives back
its locks. What it has written stays.

* `Inv.kill`: the files are well as long as no record was being taken from a chain;
* `Alive.step`, `Alive.fewer`: processes of which some have been killed;
* `library_survives`: the others notice nothing.
-/

namespace UnixProgramming.Db

open Calls (Prog Pool Terms Order)
open Ssl (Byte)

variable {ι β : Type} [DecidableEq ι] {i j : ι} {w : World ι} {g : Ghost ι β}

/-- The kernel gives back the locks of a process. -/
def World.kill (i : ι) (w : World ι) : World ι :=
  { w with locks := Function.update w.locks i fun _ _ => none }

/-- A program that goes no further. -/
def killed : Prog Answer β := .call (.stop .killed) Empty.elim

/-- Process `i` is killed. -/
def kill (i : ι) (P : Pool Answer ι (World ι) β) : Pool Answer ι (World ι) β :=
  ⟨P.state.kill i, Function.update P.prog i killed⟩

/-! ## What it leaves -/

def Owner.bury (i : ι) : Owner ι → Owner ι
  | .proc j => if j = i then .lost else .proc j
  | w => w

theorem Owner.bury_eq {w w' : Owner ι} (some' : w' ≠ .lost) :
    w.bury i = w' ↔ w = w' ∧ w' ≠ .proc i := by
  cases w with
  | bucket b => exact ⟨fun e => ⟨e, by rintro rfl; cases e⟩, fun both => both.1⟩
  | free => exact ⟨fun e => ⟨e, by rintro rfl; cases e⟩, fun both => both.1⟩
  | lost => exact ⟨fun e => absurd e.symm some', fun both => absurd both.1.symm some'⟩
  | proc j =>
    rw [bury]
    split
    · rename_i same
      subst same
      exact ⟨fun e => absurd e.symm some', fun both => absurd both.1.symm both.2⟩
    · rename_i other
      refine ⟨fun e => ⟨e, ?_⟩, fun both => both.1⟩
      rintro rfl
      exact other (Owner.proc.inj e)

/-- The records and the data of a process belong to nobody any more. -/
def Ghost.bury (i : ι) (g : Ghost ι β) : Ghost ι β :=
  { g with
    own := fun o => (g.own o).map (Owner.bury i)
    room := Function.update g.room i none }

theorem bury_own {u : Owner ι} (some' : u ≠ .lost) :
    (g.bury i).own o = some u ↔ g.own o = some u ∧ u ≠ .proc i := by
  rw [Ghost.bury, Option.map_eq_some_iff]
  constructor
  · rintro ⟨v, own, e⟩
    obtain ⟨rfl, other⟩ := (Owner.bury_eq some').1 e
    exact ⟨own, other⟩
  · rintro ⟨own, other⟩
    exact ⟨u, own, (Owner.bury_eq some').2 ⟨rfl, other⟩⟩

theorem bury_room {room : Nat × List Byte} (there : (g.bury i).room j = some room) :
    g.room j = some room := by
  replace there : Function.update g.room i none j = some room := there
  rcases eq_or_ne j i with rfl | other
  · rw [Function.update_self] at there
    cases there
  · rwa [Function.update_of_ne other] at there

theorem bury_extent {e : Nat ⊕ ι} {place : Nat × Nat}
    (there : State.extent (w.kill i, g.bury i) e = some place) :
    State.extent (w, g) e = some place := by
  cases e with
  | inl o => exact there
  | inr j =>
    obtain ⟨room, some', rfl⟩ := Option.map_eq_some_iff.1 there
    exact Option.map_eq_some_iff.2 ⟨room, bury_room some', rfl⟩

theorem kill_lock {f : File} {n : Nat} {mode : Bool} (lock : (w.kill i).locks j f n = some mode) :
    j ≠ i ∧ w.locks j f n = some mode := by
  replace lock : Function.update w.locks i (fun _ _ => none) j f n = some mode := lock
  rcases eq_or_ne j i with rfl | other
  · rw [Function.update_self] at lock
    cases lock
  · rw [Function.update_of_ne other] at lock
    exact ⟨other, lock⟩

theorem Laid.kill (laid : Laid (w, g)) : Laid (w.kill i, g.bury i) where
  layout := laid.layout
  ok := laid.ok
  heads := laid.heads
  slots := laid.slots
  gap := laid.gap
  owned o := by
    refine Iff.trans ?_ (laid.owned o)
    rw [Ghost.bury, Option.isSome_map]
  inside e off len there := laid.inside e off len (bury_extent there)
  apart e e' other off len off' len' there there' :=
    laid.apart e e' other off len off' len' (bury_extent there) (bury_extent there')
  room j off bs there := laid.room j off bs (bury_room there)

/-- The files are well when no record was being taken from a chain. -/
theorem Inv.kill (inv : Inv (w, g)) (whole : ∀ b, g.torn b ≠ some i) :
    Inv (w.kill i, g.bury i) where
  small := inv.small
  laid := inv.laid.kill
  free :=
    { chain := inv.free.chain
      distinct := inv.free.distinct
      owns := fun o => by
        rw [bury_own (by simp), and_iff_left (by simp)]
        exact inv.free.owns o
      blank := inv.free.blank }
  excl j j' f n lock other := by
    obtain ⟨-, lock⟩ := kill_lock lock
    have none' := inv.excl j j' f n lock other
    by_contra some'
    obtain ⟨mode, lock'⟩ := Option.ne_none_iff_exists'.1 some'
    rw [(kill_lock lock').2] at none'
    cases none'
  links b torn := ⟨(inv.links b torn).chain, (inv.links b torn).distinct⟩
  entries b torn := by
    obtain ⟨owns, holds, only, all⟩ := inv.entries b torn
    refine ⟨fun o => ?_, fun o ho => ?_, only, fun key data hash value => ?_⟩
    · rw [bury_own (by simp), and_iff_left (by simp)]
      exact owns o
    · obtain ⟨t, key, data, ⟨here, text, bytes⟩, rest⟩ := holds o ho
      exact ⟨t, key, data, ⟨here, text, bytes⟩, rest⟩
    · obtain ⟨o, ho, t, here, text, bytes⟩ := all key data hash value
      exact ⟨o, ho, t, here, text, bytes⟩
  tears b j torn := by
    have other : j ≠ i := by
      rintro rfl
      exact whole b torn
    have same : (w.kill i).locks j = w.locks j := Function.update_of_ne other _ _
    exact (congrFun₂ same .idx (headOff b)).trans (inv.tears b j torn)
  doing b j torn := inv.doing b j torn

/-- The others can count on it. -/
theorem Inv.rely_kill (inv : Inv (w, g)) (whole : ∀ b, g.torn b ≠ some i) (other : j ≠ i) :
    Rely j (w, g) (w.kill i, g.bury i) := by
  have kept {o : Nat} {u : Owner ι} (own : g.own o = some u) (reads : Reads j w u) :
      (g.bury i).own o = some u := by
    refine (bury_own ?_).2 ⟨own, ?_⟩
    · rintro rfl
      obtain ⟨n, at', -⟩ := reads
      cases at'
    · rintro rfl
      exact other (Eq.symm reads)
  refine fun _ => ⟨inv.kill whole, Function.update_of_ne other _ _, fun l sees => ?_,
    fun o u own reads => ?_, fun b torn => torn, rfl⟩
  · cases l with
    | bucket b => exact ⟨rfl, rfl, rfl, fun _ _ => rfl⟩
    | free => exact ⟨rfl, rfl⟩
    | slot o =>
      obtain ⟨u, own, reads⟩ := sees
      intro u' own'
      obtain rfl := Option.some.inj (own.symm.trans own')
      exact ⟨kept own reads, rfl, fun _ _ => rfl⟩
    | room j' =>
      obtain rfl : j' = j := sees
      exact Function.update_of_ne other _ _
    | ends f => exact rfl
  · refine ((bury_own ?_).1 own).1
    rintro rfl
    obtain ⟨n, at', -⟩ := reads
    cases at'

/-! ## The others -/

/-- The terms of all processes that have not been killed. -/
def survivors (ι β : Type) [DecidableEq ι] (dead : ι → Prop) :
    Terms Answer ι (World ι) (Ghost ι β) :=
  { terms ι β with may := fun i c _ => dead i ∨ ∀ why, c ≠ .stop why }

/-- A process that has been killed. -/
structure Gone (P : Pool Answer ι (World ι) β) (g : Ghost ι β) (helds : ι → List Region) (j : ι) :
    Prop where
  prog : P.prog j = killed
  held : helds j = []
  room : g.room j = none
  own : ∀ o, g.own o ≠ some (.proc j)

/-- Programs over the library, some of which have been killed. -/
structure Alive (dead : ι → Prop) (P : Pool Answer ι (World ι) β) (g : Ghost ι β)
    (helds : ι → List Region) : Prop where
  inv : Inv (P.state, g)
  wps : ∀ j, (survivors ι β dead).wp semSmall j (P.prog j) (fun b s => Idle j (.ret b) s)
    (P.state, g)
  covered : Covered P.state helds
  keeps : ∀ j, locking.keeps (P.prog j) (fun _ held => held = []) (helds j)
  gone : ∀ j, dead j → Gone P g helds j

section
variable {dead : ι → Prop} {P P' : Pool Answer ι (World ι) β} {helds : ι → List Region}

theorem killed_keeps : locking.keeps (killed : Prog Answer β) (fun _ held => held = []) [] := by
  rw [killed, Order.keeps]
  exact ⟨fun f write off len e => (by cases e), fun l takes => (by cases takes), fun r => r.elim⟩

theorem Alive.step (alive : Alive dead P g helds) (step : Pool.Step semSmall i P P') :
    ∃ g' helds', Alive dead P' g' helds' ∧
      (g'.pool = g.pool ∨ Pool.Step (spec ι) i g.pool g'.pool) := by
  obtain ⟨g', guar, wps⟩ := Terms.together alive.wps step
  obtain ⟨helds', covered, keeps, others⟩ := alive.covered.run_step alive.keeps step
  refine ⟨g', helds', ⟨guar.inv, wps, covered, keeps, fun j gone => ?_⟩, guar.pool⟩
  obtain ⟨prog, held, room, own⟩ := alive.gone j gone
  -- A process that has been killed makes no step.
  have other : j ≠ i := by
    rintro rfl
    cases step with
    | @call c k r w' next does =>
      rw [prog, killed] at next
      cases next
      exact r.elim
  refine ⟨(step.prog_other other).trans prog, (others j other).trans held, ?_, fun o mine => ?_⟩
  · exact Eq.trans (guar.same (.room j) other) room
  · rcases guar.own o _ mine with before | mine
    · exact own o before
    · exact other mine

theorem Alive.fewer (alive : Alive dead P g helds)
    (whole : ∀ c k, g.pool.prog i = .call c k → ∀ b, c.2.Tears b g.pool.state →
      P.state.locks i .idx (headOff b) ≠ some true) :
    Alive (fun j => dead j ∨ j = i) (kill i P) (g.bury i) (Function.update helds i []) := by
  have quiet (b : Bucket) : g.torn b ≠ some i := by
    intro torn
    obtain ⟨c, k, next, tears⟩ := alive.inv.doing b i torn
    exact whole c k next b tears (alive.inv.tears b i torn)
  refine ⟨alive.inv.kill quiet, fun j => ?_, ⟨fun j f n some' => ?_, fun j l there => ?_⟩,
    fun j => ?_, fun j gone => ?_⟩
  · rcases eq_or_ne j i with rfl | other
    · rw [show (kill j P).prog j = killed from Function.update_self ..]
      exact fun s others => ⟨.inl (.inr rfl), fun r => r.elim⟩
    · rw [show (kill i P).prog j = P.prog j from Function.update_of_ne other ..]
      refine ((alive.wps j).rely (alive.inv.rely_kill quiet other)).terms (fun _ _ rely => rely)
        (fun _ _ guar => guar) fun c s may => ?_
      exact may.imp_left .inl
  · obtain ⟨mode, lock⟩ := Option.isSome_iff_exists.1 some'
    obtain ⟨other, lock⟩ := kill_lock lock
    rw [Function.update_of_ne other]
    exact alive.covered.held j f n (by rw [lock]; rfl)
  · rcases eq_or_ne j i with rfl | other
    · rw [Function.update_self] at there
      cases there
    · rw [Function.update_of_ne other] at there
      exact alive.covered.known j l there
  · rcases eq_or_ne j i with rfl | other
    · rw [Function.update_self, show (kill j P).prog j = killed from Function.update_self ..]
      exact killed_keeps
    · rw [Function.update_of_ne other,
        show (kill i P).prog j = P.prog j from Function.update_of_ne other ..]
      exact alive.keeps j
  · rcases eq_or_ne j i with rfl | other
    · refine ⟨Function.update_self .., Function.update_self .., Function.update_self .., ?_⟩
      intro o mine
      exact ((bury_own (by simp)).1 mine).2 rfl
    · obtain ⟨prog, held, room, own⟩ := alive.gone j (gone.resolve_right other)
      refine ⟨(Function.update_of_ne other ..).trans prog, (Function.update_of_ne other ..).trans held,
        (Function.update_of_ne other ..).trans room, ?_⟩
      intro o mine
      exact own o ((bury_own (by simp)).1 mine).1

/-- A process without locks whose program has come to its end, or has been killed. -/
theorem Alive.idle (alive : Alive dead P g helds)
    (still : (∃ b, P.prog i = .ret b) ∨ P.prog i = killed) :
    helds i = [] ∧ g.room i = none ∧ ∀ o, g.own o ≠ some (.proc i) := by
  by_cases gone : dead i
  · obtain ⟨-, held, room, own⟩ := alive.gone i gone
    exact ⟨held, room, own⟩
  have mine := alive.wps i
  have held := alive.keeps i
  rcases still with ⟨b, ended⟩ | stopped
  · rw [ended] at mine held
    have idle : Idle i (.ret b) (P.state, g) := mine _ ((survivors ι β dead).rely_refl i _)
    exact ⟨held, idle.room, idle.own⟩
  · rw [stopped] at mine
    have may := (mine _ ((survivors ι β dead).rely_refl i _)).1
    exact absurd rfl (may.resolve_left gone .killed)

theorem Alive.goes_on (alive : Alive dead P g helds) (more : ∀ b, P.prog i ≠ .ret b)
    (lives : P.prog i ≠ killed) :
    ∃ j c k r w', P.prog j = .call c k ∧ sem j c P.state r w' := by
  have here : ¬ dead i := fun gone => lives (alive.gone i gone).prog
  have locked (j : ι) (l : Region) (there : l ∈ helds j) : ¬ dead j := by
    intro gone
    rw [(alive.gone j gone).held] at there
    cases there
  refine alive.covered.goes_on alive.keeps locked (fun j c k here next => ?_) here more
  have mine := alive.wps j
  rw [next] at mine
  exact (mine _ ((survivors ι β dead).rely_refl j _)).1.resolve_left here

theorem Alive.holds (alive : Alive dead P g helds)
    (still : ∀ i, (∃ b, P.prog i = .ret b) ∨ P.prog i = killed) :
    P.state.Holds g.pool.state := by
  have idle (j : ι) := alive.idle (still j)
  have free (j : ι) (f : File) (n : Nat) : P.state.locks j f n = none := by
    by_contra some'
    obtain ⟨l, there, -⟩ := alive.covered.held j f n (Option.isSome_iff_ne_none.2 some')
    rw [(idle j).1] at there
    cases there
  have whole (b : Bucket) : g.torn b = none := by
    by_contra some'
    obtain ⟨j, torn⟩ := Option.ne_none_iff_exists'.1 some'
    have lock := alive.inv.tears b j torn
    rw [show (P.state, g).1.locks j .idx (headOff b) = none from free j _ _] at lock
    cases lock
  exact ⟨g.withPool ⟨g.pool.state, fun _ => .ret ()⟩, alive.inv.withPool whole rfl, rfl, free,
    fun j => (idle j).2.1, fun o j => (idle j).2.2 o⟩

end

/-! ## Side by side -/

/-- What there is to see of programs over the library, some of which have been
killed, when in `A` each call is done at once. -/
structure Seen (Sim : Pool Answer ι (World ι) β → Pool Reply.On ι Table β → Prop)
    (P : Pool Answer ι (World ι) β) (A : Pool Reply.On ι Table β) : Prop where
  ended : ∀ i b, P.prog i = .ret b → A.prog i = .ret b
  step : ∀ i P', Pool.Step semSmall i P P' →
    ∃ A', (A' = A ∨ Pool.Step (spec ι) i A A') ∧ Sim P' A'
  kill : ∀ i, (∀ c k, A.prog i = .call c k → ∀ b, c.2.Tears b A.state →
    P.state.locks i .idx (headOff b) ≠ some true) → Sim (kill i P) A
  goes_on : ∀ i, (∀ b, P.prog i ≠ .ret b) → P.prog i ≠ killed →
    ∃ j c k r w', P.prog j = .call c k ∧ sem j c P.state r w'
  holds : (∀ i, (∃ b, P.prog i = .ret b) ∨ P.prog i = killed) → P.state.Holds A.state

/-- **Whoever survives notices nothing.** Processes may be killed at any time,
except with the lock of a chain in a call that takes a record off it: the call on
which they were is done or is not. The others go on as with a table for all, and
in the end the files hold that table. -/
theorem library_survives {turns : Nat} {m : Table} (many : 9999999 < turns) (holds : w.Holds m)
    (clients : ι → Client β) (handles : ι → Nat → Handle) :
    ∃ Sim : Pool Answer ι (World ι) β → Pool Reply.On ι Table β → Prop,
      Sim (start turns w clients handles) ⟨m, clients⟩ ∧ ∀ P A, Sim P A → Seen Sim P A := by
  obtain ⟨g, rest⟩ := holds
  refine ⟨fun P A => ∃ dead g helds, Alive dead P g helds ∧ A = g.pool, ?_, ?_⟩
  · have first : Pool.Reaches semSmall (start turns w clients handles) (start _ _ _ handles) := .refl
    obtain ⟨helds, covered, keeps⟩ := run_covered rest.free first
    refine ⟨fun _ => False, g.withPool ⟨m, clients⟩, helds, ⟨?_, fun j => ?_, covered, keeps,
      fun j gone => gone.elim⟩, rfl⟩
    · exact rest.inv.withPool rest.whole rest.table.symm
    · exact (library_wp many (handles j) (rest.idle clients j)).terms (fun _ _ rely => rely)
        (fun _ _ guar => guar) fun _ _ may => .inr may
  · rintro P A ⟨dead, g, helds, alive, rfl⟩
    refine ⟨fun i b ended => ?_, fun i P' step => ?_, fun i whole => ?_, fun i more lives =>
      alive.goes_on more lives, alive.holds⟩
    · have mine := alive.wps i
      rw [ended] at mine
      exact (mine _ ((survivors ι β dead).rely_refl i _)).prog
    · obtain ⟨g', helds', alive', same⟩ := alive.step step
      exact ⟨g'.pool, same, dead, g', helds', alive', rfl⟩
    · exact ⟨_, _, _, alive.fewer whole, rfl⟩

theorem library_survives_t4 :
    ∃ Sim : Pool Answer (Fin 2) (World (Fin 2)) (Option String) →
        Pool Reply.On (Fin 2) Table (Option String) → Prop,
      Sim (start 10000000 (emptyWorld (Fin 2)) (fun _ => t4) fun _ _ => {})
        ⟨fun _ => none, fun _ => t4⟩ ∧ ∀ P A, Sim P A → Seen Sim P A :=
  library_survives (by decide) emptyWorld_clean.holds _ _

end UnixProgramming.Db
