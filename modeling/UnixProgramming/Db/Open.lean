import UnixProgramming.Db.Search

/-!
# Files at rest

Two files that hold a table while nobody uses them, and the two files of a new
database.

* `World.Rest`, `World.Holds`, `World.Clean`: files at rest;
* `db_open_clean`: `db_open` with `O_CREAT` and `O_TRUNC` leaves the table
  without keys, whatever there was before.
-/

namespace UnixProgramming.Db

open Calls (Prog Pool)
open Heap (Chain pread pwrite)
open Heap.Layout (flat find)
open Ssl (Byte)

variable {ι β : Type}

section
variable {γ : Type} {w : World ι} {g : Ghost ι γ}

/-- What the files mean to other programs. -/
@[simps] def Ghost.withPool (g : Ghost ι γ) (pool : Pool Reply.On ι Table β) : Ghost ι β :=
  { g with pool }

/-- When no chain is being worked at, the programs do not matter. -/
theorem Inv.withPool (inv : Inv (w, g)) (whole : ∀ b, g.torn b = none)
    {pool : Pool Reply.On ι Table β} (same : pool.state = g.pool.state) :
    Inv (w, g.withPool pool) := by
  obtain ⟨small, laid, free, excl, links, entries, -, -⟩ := inv
  refine ⟨small, ⟨laid.layout, laid.ok, laid.heads, laid.slots, laid.gap, laid.owned, laid.inside,
    laid.apart, laid.room⟩, ⟨free.chain, free.distinct, free.owns, free.blank⟩, excl,
    fun b _ => ⟨(links b (whole b)).chain, (links b (whole b)).distinct⟩, fun b _ => ?_,
    fun b i torn => ?_, fun b i torn => ?_⟩
  · obtain ⟨owns, holds, only, all⟩ := entries b (whole b)
    rw [State.map, Ghost.withPool_pool, same]
    refine ⟨owns, fun o ho => ?_, only, fun key data hash value => ?_⟩
    · obtain ⟨t, key, data, ⟨here, text, bytes⟩, rest⟩ := holds o ho
      exact ⟨t, key, data, ⟨here, text, bytes⟩, rest⟩
    · obtain ⟨o, ho, t, here, text, bytes⟩ := all key data hash value
      exact ⟨o, ho, t, here, text, bytes⟩
  · rw [Ghost.withPool_torn, whole] at torn
    cases torn
  · rw [Ghost.withPool_torn, whole] at torn
    cases torn

end

/-- Two files at rest that hold a table. Nobody uses them. -/
structure World.Rest (w : World ι) (g : Ghost ι Unit) (m : Table) : Prop where
  inv : Inv (w, g)
  table : g.pool.state = m
  free : ∀ i f n, w.locks i f n = none
  room : ∀ i, g.room i = none
  own : ∀ o i, g.own o ≠ some (.proc i)

def World.Holds (w : World ι) (m : Table) : Prop := ∃ g, w.Rest g m

/-- Files at rest without records of processes that have been killed. -/
def World.Clean (w : World ι) (m : Table) : Prop :=
  ∃ g, w.Rest g m ∧ ∀ o, g.own o ≠ some .lost

theorem World.Clean.holds {w : World ι} {m : Table} (clean : w.Clean m) : w.Holds m :=
  clean.imp fun _ both => both.1

theorem World.Rest.whole {w : World ι} {g : Ghost ι Unit} {m : Table} (rest : w.Rest g m)
    (b : Bucket) : g.torn b = none := by
  cases torn : g.torn b with
  | none => rfl
  | some i =>
    have lock := rest.inv.tears b i torn
    rw [rest.free] at lock
    cases lock

/-- Programs that begin to use the files. -/
theorem World.Rest.idle {w : World ι} {g : Ghost ι Unit} {m : Table} (rest : w.Rest g m)
    (clients : ι → Client β) (i : ι) : Idle i (clients i) (w, g.withPool ⟨m, clients⟩) where
  inv := rest.inv.withPool rest.whole rest.table.symm
  prog := rfl
  room := rest.room i
  own o := rest.own o i
  torn b torn := by
    rw [Ghost.withPool_torn, rest.whole] at torn
    cases torn

/-! ## A new database -/

/-- What there is in a new index file. -/
def emptyImg : List Item := List.replicate (NHASH_DEF + 1) (.head 0) ++ [.newline]

theorem flat_emptyImg : flat Item.enc emptyImg = emptyTable := by
  rw [emptyImg, emptyTable, Heap.Layout.flat_append, flat, List.flatMap, List.map_replicate]
  rfl

theorem head_length : (Item.head 0).enc.length = PTR_SZ := padded_length (by decide) (by decide)

theorem heads_length (n : Nat) :
    (flat Item.enc (List.replicate n (.head 0))).length = n * PTR_SZ := by
  simp [flat, head_length]

theorem find_head {n k : Nat} (small : k < n) (rest : List Item) :
    find Item.enc (List.replicate n (.head 0) ++ rest) (k * PTR_SZ) = some (.head 0) := by
  obtain ⟨d, rfl⟩ := Nat.exists_eq_add_of_lt small
  have cut : List.replicate (k + d + 1) (Item.head 0) ++ rest =
      List.replicate k (.head 0) ++ .head 0 :: (List.replicate d (.head 0) ++ rest) := by
    rw [Nat.add_assoc, List.replicate_add, List.replicate_succ, List.append_assoc, List.cons_append]
  rw [cut, ← heads_length]
  exact Heap.Layout.find_here enc_ne_nil

def emptyGhost (ι : Type) : Ghost ι Unit where
  img := emptyImg
  own _ := none
  chain _ := []
  free := []
  torn _ := none
  room _ := none
  pool := ⟨fun _ => none, fun _ => .ret ()⟩

theorem emptyTable_length : emptyTable.length = TAIL := by
  rw [← flat_emptyImg]
  simp [emptyImg, flat, head_length, TAIL]
  rfl

theorem emptyImg_find {o : Nat} {it : Item} (there : find Item.enc emptyImg o = some it) :
    o < TAIL ∧ ∀ t, it ≠ .slot t := by
  have inside := Heap.Layout.find_inside there
  have long := List.length_pos_of_ne_nil (enc_ne_nil it)
  rw [flat_emptyImg, emptyTable_length] at inside
  refine ⟨by omega, fun t e => ?_⟩
  have mem := Heap.Layout.find_mem there
  simp [emptyImg, e] at mem

/-- The files of a new database. -/
def emptyFiles : Files where
  content
    | .idx => emptyTable
    | .dat => []
  exists' _ := true

def emptyWorld (ι : Type) : World ι := ⟨emptyFiles, fun _ _ _ => none⟩

theorem empty_extent (e : Nat ⊕ ι) : State.extent (emptyWorld ι, emptyGhost ι) e = none := by
  cases e with
  | inl o =>
    rw [State.extent]
    split
    · rename_i t there
      exact absurd rfl ((emptyImg_find there).2 t)
    · rfl
  | inr j => rfl

theorem empty_laid : Laid (emptyWorld ι, emptyGhost ι) where
  layout := flat_emptyImg.symm
  ok it mem := by
    rcases List.mem_append.1 mem with head | last
    · rw [List.eq_of_mem_replicate head]
      exact Nat.zero_le _
    · rw [List.mem_singleton.1 last]
      exact trivial
  heads k small := ⟨0, find_head (Nat.lt_succ_of_le small) _⟩
  slots o it there := by
    obtain ⟨before, bare⟩ := emptyImg_find there
    refine iff_of_false (Nat.not_le.2 before) ?_
    rintro ⟨t, rfl⟩
    exact bare t rfl
  gap := by
    rw [State.at', emptyGhost, emptyImg, ← heads_length]
    exact Heap.Layout.find_here enc_ne_nil
  owned o := by
    refine iff_of_false (by simp [emptyGhost]) ?_
    rintro ⟨t, there⟩
    exact (emptyImg_find there).2 t rfl
  inside e off len there := by
    rw [empty_extent] at there
    cases there
  apart e e' _ off len off' len' there := by
    rw [empty_extent] at there
    cases there
  room j off bs there := by cases there

/-- The files of a new database hold the table without keys. -/
theorem emptyWorld_clean : (emptyWorld ι).Clean fun _ => none := by
  have laid : Laid (emptyWorld ι, emptyGhost ι) := empty_laid
  have head (k : Nat) (small : k ≤ NHASH_DEF) : cell emptyImg (k * PTR_SZ) = 0 :=
    cell_eq (find_head (Nat.lt_succ_of_le small) _)
  refine ⟨emptyGhost ι, ⟨?_, rfl, fun _ _ _ => rfl, fun _ => rfl, fun _ _ own => ?_⟩, fun _ own => ?_⟩
  case refine_2 => cases own
  case refine_3 => cases own
  exact
    { small := by
        refine ⟨?_, Nat.pow_pos (by decide)⟩
        change emptyTable.length ≤ _
        rw [emptyTable_length]
        decide
      laid
      free :=
        { chain := head 0 (Nat.zero_le _)
          distinct := List.nodup_nil
          owns := fun o => iff_of_false (by simp [emptyGhost]) (by simp [emptyGhost])
          blank := fun o there => by cases there }
      excl := fun i j f n lock => by cases lock
      links := fun b _ => by
        have link := head (b + 1) b.isLt
        rw [Nat.succ_mul] at link
        exact ⟨link, List.nodup_nil⟩
      entries := fun b _ =>
        { owns := fun o => iff_of_false (by simp [emptyGhost]) (by simp [emptyGhost])
          holds := fun o there => by cases there
          only := fun o there => by cases there
          all := fun key data _ value => by cases value }
      tears := fun b i torn => by cases torn
      doing := fun b i torn => by cases torn }

/-! ## Opening -/

/-- A file that is there, with other contents. -/
def Files.become (fs : Files) (f : File) (bs : List Byte) : Files :=
  ⟨Function.update fs.content f bs, Function.update fs.exists' f true⟩

@[simp] theorem become_content {fs : Files} {f : File} {bs : List Byte} :
    (fs.become f bs).content f = bs :=
  Function.update_self ..

theorem become_other {fs : Files} {f g : File} {bs : List Byte} (other : g ≠ f) :
    (fs.become f bs).content g = fs.content g :=
  Function.update_of_ne other ..

theorem become_there {fs : Files} {f g : File} {bs : List Byte} :
    (fs.become f bs).exists' g = (fs.exists' g || g == f) := by
  change Function.update fs.exists' f true g = _
  rw [Function.update_apply]
  by_cases same : g = f <;> simp [same]

theorem answer_trunc (fs : Files) (f : File) :
    Sys.answer (.openf f true true) fs = some (true, fs.become f []) := by
  rw [Sys.answer, if_pos (Bool.or_true _), if_pos (Bool.true_or _)]
  rfl

theorem answer_table {fs : Files} (there : fs.exists' .idx = true) (bare : fs.content .idx = []) :
    Sys.answer (.write .idx 0 emptyTable) fs = some ((), fs.become .idx emptyTable) := by
  have same : Function.update fs.exists' .idx true = fs.exists' := by
    rw [← there, Function.update_eq_self]
  have full : Heap.pwrite 0 [] 0 emptyTable = emptyTable := Heap.pwrite_end 0 [] emptyTable
  rw [Sys.answer, Files.become, same, bare, full]

/-- **A new database holds the table without keys**, whatever there was before. -/
theorem db_open_clean (fs : Files) :
    (∃ h, alone (db_open true true) {} fs = (some (true, h), emptyFiles)) ∧
      (emptyWorld ι).Clean fun _ => none := by
  have other : File.idx ≠ .dat := by decide
  generalize opened : (fs.become .idx []).become .dat [] = new
  have bare : new.content .idx = [] := by
    rw [← opened, become_other other, become_content]
  have there : new.exists' .idx = true := by
    rw [← opened, become_there, become_there]
    simp
  have size : Sys.answer (.size .idx) new = some (0, new) := by
    rw [Sys.answer, bare]
    rfl
  have content : (new.become .idx emptyTable).content = emptyFiles.content := by
    funext f
    cases f with
    | idx => exact become_content
    | dat =>
      rw [become_other other.symm, ← opened, become_content]
      rfl
  have exists' : (new.become .idx emptyTable).exists' = emptyFiles.exists' := by
    funext f
    rw [← opened, become_there, become_there, become_there]
    cases f <;> simp [emptyFiles]
  have last : new.become .idx emptyTable = emptyFiles := congrArg₂ Files.mk content exists'
  refine ⟨⟨?h, ?runs⟩, emptyWorld_clean⟩
  case runs =>
  refine (Prog.exec_call (answer_trunc fs .idx) _).trans ?_
  refine (Prog.exec_call (answer_trunc (fs.become .idx []) .dat) _).trans ?_
  rw [opened]
  refine (Prog.exec_call (c := Sys.lock .idx true 0 0) (r := ()) rfl _).trans ?_
  refine (Prog.exec_call size _).trans ?_
  refine (Prog.exec_call (answer_table there bare) _).trans ?_
  rw [last]
  rfl

end UnixProgramming.Db
