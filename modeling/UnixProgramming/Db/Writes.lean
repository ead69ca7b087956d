import UnixProgramming.Db.Frame

/-!
# Writing under the terms

What the four kinds of writes do to the files: a thing in the index file is
replaced, data are replaced, data are added, a record is added.

* `Laid.put`, `Laid.overwrite`, `Laid.extend`, `Laid.append`: the files stay laid out.
-/

namespace UnixProgramming.Db

open Calls (Prog Pool)
open Heap (Chain pread pwrite)
open Heap.Layout (flat find put)
open Ssl (Byte)

variable {ι β : Type} {i j : ι} {s s' : State ι β} {o v : Nat} {t t' : Slot} {it it' : Item}
  {w : World ι} {g : Ghost ι β} {bs : List Byte}

def World.write (w : World ι) (f : File) (o : Nat) (bs : List Byte) : World ι :=
  { w with files := { w.files with
      content := Function.update w.files.content f (pwrite 0 (w.files.content f) o bs) } }

section
variable (w : World ι) (f : File) (o : Nat) (bs : List Byte)

@[simp] theorem World.write_locks : (w.write f o bs).locks = w.locks := rfl
@[simp] theorem World.write_content :
    (w.write f o bs).files.content f = pwrite 0 (w.files.content f) o bs := Function.update_self ..
@[simp] theorem World.write_idx_dat :
    (w.write .idx o bs).files.content .dat = w.files.content .dat := rfl
@[simp] theorem World.write_dat_idx :
    (w.write .dat o bs).files.content .idx = w.files.content .idx := rfl

end

/-! ## A thing in the index file -/

/-- Things of one kind; records with their data in the same place. -/
def Alike : Item → Item → Prop
  | .head _, .head _ => True
  | .slot t, .slot t' => t'.datoff = t.datoff ∧ t'.datlen = t.datlen
  | _, _ => False

theorem alike_setPtr (some' : it ≠ .newline) (v : Nat) : Alike it (it.setPtr v) := by
  cases it with
  | head p => trivial
  | newline => exact absurd rfl some'
  | slot t => exact ⟨rfl, rfl⟩

theorem Alike.slot (h : Alike it it') : (∃ t, it = .slot t) ↔ ∃ t, it' = .slot t := by
  cases it <;> cases it' <;> simp_all [Alike]

section
variable (here : s.at' o = some it) (same : it'.enc.length = it.enc.length)
  (img : g.img = put Item.enc s.2.img o it')
include here img

theorem at_put : State.at' (w, g) o = some it' := by
  rw [State.at', img]
  exact Heap.Layout.find_put enc_ne_nil here

include same

theorem at_put_other {o' : Nat} (other : o' ≠ o) : State.at' (w, g) o' = s.at' o' := by
  rw [State.at', img]
  exact Heap.Layout.find_put_other enc_ne_nil here same other

theorem extent_put (alike : Alike it it') (room : g.room = s.2.room) (e : Nat ⊕ ι) :
    State.extent (w, g) e = s.extent e := by
  cases e with
  | inl o' =>
    by_cases self : o' = o
    · subst self
      rw [State.extent, State.extent, at_put here img, here]
      cases it <;> cases it' <;> simp_all [Alike]
    · rw [State.extent, State.extent, at_put_other here same img self]
  | inr j => rw [State.extent, State.extent, room]

/-- A thing is replaced by one of its kind. -/
theorem Laid.put (laid : Laid s) (ok : it'.Ok) (alike : Alike it it')
    (idx : w.files.content .idx = flat Item.enc g.img)
    (dat : w.files.content .dat = s.1.files.content .dat)
    (own : ∀ o, (g.own o).isSome ↔ (s.2.own o).isSome) (room : g.room = s.2.room) :
    Laid (w, g) := by
  have extents := extent_put (w := w) here same img alike room
  refine ⟨idx, ?_, ?_, ?_, ?_, ?_, ?_, ?_, ?_⟩
  · rw [img]
    intro it'' there
    rcases Heap.Layout.mem_put enc_ne_nil here there with rfl | there
    · exact ok
    · exact laid.ok it'' there
  · intro k hk
    by_cases self : k * PTR_SZ = o
    · obtain ⟨p, head⟩ := laid.heads k hk
      rw [self, here] at head
      rw [self, at_put here img]
      cases it' with
      | head p => exact ⟨p, rfl⟩
      | newline => cases it <;> simp_all [Alike]
      | slot t => cases it <;> simp_all [Alike]
    · rw [at_put_other here same img self]
      exact laid.heads k hk
  · intro o' it'' there
    by_cases self : o' = o
    · subst self
      rw [at_put here img] at there
      cases there
      exact (laid.slots o' it here).trans alike.slot
    · rw [at_put_other here same img self] at there
      exact laid.slots o' it'' there
  · rw [at_put_other here same img, laid.gap]
    rintro rfl
    rw [laid.gap] at here
    cases here
    exact alike
  · intro o'
    rw [own, laid.owned]
    by_cases self : o' = o
    · subst self
      simpa [at_put (w := w) here img, here] using alike.slot
    · rw [at_put_other here same img self]
  · intro e off len there
    rw [extents] at there
    rw [dat]
    exact laid.inside e off len there
  · intro e e' other off len off' len' there there'
    rw [extents] at there there'
    exact laid.apart e e' other off len off' len' there there'
  · rw [room, dat]
    exact laid.room

end

/-! ## Data -/

/-- The data of a record are replaced. -/
theorem Laid.overwrite (laid : Laid s) (here : s.at' o = some (.slot t)) (len : bs.length = t.datlen)
    (own : ∀ o, (g.own o).isSome ↔ (s.2.own o).isSome) (img : g.img = s.2.img)
    (room : g.room = s.2.room) : Laid (s.1.write .dat t.datoff bs, g) := by
  have extents (e : Nat ⊕ ι) : State.extent (s.1.write .dat t.datoff bs, g) e = s.extent e := by
    cases e with
    | inl o' => rw [State.extent, State.extent, State.at', img]
    | inr j => rw [State.extent, State.extent, room]
  have mine : s.extent (.inl o) = some (t.datoff, t.datlen) := by rw [State.extent, here]
  have inside := laid.inside _ _ _ mine
  have long : (pwrite 0 (s.1.files.content .dat) t.datoff bs).length =
      (s.1.files.content .dat).length := by
    rw [Heap.length_pwrite (by omega)]
    omega
  have at_ (o : Nat) : State.at' (s.1.write .dat t.datoff bs, g) o = s.at' o := by rw [State.at', img]
  refine ⟨by rw [img]; exact laid.layout, by rw [img]; exact laid.ok, fun k hk => ?_,
    fun o it there => ?_, (at_ _).trans laid.gap, fun o => ?_, ?_, ?_, ?_⟩
  · rw [at_]
    exact laid.heads k hk
  · rw [at_] at there
    exact laid.slots o it there
  · rw [at_]
    exact (own o).trans (laid.owned o)
  · intro e off len there
    rw [extents] at there
    rw [World.write_content, long]
    exact laid.inside e off len there
  · intro e e' other off len off' len' there there'
    rw [extents] at there there'
    exact laid.apart e e' other off len off' len' there there'
  · rw [room]
    intro j off bs' there
    have theirs : s.extent (.inr j) = some (off, bs'.length) := by rw [State.extent, there]; rfl
    rw [World.write_content, Heap.pread_pwrite_other (by omega) (laid.inside _ _ _ theirs)]
    · exact laid.room j off bs' there
    · have := laid.apart (.inr j) (.inl o) (by simp) _ _ _ _ theirs mine
      omega

theorem data_overwrite (laid : Laid s) (here : s.at' o = some (.slot t))
    (len : bs.length = t.datlen) : State.data (s.1.write .dat t.datoff bs, g) t = bs := by
  have mine : s.extent (.inl o) = some (t.datoff, t.datlen) := by rw [State.extent, here]
  have inside := laid.inside _ _ _ mine
  rw [State.data, World.write_content, ← len, Heap.pread_pwrite (by omega)]

theorem data_overwrite_other (laid : Laid s) (here : s.at' o = some (.slot t))
    (len : bs.length = t.datlen) {o' : Nat} (other : o' ≠ o) (there : s.at' o' = some (.slot t')) :
    State.data (s.1.write .dat t.datoff bs, g) t' = s.data t' := by
  have mine : s.extent (.inl o) = some (t.datoff, t.datlen) := by rw [State.extent, here]
  have theirs : s.extent (.inl o') = some (t'.datoff, t'.datlen) := by rw [State.extent, there]
  have inside := laid.inside _ _ _ mine
  rw [State.data, World.write_content, Heap.pread_pwrite_other (by omega) (laid.inside _ _ _ theirs)]
  · rfl
  · have := laid.apart (.inl o') (.inl o) (by simpa using other) _ _ _ _ theirs mine
    omega

/-- New data at the end of the file, without a record for them yet. -/
theorem Laid.extend [DecidableEq ι] (laid : Laid s) (none' : s.2.room i = none) (img : g.img = s.2.img)
    (own : g.own = s.2.own)
    (room : g.room = Function.update s.2.room i (some ((s.1.files.content .dat).length, bs))) :
    Laid (s.1.write .dat (s.1.files.content .dat).length bs, g) := by
  have at_ (o : Nat) : State.at' (s.1.write .dat (s.1.files.content .dat).length bs, g) o =
      s.at' o := by rw [State.at', img]
  have extents (e : Nat ⊕ ι) (other : e ≠ .inr i) :
      State.extent (s.1.write .dat (s.1.files.content .dat).length bs, g) e = s.extent e := by
    cases e with
    | inl o => rw [State.extent, State.extent, at_]
    | inr j =>
      rw [State.extent, State.extent, room, Function.update_of_ne]
      rintro rfl
      exact other rfl
  have mine : State.extent (s.1.write .dat (s.1.files.content .dat).length bs, g) (.inr i) =
      some ((s.1.files.content .dat).length, bs.length) := by
    rw [State.extent, room, Function.update_self]
    rfl
  refine ⟨by rw [img]; exact laid.layout, by rw [img]; exact laid.ok, fun k hk => ?_,
    fun o it there => ?_, (at_ _).trans laid.gap, fun o => ?_, ?_, ?_, ?_⟩
  · rw [at_]
    exact laid.heads k hk
  · rw [at_] at there
    exact laid.slots o it there
  · rw [at_, own]
    exact laid.owned o
  · intro e off len there
    rw [World.write_content, Heap.pwrite_end, List.length_append]
    by_cases self : e = .inr i
    · rw [self, mine] at there
      cases there
      exact le_rfl
    · rw [extents e self] at there
      have := laid.inside e off len there
      omega
  · intro e e' other off len off' len' there there'
    by_cases self : e = .inr i
    · have self' : e' ≠ .inr i := fun same => other (self.trans same.symm)
      rw [extents e' self'] at there'
      rw [self, mine] at there
      cases there
      exact .inr (laid.inside _ _ _ there')
    · rw [extents e self] at there
      by_cases self' : e' = .inr i
      · rw [self', mine] at there'
        cases there'
        exact .inl (laid.inside _ _ _ there)
      · rw [extents e' self'] at there'
        exact laid.apart e e' other off len off' len' there there'
  · intro j off bs' there
    rw [World.write_content, Heap.pwrite_end]
    by_cases self : j = i
    · rw [self, room, Function.update_self] at there
      cases there
      exact Heap.pread_end _ _
    · rw [room, Function.update_of_ne self] at there
      have theirs : s.extent (.inr j) = some (off, bs'.length) := by rw [State.extent, there]; rfl
      rw [Heap.pread_append (laid.inside _ _ _ theirs)]
      exact laid.room j off bs' there

theorem data_extend (laid : Laid s) (there : s.at' o = some (.slot t)) :
    State.data (s.1.write .dat (s.1.files.content .dat).length bs, g) t = s.data t := by
  have theirs : s.extent (.inl o) = some (t.datoff, t.datlen) := by rw [State.extent, there]
  rw [State.data, World.write_content, Heap.pwrite_end, Heap.pread_append (laid.inside _ _ _ theirs)]
  rfl

/-! ## A new record -/

section
variable (laid : Laid s) (img : g.img = s.2.img ++ [.slot t])
include laid img

theorem at_append (o : Nat) : State.at' (w, g) o =
    if o = (s.1.files.content .idx).length then some (.slot t) else s.at' o := by
  rw [State.at', img, Heap.Layout.find_snoc enc_ne_nil, laid.layout]

/-- A new record for data that are there, at the end of the index file. -/
theorem Laid.append [DecidableEq ι] {u : Owner ι} (ok : t.Ok)
    (mine : s.2.room i = some (t.datoff, bs)) (len : bs.length = t.datlen)
    (own : g.own = Function.update s.2.own (s.1.files.content .idx).length (some u))
    (room : g.room = Function.update s.2.room i none) :
    Laid (s.1.write .idx (s.1.files.content .idx).length (Item.slot t).enc, g) := by
  have at_ := at_append (w := s.1.write .idx (s.1.files.content .idx).length (Item.slot t).enc)
    laid img
  have idx : pwrite 0 (s.1.files.content .idx) (s.1.files.content .idx).length (Item.slot t).enc =
      flat Item.enc g.img := by
    rw [Heap.pwrite_end, img, Heap.Layout.flat_snoc, laid.layout]
  -- whose the data of a place have been before
  let old : Nat ⊕ ι → Nat ⊕ ι := fun e =>
    if e = .inl (s.1.files.content .idx).length then .inr i else e
  have extents (e : Nat ⊕ ι) (off len : Nat) (there : State.extent
      (s.1.write .idx (s.1.files.content .idx).length (Item.slot t).enc, g) e = some (off, len)) :
      e ≠ .inr i ∧ s.extent (old e) = some (off, len) := by
    cases e with
    | inl o =>
      refine ⟨by simp, ?_⟩
      rw [State.extent, at_] at there
      by_cases self : o = (s.1.files.content .idx).length
      · rw [if_pos self] at there
        cases there
        simp only [old, self, if_true, State.extent, mine, Option.map_some, len]
      · rw [if_neg self] at there
        simpa only [old, State.extent, Sum.inl.injEq, self, if_false] using there
    | inr j =>
      rw [State.extent, room] at there
      by_cases self : j = i
      · rw [self, Function.update_self] at there
        cases there
      · rw [Function.update_of_ne self] at there
        exact ⟨by simpa using self, there⟩
  refine ⟨?_, ?_, fun k hk => ?_, fun o it there => ?_, ?_, fun o => ?_, ?_, ?_, ?_⟩
  · rw [World.write_content, idx]
  · rw [img]
    intro it there
    rcases List.mem_append.1 there with there | there
    · exact laid.ok it there
    · rw [List.mem_singleton.1 there]
      exact ok
  · obtain ⟨p, head⟩ := laid.heads k hk
    exact ⟨p, by rw [at_, if_neg (laid.before_end head), head]⟩
  · rw [at_] at there
    split at there
    · rename_i self
      cases there
      rw [self]
      exact iff_of_true laid.long ⟨t, rfl⟩
    · exact laid.slots o it there
  · rw [at_, if_neg (laid.before_end laid.gap), laid.gap]
  · rw [own, at_]
    by_cases self : o = (s.1.files.content .idx).length
    · rw [self, Function.update_self, if_pos rfl]
      simp
    · rw [Function.update_of_ne self, if_neg self]
      exact laid.owned o
  · intro e off len' there
    exact laid.inside _ _ _ (extents e off len' there).2
  · intro e e' other off len off' len' there there'
    obtain ⟨not', there⟩ := extents e off len there
    obtain ⟨not'', there'⟩ := extents e' off' len' there'
    refine laid.apart (old e) (old e') (fun same => other ?_) _ _ _ _ there there'
    simp only [old] at same
    split at same <;> split at same <;> simp_all
  · intro j off bs' there
    rw [room] at there
    by_cases self : j = i
    · rw [self, Function.update_self] at there
      cases there
    · rw [Function.update_of_ne self] at there
      exact laid.room j off bs' there

end

end UnixProgramming.Db
