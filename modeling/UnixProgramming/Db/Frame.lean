import UnixProgramming.Db.Reads

/-!
# What stays

What is known of a chain or of the free list depends on a few places only, and
stays known as long as these do not change.

* `Links.frame`, `Entries.frame`, `Free.frame`: the places they depend on;
* `Rely'.links`, `Rely'.entries`: the others do not change them;
* `Guar.of`: a step that changes nothing but what its process may change.
-/

namespace UnixProgramming.Db

open Calls (Prog Pool)
open Heap (Chain)

variable {ι β : Type} {i j : ι} {b : Bucket} {xs : List Nat} {m m' : Table} {s s' : State ι β}
  {o v : Nat} {t : Slot} {w : Owner ι}

/-! ## Offsets -/

theorem headOff_lt (b : Bucket) : headOff b < TAIL := by
  have := b.isLt
  simp only [headOff, TAIL, HASH_OFF, PTR_SZ, NHASH_DEF] at *
  omega

theorem headOff_ne_free (b : Bucket) : headOff b ≠ FREE_OFF := by
  simp only [headOff, HASH_OFF, PTR_SZ, FREE_OFF]
  omega

theorem headOff_inj {b' : Bucket} (same : headOff b = headOff b') : b = b' := by
  simp only [headOff, HASH_OFF, PTR_SZ] at same
  exact Fin.ext (by omega)

theorem find_headOff (laid : Laid s) (b : Bucket) : ∃ p, s.at' (headOff b) = some (.head p) := by
  have := laid.heads (b + 1) b.isLt
  rwa [Nat.succ_mul] at this

theorem Laid.slot_pos (laid : Laid s) (here : s.at' o = some (.slot t)) : TAIL ≤ o :=
  (laid.slots o _ here).2 ⟨t, rfl⟩

theorem Laid.slot_lt (laid : Laid s) (here : s.at' o = some (.slot t)) :
    o < (s.1.files.content .idx).length := by
  have inside := Heap.Layout.find_inside here
  have long := List.length_pos_of_ne_nil (enc_ne_nil (.slot t))
  rw [laid.layout]
  omega

theorem Inv.fits (inv : Inv s) (here : s.at' o = some (.slot t)) : o ≤ 9999999 :=
  (inv.laid.slot_lt here).le.trans inv.small.1

theorem Laid.bare {p : Nat} (laid : Laid s) (head : s.at' o = some (.head p)) :
    s.2.own o = none := by
  cases owner : s.2.own o with
  | none => rfl
  | some w =>
    obtain ⟨t, here⟩ := (laid.owned o).1 (by rw [owner]; rfl)
    rw [head] at here
    cases here

/-- The file reaches up to the records. -/
theorem Laid.long (laid : Laid s) : TAIL ≤ (s.1.files.content .idx).length := by
  rw [laid.layout]
  exact Heap.Layout.find_inside laid.gap

theorem Laid.before_end {it : Item} (laid : Laid s) (here : s.at' o = some it) :
    o ≠ (s.1.files.content .idx).length := by
  have inside := Heap.Layout.find_inside here
  have long := List.length_pos_of_ne_nil (enc_ne_nil it)
  rw [laid.layout]
  omega

theorem Laid.owned_ne (laid : Laid s) (own : s.2.own o = some w) :
    o ≠ (s.1.files.content .idx).length := by
  obtain ⟨t, here⟩ := (laid.owned o).1 (by rw [own]; rfl)
  exact laid.before_end here

/-! ## Places -/

theorem cell_congr (same : s'.at' o = s.at' o) : cell s'.2.img o = cell s.2.img o :=
  congrArg (fun it => (it.map Item.ptr).getD 0) same

theorem Links.frame (h : Links b xs s) (head : s'.at' (headOff b) = s.at' (headOff b))
    (slots : ∀ o ∈ xs, s'.at' o = s.at' o) : Links b xs s' := by
  refine ⟨h.chain.congr fun o ho => cell_congr ?_, h.distinct⟩
  rcases List.mem_cons.1 ho with rfl | ho
  · exact head
  · exact slots o ho

theorem Holds'.frame {key : Key} {data : Data} (h : Holds' o key data s t)
    (at' : s'.at' o = s.at' o)
    (same : ∀ t, s.at' o = some (.slot t) → s'.data t = s.data t) : Holds' o key data s' t :=
  ⟨at'.trans h.here, h.key, (same t h.here).trans h.data⟩

theorem Entries.frame (h : Entries b xs m s) (slots : ∀ o ∈ xs, Same (.slot o) s s')
    (own : ∀ o, s'.2.own o = some (.bucket b) → s.2.own o = some (.bucket b))
    (map : ∀ key : Key, bucket key.text = b → m' key = m key) : Entries b xs m' s' := by
  have same (o : Nat) (ho : o ∈ xs) := slots o ho _ ((h.owns o).2 ho)
  refine ⟨fun o => ⟨fun mine => (h.owns o).1 (own o mine), fun ho => (same o ho).1⟩, ?_, ?_, ?_⟩
  · intro o ho
    obtain ⟨t, key, data, holds, hash, value⟩ := h.holds o ho
    exact ⟨t, key, data, holds.frame (same o ho).2.1 (same o ho).2.2, hash,
      (map key hash).trans value⟩
  · intro o ho o' ho' t t' here here' equal
    rw [(same o ho).2.1] at here
    rw [(same o' ho').2.1] at here'
    exact h.only o ho o' ho' t t' here here' equal
  · intro key data hash value
    obtain ⟨o, ho, t, holds⟩ := h.all key data hash ((map key hash).symm.trans value)
    exact ⟨o, ho, t, holds.frame (same o ho).2.1 (same o ho).2.2⟩

theorem Free.frame (h : Free s) (same : Same .free s s')
    (slots : ∀ o ∈ s.2.free, Same (.slot o) s s')
    (own : ∀ o, s'.2.own o = some .free → s.2.own o = some .free) : Free s' := by
  have same' (o : Nat) (ho : o ∈ s.2.free) := slots o ho _ ((h.owns o).2 ho)
  obtain ⟨head, list⟩ := same
  refine ⟨?_, by rw [list]; exact h.distinct, fun o => ⟨?_, ?_⟩, ?_⟩
  · rw [list]
    refine h.chain.congr fun o ho => cell_congr ?_
    rcases List.mem_cons.1 ho with rfl | ho
    · exact head
    · exact (same' o ho).2.1
  · rw [list]
    exact fun mine => (h.owns o).1 (own o mine)
  · rw [list]
    exact fun ho => (same' o ho).1
  · rw [list]
    intro o ho
    obtain ⟨t, here, blank⟩ := h.blank o ho
    exact ⟨t, (same' o ho).2.1.trans here, blank⟩

/-- A chain that a step leaves alone. -/
theorem Inv.chain_frame (inv : Inv s) (whole : s.2.torn b = none) (same : Same (.bucket b) s s')
    (slots : ∀ o, s.2.own o = some (.bucket b) → Same (.slot o) s s')
    (own : ∀ o, s'.2.own o = some (.bucket b) → s.2.own o = some (.bucket b)) :
    Links b (s'.2.chain b) s' ∧ Entries b (s'.2.chain b) s'.map s' := by
  obtain ⟨head, chain, -, map⟩ := same
  have entries := inv.entries b whole
  have slots' (o : Nat) (ho : o ∈ s.2.chain b) := slots o ((entries.owns o).2 ho)
  rw [chain]
  exact ⟨(inv.links b whole).frame head fun o ho => (slots' o ho _ ((entries.owns o).2 ho)).2.1,
    entries.frame slots' own map⟩

theorem Inv.free_frame (inv : Inv s) (same : Same .free s s')
    (slots : ∀ o, s.2.own o = some .free → Same (.slot o) s s')
    (own : ∀ o, s'.2.own o = some .free → s.2.own o = some .free) : Free s' :=
  inv.free.frame same (fun o ho => slots o ((inv.free.owns o).2 ho)) own

/-! ## The others -/

theorem reads_bucket {mode : Bool} (lock : s.1.locks i .idx (headOff b) = some mode) :
    Reads i s.1 (.bucket b) :=
  ⟨_, rfl, by rw [lock]; rfl⟩

theorem holds_bucket (lock : s.1.locks i .idx (headOff b) = some true) :
    Holds i s.1 (.bucket b) :=
  ⟨_, rfl, lock⟩

theorem holds_free (lock : s.1.locks i .idx FREE_OFF = some true) : Holds i s.1 .free :=
  ⟨_, rfl, lock⟩

theorem Holds.reads (h : Holds i s.1 w) : Reads i s.1 w := by
  cases w with
  | bucket b =>
    obtain ⟨n, at', lock⟩ := h
    exact ⟨n, at', by rw [lock]; rfl⟩
  | free =>
    obtain ⟨n, at', lock⟩ := h
    exact ⟨n, at', by rw [lock]; rfl⟩
  | proc j => exact h
  | lost =>
    obtain ⟨n, at', -⟩ := h
    cases at'

theorem Rely'.slot (h : Rely' i s s') (own : s.2.own o = some w) (reads : Reads i s.1 w) :
    s'.2.own o = some w ∧ s'.at' o = s.at' o ∧
      ∀ t, s.at' o = some (.slot t) → s'.data t = s.data t :=
  h.same (.slot o) ⟨w, own, reads⟩ w own

theorem Rely'.links (h : Rely' i s s') (reads : Reads i s.1 (.bucket b))
    (slots : ∀ o ∈ xs, ∃ w, s.2.own o = some w ∧ Reads i s.1 w) (links : Links b xs s) :
    Links b xs s' := by
  refine links.frame (h.same (.bucket b) reads).1 fun o ho => ?_
  obtain ⟨w, own, reads'⟩ := slots o ho
  exact (h.slot own reads').2.1

theorem Rely'.entries (h : Rely' i s s') (reads : Reads i s.1 (.bucket b))
    (entries : Entries b xs m s) (map : ∀ key : Key, bucket key.text = b → m' key = m key) :
    Entries b xs m' s' := by
  refine entries.frame ?_ (fun o own => h.own o _ own reads) map
  intro o ho w own
  rw [(entries.owns o).2 ho] at own
  cases own
  exact h.slot ((entries.owns o).2 ho) reads

/-! ## A step -/

section
variable [DecidableEq ι]

/-- A step changes what its process may change of the meaning of the files. -/
structure Turn (i : ι) (s : State ι β) (g : Ghost ι β) : Prop where
  bucket : ∀ b, ¬ Holds i s.1 (.bucket b) → g.chain b = s.2.chain b ∧ g.torn b = s.2.torn b ∧
    ∀ key : Key, bucket key.text = b → g.pool.state key = s.map key
  free : ¬ Holds i s.1 .free → g.free = s.2.free
  slot : ∀ o w, s.2.own o = some w → ¬ Holds i s.1 w → g.own o = some w
  own : ∀ o w, g.own o = some w → s.2.own o = some w ∨ Holds i s.1 w
  torn : ∀ b j, g.torn b = some j → s.2.torn b = some j ∨ j = i
  room : ∀ j, j ≠ i → g.room j = s.2.room j
  doing : ∀ b, g.torn b = some i → ∃ c k, g.pool.prog i = .call c k ∧ c.2.Tears b g.pool.state
  pool : g.pool = s.2.pool ∨ Pool.Step (spec ι) i s.2.pool g.pool

theorem Turn.refl (i : ι) (inv : Inv s) : Turn i s s.2 :=
  ⟨fun _ _ => ⟨rfl, rfl, fun _ _ => rfl⟩, fun _ => rfl, fun _ _ own _ => own, fun _ _ own => .inl own,
    fun _ _ torn => .inl torn, fun _ _ => rfl, fun b torn => inv.doing b i torn, .inl rfl⟩

/-- **A step that keeps to the terms.** What its process may not change is as it
was, and what it may change is as it should be. -/
theorem Guar.of_locks (inv : Inv s) (turn : Turn i s s'.2) (small : s'.1.Small) (laid : Laid s')
    (locks : ∀ j, j ≠ i → s'.1.locks j = s.1.locks j)
    (excl : ∀ j k f n, s'.1.locks j f n = some true → k ≠ j → s'.1.locks k f n = none)
    (tears : ∀ b, s'.2.torn b = some i → s'.1.locks i .idx (headOff b) = some true)
    (heads : ∀ b, ¬ Holds i s.1 (.bucket b) → s'.at' (headOff b) = s.at' (headOff b))
    (freeHead : ¬ Holds i s.1 .free → s'.at' FREE_OFF = s.at' FREE_OFF)
    (slots : ∀ o w, s.2.own o = some w → ¬ Holds i s.1 w → s'.at' o = s.at' o ∧
      ∀ t, s.at' o = some (.slot t) → s'.data t = s.data t)
    (ends : ∀ f, s.1.locks i f (endOff f) ≠ some true →
      (s'.1.files.content f).length = (s.1.files.content f).length)
    (free : Holds i s.1 .free → Free s')
    (chains : ∀ b, Holds i s.1 (.bucket b) → s'.2.torn b = none →
      Links b (s'.2.chain b) s' ∧ Entries b (s'.2.chain b) s'.map s') : Guar i s s' := by
  have same (l : Loc ι) (mine : ¬ Mine i s l) : Same l s s' := by
    cases l with
    | bucket b =>
      obtain ⟨chain, torn, map⟩ := turn.bucket b mine
      exact ⟨heads b mine, chain, torn, map⟩
    | free => exact ⟨freeHead mine, turn.free mine⟩
    | slot o =>
      intro w own
      have other : ¬ Holds i s.1 w := fun holds => mine ⟨w, own, holds⟩
      exact ⟨turn.slot o w own other, slots o w own other⟩
    | room j => exact turn.room j mine
    | ends f => exact ends f mine
  have slot (o : Nat) (w : Owner ι) (own : s.2.own o = some w) (mine : ¬ Holds i s.1 w) :
      Same (.slot o) s s' := by
    refine same (.slot o) ?_
    rintro ⟨w', own', holds⟩
    obtain rfl := Option.some.inj (own.symm.trans own')
    exact mine holds
  have kept (b : Bucket) (mine : ¬ Holds i s.1 (.bucket b)) (whole : s'.2.torn b = none) :
      Links b (s'.2.chain b) s' ∧ Entries b (s'.2.chain b) s'.map s' :=
    inv.chain_frame ((turn.bucket b mine).2.1.symm.trans whole) (same (.bucket b) mine)
      (fun o own => slot o _ own mine) fun o own => (turn.own o _ own).resolve_right mine
  refine ⟨⟨small, laid, ?_, excl, ?_, ?_, ?_, ?_⟩, locks, same, turn.own, turn.torn, turn.pool⟩
  · by_cases mine : Holds i s.1 .free
    · exact free mine
    · exact inv.free_frame (same .free mine) (fun o own => slot o _ own mine)
        fun o own => (turn.own o _ own).resolve_right mine
  · intro b whole
    by_cases mine : Holds i s.1 (.bucket b)
    · exact (chains b mine whole).1
    · exact (kept b mine whole).1
  · intro b whole
    by_cases mine : Holds i s.1 (.bucket b)
    · exact (chains b mine whole).2
    · exact (kept b mine whole).2
  · intro b j torn
    rcases eq_or_ne j i with rfl | other
    · exact tears b torn
    · rw [locks j other]
      exact inv.tears b j ((turn.torn b j torn).resolve_right other)
  · intro b j torn
    rcases eq_or_ne j i with rfl | other
    · exact turn.doing b torn
    · have before := (turn.torn b j torn).resolve_right other
      have theirs : Sees j s (.bucket b) := reads_bucket (inv.tears b j before)
      obtain ⟨c, k, prog, tears⟩ := inv.doing b j before
      refine ⟨c, k, ?_, tears.congr (same (.bucket b) (inv.mine_sees other.symm theirs)).2.2.2⟩
      rcases turn.pool with kept | step
      · rw [kept, prog]
      · rw [step.prog_other other, prog]

/-- A step that leaves the locks alone. -/
theorem Guar.of (inv : Inv s) (turn : Turn i s s'.2) (small : s'.1.Small) (laid : Laid s')
    (locks : s'.1.locks = s.1.locks)
    (heads : ∀ b, ¬ Holds i s.1 (.bucket b) → s'.at' (headOff b) = s.at' (headOff b))
    (freeHead : ¬ Holds i s.1 .free → s'.at' FREE_OFF = s.at' FREE_OFF)
    (slots : ∀ o w, s.2.own o = some w → ¬ Holds i s.1 w → s'.at' o = s.at' o ∧
      ∀ t, s.at' o = some (.slot t) → s'.data t = s.data t)
    (ends : ∀ f, s.1.locks i f (endOff f) ≠ some true →
      (s'.1.files.content f).length = (s.1.files.content f).length)
    (free : Holds i s.1 .free → Free s')
    (chains : ∀ b, Holds i s.1 (.bucket b) → s'.2.torn b = none →
      Links b (s'.2.chain b) s' ∧ Entries b (s'.2.chain b) s'.map s') : Guar i s s' := by
  refine Guar.of_locks inv turn small laid (fun j _ => by rw [locks])
    (by rw [locks]; exact inv.excl) (fun b torn => ?_) heads freeHead slots ends free chains
  rw [locks]
  by_cases mine : Holds i s.1 (.bucket b)
  · obtain ⟨n, at', lock⟩ := mine
    obtain rfl := Option.some.inj at'
    exact lock
  · exact inv.tears b i ((turn.bucket b mine).2.1.symm.trans torn)

end

end UnixProgramming.Db
