import UnixProgramming.Db.Terms

/-!
# Reading under the terms

What the functions that read hand over, as long as nobody else may change what
they read.

* `does_readptr`, `does_readidx`, `does_readdat`: one thing each.
-/

namespace UnixProgramming.Db

open Calls (Prog Pool Sem Terms)
open Heap (pread)
open Heap.Layout (flat find)
open Ssl (Byte)

variable {ι β α γ : Type} [DecidableEq ι]

/-- What a library function does under the terms. -/
def Does (i : ι) (m : Action α) (Q : α → Handle → State ι β → Prop) (h : Handle)
    (s : State ι β) : Prop :=
  (terms ι β).does semSmall i m Q h s

/-- What holds at all times of process `i`, whatever the others do. -/
structure Stable (i : ι) (P : State ι β → Prop) : Prop where
  inv : ∀ s, P s → Inv s
  rely : ∀ s s', P s → Rely' i s s' → P s'

omit [DecidableEq ι] in
theorem Stable.next {i : ι} {P : State ι β → Prop} (stable : Stable i P) {s s' : State ι β}
    (hP : P s) (others : Rely i s s') : P s' :=
  stable.rely s s' hP (others (stable.inv s hP))

omit [DecidableEq ι] in
theorem Stable.and {i : ι} {P P' : State ι β → Prop} (stable : Stable i P)
    (rely : ∀ s s', P' s → Rely' i s s' → P' s') : Stable i fun s => P s ∧ P' s where
  inv s both := stable.inv s both.1
  rely s s' both others := ⟨stable.rely s s' both.1 others, rely s s' both.2 others⟩

omit [DecidableEq ι] in
theorem Stable.exists {i : ι} {P : α → State ι β → Prop} (stable : ∀ a, Stable i (P a)) :
    Stable i fun s => ∃ a, P a s where
  inv s some' := (stable some'.choose).inv s some'.choose_spec
  rely s s' some' others := some'.imp fun a hP => (stable a).rely s s' hP others

section
variable {i : ι} {P : State ι β → Prop} {s : State ι β} {h : Handle} {o v : Nat} {t : Slot}
  {f : File} {n : Nat} {bs : List Byte}

theorem Does.mono {m : Action α} {Q Q' : α → Handle → State ι β → Prop} (does : Does i m Q h s)
    (imp : ∀ a h s, Q a h s → Q' a h s) : Does i m Q' h s :=
  Terms.does.mono does imp

theorem Does.rely {m : Action α} {Q : α → Handle → State ι β → Prop} {s' : State ι β}
    (does : Does i m Q h s) (others : Rely i s s') : Does i m Q h s' :=
  Terms.does.rely does others

theorem does_bind {m : Action α} {k : α → Action γ} {Q : γ → Handle → State ι β → Prop} :
    Does i (m >>= k) Q h s ↔ Does i m (fun a h s => Does i (k a) Q h s) h s :=
  Terms.does_bind

/-- One function after another. -/
theorem Does.then {m : Action α} {k : α → Action γ} {Q : α → Handle → State ι β → Prop}
    {Q' : γ → Handle → State ι β → Prop} (first : Does i m Q h s)
    (rest : ∀ a h s, Q a h s → Does i (k a) Q' h s) : Does i (m >>= k) Q' h s :=
  does_bind.2 (first.mono rest)

theorem does_get {k : Handle → Action α} {Q : α → Handle → State ι β → Prop} :
    Does i (get >>= k) Q h s ↔ Does i (k h) Q h s := Iff.rfl

theorem does_modify {g : Handle → Handle} {k : Unit → Action α}
    {Q : α → Handle → State ι β → Prop} :
    Does i (modify g >>= k) Q h s ↔ Does i (k ()) Q (g h) s := Iff.rfl

theorem does_getDB {k : DB → Action α} {Q : α → Handle → State ι β → Prop} :
    Does i (getDB >>= k) Q h s ↔ Does i (k h.db) Q h s := Iff.rfl

theorem does_setDB {g : DB → DB} {k : Unit → Action α} {Q : α → Handle → State ι β → Prop} :
    Does i (setDB g >>= k) Q h s ↔ Does i (k ()) Q (h.on g) s := Iff.rfl

theorem does_sys {c : Sys} {k : Answer c → Action α} {Q : α → Handle → State ι β → Prop} :
    Does i (sys c >>= k) Q h s ↔
      ∀ s', Rely i s s' → (∀ why, c ≠ .stop why) ∧ ∀ r t, semSmall i c s'.1 r t →
        ∃ g, Guar i s' (t, g) ∧ Does i (k r) Q h (t, g) :=
  Iff.rfl

/-- The last step of a program. -/
theorem does_return {a : α} {Q : α → Handle → State ι β → Prop} (stable : Stable i P) (hP : P s)
    (last : ∀ s, P s → Q a h s) : Does i (pure a) Q h s :=
  Terms.does_pure.2 fun s' others => last s' (stable.next hP others)

theorem lseek_set (f : File) (o : Nat) (msg : String) : lseek f o .SEEK_SET msg =
    (modify (fun h => h.seek f o) >>= fun _ => pure o) := by
  have whole : ¬ ((0 : Nat) : Int) + (o : Int) < 0 := by omega
  have value : (((0 : Nat) : Int) + (o : Int)).toNat = o := by omega
  simp only [lseek, pure_bind, if_neg whole, value]

theorem does_lseek {k : Nat → Action α} {Q : α → Handle → State ι β → Prop} {msg : String} :
    Does i (lseek f o .SEEK_SET msg >>= k) Q h s ↔ Does i (k o) Q (h.seek f o) s := by
  rw [lseek_set, bind_assoc]
  exact Iff.rfl

theorem Guar.refl (inv : Inv s) : Guar i s s :=
  ⟨inv, fun _ _ => rfl, fun l _ => Same.refl l s, fun _ _ own => .inl own, fun _ _ torn => .inl torn,
    .inl rfl⟩

theorem does_read (bs : List Byte) (stable : Stable i P) (hP : P s)
    (value : ∀ s, P s → pread (s.1.files.content f) (h.pos f) n = bs) :
    Does i (read f n) (fun r h' s' => P s' ∧ r = bs ∧ h' = h.seek f (h.pos f + bs.length)) h s := by
  rw [read, does_get]
  refine does_sys.2 fun s' others => ⟨fun why => by simp, fun r w step => ?_⟩
  have hP' := stable.next hP others
  obtain ⟨⟨answer, locks⟩, -⟩ := step
  simp only [Sys.answer, Option.some.injEq, Prod.mk.injEq] at answer
  obtain ⟨rfl, files⟩ := answer
  obtain rfl : w = s'.1 := by
    cases w
    cases h₁ : s'.1
    simp_all
  refine ⟨s'.2, Guar.refl (stable.inv s' hP'), does_modify.2 ?_⟩
  rw [value s' hP']
  exact does_return stable hP' fun s hP => ⟨hP, rfl, rfl⟩

/-- Reading a link. -/
theorem does_readptr (stable : Stable i P) (hP : P s)
    (here : ∀ s, P s → ∃ it, s.at' o = some it ∧ it ≠ .newline ∧ it.ptr = v) :
    Does i (readptr o) (fun r h' s' => P s' ∧ r = v ∧ h'.db = h.db) h s := by
  have value (s : State ι β) (hP : P s) :
      pread (s.1.files.content .idx) o PTR_SZ = padded PTR_SZ v ∧ v ≤ 9999999 := by
    obtain ⟨it, at', some', rfl⟩ := here s hP
    have ok := (stable.inv s hP).laid.ok it (Heap.Layout.find_mem at')
    rw [(stable.inv s hP).laid.layout]
    exact ⟨pread_ptr at' ok some', ok.ptr_le⟩
  have small := (value s hP).2
  rw [readptr, does_lseek]
  refine (does_read (padded PTR_SZ v) stable hP ?_).then ?_
  · intro s hP
    rw [Handle.seek_pos]
    exact (value s hP).1
  · rintro r h' s' ⟨hP', rfl, rfl⟩
    rw [if_neg (by simpa using padded_ptr small), atol_padded _ (by omega)]
    exact does_return stable hP' fun s hP => ⟨hP, rfl, rfl⟩

/-- What a handle holds of a record that it has read. -/
structure Handle.Has (h : Handle) (t : Slot) : Prop where
  idxbuf : h.db.idxbuf = t.key
  ptrval : h.db.ptrval = t.ptr
  datoff : h.db.datoff = t.datoff
  datlen : h.db.datlen = t.datlen

/-- Reading a record. -/
theorem does_readhere (mayEnd : Bool) (stable : Stable i P) (hP : P s)
    (here : ∀ s, P s → s.at' (h.pos .idx) = some (.slot t)) :
    Does i (readhere mayEnd) (fun r h' s' => P s' ∧ r = t.ptr ∧ h'.Has t ∧
      h'.pos .idx = h.pos .idx + (Item.slot t).enc.length ∧ h'.db.idxoff = h.db.idxoff ∧
      h'.db.ptroff = h.db.ptroff ∧ h'.db.chainoff = h.db.chainoff) h s := by
  have good : t.Ok := (stable.inv s hP).laid.ok _ (Heap.Layout.find_mem (here s hP))
  have long : IDXLEN_MIN ≤ t.text.length ∧ t.text.length ≤ IDXLEN_MAX := ⟨good.long, good.short⟩
  have short : t.text.length ≤ 1024 := good.short
  have len : ((t.text.length : Int) % 2 ^ 64).toNat = t.text.length := by omega
  have ptr : t.ptr ≤ 9999999 := good.ptr
  have both : (padded PTR_SZ t.ptr ++ padded IDXLEN_SZ t.text.length).length =
      PTR_SZ + IDXLEN_SZ := by
    rw [List.length_append, padded_ptr good.ptr, padded_len good]
  rw [readhere]
  refine (does_read (padded PTR_SZ t.ptr ++ padded IDXLEN_SZ t.text.length) stable hP
    fun s hP => ?_).then ?_
  · rw [(stable.inv s hP).laid.layout, pread_head (here s hP) good]
  rintro head h' s' ⟨hP', rfl, rfl⟩
  rw [if_neg (by simpa using both), List.take_left' (padded_ptr good.ptr),
    List.drop_left' (padded_ptr good.ptr), atol_padded _ (by omega), atoi_padded _ (by omega)]
  dsimp only
  rw [does_setDB, len, if_neg (by omega)]
  refine (does_read t.text stable hP' fun s hP => ?_).then ?_
  · rw [Handle.on_pos, Handle.seek_pos, both, (stable.inv s hP).laid.layout,
      pread_text (here s hP) good]
  rintro text h' s'' ⟨hP'', rfl, rfl⟩
  rw [if_neg (by simp), if_neg (by simp [t.text_getLast]), good.text_dropLast, does_bind, Does,
    Terms.does, separate_entry good.clean good.off good.some' good.len]
  refine fun s₁ others => does_return stable (stable.next hP'' others) fun s hP =>
    ⟨hP, rfl, ⟨rfl, rfl, rfl, rfl⟩, ?_, rfl, rfl, rfl⟩
  rw [enc_slot_length good]
  simp [both, Nat.add_assoc]

theorem does_readidx (stable : Stable i P) (hP : P s) (some' : o ≠ 0)
    (here : ∀ s, P s → s.at' o = some (.slot t)) :
    Does i (readidx o) (fun r h' s' => P s' ∧ r = t.ptr ∧ h'.Has t ∧ h'.db.idxoff = o ∧
      h'.db.ptroff = h.db.ptroff ∧ h'.db.chainoff = h.db.chainoff) h s := by
  rw [readidx, if_neg (by omega), does_lseek, does_setDB]
  refine (does_readhere (t := t) false stable hP fun s hP => ?_).mono ?_
  · rw [Handle.on_pos, Handle.seek_pos]
    exact here s hP
  · rintro r h' s' ⟨hP', value, has, -, off, rest⟩
    exact ⟨hP', value, has, off, rest⟩

/-- Reading the data of a record. -/
theorem does_readdat {data : Data} (stable : Stable i P) (hP : P s) (off : h.db.datoff = o)
    (here : ∀ s, P s → pread (s.1.files.content .dat) o h.db.datlen = data.text ++ [NEWLINE])
    (len : h.db.datlen = data.text.length + 1) :
    Does i readdat (fun r h' s' => P s' ∧ r = data.text ∧ h'.db.chainoff = h.db.chainoff) h s := by
  have clean : data.text.takeWhile (fun c => decide (c ≠ 0)) = data.text := by
    rw [List.takeWhile_eq_self_iff]
    exact fun c hc => by simpa using ne_of_mem_of_not_mem hc data.noNul
  rw [readdat, does_getDB, off, does_lseek]
  refine (does_read (data.text ++ [NEWLINE]) stable hP fun s hP => ?_).then ?_
  · rw [Handle.seek_pos]
    exact here s hP
  rintro bs h' s' ⟨hP', rfl, rfl⟩
  rw [if_neg (by simp [len]), if_neg (by simp), does_setDB]
  refine does_return stable hP' fun s hP => ⟨hP, ?_, rfl⟩
  rw [List.dropLast_concat, clean]

end

end UnixProgramming.Db
