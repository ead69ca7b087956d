import UnixProgramming.Db.Library

/-!
# A process alone

The functions of the library as equations, when no other process is there.

* `alone_readhere`, `separate_many`: what is read of a record;
* `readidx_writeidx`: what `_db_writeidx` has written `_db_readidx` reads again,
  unless there is a separator in the key.
-/

namespace UnixProgramming.Db

open Calls (Prog)
open Heap (pread pwrite)
open Heap.Layout (flat find)
open Ssl (Byte)

variable {α γ : Type} {m : Action α} {k : α → Action γ} {h h' : Handle} {fs fs' : Files} {a : α}
  {t : Slot} {f : File} {o n : Nat}

theorem alone_bind (first : alone m h fs = (some (a, h'), fs')) :
    alone (m >>= k) h fs = alone (k a) h' fs' :=
  Prog.exec_bind first _

theorem alone_read {k : List Byte → Action γ} : alone (read f n >>= k) h fs =
    alone (k (pread (fs.content f) (h.pos f) n))
      (h.seek f (h.pos f + (pread (fs.content f) (h.pos f) n).length)) fs := rfl

theorem alone_lseek {k : Nat → Action γ} {msg : String} :
    alone (lseek f o .SEEK_SET msg >>= k) h fs = alone (k o) (h.seek f o) fs := by
  rw [lseek_set, bind_assoc]
  rfl

theorem alone_setDB {g : DB → DB} {k : Unit → Action γ} :
    alone (setDB g >>= k) h fs = alone (k ()) (h.on g) fs := rfl

theorem alone_getDB {k : DB → Action γ} : alone (getDB >>= k) h fs = alone (k h.db) h fs := rfl

theorem alone_sys {c : Sys} {k : Answer c → Action γ} {r : Answer c}
    (answer : c.answer fs = some (r, fs')) :
    alone (sys c >>= k) h fs = alone (k r) h fs' :=
  Prog.exec_call answer _

/-- A record that can be read but for what is in its key. -/
structure Slot.Plain (t : Slot) : Prop where
  ptr : t.ptr ≤ 9999999
  noNul : 0 ∉ t.key
  off : t.datoff < 2 ^ 63
  some' : 0 < t.datlen
  len : t.datlen ≤ DATLEN_MAX
  long : IDXLEN_MIN ≤ t.text.length
  short : t.text.length ≤ IDXLEN_MAX

theorem Slot.Ok.plain (good : t.Ok) : t.Plain :=
  ⟨good.ptr, good.noNul, good.off, good.some', good.len, good.long, good.short⟩

theorem Slot.Plain.ok (plain : t.Plain) (clean : SEP ∉ t.key) : t.Ok :=
  ⟨plain.ptr, clean, plain.noNul, plain.off, plain.some', plain.len, plain.long, plain.short⟩

/-- The numbers of a record, and its text. -/
theorem alone_readhere_text (mayEnd : Bool) (plain : t.Plain)
    (first : pread (fs.content .idx) (h.pos .idx) (PTR_SZ + IDXLEN_SZ) =
      padded PTR_SZ t.ptr ++ padded IDXLEN_SZ t.text.length)
    (second : pread (fs.content .idx) (h.pos .idx + (PTR_SZ + IDXLEN_SZ)) t.text.length = t.text) :
    alone (readhere mayEnd) h fs = alone
      (separate (t.key ++ SEP :: (decimal t.datoff ++ SEP :: decimal t.datlen)) >>= fun _ =>
        pure (t.ptr : Int))
      ((h.seek .idx (h.pos .idx + (PTR_SZ + IDXLEN_SZ) + t.text.length)).on fun db =>
        { db with ptrval := t.ptr, idxlen := t.text.length }) fs := by
  have long : IDXLEN_MIN ≤ t.text.length ∧ t.text.length ≤ IDXLEN_MAX := ⟨plain.long, plain.short⟩
  have short : t.text.length ≤ 1024 := plain.short
  have len : ((t.text.length : Int) % 2 ^ 64).toNat = t.text.length := by omega
  have ptr : t.ptr ≤ 9999999 := plain.ptr
  have width : (padded IDXLEN_SZ t.text.length).length = IDXLEN_SZ :=
    padded_length (by decide) (show t.text.length < 10000 by omega)
  have both : (padded PTR_SZ t.ptr ++ padded IDXLEN_SZ t.text.length).length =
      PTR_SZ + IDXLEN_SZ := by
    rw [List.length_append, padded_ptr ptr, width]
  rw [readhere, alone_read, first, both, if_neg (by simp), List.take_left' (padded_ptr ptr),
    List.drop_left' (padded_ptr ptr), atol_padded _ (by omega), atoi_padded _ (by omega)]
  dsimp only
  rw [alone_setDB, len, if_neg (by omega), alone_read, Handle.on_pos, Handle.seek_pos, second,
    if_neg (by simp), if_neg (by simp [t.text_getLast]), Slot.text, entry_dropLast plain.noNul,
    Handle.on_seek, Handle.seek_seek]

/-- What a handle holds of a record that has been read. -/
def Slot.load (t : Slot) (db : DB) : DB :=
  { db with
    ptrval := t.ptr
    idxlen := t.text.length
    idxbuf := t.key
    datoff := t.datoff
    datlen := t.datlen }

theorem alone_separate (good : t.Ok) :
    alone (separate (t.key ++ SEP :: (decimal t.datoff ++ SEP :: decimal t.datlen)) >>= fun _ =>
        pure (t.ptr : Int)) (h.on fun db => { db with ptrval := t.ptr, idxlen := t.text.length }) fs =
      (some ((t.ptr : Int), h.on t.load), fs) :=
  alone_bind (congrArg (Prog.exec Sys.answer · fs)
    (separate_entry good.clean good.off good.some' good.len _))

/-- With a separator in the key there are too many. -/
theorem separate_many {key rest rest' : List Byte} (sep : SEP ∈ key) (h : Handle) :
    (separate (key ++ SEP :: (rest ++ SEP :: rest'))).run h =
      (err_dump "_db_readidx: too many separators" : Action Unit).run h := by
  obtain ⟨k₁, k₂, rfl, clean⟩ := List.eq_append_cons_of_mem sep
  have text : k₁ ++ SEP :: k₂ ++ SEP :: (rest ++ SEP :: rest') =
      k₁ ++ SEP :: (k₂ ++ SEP :: (rest ++ SEP :: rest')) := by simp
  rw [separate, text, strchr_append clean]
  dsimp only
  by_cases more : SEP ∈ k₂
  · obtain ⟨k₃, k₄, rfl, clean'⟩ := List.eq_append_cons_of_mem more
    have text : k₃ ++ SEP :: k₄ ++ SEP :: (rest ++ SEP :: rest') =
        k₃ ++ SEP :: (k₄ ++ SEP :: (rest ++ SEP :: rest')) := by simp
    rw [text, strchr_append clean']
    dsimp only
    rw [if_pos (by simp)]
  · rw [strchr_append more]
    dsimp only
    rw [if_pos (by simp)]

/-! ## What is written is read -/

theorem alone_lseek_end {k : Nat → Action γ} {msg : String} :
    alone (lseek f 0 .SEEK_END msg >>= k) h fs =
      alone (k (fs.content f).length) (h.seek f (fs.content f).length) fs := by
  have whole : ¬ ((fs.content f).length : Int) + 0 < 0 := by omega
  have value : (((fs.content f).length : Int) + 0).toNat = (fs.content f).length := by omega
  rw [lseek, bind_assoc]
  refine (alone_sys (r := (fs.content f).length) rfl).trans ?_
  dsimp only
  rw [if_neg whole, value, bind_assoc]
  rfl

/-- A file with more at its end. -/
def Files.extend (fs : Files) (f : File) (bs : List Byte) : Files :=
  { fs with content := Function.update fs.content f (fs.content f ++ bs) }

theorem extend_content (fs : Files) (f : File) (bs : List Byte) :
    (fs.extend f bs).content f = fs.content f ++ bs :=
  Function.update_self ..

theorem answer_extend (fs : Files) (f : File) (bs : List Byte) :
    Sys.answer (.write f (fs.content f).length bs) fs = some ((), fs.extend f bs) := by
  rw [Sys.answer, Heap.pwrite_end, Files.extend]

theorem alone_write {k : Unit → Action γ} {bs : List Byte} (last : h.pos f = (fs.content f).length) :
    alone (write f bs >>= k) h fs =
      alone (k ()) (h.seek f (h.pos f + bs.length)) (fs.extend f bs) := by
  have answer := answer_extend fs f bs
  rw [← last] at answer
  exact alone_sys answer

/-- A new index record. -/
theorem alone_writeidx (plain : t.Plain) (off : h.db.datoff = t.datoff)
    (len : h.db.datlen = t.datlen) : alone (writeidx t.key 0 .SEEK_END t.ptr) h fs =
      (some ((), (h.seek .idx ((fs.content .idx).length + (Item.slot t).enc.length)).on fun db =>
        { db with ptrval := t.ptr, idxbuf := t.text, idxoff := (fs.content .idx).length }),
        fs.extend .idx (Item.slot t).enc) := by
  have fits : ¬ ((t.ptr : Int) < 0 ∨ (t.ptr : Int) > PTR_MAX) := by
    have := plain.ptr
    have : PTR_MAX = 9999999 := rfl
    omega
  have text : entry t.key h.db.datoff h.db.datlen = t.text := by rw [off, len, Slot.text]
  have short : ¬ t.text.length ≥ IDXLEN_MAX + 2 := by
    have := plain.short
    omega
  have good : ¬ (t.text.length < IDXLEN_MIN ∨ t.text.length > IDXLEN_MAX) := by
    have := plain.short
    have := plain.long
    omega
  have enc : padded PTR_SZ t.ptr ++ padded IDXLEN_SZ t.text.length ++ t.text =
      (Item.slot t).enc := List.append_assoc ..
  rw [writeidx, alone_setDB, if_neg fits, alone_getDB, Handle.on_db, text, if_neg short,
    alone_setDB, if_neg good]
  dsimp only
  rw [if_pos rfl, alone_sys rfl, alone_lseek_end, alone_setDB, enc]
  refine (alone_write (by rw [Handle.on_pos, Handle.seek_pos])).trans ?_
  simp only [if_pos, Handle.on_pos, Handle.seek_pos, Handle.on_seek, Handle.seek_seek]
  rfl

/-- **What has been written is read again**, but when there is a separator in the
key: then the record cannot be read any more. -/
theorem readidx_writeidx (plain : t.Plain) (off : h.db.datoff = t.datoff)
    (len : h.db.datlen = t.datlen) (more : fs.content .idx ≠ []) :
    ∃ h₁ fs₁, alone (writeidx t.key 0 .SEEK_END t.ptr) h fs = (some ((), h₁), fs₁) ∧
      (SEP ∉ t.key → ∃ h₂, alone (readidx h₁.db.idxoff) h₁ fs₁ = (some ((t.ptr : Int), h₂), fs₁) ∧
        h₂.Has t) ∧
      (SEP ∈ t.key → alone (readidx h₁.db.idxoff) h₁ fs₁ = (none, fs₁)) := by
  have long : (padded PTR_SZ t.ptr).length = PTR_SZ := padded_ptr plain.ptr
  have width : (padded IDXLEN_SZ t.text.length).length = IDXLEN_SZ :=
    padded_length (by decide) (Nat.lt_of_le_of_lt plain.short (by decide))
  have both : (padded PTR_SZ t.ptr ++ padded IDXLEN_SZ t.text.length).length =
      PTR_SZ + IDXLEN_SZ := by rw [List.length_append, long, width]
  have content : (fs.extend .idx (Item.slot t).enc).content .idx =
      fs.content .idx ++ (padded PTR_SZ t.ptr ++ padded IDXLEN_SZ t.text.length) ++ t.text := by
    rw [extend_content, Item.enc, List.append_assoc, List.append_assoc]
  have some' : ((fs.content .idx).length : Int) ≠ 0 := by
    have := List.length_pos_of_ne_nil more
    omega
  have first : pread ((fs.extend .idx (Item.slot t).enc).content .idx) (fs.content .idx).length
      (PTR_SZ + IDXLEN_SZ) = padded PTR_SZ t.ptr ++ padded IDXLEN_SZ t.text.length := by
    rw [content, List.append_assoc]
    exact Heap.pread_mid rfl both
  have second : pread ((fs.extend .idx (Item.slot t).enc).content .idx)
      ((fs.content .idx).length + (PTR_SZ + IDXLEN_SZ)) t.text.length = t.text := by
    have before : (fs.content .idx ++
        (padded PTR_SZ t.ptr ++ padded IDXLEN_SZ t.text.length)).length =
          (fs.content .idx).length + (PTR_SZ + IDXLEN_SZ) := by rw [List.length_append, both]
    rw [content, ← before]
    exact Heap.pread_end _ _
  refine ⟨_, _, alone_writeidx plain off len, ?_⟩
  rw [Handle.on_db, readidx, if_neg some', alone_lseek, alone_setDB, alone_readhere_text false plain]
  rotate_left
  · rwa [Handle.on_pos, Handle.seek_pos]
  · rwa [Handle.on_pos, Handle.seek_pos]
  refine ⟨fun clean => ⟨_, alone_separate (plain.ok clean), rfl, rfl, rfl, rfl⟩, fun sep => ?_⟩
  exact Prog.exec_bind_stuck (congrArg (Prog.exec Sys.answer · _) (separate_many sep _)) _

/-- A record for the key `a`, the first of a new database. -/
theorem readidx_writeidx_a : ∃ h₁ fs₁,
    alone (writeidx [97] 0 .SEEK_END 0) { db := { datlen := 2 } } emptyFiles =
        (some ((), h₁), fs₁) ∧
      (SEP ∉ [97] → ∃ h₂, alone (readidx h₁.db.idxoff) h₁ fs₁ = (some (0, h₂), fs₁) ∧
        h₂.Has ⟨0, [97], 0, 2⟩) ∧
      (SEP ∈ [97] → alone (readidx h₁.db.idxoff) h₁ fs₁ = (none, fs₁)) :=
  readidx_writeidx (t := ⟨0, [97], 0, 2⟩) ⟨by decide, by decide, by decide, by decide, by decide,
    by decide, by decide⟩ rfl rfl (by decide)

end UnixProgramming.Db
