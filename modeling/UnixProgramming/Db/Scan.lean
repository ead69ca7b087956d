import Mathlib.Data.Set.List
import UnixProgramming.Db.Alone
import UnixProgramming.Db.Order

/-!
# All records in turn

A process alone that calls `db_rewind`, and then `db_nextrec` until there is no
more record, gets each record of the table once, except that with a key that is
all blank.

* `alone_readhere`, `alone_readdat`: reading without others;
* `alone_nextFrom`: the loop, by induction on the records to come;
* `db_nextrec_all`: the whole of it.
-/

namespace UnixProgramming.Db

open Calls (Prog)
open Heap (pread)
open Heap.Layout (flat find)
open Ssl (Byte)

variable {α γ : Type} {m : Action α} {k : α → Action γ} {h h' : Handle} {fs fs' : Files} {a : α}
  {img : List Item} {t : Slot} {f : File} {o n : Nat}

/-! ## Reading without others -/

theorem alone_readhere (mayEnd : Bool) (layout : fs.content .idx = flat Item.enc img)
    (here : find Item.enc img (h.pos .idx) = some (.slot t)) (good : t.Ok) :
    alone (readhere mayEnd) h fs = (some ((t.ptr : Int),
      (h.seek .idx (h.pos .idx + (Item.slot t).enc.length)).on t.load), fs) := by
  have first := pread_head here good
  have second := pread_text here good
  rw [← layout] at first second
  rw [alone_readhere_text mayEnd good.plain first second, alone_separate good,
    enc_slot_length good, Nat.add_assoc (h.pos .idx)]

/-- The next record, from where the handle is. -/
theorem alone_readidx (layout : fs.content .idx = flat Item.enc img)
    (here : find Item.enc img (h.pos .idx) = some (.slot t)) (good : t.Ok) :
    alone (readidx 0) h fs = (some ((t.ptr : Int),
      (h.seek .idx (h.pos .idx + (Item.slot t).enc.length)).on fun db =>
        t.load { db with idxoff := h.pos .idx }), fs) := by
  rw [readidx, if_pos rfl]
  exact alone_readhere (h := h.on fun db => { db with idxoff := h.pos .idx }) true layout here good

/-- There is none at the end of the file. -/
theorem alone_readidx_end (last : h.pos .idx = (fs.content .idx).length) :
    ∃ h', alone (readidx 0) h fs = (some ((-1 : Int), h'), fs) := by
  have none' : pread (fs.content .idx) (h.pos .idx) (PTR_SZ + IDXLEN_SZ) = [] := by
    rw [pread, last, List.drop_length, List.take_nil]
  refine ⟨?_, ?_⟩
  rotate_left
  · rw [readidx, if_pos rfl]
    refine (alone_read (h := h.on fun db => { db with idxoff := h.pos .idx })).trans ?_
    rw [Handle.on_pos, none']
    rfl

theorem alone_readdat {data : Data} (off : h.db.datoff = o)
    (len : h.db.datlen = data.text.length + 1)
    (here : pread (fs.content .dat) o h.db.datlen = data.text ++ [NEWLINE]) :
    ∃ h', alone readdat h fs = (some (data.text, h'), fs) ∧ h'.pos .idx = h.pos .idx := by
  have clean : data.text.takeWhile (fun c => decide (c ≠ 0)) = data.text := by
    rw [List.takeWhile_eq_self_iff]
    exact fun c hc => by simpa using ne_of_mem_of_not_mem hc data.noNul
  have long : (data.text ++ [NEWLINE]).length = h.db.datlen := by simp [len]
  have other : File.idx ≠ .dat := by decide
  refine ⟨(h.seek .dat (o + h.db.datlen)).on fun db => { db with datbuf := data.text }, ?_,
    Function.update_of_ne other (o + h.db.datlen) h.pos⟩
  rw [readdat, alone_getDB, off, alone_lseek, alone_read, Handle.seek_pos, here, long,
    if_neg (by simp), if_neg (by simp), alone_setDB, List.dropLast_concat, clean, Handle.seek_seek]
  rfl

/-! ## The records to come -/

/-- A key that is all blank. -/
abbrev Slot.Blank (t : Slot) : Prop := t.key.all (· == SPACE)

/-- The handle is where these records begin, with which the index file ends. -/
structure At (fs : Files) (img : List Item) (ts : List Slot) (h : Handle) : Prop where
  layout : fs.content .idx = flat Item.enc img
  split : ∃ l, img = l ++ ts.map .slot ∧ h.pos .idx = (flat Item.enc l).length
  good : ∀ t ∈ ts, t.Ok
  text : ∀ t ∈ ts, ¬ t.Blank → ∃ data : Data, t.datlen = data.text.length + 1 ∧
    pread (fs.content .dat) t.datoff t.datlen = data.text ++ [NEWLINE]

variable {ts : List Slot} {turns : Nat}

theorem At.move (here : At fs img ts h) (same : h'.pos .idx = h.pos .idx) : At fs img ts h' :=
  { here with split := by rw [same]; exact here.split }

theorem At.next (here : At fs img (t :: ts) h) : ∃ h',
    alone (readidx 0) h fs = (some ((t.ptr : Int), h'), fs) ∧ At fs img ts h' ∧ h'.Has t := by
  obtain ⟨layout, ⟨l, split, pos⟩, good, text⟩ := here
  have found : find Item.enc img (h.pos .idx) = some (.slot t) := by
    rw [split, pos]
    exact Heap.Layout.find_here enc_ne_nil
  refine ⟨_, alone_readidx layout found (good t (List.mem_cons_self ..)), ⟨layout,
    ⟨l ++ [.slot t], by simp [split], ?_⟩, fun t' mem => good t' (List.mem_cons_of_mem _ mem),
    fun t' mem => text t' (List.mem_cons_of_mem _ mem)⟩, rfl, rfl, rfl, rfl⟩
  rw [Handle.on_pos, Handle.seek_pos, pos, Heap.Layout.flat_snoc, List.length_append]

theorem At.last (here : At fs img [] h) :
    ∃ h', alone (readidx 0) h fs = (some ((-1 : Int), h'), fs) := by
  obtain ⟨layout, ⟨l, split, pos⟩, -, -⟩ := here
  refine alone_readidx_end ?_
  rw [pos, layout, split, List.map_nil, List.append_nil]

/-- The loop goes on to the next record with a key that is not all blank. -/
theorem alone_nextFrom (here : At fs img ts h) (more : ts.length < turns) :
    ((∀ t ∈ ts, t.Blank) ∧ ∃ h', alone (nextFrom turns) h fs = (some (false, h'), fs)) ∨
    ∃ bs t ts' h', ts = bs ++ t :: ts' ∧ (∀ t ∈ bs, t.Blank) ∧ ¬ t.Blank ∧
      alone (nextFrom turns) h fs = (some (true, h'), fs) ∧ At fs img ts' h' ∧ h'.Has t := by
  induction ts generalizing turns h with
  | nil =>
    obtain ⟨turns, rfl⟩ := Nat.exists_eq_add_of_lt more
    obtain ⟨h', read⟩ := here.last
    refine .inl ⟨by simp, h', ?_⟩
    rw [nextFrom, alone_bind read]
    rfl
  | cons t ts ih =>
    obtain ⟨turns, rfl⟩ := Nat.exists_eq_add_of_lt more
    obtain ⟨h', read, next, has⟩ := here.next
    have whole : ¬ (t.ptr : Int) < 0 := by omega
    by_cases blank : t.Blank
    · have step : alone (nextFrom ((t :: ts).length + turns + 1)) h fs =
          alone (nextFrom ((t :: ts).length + turns)) h' fs := by
        rw [nextFrom, alone_bind read, if_neg whole, alone_getDB, has.idxbuf, if_pos blank]
      have fewer : ts.length < (t :: ts).length + turns := by
        rw [List.length_cons]
        omega
      rw [step]
      rcases ih next fewer with ⟨all, ends⟩ |
        ⟨bs, t', ts', h'', rfl, all, some', rest⟩
      · exact .inl ⟨List.forall_mem_cons.2 ⟨blank, all⟩, ends⟩
      · exact .inr ⟨t :: bs, t', ts', h'', rfl, List.forall_mem_cons.2 ⟨blank, all⟩, some', rest⟩
    · refine .inr ⟨[], t, ts, h', rfl, by simp, blank, ?_, next, has⟩
      rw [nextFrom, alone_bind read, if_neg whole, alone_getDB, has.idxbuf, if_neg blank]
      rfl

/-- What there is to see of these records. -/
def shown (fs : Files) (ts : List Slot) : List (List Byte × List Byte) :=
  (ts.filter fun t => ¬ t.Blank).map fun t =>
    (t.key, (pread (fs.content .dat) t.datoff t.datlen).dropLast)

theorem shown_blank (all : ∀ t ∈ ts, t.Blank) : shown fs ts = [] := by
  have none' : (ts.filter fun t => ¬ t.Blank) = [] := by simpa using all
  rw [shown, none', List.map_nil]

theorem shown_append (ts ts' : List Slot) : shown fs (ts ++ ts') = shown fs ts ++ shown fs ts' := by
  rw [shown, List.filter_append, List.map_append, shown, shown]

/-- One call. -/
theorem alone_nextrec (here : At fs img ts h) (more : ts.length < turns) :
    (shown fs ts = [] ∧ ∃ h', alone (db_nextrec turns) h fs = (some (none, h'), fs)) ∨
    ∃ r ts' h', shown fs ts = r :: shown fs ts' ∧ ts'.length < ts.length ∧
      alone (db_nextrec turns) h fs = (some (some r, h'), fs) ∧ At fs img ts' h' := by
  rcases alone_nextFrom here more with ⟨all, h', loop⟩ |
    ⟨bs, t, ts', h', rfl, all, some', loop, next, has⟩
  · refine .inl ⟨shown_blank all, h', ?_⟩
    rw [db_nextrec, lockByte, alone_sys rfl, alone_bind loop]
    rfl
  · obtain ⟨data, len, bytes⟩ := here.text t (by simp) some'
    have there : pread (fs.content .dat) t.datoff h'.db.datlen = data.text ++ [NEWLINE] := by
      rw [has.datlen, bytes]
    obtain ⟨h'', read, same⟩ := alone_readdat has.datoff (has.datlen.trans len) there
    have call : alone (db_nextrec turns) h fs = (some (some (t.key, data.text),
        h''.on fun db => { db with cnt := { db.cnt with nextrec := db.cnt.nextrec + 1 } }), fs) := by
      rw [db_nextrec, lockByte, alone_sys rfl, alone_bind loop, if_pos rfl, alone_getDB,
        has.idxbuf, alone_bind read]
      rfl
    refine .inr ⟨(t.key, data.text), ts', _, ?_, ?_, call, next.move same⟩
    · have first : shown fs [t] = [(t.key, data.text)] := by
        have only : [t].filter (fun t => ¬ t.Blank) = [t] :=
          List.filter_cons_of_pos (decide_eq_true some')
        rw [shown, only, List.map_singleton, bytes, List.dropLast_concat]
      rw [shown_append, shown_blank all, List.nil_append, ← List.singleton_append, shown_append,
        first, List.singleton_append]
    · simp only [List.length_append, List.length_cons]
      omega

/-- `db_nextrec` again and again, up to the last record. -/
def records (turns : Nat) : Nat → Action (List (List Byte × List Byte))
  | 0 => return []
  | n + 1 => do
    match ← db_nextrec turns with
    | none => return []
    | some r => return r :: (← records turns n)

theorem alone_records (here : At fs img ts h) (more : ts.length < turns) (calls : ts.length < n) :
    ∃ h', alone (records turns n) h fs = (some (shown fs ts, h'), fs) := by
  induction n generalizing ts h with
  | zero => omega
  | succ n ih =>
    rcases alone_nextrec here more with ⟨none', h', call⟩ | ⟨r, ts', h', first, fewer, call, next⟩
    · refine ⟨h', ?_⟩
      rw [records, alone_bind call, none']
      rfl
    · obtain ⟨h'', rest⟩ := ih next (by omega) (by omega)
      refine ⟨h'', ?_⟩
      rw [records, alone_bind call]
      refine (alone_bind rest).trans ?_
      rw [first]
      rfl

/-! ## The whole table -/

section
variable {ι β : Type} {w : World ι} {g : Ghost ι Unit} {m : Table}

/-- A record with a key that is not all blank is that for a key of the table. -/
theorem World.Rest.record (rest : w.Rest g m) (clean : ∀ o, g.own o ≠ some .lost)
    (here : State.at' (w, g) o = some (.slot t)) (some' : ¬ t.Blank) : ∃ key data,
      o ∈ g.chain (bucket key.text) ∧ Holds' o key data (w, g) t ∧ m key = some data := by
  have inv := rest.inv
  obtain ⟨u, own⟩ := Option.isSome_iff_exists.1 ((inv.laid.owned o).2 ⟨t, here⟩)
  cases u with
  | bucket b =>
    have entries := inv.entries b (rest.whole b)
    have mem := (entries.owns o).1 own
    obtain ⟨t', key, data, held, rfl, value⟩ := entries.holds o mem
    obtain rfl : t' = t := by simpa [held.here] using here
    rw [State.map, rest.table] at value
    exact ⟨key, data, mem, held, value⟩
  | free =>
    obtain ⟨t', here', blank⟩ := inv.free.blank o ((inv.free.owns o).1 own)
    obtain rfl : t' = t := by simpa [here'] using here
    exact absurd (by simpa using blank) some'
  | proc i => exact absurd own (rest.own o i)
  | lost => exact absurd own (clean o)

/-- Where the records begin. -/
theorem Laid.records {s : State ι β} (laid : Laid s) : ∃ (l : List Item) (ts : List Slot),
    s.2.img = l ++ ts.map .slot ∧ (flat Item.enc l).length = TAIL := by
  obtain ⟨l, r, split, long⟩ := Heap.Layout.find_split laid.gap
  have tail : (flat Item.enc (l ++ [.newline])).length = TAIL := by
    rw [Heap.Layout.flat_snoc, List.length_append, long]
    rfl
  have slots : ∀ it ∈ r, it ∈ Set.range Item.slot := by
    intro it mem
    obtain ⟨r₁, r₂, rfl⟩ := List.append_of_mem mem
    have here : s.at' (flat Item.enc (l ++ [.newline] ++ r₁)).length = some it :=
      (Heap.Layout.find_eq_some enc_ne_nil).2 ⟨_, r₂, by simp [split], rfl⟩
    obtain ⟨t, rfl⟩ := (laid.slots _ it here).1 (by
      rw [Heap.Layout.flat_append, List.length_append, tail]
      omega)
    exact ⟨t, rfl⟩
  obtain ⟨ts, rfl⟩ := (Set.range_list_map Item.slot).ge slots
  exact ⟨l ++ [.newline], ts, by simp [split], tail⟩

variable (rest : w.Rest g m) (clean : ∀ o, g.own o ≠ some .lost) {l : List Item}
  (split : g.img = l ++ ts.map .slot)
include rest clean split

/-- Each of the records is somewhere. -/
theorem World.Rest.record_of (mem : t ∈ ts) (some' : ¬ t.Blank) : ∃ o key data,
    o ∈ g.chain (bucket key.text) ∧ Holds' o key data (w, g) t ∧ m key = some data := by
  obtain ⟨ts₁, ts₂, rfl⟩ := List.append_of_mem mem
  have here : State.at' (w, g) (flat Item.enc (l ++ ts₁.map .slot)).length = some (.slot t) :=
    (Heap.Layout.find_eq_some enc_ne_nil).2 ⟨_, ts₂.map .slot, by simp [split], rfl⟩
  exact ⟨_, rest.record clean here some'⟩

theorem World.Rest.shown_nodup : ((shown w.files ts).map Prod.fst).Nodup := by
  have apart : g.img.Pairwise fun it it' => ∀ t t', it = .slot t → it' = .slot t' →
      ¬ t.Blank → t.key ≠ t'.key := by
    refine Heap.Layout.pairwise enc_ne_nil fun o o' x y other here here' => ?_
    rintro t t' rfl rfl some' same
    have some'' : ¬ t'.Blank := by rwa [Slot.Blank, ← same]
    obtain ⟨key, data, mem, held, -⟩ := rest.record clean here some'
    obtain ⟨key', data', mem', held', -⟩ := rest.record clean here' some''
    obtain rfl : key = key' := Key.ext (held.key.symm.trans (same.trans held'.key))
    exact other ((rest.inv.entries _ (rest.whole _)).only o mem o' mem' t t' here here' same)
  rw [split, List.pairwise_append] at apart
  have slots := List.pairwise_map.1 apart.2.1
  rw [shown, List.map_map, List.Nodup, List.pairwise_map, List.pairwise_filter]
  exact slots.imp fun h some' _ => h _ _ rfl rfl (by simpa using some')

theorem World.Rest.shown_mem (long : (flat Item.enc l).length = TAIL) {key data : List Byte} :
    (key, data) ∈ shown w.files ts ↔ ∃ (k : Key) (d : Data), m k = some d ∧ k.text = key ∧
      d.text = data ∧ ¬ key.all (· == SPACE) := by
  rw [shown, List.mem_map]
  constructor
  · rintro ⟨t, mem, both⟩
    obtain ⟨mem, some'⟩ := List.mem_filter.1 mem
    obtain ⟨o, k, d, -, held, value⟩ := rest.record_of clean split mem (of_decide_eq_true some')
    obtain ⟨rfl, rfl⟩ := Prod.mk.inj both
    refine ⟨k, d, value, held.key.symm, ?_, of_decide_eq_true some'⟩
    have bytes : pread (w.files.content .dat) t.datoff t.datlen = d.text ++ [NEWLINE] := held.data
    rw [bytes, List.dropLast_concat]
  · rintro ⟨k, d, value, rfl, rfl, some'⟩
    rw [← rest.table] at value
    have entries := rest.inv.entries _ (rest.whole (bucket k.text))
    obtain ⟨o, mem, t, held⟩ := entries.all k d rfl value
    have behind := (rest.inv.laid.slots o _ held.here).2 ⟨t, rfl⟩
    have here : find Item.enc (ts.map .slot) (o - TAIL) = some (.slot t) := by
      have here := held.here
      rwa [State.at', split, Heap.Layout.find_append enc_ne_nil, long, if_neg (by omega)] at here
    obtain ⟨t', mem', same⟩ := List.mem_map.1 (Heap.Layout.find_mem here)
    cases same
    have bytes : pread (w.files.content .dat) t.datoff t.datlen = d.text ++ [NEWLINE] := held.data
    refine ⟨t, List.mem_filter.2 ⟨mem', decide_eq_true ?_⟩, ?_⟩
    · rwa [Slot.Blank, held.key]
    · rw [held.key, bytes, List.dropLast_concat]

end

/-- **All records in turn, each once**, but for a key that is all blank. Nothing
is written. -/
theorem db_nextrec_all {ι : Type} {w : World ι} {m : Table} {turns : Nat} (many : 9999999 < turns)
    (clean : w.Clean m) (h : Handle) : ∃ rs h',
    alone (db_rewind >>= fun _ => records turns turns) h w.files = (some (rs, h'), w.files) ∧
      (rs.map Prod.fst).Nodup ∧ ∀ key data, (key, data) ∈ rs ↔
        ∃ (k : Key) (d : Data), m k = some d ∧ k.text = key ∧ d.text = data ∧
          ¬ key.all (· == SPACE) := by
  obtain ⟨g, rest, clean⟩ := clean
  obtain ⟨l, ts, split, long⟩ := rest.inv.laid.records
  replace split : g.img = l ++ ts.map .slot := split
  have fewer : ts.length < turns := by
    have total : g.img.length ≤ (flat Item.enc g.img).length :=
      Heap.Layout.length_le_flat enc_ne_nil
    have small : (flat Item.enc g.img).length ≤ 9999999 := rest.inv.laid.layout ▸ rest.inv.small.1
    rw [split, List.length_append, List.length_map] at total
    rw [split] at small
    omega
  have here : At w.files g.img ts ((h.seek .idx TAIL).on fun db => { db with idxoff := TAIL }) := by
    refine ⟨rest.inv.laid.layout, ⟨l, split, ?_⟩, fun t mem => ?_, fun t mem some' => ?_⟩
    · rw [Handle.on_pos, Handle.seek_pos, long]
    · exact rest.inv.laid.ok (.slot t) (by simp [split, mem])
    · obtain ⟨o, k, d, -, held, -⟩ := rest.record_of clean split mem some'
      have len := rest.inv.laid.data_length held.here
      rw [held.data, List.length_append] at len
      exact ⟨d, len.symm, held.data⟩
  obtain ⟨h', run⟩ := alone_records here fewer fewer
  refine ⟨_, h', ?_, rest.shown_nodup clean split, fun key data => rest.shown_mem clean split long⟩
  rw [db_rewind, bind_assoc, alone_lseek]
  exact run

/-- A database with one record. -/
theorem db_nextrec_all_alpha : ∃ rs h',
    alone (db_rewind >>= fun _ => records 10000000 10000000) {} alphaWorld.files =
        (some (rs, h'), alphaWorld.files) ∧
      (rs.map Prod.fst).Nodup ∧ ∀ key data, (key, data) ∈ rs ↔
        ∃ (k : Key) (d : Data), alphaTable k = some d ∧ k.text = key ∧ d.text = data ∧
          ¬ key.all (· == SPACE) :=
  db_nextrec_all (by decide) alphaWorld_clean {}

end UnixProgramming.Db
