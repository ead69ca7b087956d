import Mathlib.Algebra.BigOperators.Fin
import Mathlib.Data.Matrix.Mul
import UnixProgramming.Runs.Basic

/-!
# A thread for each row

`matmult.c` over any exact arithmetic: the matrices as blocks with row pointers,
and `main` and the threads of `RowMult`, of which any can make the next step.
Each element of a matrix that is read or written is a step of its own.

- `RowMult_keeps`: what a step of one thread does to the others;
- `product`: whatever the order of the steps, the product is there in the end;
- `product_ends`: no order of the steps gets stuck before.
-/

namespace UnixProgramming.Matmult

open Runs

variable {R : Type}

/-! ## Matrices -/

/-- A row pointer is null or an offset into the block. -/
structure DMatrix (R : Type) where
  mat : List (Option Nat)
  block : List R
  rows : Nat
  cols : Nat

/-- Where `M->mat[r][c]` is in the block, if that is not outside. -/
def DMatrix.addr (M : DMatrix R) (r c : Nat) : Option Nat :=
  M.mat[r]?.join.bind fun mrow => if mrow + c < M.block.length then some (mrow + c) else none

/-- `M->mat[r][c]` -/
def DMatrix.elem (M : DMatrix R) (r c : Nat) : Option R := (M.addr r c).bind (M.block[·]?)

def DMatrix.set (M : DMatrix R) (i : Nat) (x : R) : DMatrix R := { M with block := M.block.set i x }

/-- `for(; r < rows; ++r, mrow+= cols) M->mat[r]= mrow;` for some turns. -/
def setRows (cols : Nat) : Nat → Nat → Nat → List (Option Nat) → List (Option Nat)
  | 0, _, _, mat => mat
  | turns + 1, r, mrow, mat => setRows cols turns (r + 1) (mrow + cols) (mat.set r (some mrow))

def Dmatmake [Zero R] (rows cols : Nat) : DMatrix R where
  mat := setRows cols rows 0 0 (List.replicate rows none)
  block := List.replicate (rows * cols) 0
  rows := rows
  cols := cols

/-- The inner loop of `Dmatget`, where `fscanf` reads these numbers for the row. -/
def getRow (elem : Nat → R) (r : Nat) : Nat → Nat → DMatrix R → Option (DMatrix R)
  | 0, _, M => some M
  | turns + 1, c, M => (M.addr r c).bind fun i => getRow elem r turns (c + 1) (M.set i (elem c))

def getRows (elem : Nat → Nat → R) : Nat → Nat → DMatrix R → Option (DMatrix R)
  | 0, _, M => some M
  | turns + 1, r, M => (getRow (elem r) r M.cols 0 M).bind fun M => getRows elem turns (r + 1) M

def Dmatget [Zero R] (rows cols : Nat) (elem : Nat → Nat → R) : Option (DMatrix R) :=
  getRows elem rows 0 (Dmatmake rows cols)

/-! ## The threads -/

inductive Name where
  | A
  | B
  | C
  deriving DecidableEq

/-- An element that a thread has read or written. -/
structure Access where
  pr : Nat
  matrix : Name
  index : Nat
  write : Bool

/-- Where a thread is in `RowMult`. -/
inductive Pc (R : Type) where
  | entry
  | outer (r j : Nat)
  | inner (r j k : Nat) (sum : R)
  | times (r j k : Nat) (sum a : R)
  | exited
  | outside

/-- Where `main` is in its two loops. -/
inductive Main where
  | create (r : Nat)
  | join (r : Nat)
  | joined
  deriving DecidableEq

structure World (R : Type) where
  A : DMatrix R
  B : DMatrix R
  C : DMatrix R
  row : List Nat
  main : Main
  thrds : Nat → Option (Pc R)
  log : List Access

/-- What a step of a thread leaves. -/
structure Turn (R : Type) where
  pc : Pc R
  C : DMatrix R
  log : List Access

section
variable [Add R] [Mul R] [Zero R]

/-- A step of the thread that was given `&row[pr]`. -/
def RowMult (w : World R) (pr : Nat) : Pc R → Option (Turn R)
  | .entry =>
    match w.row[pr]? with
    | none => some ⟨.outside, w.C, []⟩
    | some r => some ⟨.outer r 0, w.C, []⟩
  | .outer r j => some ⟨if j < w.B.cols then .inner r j 0 0 else .exited, w.C, []⟩
  | .inner r j k sum =>
    if k < w.B.rows then
      -- `A->mat[r][k]`
      match (w.A.addr r k).bind fun i => w.A.block[i]?.map (i, ·) with
      | none => some ⟨.outside, w.C, []⟩
      | some (i, a) => some ⟨.times r j k sum a, w.C, [⟨pr, .A, i, false⟩]⟩
    else
      match w.C.addr r j with
      | none => some ⟨.outside, w.C, []⟩
      | some i => some ⟨.outer r (j + 1), w.C.set i sum, [⟨pr, .C, i, true⟩]⟩
  | .times r j k sum a =>
    -- `B->mat[k][j]`
    match (w.B.addr k j).bind fun i => w.B.block[i]?.map (i, ·) with
    | none => some ⟨.outside, w.C, []⟩
    | some (i, b) => some ⟨.inner r j (k + 1) (sum + a * b), w.C, [⟨pr, .B, i, false⟩]⟩
  | .exited => none
  | .outside => none

inductive Who where
  | main
  | thread (pr : Nat)
  deriving DecidableEq

def stepMain (w : World R) : Option (World R) :=
  match w.main with
  | .create r =>
    if r < w.C.rows then
      some { w with thrds := Function.update w.thrds r (some .entry), main := .create (r + 1) }
    else some { w with main := .join 0 }
  | .join r =>
    if r < w.C.rows then
      -- `pthread_join` waits
      match w.thrds r with
      | some .exited => some { w with main := .join (r + 1) }
      | _ => none
    else some { w with main := .joined }
  | .joined => none

def step (w : World R) : Who → Option (World R)
  | .main => stepMain w
  | .thread pr => do
    let pc ← w.thrds pr
    let t ← RowMult w pr pc
    some { w with
      C := t.C
      thrds := Function.update w.thrds pr (some t.pc)
      log := w.log ++ t.log }

/-- `main` up to its first thread, for two matrices in the file. Where there is
no product, `error` ends it. -/
def load (rowsA colsA rowsB colsB : Nat) (elemA elemB : Nat → Nat → R) : Option (World R) := do
  let A ← Dmatget rowsA colsA elemA
  let B ← Dmatget rowsB colsB elemB
  if A.cols ≠ B.rows then none
  else
    let C := Dmatmake A.rows B.cols
    some { A := A, B := B, C := C, row := List.range C.rows, main := .create 0,
           thrds := fun _ => none, log := [] }

def World.matrix (w : World R) : Name → DMatrix R
  | .A => w.A
  | .B => w.B
  | .C => w.C

end

/-! ## Blocks -/

/-- An `m` by `n` matrix as `Dmatmake` makes it, whatever its elements. -/
structure Shape (M : DMatrix R) (m n : Nat) : Prop where
  rows : M.rows = m
  cols : M.cols = n
  length : M.block.length = m * n
  row : ∀ r < m, M.mat[r]? = some (some (r * n))

/-- Its elements are these. -/
structure Holds (M : DMatrix R) (m n : Nat) (elem : Nat → Nat → R) : Prop extends Shape M m n where
  elem : ∀ r < m, ∀ c < n, M.block[r * n + c]? = some (elem r c)

section
variable {M : DMatrix R} {m n r c r' c' : Nat}

theorem index_lt (hr : r < m) (hc : c < n) : r * n + c < m * n :=
  calc r * n + c < r * n + n := Nat.add_lt_add_left hc _
    _ = (r + 1) * n := (Nat.succ_mul r n).symm
    _ ≤ m * n := Nat.mul_le_mul_right n hr

/-- No two elements are at one place. -/
theorem index_inj (hc : c < n) (hc' : c' < n) (h : r * n + c = r' * n + c') : r = r' := by
  rcases Nat.lt_trichotomy r r' with less | same | more
  · have := index_lt less hc
    omega
  · exact same
  · have := index_lt more hc'
    omega

theorem Shape.addr (h : Shape M m n) (hr : r < m) (hc : c < n) : M.addr r c = some (r * n + c) := by
  rw [DMatrix.addr, h.row r hr, Option.join_some, Option.bind_some, h.length,
    if_pos (index_lt hr hc)]

theorem Shape.set (h : Shape M m n) (i : Nat) (x : R) : Shape (M.set i x) m n :=
  ⟨h.rows, h.cols, by rw [DMatrix.set, List.length_set, h.length], h.row⟩

theorem Shape.set_same (h : Shape M m n) (hr : r < m) (hc : c < n) (x : R) :
    (M.set (r * n + c) x).block[r * n + c]? = some x := by
  rw [DMatrix.set, List.getElem?_set_self (by rw [h.length]; exact index_lt hr hc)]

theorem set_row (hc : c < n) (hc' : c' < n) (other : r ≠ r') (x : R) :
    (M.set (r * n + c) x).block[r' * n + c']? = M.block[r' * n + c']? := by
  rw [DMatrix.set, List.getElem?_set_ne fun e => other (index_inj hc hc' e)]

theorem set_column (other : c ≠ c') (x : R) :
    (M.set (r * n + c) x).block[r * n + c']? = M.block[r * n + c']? := by
  rw [DMatrix.set, List.getElem?_set_ne (by omega)]

/-- The row pointers that the loop has stored so far, and those that it will. -/
theorem setRows_eq (n : Nat) {turns r mrow : Nat} {mat : List (Option Nat)} {r' : Nat}
    (at' : mrow = r * n) (room : r + turns ≤ mat.length) :
    (setRows n turns r mrow mat)[r']? =
      if r ≤ r' ∧ r' < r + turns then some (some (r' * n)) else mat[r']? := by
  induction turns generalizing r mrow mat with
  | zero => rw [setRows, if_neg (by omega)]
  | succ turns ih =>
    rw [setRows, ih (by rw [at', Nat.succ_mul]) (by rw [List.length_set]; omega)]
    by_cases here : r' = r
    · subst here
      rw [if_neg (by omega), if_pos (by omega), List.getElem?_set_self (by omega), at']
    · rw [List.getElem?_set_ne (Ne.symm here)]
      by_cases within : r + 1 ≤ r' ∧ r' < r + 1 + turns
      · rw [if_pos within, if_pos (by omega)]
      · rw [if_neg within, if_neg (by omega)]

theorem Dmatmake_shape [Zero R] (m n : Nat) : Shape (Dmatmake m n : DMatrix R) m n where
  rows := rfl
  cols := rfl
  length := List.length_replicate
  row := by
    intro r hr
    rw [Dmatmake, setRows_eq n (Nat.zero_mul n).symm (by simp), if_pos (by omega)]

/-- A row as far as it has been read, with the rows before it. -/
theorem getRow_eq {elem : Nat → Nat → R} {turns : Nat} (shape : Shape M m n) (hr : r < m)
    (stop : c + turns = n) (rows : ∀ r' < r, ∀ c' < n, M.block[r' * n + c']? = some (elem r' c'))
    (row : ∀ c' < c, M.block[r * n + c']? = some (elem r c')) :
    ∃ M', getRow (elem r) r turns c M = some M' ∧ Shape M' m n ∧
      ∀ r' < r + 1, ∀ c' < n, M'.block[r' * n + c']? = some (elem r' c') := by
  induction turns generalizing c M with
  | zero =>
    refine ⟨M, rfl, shape, fun r' before c' inside => ?_⟩
    rcases Nat.lt_succ_iff_lt_or_eq.1 before with earlier | rfl
    · exact rows r' earlier c' inside
    · exact row c' (by omega)
  | succ turns ih =>
    have hc : c < n := by omega
    rw [getRow, shape.addr hr hc, Option.bind_some]
    refine ih (shape.set _ _) (by omega) (fun r' before c' inside => ?_) fun c' before => ?_
    · rw [set_row hc inside (by omega)]
      exact rows r' before c' inside
    · rcases Nat.lt_succ_iff_lt_or_eq.1 before with earlier | rfl
      · rw [set_column (by omega)]
        exact row c' earlier
      · exact shape.set_same hr hc _

theorem getRows_eq {elem : Nat → Nat → R} {turns : Nat} (shape : Shape M m n)
    (stop : r + turns = m) (rows : ∀ r' < r, ∀ c' < n, M.block[r' * n + c']? = some (elem r' c')) :
    ∃ M', getRows elem turns r M = some M' ∧ Holds M' m n elem := by
  induction turns generalizing r M with
  | zero =>
    obtain rfl : r = m := stop
    exact ⟨M, rfl, ⟨shape, rows⟩⟩
  | succ turns ih =>
    obtain ⟨M', e, shape', rows'⟩ := getRow_eq shape (c := 0) (by omega) (Nat.zero_add n) rows
      fun c' before => absurd before (Nat.not_lt_zero c')
    rw [getRows, shape.cols, e, Option.bind_some]
    exact ih shape' (by omega) rows'

/-- `Dmatget` stores every number inside the block, where it belongs. -/
theorem Dmatget_holds [Zero R] (m n : Nat) (elem : Nat → Nat → R) :
    ∃ M, Dmatget m n elem = some M ∧ Holds M m n elem :=
  getRows_eq (Dmatmake_shape m n) (Nat.zero_add m)
    fun r' before => absurd before (Nat.not_lt_zero r')

end

/-! ## One step -/

section
variable [NonUnitalNonAssocSemiring R] {m n p : Nat} {a b : Nat → Nat → R}

/-- The sum of the inner loop, up to `k`. -/
def dot (a b : Nat → Nat → R) (r j k : Nat) : R := ∑ x ∈ Finset.range k, a r x * b x j

/-- The first elements of a row of the product are there. -/
def Done (a b : Nat → Nat → R) (n p : Nat) (C : DMatrix R) (i j : Nat) : Prop :=
  ∀ c < j, C.block[i * p + c]? = some (dot a b i c n)

/-- What the thread for a row has done where it is. -/
def Ok (a b : Nat → Nat → R) (n p : Nat) (C : DMatrix R) (i : Nat) : Pc R → Prop
  | .entry => True
  | .outer r j => r = i ∧ j ≤ p ∧ Done a b n p C i j
  | .inner r j k sum => r = i ∧ j < p ∧ k ≤ n ∧ sum = dot a b i j k ∧ Done a b n p C i j
  | .times r j k sum x =>
    r = i ∧ j < p ∧ k < n ∧ sum = dot a b i j k ∧ x = a i k ∧ Done a b n p C i j
  | .exited => Done a b n p C i p
  | .outside => False

/-- A thread reads `A` and `B` and writes its row of `C`, all of it inside. -/
def Own (m n p : Nat) (x : Access) : Prop :=
  match x.matrix with
  | .A => x.write = false ∧ x.index < m * n
  | .B => x.write = false ∧ x.index < n * p
  | .C => x.write = true ∧ x.pr < m ∧ x.pr * p ≤ x.index ∧ x.index < (x.pr + 1) * p

/-- Another thread's row is none of its business. -/
theorem Ok.other {C C' : DMatrix R} {i : Nat} {pc : Pc R} (ok : Ok a b n p C i pc)
    (same : ∀ c < p, C'.block[i * p + c]? = C.block[i * p + c]?) : Ok a b n p C' i pc := by
  have done {j : Nat} (most : j ≤ p) (h : Done a b n p C i j) : Done a b n p C' i j :=
    fun c before => (same c (by omega)).trans (h c before)
  cases pc with
  | entry => exact ok
  | outer r j => exact ⟨ok.1, ok.2.1, done ok.2.1 ok.2.2⟩
  | inner r j k sum =>
    obtain ⟨hr, hj, hk, hsum, h⟩ := ok
    exact ⟨hr, hj, hk, hsum, done hj.le h⟩
  | times r j k sum x =>
    obtain ⟨hr, hj, hk, hsum, hx, h⟩ := ok
    exact ⟨hr, hj, hk, hsum, hx, done hj.le h⟩
  | exited => exact done le_rfl ok
  | outside => exact ok

omit [NonUnitalNonAssocSemiring R] in
theorem Holds.fetch {M : DMatrix R} {r c : Nat} (h : Holds M m n a) (hr : r < m) (hc : c < n) :
    ((M.addr r c).bind fun i => M.block[i]?.map (i, ·)) = some (r * n + c, a r c) := by
  rw [h.addr hr hc, Option.bind_some, h.elem r hr c hc]
  rfl

/-- **A step of one thread** leaves the rows of all the others alone. -/
theorem RowMult_keeps {w : World R} {i : Nat} {pc : Pc R} {t : Turn R} (hA : Holds w.A m n a)
    (hB : Holds w.B n p b) (hC : Shape w.C m p) (row : w.row = List.range m) (hi : i < m)
    (ok : Ok a b n p w.C i pc) (h : RowMult w i pc = some t) :
    Shape t.C m p ∧ Ok a b n p t.C i t.pc ∧
      (∀ i', i' ≠ i → ∀ c < p, t.C.block[i' * p + c]? = w.C.block[i' * p + c]?) ∧
      ∀ x ∈ t.log, Own m n p x := by
  have same : ∀ i', i' ≠ i → ∀ c < p, w.C.block[i' * p + c]? = w.C.block[i' * p + c]? :=
    fun _ _ _ _ => rfl
  cases pc with
  | entry =>
    rw [RowMult, row, List.getElem?_range hi] at h
    cases h
    exact ⟨hC, ⟨rfl, Nat.zero_le _, fun c before => absurd before (Nat.not_lt_zero c)⟩, same,
      List.forall_mem_nil _⟩
  | outer r j =>
    obtain ⟨rfl, hj, done⟩ := ok
    rw [RowMult, hB.cols] at h
    cases h
    refine ⟨hC, ?_, same, List.forall_mem_nil _⟩
    dsimp only
    split
    · rename_i more
      exact ⟨rfl, more, Nat.zero_le _, by simp [dot], done⟩
    · rename_i last
      obtain rfl : j = p := by omega
      exact done
  | inner r j k sum =>
    obtain ⟨rfl, hj, hk, hsum, done⟩ := ok
    rw [RowMult, hB.rows] at h
    split at h
    · rename_i more
      rw [hA.fetch hi more] at h
      cases h
      refine ⟨hC, ⟨rfl, hj, more, hsum, rfl, done⟩, same, List.forall_mem_singleton.2 ?_⟩
      exact ⟨rfl, index_lt hi more⟩
    · rename_i last
      obtain rfl : k = n := by omega
      rw [hC.addr hi hj] at h
      cases h
      refine ⟨hC.set _ _, ⟨rfl, hj, fun c before => ?_⟩, fun i' other c inside => ?_,
        List.forall_mem_singleton.2 ?_⟩
      · rcases Nat.lt_succ_iff_lt_or_eq.1 before with earlier | rfl
        · rw [set_column (by omega)]
          exact done c earlier
        · rw [hC.set_same hi hj, hsum]
      · exact set_row hj inside (Ne.symm other) sum
      · exact ⟨rfl, hi, Nat.le_add_right _ _, index_lt (Nat.lt_succ_self r) hj⟩
  | times r j k sum x =>
    obtain ⟨rfl, hj, hk, hsum, hx, done⟩ := ok
    rw [RowMult, hB.fetch hk hj] at h
    cases h
    refine ⟨hC, ⟨rfl, hj, hk, ?_, done⟩, same, List.forall_mem_singleton.2 ?_⟩
    · rw [hsum, hx, dot, dot, Finset.sum_range_succ]
    · exact ⟨rfl, index_lt hk hj⟩
  | exited => cases h
  | outside => cases h

/-! ## All orders of steps -/

/-- How many threads `main` has created. -/
def Main.created (m : Nat) : Main → Nat
  | .create r => r
  | .join _ => m
  | .joined => m

/-- How many of them it has waited for. -/
def Main.waited (m : Nat) : Main → Nat
  | .create _ => 0
  | .join r => r
  | .joined => m

structure Inv (m n p : Nat) (a b : Nat → Nat → R) (w : World R) : Prop where
  A : Holds w.A m n a
  B : Holds w.B n p b
  C : Shape w.C m p
  row : w.row = List.range m
  most : w.main.created m ≤ m ∧ w.main.waited m ≤ m
  created : ∀ i, (w.thrds i).isSome ↔ i < w.main.created m
  waited : ∀ i < w.main.waited m, w.thrds i = some .exited
  ok : ∀ i pc, w.thrds i = some pc → Ok a b n p w.C i pc
  log : ∀ x ∈ w.log, Own m n p x

variable {w w' : World R}

theorem Inv.thread_lt (h : Inv m n p a b w) {i : Nat} {pc : Pc R} (there : w.thrds i = some pc) :
    i < m :=
  Nat.lt_of_lt_of_le ((h.created i).1 (by rw [there]; rfl)) h.most.1

theorem stepMain_keeps (h : Inv m n p a b w) (next : stepMain w = some w') : Inv m n p a b w' := by
  unfold stepMain at next
  cases at' : w.main with
  | create r =>
    have created := h.created
    rw [at'] at next created
    dsimp only at next
    rw [h.C.rows] at next
    split at next
    · rename_i more
      cases next
      refine ⟨h.A, h.B, h.C, h.row, ⟨more, Nat.zero_le _⟩, fun i => ?_,
        fun i before => absurd before (Nat.not_lt_zero i), fun i pc there => ?_, h.log⟩
      · by_cases new : i = r
        · subst new
          simp [Main.created]
        · dsimp only
          rw [Function.update_of_ne new, created i, Main.created, Main.created]
          omega
      · by_cases new : i = r
        · subst new
          dsimp only at there
          rw [Function.update_self] at there
          cases there
          trivial
        · dsimp only at there
          rw [Function.update_of_ne new] at there
          exact h.ok i pc there
    · rename_i last
      cases next
      have most := h.most.1
      rw [at', Main.created] at most
      obtain rfl : r = m := by omega
      exact ⟨h.A, h.B, h.C, h.row, ⟨le_rfl, Nat.zero_le _⟩, created,
        fun i before => absurd before (Nat.not_lt_zero i), h.ok, h.log⟩
  | join r =>
    have created := h.created
    have waited := h.waited
    rw [at'] at next created waited
    dsimp only at next
    rw [h.C.rows] at next
    split at next
    · rename_i more
      split at next
      · rename_i exited
        cases next
        refine ⟨h.A, h.B, h.C, h.row, ⟨le_rfl, more⟩, created, fun i before => ?_, h.ok, h.log⟩
        rcases Nat.lt_succ_iff_lt_or_eq.1 before with earlier | rfl
        · exact waited i earlier
        · exact exited
      · cases next
    · rename_i last
      cases next
      have most := h.most.2
      rw [at', Main.waited] at most
      obtain rfl : r = m := by omega
      exact ⟨h.A, h.B, h.C, h.row, ⟨le_rfl, le_rfl⟩, created, waited, h.ok, h.log⟩
  | joined =>
    rw [at'] at next
    cases next

theorem step_keeps {who : Who} (h : Inv m n p a b w) (next : step w who = some w') :
    Inv m n p a b w' := by
  cases who with
  | main => exact stepMain_keeps h next
  | thread i =>
    obtain ⟨pc, there, next⟩ := Option.bind_eq_some_iff.1 next
    obtain ⟨t, turn, next⟩ := Option.bind_eq_some_iff.1 next
    cases next
    obtain ⟨shape, ok, others, own⟩ :=
      RowMult_keeps h.A h.B h.C h.row (h.thread_lt there) (h.ok i pc there) turn
    refine ⟨h.A, h.B, shape, h.row, h.most, fun i' => ?_, fun i' before => ?_,
      fun i' pc' there' => ?_, fun x mem => ?_⟩
    · dsimp only
      by_cases same : i' = i
      · subst same
        rw [Function.update_self, ← h.created i', there]
        rfl
      · rw [Function.update_of_ne same, h.created i']
    · have exited := h.waited i' before
      have other : i' ≠ i := by
        rintro rfl
        rw [there] at exited
        cases exited
        cases turn
      dsimp only
      rw [Function.update_of_ne other, exited]
    · dsimp only at there'
      by_cases same : i' = i
      · subst same
        rw [Function.update_self] at there'
        cases there'
        exact ok
      · rw [Function.update_of_ne same] at there'
        exact (h.ok i' pc' there').other (others i' same)
    · rcases List.mem_append.1 mem with earlier | new
      · exact h.log x earlier
      · exact own x new

theorem load_inv (m n p : Nat) (a b : Nat → Nat → R) :
    ∃ w, load m n n p a b = some w ∧ Inv m n p a b w := by
  obtain ⟨A, loadA, hA⟩ := Dmatget_holds m n a
  obtain ⟨B, loadB, hB⟩ := Dmatget_holds n p b
  have fits : ¬ A.cols ≠ B.rows := by
    rw [hA.cols, hB.rows]
    exact not_not_intro rfl
  rw [load, loadA, Option.bind_eq_bind, Option.bind_some, loadB, Option.bind_some, if_neg fits,
    hA.rows, hB.cols]
  refine ⟨_, rfl, hA, hB, Dmatmake_shape m p, rfl, ⟨Nat.zero_le _, Nat.zero_le _⟩, fun i => ?_,
    fun i before => absurd before (Nat.not_lt_zero i), fun i pc there => ?_, List.forall_mem_nil _⟩
  · exact iff_of_false Bool.false_ne_true (Nat.not_lt_zero i)
  · cases there

theorem run_inv {whos : List Who} (h : Inv m n p a b w) (ran : run step w whos = some w') :
    Inv m n p a b w' :=
  run_induction (A := fun _ => True) (I := Inv m n p a b)
    (fun _ _ _ _ hw next => step_keeps hw next) (fun _ _ => trivial) ran h

/-- The numbers in the file for a matrix. -/
def entry (A : Matrix (Fin m) (Fin n) R) (r c : Nat) : R :=
  if h : r < m ∧ c < n then A ⟨r, h.1⟩ ⟨c, h.2⟩ else 0

theorem dot_entry (A : Matrix (Fin m) (Fin n) R) (B : Matrix (Fin n) (Fin p) R) (i : Fin m)
    (j : Fin p) : dot (entry A) (entry B) i j n = (A * B) i j := by
  rw [dot, Matrix.mul_apply, Finset.sum_range]
  refine Finset.sum_congr rfl fun x _ => ?_
  rw [entry, entry, dif_pos ⟨i.2, x.2⟩, dif_pos ⟨x.2, j.2⟩]

/-- **The product is right in every order of the steps.** Until then each thread
has only read `A` and `B` and written its own row, all of it inside the blocks. -/
theorem product (A : Matrix (Fin m) (Fin n) R) (B : Matrix (Fin n) (Fin p) R) :
    ∃ w, load m n n p (entry A) (entry B) = some w ∧
      ∀ whos w', run step w whos = some w' →
        (∀ x ∈ w'.log, x.index < (w'.matrix x.matrix).block.length ∧
          if x.write then x.matrix = .C ∧ x.pr * p ≤ x.index ∧ x.index < (x.pr + 1) * p
          else x.matrix ≠ .C) ∧
        (∀ i, w'.thrds i ≠ some .outside) ∧
        (w'.main = .joined → ∀ i j, w'.C.elem i.1 j.1 = some ((A * B) i j)) := by
  obtain ⟨w, loaded, start⟩ := load_inv m n p (entry A) (entry B)
  refine ⟨w, loaded, fun whos w' ran => ?_⟩
  have h := run_inv start ran
  refine ⟨fun x mem => ?_, fun i outside => h.ok i _ outside, fun joined i j => ?_⟩
  · have own := h.log x mem
    obtain ⟨pr, matrix, index, write⟩ := x
    cases matrix with
    | A =>
      obtain ⟨rfl, inside⟩ := own
      exact ⟨inside.trans_eq h.A.length.symm, by simp⟩
    | B =>
      obtain ⟨rfl, inside⟩ := own
      exact ⟨inside.trans_eq h.B.length.symm, by simp⟩
    | C =>
      obtain ⟨rfl, thread, first, last⟩ := own
      refine ⟨?_, rfl, first, last⟩
      exact (last.trans_le (Nat.mul_le_mul_right p thread)).trans_eq h.C.length.symm
  · have exited := h.waited i (by rw [joined]; exact i.2)
    have done := h.ok i _ exited
    rw [DMatrix.elem, h.C.addr i.2 j.2, Option.bind_some, done j j.2, dot_entry]

/-- A column of two, a single element, and an order in which the second thread is
ahead of the first. -/
def column : Matrix (Fin 2) (Fin 1) Int := fun i _ => i.1 + 2
def single : Matrix (Fin 1) (Fin 1) Int := fun _ _ => 5
def order : List Who :=
  [.main, .main] ++ List.replicate 3 (.thread 1) ++ List.replicate 6 (.thread 0) ++
    List.replicate 3 (.thread 1) ++ List.replicate 4 .main

theorem product_column : ∃ w w', load 2 1 1 1 (entry column) (entry single) = some w ∧
    run step w order = some w' ∧
    ∀ i j, w'.C.elem i.1 j.1 = some ((column * single) i j) := by
  obtain ⟨w, loaded, all⟩ := product column single
  obtain ⟨w', ran, joined⟩ : ∃ w', run step w order = some w' ∧ w'.main = .joined := by
    cases loaded
    exact ⟨_, rfl, rfl⟩
  exact ⟨w, w', loaded, ran, (all order w' ran).2.2 joined⟩

/-! ## Every order of steps comes to an end -/

/-- How many steps a thread has left at most. -/
def Pc.work (n p : Nat) : Pc R → Nat
  | .entry => p * (2 * n + 2) + 2
  | .outer _ j => (p - j) * (2 * n + 2) + 1
  | .inner _ j k _ => (p - j - 1) * (2 * n + 2) + 2 * (n - k) + 2
  | .times _ j k _ _ => (p - j - 1) * (2 * n + 2) + 2 * (n - k) + 1
  | .exited => 0
  | .outside => 0

/-- A thread that is not created yet has one step more. -/
def threadWork (n p : Nat) : Option (Pc R) → Nat
  | none => (Pc.entry : Pc R).work n p + 1
  | some pc => pc.work n p

def Main.work (m : Nat) : Main → Nat
  | .create _ => m + 2
  | .join r => m - r + 1
  | .joined => 0

def World.work (m n p : Nat) (w : World R) : Nat :=
  w.main.work m + ∑ i ∈ Finset.range m, threadWork n p (w.thrds i)

theorem RowMult_work {i : Nat} {pc : Pc R} {t : Turn R} (hB : Shape w.B n p)
    (ok : Ok a b n p w.C i pc) (h : RowMult w i pc = some t) : t.pc.work n p < pc.work n p := by
  cases pc with
  | entry =>
    rw [RowMult] at h
    split at h
    · cases h
      exact Nat.succ_pos _
    · cases h
      exact Nat.lt_succ_self _
  | outer r j =>
    rw [RowMult, hB.cols] at h
    cases h
    dsimp only
    split
    · rename_i more
      obtain ⟨d, hd⟩ := Nat.exists_eq_add_of_lt more
      have left : p - j = d + 1 := by omega
      simp only [Pc.work, left, Nat.add_sub_cancel, Nat.sub_zero, Nat.succ_mul]
      omega
    · exact Nat.succ_pos _
  | inner r j k sum =>
    obtain ⟨rfl, hj, hk, -, -⟩ := ok
    rw [RowMult, hB.rows] at h
    split at h
    · split at h <;> cases h
      · exact Nat.succ_pos _
      · exact Nat.lt_succ_self _
    · split at h <;> cases h
      · exact Nat.succ_pos _
      · simp only [Pc.work, ← Nat.sub_sub]
        omega
  | times r j k sum x =>
    obtain ⟨rfl, hj, hk, -, -, -⟩ := ok
    rw [RowMult] at h
    split at h <;> cases h
    · exact Nat.succ_pos _
    · simp only [Pc.work]
      omega
  | exited => cases h
  | outside => cases h

omit [NonUnitalNonAssocSemiring R] in
theorem sum_update_lt {m n p i : Nat} {thrds : Nat → Option (Pc R)} (pc : Option (Pc R))
    (hi : i < m) (less : threadWork n p pc < threadWork n p (thrds i)) :
    ∑ x ∈ Finset.range m, threadWork n p (Function.update thrds i pc x) <
      ∑ x ∈ Finset.range m, threadWork n p (thrds x) := by
  refine Finset.sum_lt_sum (fun x _ => ?_) ⟨i, Finset.mem_range.2 hi, ?_⟩
  · by_cases same : x = i
    · subst same
      rw [Function.update_self]
      exact less.le
    · rw [Function.update_of_ne same]
  · rwa [Function.update_self]

theorem stepMain_work (h : Inv m n p a b w) (next : stepMain w = some w') :
    w'.work m n p < w.work m n p := by
  unfold stepMain at next
  cases at' : w.main with
  | create r =>
    have created := h.created r
    rw [at'] at next created
    dsimp only at next
    rw [h.C.rows] at next
    split at next
    · rename_i more
      cases next
      have new : w.thrds r = none := by
        rw [Main.created] at created
        cases there : w.thrds r with
        | none => rfl
        | some pc =>
          rw [there] at created
          exact absurd (created.1 rfl) (Nat.lt_irrefl r)
      have fewer : threadWork n p (some (.entry : Pc R)) < threadWork n p (w.thrds r) := by
        rw [new]
        exact Nat.lt_succ_self _
      have less := sum_update_lt _ more fewer
      simp only [World.work, at', Main.work]
      omega
    · cases next
      simp only [World.work, at', Main.work]
      omega
  | join r =>
    rw [at'] at next
    dsimp only at next
    rw [h.C.rows] at next
    split at next
    · split at next
      · cases next
        simp only [World.work, at', Main.work]
        omega
      · cases next
    · cases next
      simp only [World.work, at', Main.work]
      omega
  | joined =>
    rw [at'] at next
    cases next

/-- **Each step leaves less to do.** -/
theorem step_work {who : Who} (h : Inv m n p a b w) (next : step w who = some w') :
    w'.work m n p < w.work m n p := by
  cases who with
  | main => exact stepMain_work h next
  | thread i =>
    obtain ⟨pc, there, next⟩ := Option.bind_eq_some_iff.1 next
    obtain ⟨t, turn, next⟩ := Option.bind_eq_some_iff.1 next
    cases next
    have less := RowMult_work h.B.toShape (h.ok i pc there) turn
    refine Nat.add_lt_add_left (sum_update_lt _ (h.thread_lt there) ?_) _
    rwa [there]

theorem run_work {whos : List Who} (h : Inv m n p a b w) (ran : run step w whos = some w') :
    whos.length + w'.work m n p ≤ w.work m n p := by
  induction whos generalizing w with
  | nil =>
    cases ran
    exact (Nat.zero_add _).le
  | cons who whos ih =>
    obtain ⟨t, next, ran⟩ := run_cons_some ran
    have later := ih (step_keeps h next) ran
    have less := step_work h next
    rw [List.length_cons]
    omega

/-- A thread that has not ended can go on. -/
theorem RowMult_ready {i : Nat} {pc : Pc R} (ok : Ok a b n p w.C i pc) (more : pc ≠ .exited) :
    (RowMult w i pc).isSome := by
  cases pc with
  | entry => rw [RowMult]; split <;> rfl
  | outer r j => rfl
  | inner r j k sum =>
    rw [RowMult]
    split
    · split <;> rfl
    · split <;> rfl
  | times r j k sum x => rw [RowMult]; split <;> rfl
  | exited => exact absurd rfl more
  | outside => exact ok.elim

/-- **Nobody waits for ever**: until `main` has waited for all threads, there is
a step. -/
theorem step_ready (h : Inv m n p a b w) (more : w.main ≠ .joined) :
    ∃ who, (step w who).isSome := by
  cases at' : w.main with
  | create r =>
    refine ⟨.main, ?_⟩
    rw [step, stepMain, at']
    dsimp only
    split <;> rfl
  | join r =>
    by_cases waits : r < m
    · obtain ⟨pc, there⟩ := Option.isSome_iff_exists.1 ((h.created r).2 (by rwa [at']))
      by_cases exited : pc = .exited
      · refine ⟨.main, ?_⟩
        rw [step, stepMain, at']
        dsimp only
        rw [h.C.rows, if_pos waits, there, exited]
        rfl
      · obtain ⟨t, turn⟩ := Option.isSome_iff_exists.1 (RowMult_ready (h.ok r pc there) exited)
        refine ⟨.thread r, ?_⟩
        rw [step, there, Option.bind_eq_bind, Option.bind_some, turn]
        rfl
    · refine ⟨.main, ?_⟩
      rw [step, stepMain, at']
      dsimp only
      rw [h.C.rows, if_neg waits]
      rfl
  | joined => exact absurd at' more

/-- **Every order of steps ends with all threads joined**: a run is never longer
than this, and one that cannot go on has waited for all. -/
theorem product_ends (m n p : Nat) (a b : Nat → Nat → R) :
    ∃ w, load m n n p a b = some w ∧
      ∀ whos w', run step w whos = some w' →
        whos.length ≤ w.work m n p ∧ (w'.main ≠ .joined → ∃ who, (step w' who).isSome) := by
  obtain ⟨w, loaded, start⟩ := load_inv m n p a b
  refine ⟨w, loaded, fun whos w' ran => ⟨?_, step_ready (run_inv start ran)⟩⟩
  exact Nat.le_of_add_right_le (run_work start ran)

end

end UnixProgramming.Matmult
