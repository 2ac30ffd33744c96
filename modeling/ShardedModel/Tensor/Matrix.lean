import ShardedModel.Tensor.Flat

/-!
# Two-dimensional tensors

Rows stand one after the other in flat storage, so the entry at row `i` and
column `j` of a tensor with `c` columns is number `i * c + j`. A tensor whose
storage has the wrong length is an ordinary value: an operation that does not
reach the missing entries answers as if they were there, and one that does is a
fault. `WellFormed` says that storage and dimensions agree, and `Filled` that nothing
is missing.

The kernels are written for any type of numbers with a zero, a sum and a product.
They use no law of these, and the order of the sums is part of what they say:
every entry of a product is accumulated from zero, from left to right.
-/

namespace ShardedModel

structure Tensor2 (α : Type) where
  data : Array α
  rows : Nat
  cols : Nat
deriving DecidableEq, Repr

namespace Tensor2

variable {α : Type}

def WellFormed (t : Tensor2 α) : Prop := t.data.size = t.rows * t.cols

instance (t : Tensor2 α) : Decidable t.WellFormed :=
  inferInstanceAs (Decidable (t.data.size = t.rows * t.cols))

/-- There is an entry for each row and column. -/
def Filled (t : Tensor2 α) : Prop := t.rows * t.cols ≤ t.data.size

instance (t : Tensor2 α) : Decidable t.Filled :=
  inferInstanceAs (Decidable (t.rows * t.cols ≤ t.data.size))

def size (t : Tensor2 α) : Nat := t.data.size

/-- A tensor of the given dimensions, if the data fill it exactly. -/
def ofData (data : Array α) (rows cols : Nat) : Outcome (Tensor2 α) := do
  let count ← Word.mul rows cols
  ensure (data.size = count) (.shape (.matrixData data.size rows cols))
  .ok ⟨data, rows, cols⟩

def zeros [Zero α] (rows cols : Nat) : Outcome (Tensor2 α) := do
  let count ← Flat.room rows cols
  .ok ⟨Array.replicate count 0, rows, cols⟩

/-! ## Reading and writing -/

/-- Where an entry is stored. A column past the last one reaches into the rows
below. -/
def offset (t : Tensor2 α) (row col : Nat) : Outcome Nat := do
  let start ← Word.mul row t.cols
  Word.add start col

def get (t : Tensor2 α) (row col : Nat) : Outcome α := do
  let index ← t.offset row col
  Flat.read t.data index

def set (t : Tensor2 α) (row col : Nat) (value : α) : Outcome (Tensor2 α) := do
  let index ← t.offset row col
  let data ← Flat.write t.data index value
  .ok { t with data }

def row (t : Tensor2 α) (row : Nat) : Outcome (Array α) := do
  let start ← Word.mul row t.cols
  let stop ← Word.add start t.cols
  Flat.slice t.data start stop

/-- The rows from `start` up to but not including `stop`. There must be at least
one. -/
def rowSlice (t : Tensor2 α) (start stop : Nat) : Outcome (Tensor2 α) := do
  ensure (stop ≤ t.rows ∧ start < stop) (.shape (.rowSlice start stop t.rows))
  let first ← Word.mul start t.cols
  let last ← Word.mul stop t.cols
  let data ← Flat.slice t.data first last
  .ok ⟨data, stop - start, t.cols⟩

/-- One row of a table, which must be among its rows. -/
def tableRow (t : Tensor2 α) (index : Nat) : Outcome (Array α) := do
  ensure (index < t.rows) (.shape (.rowIndex index t.rows))
  t.row index

/-- The rows of a table with the given indices, in that order. -/
def gatherRows (t : Tensor2 α) (indices : List Nat) : Outcome (Tensor2 α) := do
  let _ ← Flat.room indices.length t.cols
  let rows ← indices.mapM t.tableRow
  .ok ⟨Flat.concat rows, indices.length, t.cols⟩

/-! ## Kernels -/

/-- The sum entry by entry, as far as both data go. -/
def add [Add α] (a b : Tensor2 α) : Outcome (Tensor2 α) := do
  ensure (a.rows = b.rows ∧ a.cols = b.cols) (.shape (.matrixSum a.rows a.cols b.rows b.cols))
  .ok ⟨Array.zipWith (· + ·) a.data b.data, a.rows, a.cols⟩

/-- Rows become columns. The entry stored at `i` comes from row `i % rows` and
column `i / rows`; data that the dimensions do not reach become zeros. -/
def transpose [Zero α] (t : Tensor2 α) : Outcome (Tensor2 α) := do
  ensure t.Filled .fault
  let entry (i : Fin t.data.size) : α :=
    if i.val < t.rows * t.cols then
      t.data.getD (i.val % t.rows * t.cols + i.val / t.rows) 0
    else
      0
  .ok ⟨Array.ofFn entry, t.cols, t.rows⟩

/-- Adds `factor` times each of `xs` to the entry of `sums` at its place. -/
def addScaled [Add α] [Mul α] (sums : Array α) (factor : α) (xs : Array α) : Array α :=
  Array.zipWith (fun sum x => sum + factor * x) sums xs

/-- The entry at a row and a column of a tensor that has it. -/
def entry [Zero α] (t : Tensor2 α) (row col : Nat) : α := t.data.getD (row * t.cols + col) 0

/-- The entries of a row of a tensor that has them. -/
def line (t : Tensor2 α) (row : Nat) : Array α :=
  t.data.extract (row * t.cols) (row * t.cols + t.cols)

/-- Row `i` of a product: the rows of `b`, each scaled by the entry of row `i` of
`a` that faces it, summed from the top. -/
def productRow [Zero α] [Add α] [Mul α] (a b : Tensor2 α) (i : Nat) : Array α :=
  (List.range a.cols).foldl (fun sums p => addScaled sums (a.entry i p) (b.line p))
    (Array.replicate b.cols 0)

/-- The product of two matrices. If it has no rows, the entries of neither are
looked at. -/
def matmul [Zero α] [Add α] [Mul α] (a b : Tensor2 α) : Outcome (Tensor2 α) := do
  ensure (a.cols = b.rows) (.shape (.product a.rows a.cols b.rows b.cols))
  let _ ← Flat.room a.rows b.cols
  ensure (a.rows = 0 ∨ a.Filled ∧ b.Filled) .fault
  .ok ⟨Flat.concat ((List.range a.rows).map (productRow a b)), a.rows, b.cols⟩

end Tensor2

end ShardedModel
