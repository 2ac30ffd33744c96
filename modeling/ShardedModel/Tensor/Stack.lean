import ShardedModel.Tensor.Matrix

/-!
# Three-dimensional tensors

A stack holds one matrix for each element of a batch, all of the same dimensions,
one after the other in flat storage. Its kernels are those of the matrices, done
for each element on its own.
-/

namespace ShardedModel

structure Tensor3 (α : Type) where
  data : Array α
  batch : Nat
  rows : Nat
  cols : Nat
deriving DecidableEq, Repr

namespace Tensor3

variable {α : Type}

def WellFormed (t : Tensor3 α) : Prop := t.data.size = t.batch * t.rows * t.cols

instance (t : Tensor3 α) : Decidable t.WellFormed :=
  inferInstanceAs (Decidable (t.data.size = t.batch * t.rows * t.cols))

def shape (t : Tensor3 α) : Nat × Nat × Nat := (t.batch, t.rows, t.cols)

/-- The number of entries, formed from the left: a zero at the end does not save a
product that is already too large. -/
def volume (batch rows cols : Nat) : Outcome Nat := do
  let lines ← Word.mul batch rows
  Word.mul lines cols

/-- A stack of the given dimensions, if the data fill it exactly. -/
def ofData (data : Array α) (batch rows cols : Nat) : Outcome (Tensor3 α) := do
  let count ← volume batch rows cols
  ensure (data.size = count) (.shape (.stackData data.size batch rows cols))
  .ok ⟨data, batch, rows, cols⟩

def zeros [Zero α] (batch rows cols : Nat) : Outcome (Tensor3 α) := do
  let count ← volume batch rows cols
  Flat.reserve count
  .ok ⟨Array.replicate count 0, batch, rows, cols⟩

/-! ## Reading -/

def get (t : Tensor3 α) (b row col : Nat) : Outcome α := do
  let matrixStart ← Word.mul b t.rows
  let line ← Word.add matrixStart row
  let lineStart ← Word.mul line t.cols
  let index ← Word.add lineStart col
  Flat.read t.data index

/-- The matrix of one batch element. -/
def matrix (t : Tensor3 α) (b : Nat) : Outcome (Tensor2 α) := do
  let count ← Word.mul t.rows t.cols
  let start ← Word.mul b count
  let next ← Word.add b 1
  let stop ← Word.mul next count
  let data ← Flat.slice t.data start stop
  .ok ⟨data, t.rows, t.cols⟩

/-! ## Kernels -/

/-- The sum entry by entry, as far as both data go. -/
def add [Add α] (a b : Tensor3 α) : Outcome (Tensor3 α) := do
  ensure (a.shape = b.shape) (.shape (.stackSum a.shape b.shape))
  .ok ⟨Array.zipWith (· + ·) a.data b.data, a.batch, a.rows, a.cols⟩

/-- Each matrix of the stack after `f`, in the order of the batch. -/
def mapMatrices {β : Type} (t : Tensor3 α) (f : Tensor2 α → Outcome (Tensor2 β)) :
    Outcome (Array β) := do
  let parts ← Outcome.tabulate t.batch fun b => do
    let m ← t.matrix b
    f m
  .ok (Flat.concat (parts.map (·.data)))

/-- The bytes that a matrix takes beside its entries: its dimensions, and where and how
many the entries are. -/
def matrixBytes : Nat := 5 * Storage.wordBytes

/-- Rows become columns in each matrix. There has to be room for all of the matrices
before the first is made. -/
def transposeInner [Zero α] (t : Tensor3 α) : Outcome (Tensor3 α) := do
  Storage.reserve matrixBytes t.batch
  let data ← t.mapMatrices Tensor2.transpose
  .ok ⟨data, t.batch, t.cols, t.rows⟩

/-- Multiplies each matrix of the stack by the same matrix. -/
def batchedMatmul [Zero α] [Add α] [Mul α] (a : Tensor3 α) (b : Tensor2 α) :
    Outcome (Tensor3 α) := do
  let count ← volume a.batch a.rows b.cols
  Flat.reserve count
  let data ← a.mapMatrices (Tensor2.matmul · b)
  ofData data a.batch a.rows b.cols

/-- Drops the middle dimension, which must be one. -/
def squeezeMiddle (t : Tensor3 α) : Outcome (Tensor2 α) := do
  ensure (t.rows = 1) (.shape (.squeeze t.rows))
  Tensor2.ofData t.data t.batch t.cols

end Tensor3

end ShardedModel
