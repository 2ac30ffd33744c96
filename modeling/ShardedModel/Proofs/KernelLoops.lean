import ShardedModel.Proofs.Faults
import ShardedModel.Proofs.Kernels

/-!
# Kernels as loops over flat storage

A kernel has a meaning in rows and columns, and it is carried out on one flat array: two or
three loops read entries of one array and write entries of another, each at a place that is
computed from the counters. Here the loops are written out, with every read and every write
checked, and shown to go through and to end in the tensor that the kernel gives.

The argument is the same for all of them. `Holds` gives a buffer by a function from rows and
columns to values, writing one entry changes the function in one place, and the values that a
buffer has half way are those of the finished tensor as far as the counters have come. The product
goes through the rows of its right factor in its middle loop, so that a whole row of sums grows at
once; each of them still sees its products from left to right.

All of it holds for any sizes, also where there are no rows, no columns or no matrices. What can
go wrong with tensors that are whole is their size: a result, or the list of the matrices that are
transposed, may take more bytes than a block can have although its entries can be counted.
-/

namespace ShardedModel

open Outcome

variable {α : Type}

namespace Tensor2

/-! ## Buffers -/

/-- Entries at different rows or columns are stored at different places. -/
theorem place_eq_iff {cols i j r c : Nat} (hj : j < cols) (hc : c < cols) :
    r * cols + c = i * cols + j ↔ r = i ∧ c = j := by
  constructor
  · intro h
    have hapart : ∀ {a b x y : Nat}, a < b → x < cols → a * cols + x < b * cols + y := by
      intro a b x y hab hx
      calc a * cols + x
        _ < b * cols := index_lt hab hx
        _ ≤ b * cols + y := Nat.le_add_right _ _
    rcases Nat.lt_trichotomy r i with hlt | rfl | hgt
    · exact absurd h (Nat.ne_of_lt (hapart hlt hc))
    · exact ⟨rfl, by omega⟩
    · exact absurd h (Nat.ne_of_gt (hapart hgt hj))
  · rintro ⟨rfl, rfl⟩
    rfl

/-- The tensor has an entry for each row and column and no more, and a word counts them. -/
structure Whole (t : Tensor2 α) : Prop where
  wellFormed : t.WellFormed
  size_lt : t.data.size < Word.limit

section Buffers

variable [Zero α]

theorem Whole.get_eq {t : Tensor2 α} (h : t.Whole) {i j : Nat} (hi : i < t.rows)
    (hj : j < t.cols) : t.get i j = .ok (t.entry i j) :=
  get_eq_entry h.wellFormed.filled h.size_lt hi hj

/-- The tensor has the given dimensions and entries. -/
structure Holds (t : Tensor2 α) (rows cols : Nat) (value : Nat → Nat → α) : Prop where
  wellFormed : t.WellFormed
  rows_eq : t.rows = rows
  cols_eq : t.cols = cols
  entry_eq : ∀ i < rows, ∀ j < cols, t.entry i j = value i j

namespace Holds

variable {t u : Tensor2 α} {rows cols : Nat} {value value' : Nat → Nat → α}

theorem congr (h : t.Holds rows cols value)
    (hvalue : ∀ i < rows, ∀ j < cols, value i j = value' i j) : t.Holds rows cols value' :=
  ⟨h.wellFormed, h.rows_eq, h.cols_eq,
    fun i hi j hj => (h.entry_eq i hi j hj).trans (hvalue i hi j hj)⟩

theorem unique (ht : t.Holds rows cols value) (hu : u.Holds rows cols value) : t = u := by
  refine eq_of_entries ht.wellFormed hu.wellFormed (ht.rows_eq.trans hu.rows_eq.symm)
    (ht.cols_eq.trans hu.cols_eq.symm) fun i hi j hj => ?_
  rw [ht.rows_eq] at hi
  rw [ht.cols_eq] at hj
  rw [ht.entry_eq i hi j hj, hu.entry_eq i hi j hj]

theorem zeros (rows cols : Nat) :
    (⟨Array.replicate (rows * cols) 0, rows, cols⟩ : Tensor2 α).Holds rows cols fun _ _ => 0 := by
  refine ⟨Array.size_replicate, rfl, rfl, fun i hi j hj => ?_⟩
  simp [entry, Array.getD, index_lt hi hj]

section Access

variable (h : t.Holds rows cols value) (hcount : rows * cols < Word.limit) {i j : Nat}
  (hi : i < rows) (hj : j < cols)

include h hcount hi hj

theorem get_eq : t.get i j = .ok (value i j) := by
  obtain ⟨hwell, rfl, rfl, hentry⟩ := h
  have hwhole : t.Whole := ⟨hwell, by rw [hwell]; exact hcount⟩
  rw [hwhole.get_eq hi hj, hentry i hi j hj]

/-- Writing an entry changes the value at its row and column and no other. -/
theorem exists_set (x : α) : ∃ u, t.set i j x = .ok u ∧
    u.Holds rows cols fun r c => if r = i ∧ c = j then x else value r c := by
  obtain ⟨hwell, rfl, rfl, hentry⟩ := h
  have hplace := index_lt hi hj
  have hin : i * t.cols + j < t.data.size := by
    rw [hwell]
    exact hplace
  refine ⟨{ t with data := t.data.setIfInBounds (i * t.cols + j) x }, ?_, ?_, rfl, rfl, ?_⟩
  · rw [set, offset, Word.mul_of_lt (by omega), ok_bind, Word.add_of_lt (by omega), ok_bind,
      Flat.write, if_pos hin]
    rfl
  · rw [WellFormed, Array.size_setIfInBounds]
    exact hwell
  · intro r hr c hc
    -- The column is below the width, so no entry of another row is stored at the same place.
    have hwritten : i * t.cols + j = r * t.cols + c ↔ r = i ∧ c = j := by
      rw [← place_eq_iff hj hc]
      exact eq_comm
    rw [entry, Array.getD_eq_getD_getElem?, Array.getElem?_setIfInBounds]
    by_cases hhere : r = i ∧ c = j
    · rw [if_pos hhere, if_pos (hwritten.mpr hhere), if_pos hin, Option.getD_some]
    · rw [if_neg hhere, if_neg (mt hwritten.mp hhere), ← Array.getD_eq_getD_getElem?]
      exact hentry r hr c hc

end Access

end Holds

end Buffers

/-! ## Transposing -/

section Transposing

variable [Zero α]

/-- Writes the entry at row `i` and column `j` of `t` to row `j` and column `i` of `u`. -/
def writeEntry (t : Tensor2 α) (i : Nat) (u : Tensor2 α) (j : Nat) : Outcome (Tensor2 α) := do
  let x ← t.get i j
  u.set j i x

/-- Writes the entries of row `i` down column `i` of `u`. -/
def writeColumn (t u : Tensor2 α) (i : Nat) : Outcome (Tensor2 α) :=
  (List.range t.cols).foldlM (t.writeEntry i) u

/-- Transposes row by row, into a buffer of zeros. -/
def transposeLoop (t : Tensor2 α) : Outcome (Tensor2 α) :=
  (List.range t.rows).foldlM t.writeColumn ⟨Array.replicate t.data.size 0, t.cols, t.rows⟩

/-- The values of the buffer when the rows before `i` and `j` entries of row `i` are written. -/
def flippedUpTo (t : Tensor2 α) (i j c r : Nat) : α :=
  if r < i ∨ r = i ∧ c < j then t.entry r c else 0

variable {t : Tensor2 α}

/-- Where a row ends, the next one begins. -/
theorem flippedUpTo_cols {i c r : Nat} (hc : c < t.cols) :
    t.flippedUpTo i t.cols c r = t.flippedUpTo (i + 1) 0 c r := by
  unfold flippedUpTo
  grind

section Rounds

variable (h : t.Whole) {i : Nat} (hi : i < t.rows) {u : Tensor2 α}

include h hi

theorem exists_writeEntry {j : Nat} (hj : j < t.cols)
    (hu : u.Holds t.cols t.rows (t.flippedUpTo i j)) :
    ∃ u', t.writeEntry i u j = .ok u' ∧ u'.Holds t.cols t.rows (t.flippedUpTo i (j + 1)) := by
  have hcount : t.cols * t.rows < Word.limit := by
    rw [Nat.mul_comm, ← h.wellFormed]
    exact h.size_lt
  obtain ⟨u', hset, hu'⟩ := hu.exists_set hcount hj hi (t.entry i j)
  refine ⟨u', ?_, hu'.congr fun c _ r _ => ?_⟩
  · rw [writeEntry, h.get_eq hi hj, ok_bind, hset]
  · unfold flippedUpTo
    grind

theorem exists_writeColumn (hu : u.Holds t.cols t.rows (t.flippedUpTo i 0)) :
    ∃ u', t.writeColumn u i = .ok u' ∧ u'.Holds t.cols t.rows (t.flippedUpTo (i + 1) 0) := by
  obtain ⟨u', hu', hdone⟩ := foldlM_range (fun j hj u => exists_writeEntry h hi (u := u) hj) hu
  exact ⟨u', hu', hdone.congr fun c hc r _ => flippedUpTo_cols hc⟩

end Rounds

/-- Every read and every write of the loop is inside its array, and what it leaves is the
transposed tensor. -/
theorem transposeLoop_eq (h : t.Whole) : t.transposeLoop = .ok t.flipped := by
  have hstart : (⟨Array.replicate t.data.size 0, t.cols, t.rows⟩ : Tensor2 α).Holds t.cols t.rows
      (t.flippedUpTo 0 0) := by
    rw [h.wellFormed, Nat.mul_comm]
    refine (Holds.zeros t.cols t.rows).congr fun c _ r _ => ?_
    simp [flippedUpTo]
  obtain ⟨u, hu, hdone⟩ := foldlM_range (fun i hi u => exists_writeColumn h hi (u := u)) hstart
  have hflipped : t.flipped.Holds t.cols t.rows (t.flippedUpTo t.rows 0) := by
    refine ⟨wellFormed_flipped h.wellFormed, rfl, rfl, fun c hc r hr => ?_⟩
    rw [entry_flipped h.wellFormed hr hc, flippedUpTo, if_pos (.inl hr)]
  rw [transposeLoop, hu, hdone.unique hflipped]

end Transposing

/-! ## Products -/

section Products

variable [Zero α] [Add α] [Mul α]

/-- Adds `factor` times entry `j` of row `p` of `b` to entry `j` of row `i` of `c`. -/
def addEntry (b : Tensor2 α) (factor : α) (p i : Nat) (c : Tensor2 α) (j : Nat) :
    Outcome (Tensor2 α) := do
  let y ← b.get p j
  let sum ← c.get i j
  c.set i j (sum + factor * y)

/-- Adds row `p` of `b` to row `i` of `c`, with its factor from row `i` of `a`. -/
def addRow (a b : Tensor2 α) (i : Nat) (c : Tensor2 α) (p : Nat) : Outcome (Tensor2 α) := do
  let factor ← a.get i p
  (List.range b.cols).foldlM (b.addEntry factor p i) c

/-- Adds all rows of `b` to row `i` of `c`, each with its factor. -/
def addRows (a b c : Tensor2 α) (i : Nat) : Outcome (Tensor2 α) :=
  (List.range a.cols).foldlM (a.addRow b i) c

/-- Multiplies row by row, into a buffer of zeros. -/
def matmulLoop (a b : Tensor2 α) : Outcome (Tensor2 α) := do
  ensure (a.cols = b.rows) (.shape (.product a.rows a.cols b.rows b.cols))
  let c ← zeros a.rows b.cols
  (List.range a.rows).foldlM (a.addRows b) c

/-- The first `steps` products of row `i` and column `j`, summed. -/
def partialDot (a b : Tensor2 α) (i j steps : Nat) : α :=
  (List.range steps).foldl (fun sum p => sum + a.entry i p * b.entry p j) 0

/-- How many products the sum at row `r` and column `c` has seen, of `all` that it will see, when
the rows before `i` are finished and row `i` has seen `p` rows of the right factor and `j` entries
of the next one. -/
def productsSeen (all i p j r c : Nat) : Nat :=
  if r < i then all else if r = i then if c < j then p + 1 else p else 0

/-- The values of the buffer at that point. -/
def productUpTo (a b : Tensor2 α) (i p j r c : Nat) : α :=
  a.partialDot b r c (productsSeen a.cols i p j r c)

variable {a b : Tensor2 α}

theorem partialDot_succ (i j steps : Nat) :
    a.partialDot b i j (steps + 1) =
      a.partialDot b i j steps + a.entry i steps * b.entry steps j := by
  rw [partialDot, List.range_succ, List.foldl_append]
  rfl

/-- A round changes the sum at its own row and column. -/
theorem productUpTo_succ (i p j r c : Nat) :
    a.productUpTo b i p (j + 1) r c =
      if r = i ∧ c = j then a.productUpTo b i p j i j + a.entry i p * b.entry p j
      else a.productUpTo b i p j r c := by
  by_cases hhere : r = i ∧ c = j
  · obtain ⟨rfl, rfl⟩ := hhere
    simp [productUpTo, productsSeen, partialDot_succ]
  · have hseen : productsSeen a.cols i p (j + 1) r c = productsSeen a.cols i p j r c := by
      unfold productsSeen
      grind
    rw [if_neg hhere, productUpTo, hseen, productUpTo]

theorem productUpTo_cols {i p r c : Nat} (hc : c < b.cols) :
    a.productUpTo b i p b.cols r c = a.productUpTo b i (p + 1) 0 r c := by
  simp [productUpTo, productsSeen, hc]

theorem productUpTo_rows {i r c : Nat} :
    a.productUpTo b i a.cols 0 r c = a.productUpTo b (i + 1) 0 0 r c := by
  have hseen : productsSeen a.cols i a.cols 0 r c = productsSeen a.cols (i + 1) 0 0 r c := by
    unfold productsSeen
    grind
  rw [productUpTo, hseen, productUpTo]

section Rounds

variable (ha : a.Whole) (hb : b.Whole) (hcount : a.rows * b.cols < Word.limit) {i : Nat}
  (hi : i < a.rows) {c : Tensor2 α}

include hb hcount hi

theorem exists_addEntry {p j : Nat} (hp : p < b.rows) (hj : j < b.cols)
    (hc : c.Holds a.rows b.cols (a.productUpTo b i p j)) :
    ∃ c', b.addEntry (a.entry i p) p i c j = .ok c' ∧
      c'.Holds a.rows b.cols (a.productUpTo b i p (j + 1)) := by
  obtain ⟨c', hset, hc'⟩ := hc.exists_set hcount hi hj
    (a.productUpTo b i p j i j + a.entry i p * b.entry p j)
  refine ⟨c', ?_, hc'.congr fun r _ col _ => (productUpTo_succ i p j r col).symm⟩
  rw [addEntry, hb.get_eq hp hj, ok_bind, hc.get_eq hcount hi hj, ok_bind, hset]

include ha

theorem exists_addRow (hdims : a.cols = b.rows) {p : Nat} (hp : p < a.cols)
    (hc : c.Holds a.rows b.cols (a.productUpTo b i p 0)) :
    ∃ c', a.addRow b i c p = .ok c' ∧
      c'.Holds a.rows b.cols (a.productUpTo b i (p + 1) 0) := by
  obtain ⟨c', hc', hdone⟩ := foldlM_range
    (fun j hj c => exists_addEntry hb hcount hi (c := c) (hdims ▸ hp) hj) hc
  refine ⟨c', ?_, hdone.congr fun r _ col hcol => productUpTo_cols hcol⟩
  rw [addRow, ha.get_eq hi hp, ok_bind, hc']

theorem exists_addRows (hdims : a.cols = b.rows)
    (hc : c.Holds a.rows b.cols (a.productUpTo b i 0 0)) :
    ∃ c', a.addRows b c i = .ok c' ∧ c'.Holds a.rows b.cols (a.productUpTo b (i + 1) 0 0) := by
  obtain ⟨c', hc', hdone⟩ := foldlM_range
    (fun p hp c => exists_addRow ha hb hcount hi (c := c) hdims hp) hc
  exact ⟨c', hc', hdone.congr fun r _ col _ => productUpTo_rows⟩

end Rounds

theorem matmulLoop_eq (ha : a.Whole) (hb : b.Whole) (hdims : a.cols = b.rows)
    (hroom : Storage.entryBytes * (a.rows * b.cols) < Word.signedLimit) :
    a.matmulLoop b = .ok (a.product b) := by
  have hcount : a.rows * b.cols < Word.limit := Flat.count_lt (by decide) hroom
  have hfilled := hb.wellFormed.filled
  have hstart : (⟨Array.replicate (a.rows * b.cols) 0, a.rows, b.cols⟩ : Tensor2 α).Holds
      a.rows b.cols (a.productUpTo b 0 0 0) := by
    refine (Holds.zeros a.rows b.cols).congr fun r _ col _ => ?_
    simp [productUpTo, productsSeen, partialDot]
  obtain ⟨c, hc, hdone⟩ := foldlM_range
    (fun i hi c => exists_addRows ha hb hcount hi (c := c) hdims) hstart
  have hproduct : (a.product b).Holds a.rows b.cols (a.productUpTo b a.rows 0 0) := by
    refine ⟨wellFormed_product hfilled hdims, rfl, rfl, fun r hr col hcol => ?_⟩
    rw [entry_product hfilled hdims hr hcol, productUpTo, productsSeen, if_pos hr]
    rfl
  rw [matmulLoop, ensure_of hdims, ok_bind, zeros, Flat.room_eq_ok.mpr ⟨hcount, hroom, rfl⟩,
    ok_bind, ok_bind, hc, hdone.unique hproduct]

end Products

/-! ## What the kernels mean -/

/-- The tensor `u` is `t` with rows and columns exchanged. -/
structure IsTranspose (t u : Tensor2 α) : Prop where
  wellFormed : u.WellFormed
  rows_eq : u.rows = t.cols
  cols_eq : u.cols = t.rows
  entries : ∀ i < t.rows, ∀ j < t.cols, ∃ x, t.get i j = .ok x ∧ u.get j i = .ok x

section Transposed

variable [Zero α] {t : Tensor2 α}

theorem flipped_flipped (h : t.WellFormed) : t.flipped.flipped = t := by
  have hflipped := wellFormed_flipped h
  refine eq_of_entries (wellFormed_flipped hflipped) h rfl rfl fun i hi j hj => ?_
  rw [entry_flipped hflipped hj hi, entry_flipped h hi hj]

theorem Whole.flipped (h : t.Whole) : t.flipped.Whole := by
  refine ⟨wellFormed_flipped h.wellFormed, ?_⟩
  rw [Tensor2.flipped, Array.size_ofFn]
  exact h.size_lt

theorem isTranspose_flipped (h : t.Whole) : t.IsTranspose t.flipped := by
  refine ⟨h.flipped.wellFormed, rfl, rfl, fun i hi j hj => ⟨_, h.get_eq hi hj, ?_⟩⟩
  rw [h.flipped.get_eq hj hi, entry_flipped h.wellFormed hi hj]

end Transposed

section Multiplied

variable [Zero α] [Add α] [Mul α] {a b : Tensor2 α}

/-- Row `i` of `a` times column `j` of `b`: the products of their entries, added to zero one after
the other from left to right. -/
def accumulate (a b : Tensor2 α) (i j : Nat) : Outcome α :=
  (List.range a.cols).foldlM (fun sum p => do
    let x ← a.get i p
    let y ← b.get p j
    .ok (sum + x * y)) 0

theorem accumulate_eq_dot (ha : a.Whole) (hb : b.Whole) (hdims : a.cols = b.rows) {i j : Nat}
    (hi : i < a.rows) (hj : j < b.cols) : a.accumulate b i j = .ok (a.dot b i j) := by
  have hround : ∀ p < a.cols, ∀ sum, sum = a.partialDot b i j p →
      ∃ sum', (do
        let x ← a.get i p
        let y ← b.get p j
        .ok (sum + x * y) : Outcome α) = .ok sum' ∧ sum' = a.partialDot b i j (p + 1) := by
    rintro p hp sum rfl
    refine ⟨_, ?_, (partialDot_succ i j p).symm⟩
    rw [ha.get_eq hi hp, ok_bind, hb.get_eq (hdims ▸ hp) hj, ok_bind]
  obtain ⟨sum, hsum, rfl⟩ := foldlM_range hround rfl
  exact hsum

/-- The tensor `c` has the products of the rows of `a` and the columns of `b`. -/
structure IsProduct (a b c : Tensor2 α) : Prop where
  wellFormed : c.WellFormed
  rows_eq : c.rows = a.rows
  cols_eq : c.cols = b.cols
  entries : ∀ i < a.rows, ∀ j < b.cols, ∃ x, a.accumulate b i j = .ok x ∧ c.get i j = .ok x

theorem isProduct_product (ha : a.Whole) (hb : b.Whole) (hdims : a.cols = b.rows)
    (hcount : a.rows * b.cols < Word.limit) : a.IsProduct b (a.product b) := by
  have hwell := wellFormed_product hb.wellFormed.filled hdims
  have hwhole : (a.product b).Whole := ⟨hwell, by rw [hwell]; exact hcount⟩
  refine ⟨hwell, rfl, rfl, fun i hi j hj => ⟨_, accumulate_eq_dot ha hb hdims hi hj, ?_⟩⟩
  rw [hwhole.get_eq hi hj, entry_product hb.wellFormed.filled hdims hi hj]

theorem matmul_of_ne (h : a.cols ≠ b.rows) :
    a.matmul b = .error (.shape (.product a.rows a.cols b.rows b.cols)) := by
  rw [matmul, ensure_of_not h]
  rfl

theorem matmul_of_no_room (hdims : a.cols = b.rows)
    (hroom : ¬ Storage.entryBytes * (a.rows * b.cols) < Word.signedLimit) :
    a.matmul b = .error .fault := by
  rw [matmul, ensure_of hdims, ok_bind, Flat.room_of_no_room hroom]
  rfl

/-- On tensors that are whole the loops are the product, with the same refusals. -/
theorem matmulLoop_eq_matmul (ha : a.Whole) (hb : b.Whole) : a.matmulLoop b = a.matmul b := by
  by_cases hdims : a.cols = b.rows
  · by_cases hroom : Storage.entryBytes * (a.rows * b.cols) < Word.signedLimit
    · rw [matmulLoop_eq ha hb hdims hroom,
        matmul_of_filled ha.wellFormed.filled hb.wellFormed.filled hdims hroom]
    · rw [matmul_of_no_room hdims hroom, matmulLoop, ensure_of hdims, ok_bind, zeros,
        Flat.room_of_no_room hroom]
      rfl
  · rw [matmul_of_ne hdims, matmulLoop, ensure_of_not hdims]
    rfl

end Multiplied

end Tensor2

/-! ## Stacks -/

namespace Tensor3

/-- The stack has an entry for each place and no more, and words count entries and matrices. -/
structure Whole (t : Tensor3 α) : Prop where
  wellFormed : t.WellFormed
  size_lt : t.data.size < Word.limit
  batch_lt : t.batch < Word.limit

/-- The stack `u` is `t` with rows and columns exchanged, in each matrix on its own. -/
structure IsTranspose [Zero α] (t u : Tensor3 α) : Prop where
  wellFormed : u.WellFormed
  shape_eq : u.shape = (t.batch, t.cols, t.rows)
  entries : ∀ b < t.batch, ∀ i < t.rows, ∀ j < t.cols, ∃ x, t.get b i j = .ok x ∧
    u.get b j i = .ok x
  matrices : ∀ b < t.batch, ∃ m m', t.matrix b = .ok m ∧ m.transpose = .ok m' ∧
    u.matrix b = .ok m'

/-- The stack `c` has the products of the matrices of `a` with the same matrix `b`. -/
structure IsProduct [Zero α] [Add α] [Mul α] (a : Tensor3 α) (b : Tensor2 α) (c : Tensor3 α) :
    Prop where
  wellFormed : c.WellFormed
  shape_eq : c.shape = (a.batch, a.rows, b.cols)
  matrices : ∀ i < a.batch, ∃ m m', a.matrix i = .ok m ∧ m.matmul b = .ok m' ∧ c.matrix i = .ok m'

/-- There is room for the products of all matrices of the stack, and a word counts their rows. -/
structure ProductRoom (a : Tensor3 α) (b : Tensor2 α) : Prop where
  lines : a.batch * a.rows < Word.limit
  entries : Storage.entryBytes * (a.batch * a.rows * b.cols) < Word.signedLimit

/-- The stack is that of the listed matrices, and reading one gives it back. -/
structure MadeOf (t : Tensor3 α) (ms : List (Tensor2 α)) : Prop where
  length_eq : ms.length = t.batch
  uniform : Uniform ms t.rows t.cols
  count_lt : ms.length * (t.rows * t.cols) < Word.limit
  ofMatrices_eq : ofMatrices ms t.rows t.cols = t
  matrix_eq : ∀ (b : Nat) (m : Tensor2 α), ms[b]? = some m → t.matrix b = .ok m

theorem Whole.exists_madeOf {t : Tensor3 α} (h : t.Whole) : ∃ ms, t.MadeOf ms := by
  obtain ⟨ms, hlength, hms, hof⟩ := exists_ofMatrices h.wellFormed
  have hcount : ms.length * (t.rows * t.cols) < Word.limit := by
    rw [hlength, ← Nat.mul_assoc, ← h.wellFormed]
    exact h.size_lt
  refine ⟨ms, hlength, hms, hcount, hof.symm, fun b m hm => ?_⟩
  have hmatrix := matrix_ofMatrices hms hcount (hlength ▸ h.batch_lt) hm
  rwa [← hof] at hmatrix

section Transposed

variable [Zero α] {t : Tensor3 α}

theorem exists_transposeInner (h : t.Whole) (hroom : matrixBytes * t.batch < Word.signedLimit) :
    ∃ u, t.transposeInner = .ok u ∧ t.IsTranspose u ∧ u.transposeInner = .ok t := by
  obtain ⟨ms, hms⟩ := h.exists_madeOf
  have hlength : (ms.map (·.flipped)).length = t.batch := (List.length_map _).trans hms.length_eq
  have hcount : (ms.map (·.flipped)).length * (t.cols * t.rows) < Word.limit := by
    rw [List.length_map, Nat.mul_comm t.cols]
    exact hms.count_lt
  have hflipped := uniform_flipped hms.uniform
  have hwell := wellFormed_ofMatrices hflipped
  have hinner := transposeInner_ofMatrices hms.uniform hms.count_lt (hms.length_eq ▸ hroom)
  have hback := transposeInner_ofMatrices hflipped hcount (hlength ▸ hroom)
  -- The way back flips every matrix again.
  have hagain : (ms.map (·.flipped)).map (·.flipped) = ms := by
    rw [List.map_map]
    exact (List.map_congr_left fun m hm => Tensor2.flipped_flipped (hms.uniform m hm).1).trans
      (List.map_id ms)
  rw [hms.ofMatrices_eq] at hinner
  rw [hagain, hms.ofMatrices_eq] at hback
  refine ⟨_, hinner, ⟨hwell, ?_, fun b hb i hi j hj => ?_, fun b hb => ?_⟩, hback⟩
  · rw [shape, ofMatrices, hlength]
  · obtain ⟨m, hm, hmwell, hrows, hcols⟩ := hms.uniform.exists_at (hms.length_eq ▸ hb)
    have hentry := entry_ofMatrices hms.uniform hm hi hj
    have hentry' := entry_ofMatrices_map hflipped hm hj hi
    rw [hms.ofMatrices_eq] at hentry
    rw [Tensor2.entry_flipped hmwell (hrows ▸ hi) (hcols ▸ hj)] at hentry'
    have hsize : (ofMatrices (ms.map (·.flipped)) t.cols t.rows).data.size < Word.limit := by
      rw [hwell, ofMatrices, Nat.mul_assoc]
      exact hcount
    refine ⟨m.entry i j, ?_, ?_⟩
    · rw [get_eq_entry h.wellFormed h.size_lt hb hi hj, hentry]
    · rw [get_eq_entry hwell hsize (Nat.lt_of_lt_of_eq hb hlength.symm) hj hi, hentry']
  · obtain ⟨m, hm, hmwell, -, -⟩ := hms.uniform.exists_at (hms.length_eq ▸ hb)
    refine ⟨m, m.flipped, hms.matrix_eq b m hm, Tensor2.transpose_of_filled hmwell.filled, ?_⟩
    refine matrix_ofMatrices hflipped hcount (hlength ▸ h.batch_lt) ?_
    rw [List.getElem?_map, hm]
    rfl

theorem transposeInner_of_no_room (hroom : ¬ matrixBytes * t.batch < Word.signedLimit) :
    t.transposeInner = .error .fault := by
  rw [transposeInner, Storage.reserve, ensure_of_not hroom]
  rfl

end Transposed

section Multiplied

variable [Zero α] [Add α] [Mul α] {a : Tensor3 α} {b : Tensor2 α}

theorem exists_batchedMatmul (ha : a.Whole) (hb : b.Filled) (hroom : a.ProductRoom b)
    (hdims : a.cols = b.rows) : ∃ c, a.batchedMatmul b = .ok c ∧ a.IsProduct b c := by
  obtain ⟨ms, hms⟩ := ha.exists_madeOf
  have hlength : (ms.map (·.product b)).length = a.batch := (List.length_map _).trans hms.length_eq
  have hproducts := uniform_product hms.uniform hb hdims
  have hstack := batchedMatmul_ofMatrices hms.uniform hms.count_lt hb hdims
    (hms.length_eq ▸ hroom.lines) (hms.length_eq ▸ hroom.entries) (hms.length_eq ▸ ha.batch_lt)
  rw [hms.ofMatrices_eq] at hstack
  refine ⟨_, hstack, wellFormed_ofMatrices hproducts, by rw [shape, ofMatrices, hlength],
    fun i hi => ?_⟩
  obtain ⟨m, hm, hmwell, hrows, hcols⟩ := hms.uniform.exists_at (hms.length_eq ▸ hi)
  -- One product takes no more room than all of them.
  have hone : m.rows * b.cols ≤ a.batch * a.rows * b.cols := by
    rw [Nat.mul_assoc, hrows]
    exact Nat.le_mul_of_pos_left _ (Nat.zero_lt_of_lt hi)
  have hcount : a.batch * (a.rows * b.cols) < Word.limit := by
    rw [← Nat.mul_assoc]
    exact Flat.count_lt (by decide) hroom.entries
  refine ⟨m, m.product b, hms.matrix_eq i m hm, Tensor2.matmul_of_filled hmwell.filled hb
    (hcols.trans hdims) (Nat.lt_of_le_of_lt (Nat.mul_le_mul_left _ hone) hroom.entries), ?_⟩
  refine matrix_ofMatrices hproducts (hlength.symm ▸ hcount) (hlength ▸ ha.batch_lt) ?_
  rw [List.getElem?_map, hm]
  rfl

/-- Without matrices there is nothing to multiply, and nothing to refuse. -/
theorem exists_batchedMatmul_of_empty (hbatch : a.batch = 0) :
    ∃ c, a.batchedMatmul b = .ok c ∧ a.IsProduct b c := by
  refine ⟨⟨#[], 0, a.rows, b.cols⟩, ?_, ?_, by rw [hbatch]; rfl, fun i hi => ?_⟩
  · have hvolume : volume 0 a.rows b.cols = .ok 0 := by
      rw [volume_eq_ok, Nat.zero_mul, Nat.zero_mul]
      decide
    rw [batchedMatmul, hbatch, hvolume, ok_bind, mapMatrices, hbatch]
    show ofData #[] 0 a.rows b.cols = _
    rw [ofData, hvolume]
    rfl
  · rw [WellFormed, Nat.zero_mul, Nat.zero_mul]
    rfl
  · exact absurd hi (by rw [hbatch]; exact Nat.not_lt_zero i)

/-- If the dimensions do not agree, the first matrix is refused. -/
theorem batchedMatmul_of_ne (ha : a.Whole) (hroom : a.ProductRoom b) (hbatch : a.batch ≠ 0)
    (hdims : a.cols ≠ b.rows) :
    a.batchedMatmul b = .error (.shape (.product a.rows a.cols b.rows b.cols)) := by
  obtain ⟨ms, hms⟩ := ha.exists_madeOf
  obtain ⟨n, hn⟩ := Nat.exists_eq_succ_of_ne_zero hbatch
  have hpos : 0 < ms.length := by
    rw [hms.length_eq, hn]
    exact Nat.succ_pos n
  obtain ⟨m, hm, -, hrows, hcols⟩ := hms.uniform.exists_at hpos
  have hfirst : a.mapMatrices (Tensor2.matmul · b) =
      .error (.shape (.product a.rows a.cols b.rows b.cols)) := by
    rw [mapMatrices, tabulate_eq_mapM, hn, List.range_succ_eq_map, List.mapM_cons,
      hms.matrix_eq 0 m hm, ok_bind, Tensor2.matmul_of_ne (hcols ▸ hdims), hrows, hcols]
    rfl
  have hcount := Flat.count_lt (by decide) hroom.entries
  rw [batchedMatmul, volume_eq_ok.mpr ⟨hroom.lines, hcount, rfl⟩, ok_bind, Flat.reserve,
    Storage.reserve, ensure_of hroom.entries, ok_bind, hfirst]
  rfl

end Multiplied

end Tensor3

/-! ## All kernels -/

/-- On tensors that are whole, every kernel gives what it means in rows and columns. Transposing
exchanges the indices of each entry, in a stack within each matrix, and undoes itself. A product
needs dimensions that agree and has the accumulated products for its entries, and a stack is
multiplied matrix by matrix. The loops over the flat storage never leave it. The kernels fault
exactly where a block is too large for them. -/
theorem kernels_meet_entries [Zero α] [Add α] [Mul α] {t w : Tensor2 α} {s : Tensor3 α}
    (ht : t.Whole) (hw : w.Whole) (hs : s.Whole) :
    (t.transposeLoop = t.transpose ∧
      ∃ u, t.transpose = .ok u ∧ t.IsTranspose u ∧ u.transpose = .ok t) ∧
    ((Tensor3.matrixBytes * s.batch < Word.signedLimit →
        ∃ u, s.transposeInner = .ok u ∧ s.IsTranspose u ∧ u.transposeInner = .ok s) ∧
      (¬ Tensor3.matrixBytes * s.batch < Word.signedLimit → s.transposeInner = .error .fault)) ∧
    (t.matmulLoop w = t.matmul w ∧
      (t.cols ≠ w.rows →
        t.matmul w = .error (.shape (.product t.rows t.cols w.rows w.cols))) ∧
      (t.cols = w.rows → Storage.entryBytes * (t.rows * w.cols) < Word.signedLimit →
        ∃ c, t.matmul w = .ok c ∧ t.IsProduct w c) ∧
      (t.cols = w.rows → ¬ Storage.entryBytes * (t.rows * w.cols) < Word.signedLimit →
        t.matmul w = .error .fault)) ∧
    (s.ProductRoom w → s.batch = 0 ∨ s.cols = w.rows →
      ∃ c, s.batchedMatmul w = .ok c ∧ s.IsProduct w c) ∧
    (s.ProductRoom w → ¬ (s.batch = 0 ∨ s.cols = w.rows) →
      s.batchedMatmul w = .error (.shape (.product s.rows s.cols w.rows w.cols))) ∧
    (¬ s.ProductRoom w → s.batchedMatmul w = .error .fault) := by
  have hflipped := Tensor2.transpose_of_filled ht.wellFormed.filled
  have hback := Tensor2.transpose_of_filled ht.flipped.wellFormed.filled
  rw [Tensor2.flipped_flipped ht.wellFormed] at hback
  refine ⟨⟨?_, _, hflipped, Tensor2.isTranspose_flipped ht, hback⟩,
    ⟨Tensor3.exists_transposeInner hs, Tensor3.transposeInner_of_no_room⟩,
    ⟨Tensor2.matmulLoop_eq_matmul ht hw, Tensor2.matmul_of_ne, fun hdims hroom => ?_,
      Tensor2.matmul_of_no_room⟩, fun hroom => ?_, fun hroom hrefused => ?_, fun hroom => ?_⟩
  · rw [Tensor2.transposeLoop_eq ht, hflipped]
  · exact ⟨_, Tensor2.matmul_of_filled ht.wellFormed.filled hw.wellFormed.filled hdims hroom,
      Tensor2.isProduct_product ht hw hdims (Flat.count_lt (by decide) hroom)⟩
  · rintro (hempty | hdims)
    · exact Tensor3.exists_batchedMatmul_of_empty hempty
    · exact Tensor3.exists_batchedMatmul hs hw.wellFormed.filled hroom hdims
  · rw [not_or] at hrefused
    exact Tensor3.batchedMatmul_of_ne hs hroom hrefused.1 hrefused.2
  · exact Tensor3.batchedMatmul_of_no_room fun h => hroom ⟨h.1, h.2⟩

/-- The sum of a large number and two ones depends on where the large number stands. -/
theorem kernels_meet_entries_rounded :
    let one : Binary32 := ⟨0x3f800000⟩
    let large : Binary32 := ⟨0x4b800000⟩
    let t : Tensor2 Binary32 := ⟨#[large, one, one, one, one, large], 2, 3⟩
    let w : Tensor2 Binary32 := ⟨#[one, 0, one, 0, one, one], 3, 2⟩
    let s : Tensor3 Binary32 :=
      ⟨#[0, 0, 0, 0, 0, one, large, one, one, one, one, large], 2, 2, 3⟩
    t.Whole ∧ w.Whole ∧ s.Whole ∧
    (∃ u, t.transpose = .ok u ∧ u.get 2 1 = .ok large ∧ u.transpose = .ok t) ∧
    (∃ u, s.transposeInner = .ok u ∧ u.shape = (2, 3, 2) ∧ u.get 0 2 1 = .ok one) ∧
    (∃ c, t.matmul w = .ok c ∧ c.get 0 0 = .ok large ∧ c.get 1 0 = .ok ⟨0x4b800001⟩) ∧
    ∃ c, s.batchedMatmul w = .ok c ∧ c.matrix 1 = t.matmul w := by
  intro one large t w s
  have ht : t.Whole := ⟨rfl, by decide⟩
  have hw : w.Whole := ⟨rfl, by decide⟩
  have hs : s.Whole := ⟨rfl, by decide, by decide⟩
  obtain ⟨⟨-, u, hu, htranspose, hback⟩, ⟨hinner, -⟩, ⟨-, -, hproduct, -⟩, hstack, -⟩ :=
    kernels_meet_entries ht hw hs
  obtain ⟨v, hv, hturned, -⟩ := hinner (by decide)
  obtain ⟨c, hc, hmultiplied⟩ := hproduct rfl (by decide)
  obtain ⟨d, hd, hmatrices⟩ := hstack ⟨by decide, by decide⟩ (.inr rfl)
  refine ⟨ht, hw, hs, ⟨u, hu, ?_, hback⟩, ⟨v, hv, hturned.shape_eq, ?_⟩, ⟨c, hc, ?_, ?_⟩,
    d, hd, ?_⟩
  · obtain ⟨x, hx, hget⟩ := htranspose.entries 1 (by decide) 2 (by decide)
    rw [hget, ← hx]
    rfl
  · obtain ⟨x, hx, hget⟩ := hturned.entries 0 (by decide) 1 (by decide) 2 (by decide)
    rw [hget, ← hx]
    rfl
  · obtain ⟨x, hx, hget⟩ := hmultiplied.entries 0 (by decide) 0 (by decide)
    rw [hget, ← hx]
    decide +kernel
  · obtain ⟨x, hx, hget⟩ := hmultiplied.entries 1 (by decide) 0 (by decide)
    rw [hget, ← hx]
    decide +kernel
  · obtain ⟨m, m', hm, hm', hmatrix⟩ := hmatrices.matrices 1 (by decide)
    obtain rfl : t = m := Except.ok.inj hm
    rw [hmatrix, ← hm']

/-- Blocks that are too large although words count their entries: 2^60 matrices without rows have
no entries, but the list of them takes too many bytes, and so do 2^61 sums of no products. -/
theorem kernels_of_too_large :
    let s : Tensor3 Binary32 := ⟨#[], 1152921504606846976, 0, 2⟩
    let a : Tensor2 Binary32 := ⟨#[], 2305843009213693952, 0⟩
    let b : Tensor2 Binary32 := ⟨#[], 0, 1⟩
    (s.Whole ∧ s.batch * s.cols * s.rows < Word.limit ∧ s.transposeInner = .error .fault) ∧
    a.Whole ∧ b.Whole ∧ a.cols = b.rows ∧ a.rows * b.cols < Word.limit ∧
    a.matmul b = .error .fault := by
  intro s a b
  refine ⟨⟨⟨rfl, by decide, by decide⟩, by decide, ?_⟩, ⟨rfl, by decide⟩, ⟨rfl, by decide⟩, rfl,
    by decide, ?_⟩
  · exact Tensor3.transposeInner_of_no_room (by decide)
  · exact Tensor2.matmul_of_no_room rfl (by decide)

end ShardedModel
