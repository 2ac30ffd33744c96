import ShardedModel.Proofs.Tensor

/-!
# Kernels entry by entry

A tensor that is well formed is determined by its dimensions and its entries. Each kernel
is described by the entries of its result: transposing exchanges the two indices, and an
entry of a product is the product of a row and a column, summed from zero and from left to
right. So two computations that reach the same entries on different ways give the same
tensor, bit for bit.

A stack is determined by its list of matrices, and a kernel on stacks is the kernel on
matrices, done for each member of the list. Nothing else of a stack reaches the result.
-/

namespace ShardedModel

variable {α : Type}

namespace Tensor2

/-! ## Entries -/

theorem index_lt {rows cols i j : Nat} (hi : i < rows) (hj : j < cols) :
    i * cols + j < rows * cols :=
  calc i * cols + j
    _ < i * cols + cols := Nat.add_lt_add_left hj _
    _ = (i + 1) * cols := (Nat.succ_mul i cols).symm
    _ ≤ rows * cols := Nat.mul_le_mul_right cols hi

variable [Zero α]

theorem entry_eq_line (t : Tensor2 α) (i : Nat) {j : Nat} (hj : j < t.cols) :
    t.entry i j = (t.line i).getD j 0 := by
  rw [entry, Array.getD_eq_getD_getElem?, Array.getD_eq_getD_getElem?, getElem?_line t i hj]

/-- Reading an entry that is there gives the entry. -/
theorem get_eq_entry {t : Tensor2 α} (h : t.Filled) (hsize : t.data.size < Word.limit) {i j : Nat}
    (hi : i < t.rows) (hj : j < t.cols) : t.get i j = .ok (t.entry i j) := by
  have hin : j < (t.line i).size := by rw [size_line h hi]; exact hj
  rw [get_of_line h hsize hi (Array.getElem?_eq_getElem hin), entry_eq_line t i hj, Array.getD,
    dif_pos hin]
  rfl

/-- Two tensors are equal if their dimensions and entries are. -/
theorem eq_of_entries {t u : Tensor2 α} (ht : t.WellFormed) (hu : u.WellFormed)
    (hrows : t.rows = u.rows) (hcols : t.cols = u.cols)
    (hentries : ∀ i < t.rows, ∀ j < t.cols, t.entry i j = u.entry i j) : t = u := by
  refine eq_of_lines ht hu hrows hcols fun i hi => ?_
  have hsize : (t.line i).size = t.cols := size_line ht.filled hi
  have hsize' : (u.line i).size = u.cols := size_line hu.filled (hrows ▸ hi)
  refine Array.ext (hsize.trans (hcols.trans hsize'.symm)) fun j hj hj' => ?_
  have hentry := hentries i hi j (hsize ▸ hj)
  rw [entry_eq_line t i (hsize ▸ hj), entry_eq_line u i (hsize' ▸ hj')] at hentry
  simpa [Array.getD, hj, hj'] using hentry

/-! ## Transposing -/

/-- The tensor with rows and columns exchanged. -/
def flipped (t : Tensor2 α) : Tensor2 α :=
  ⟨Array.ofFn fun i : Fin t.data.size =>
    if i.val < t.rows * t.cols then t.data.getD (i.val % t.rows * t.cols + i.val / t.rows) 0
    else 0, t.cols, t.rows⟩

theorem transpose_of_filled {t : Tensor2 α} (h : t.Filled) : t.transpose = .ok t.flipped := by
  rw [transpose, ensure_of h]
  rfl

theorem wellFormed_flipped {t : Tensor2 α} (h : t.WellFormed) : t.flipped.WellFormed := by
  rw [WellFormed, flipped, Array.size_ofFn, h, Nat.mul_comm]

theorem entry_flipped {t : Tensor2 α} (h : t.WellFormed) {i j : Nat} (hi : i < t.rows)
    (hj : j < t.cols) : t.flipped.entry j i = t.entry i j := by
  have hlt : j * t.rows + i < t.rows * t.cols := by
    rw [Nat.mul_comm t.rows]
    exact index_lt hj hi
  have hmod : (j * t.rows + i) % t.rows = i := by
    rw [Nat.mul_comm, Nat.mul_add_mod, Nat.mod_eq_of_lt hi]
  have hdiv : (j * t.rows + i) / t.rows = j := by
    rw [Nat.mul_comm, Nat.mul_add_div (Nat.zero_lt_of_lt hi), Nat.div_eq_of_lt hi, Nat.add_zero]
  have hsize : j * t.rows + i < t.data.size := by
    rw [h]
    exact hlt
  rw [flipped, entry, Array.getD_eq_getD_getElem?, Array.getElem?_ofFn, dif_pos hsize,
    Option.getD_some]
  simp only [hlt, if_true, hmod, hdiv]
  rfl

theorem exists_transpose {t : Tensor2 α} (h : t.WellFormed) :
    ∃ u, t.transpose = .ok u ∧ u.WellFormed ∧ u.rows = t.cols ∧ u.cols = t.rows ∧
      ∀ i < t.rows, ∀ j < t.cols, u.entry j i = t.entry i j :=
  ⟨t.flipped, transpose_of_filled h.filled, wellFormed_flipped h, rfl, rfl,
    fun _ hi _ hj => entry_flipped h hi hj⟩

/-! ## Products -/

variable [Add α] [Mul α]

/-- The product of row `i` and column `j`. -/
def dot (a b : Tensor2 α) (i j : Nat) : α :=
  (List.range a.cols).foldl (fun sum p => sum + a.entry i p * b.entry p j) 0

omit [Zero α] in
theorem size_foldl_addScaled {c : Nat} {factor : Nat → α} {lines : Nat → Array α} {ps : List Nat}
    (hlines : ∀ p ∈ ps, (lines p).size = c) {sums : Array α} (hsums : sums.size = c) :
    (ps.foldl (fun sums p => addScaled sums (factor p) (lines p)) sums).size = c := by
  induction ps generalizing sums with
  | nil => exact hsums
  | cons p ps ih =>
      refine ih (fun q hq => hlines q (List.mem_cons_of_mem p hq)) ?_
      show (addScaled sums (factor p) (lines p)).size = c
      rw [addScaled, Array.size_zipWith, hsums, hlines p List.mem_cons_self, Nat.min_self]

/-- Each place of the sums is summed on its own. -/
theorem getD_foldl_addScaled {c j : Nat} (hj : j < c) {factor : Nat → α} {lines : Nat → Array α}
    {ps : List Nat} (hlines : ∀ p ∈ ps, (lines p).size = c) {sums : Array α}
    (hsums : sums.size = c) :
    (ps.foldl (fun sums p => addScaled sums (factor p) (lines p)) sums).getD j 0 =
      ps.foldl (fun sum p => sum + factor p * (lines p).getD j 0) (sums.getD j 0) := by
  induction ps generalizing sums with
  | nil => rfl
  | cons p ps ih =>
      have hp := hlines p List.mem_cons_self
      have hsize : (addScaled sums (factor p) (lines p)).size = c := by
        rw [addScaled, Array.size_zipWith, hsums, hp, Nat.min_self]
      rw [List.foldl_cons, List.foldl_cons,
        ih (fun q hq => hlines q (List.mem_cons_of_mem p hq)) hsize]
      congr 1
      simp [Array.getD, addScaled, hsums, hp, hj]

theorem size_productRow {a b : Tensor2 α} (hdims : a.cols = b.rows) (hb : b.Filled) (i : Nat) :
    (productRow a b i).size = b.cols := by
  refine size_foldl_addScaled (fun p hp => size_line hb ?_) Array.size_replicate
  rw [← hdims]
  exact List.mem_range.mp hp

/-- The product of two tensors whose dimensions agree. -/
def product (a b : Tensor2 α) : Tensor2 α :=
  ⟨Flat.concat ((List.range a.rows).map (productRow a b)), a.rows, b.cols⟩

theorem matmul_of_filled {a b : Tensor2 α} (ha : a.Filled) (hb : b.Filled)
    (hdims : a.cols = b.rows)
    (hroom : Storage.entryBytes * (a.rows * b.cols) < Word.signedLimit) :
    a.matmul b = .ok (a.product b) := by
  have hlt : a.rows * b.cols < Word.limit := Flat.count_lt (by decide) hroom
  rw [matmul, ensure_of hdims, Outcome.ok_bind, Flat.room_eq_ok.mpr ⟨hlt, hroom, rfl⟩,
    Outcome.ok_bind, ensure_of (.inr ⟨ha, hb⟩)]
  rfl

section Product

variable {a b : Tensor2 α} (hb : b.Filled) (hdims : a.cols = b.rows)

include hb hdims

theorem size_of_mem_productRows :
    ∀ l ∈ (List.range a.rows).map (productRow a b), l.size = b.cols := by
  intro l hl
  obtain ⟨i, -, rfl⟩ := List.mem_map.mp hl
  exact size_productRow hdims hb i

theorem wellFormed_product : (a.product b).WellFormed := by
  rw [WellFormed, product, Flat.size_concat (size_of_mem_productRows hb hdims), List.length_map,
    List.length_range]

theorem entry_product {i j : Nat} (hi : i < a.rows) (hj : j < b.cols) :
    (a.product b).entry i j = a.dot b i j := by
  have hline : (a.product b).line i = productRow a b i := by
    refine line_concat (size_of_mem_productRows hb hdims) ?_
    rw [List.getElem?_map, List.getElem?_range hi]
    rfl
  have hentry := entry_eq_line (a.product b) i hj
  rw [hentry, hline, productRow, getD_foldl_addScaled hj
    (fun p hp => size_line hb (hdims ▸ List.mem_range.mp hp)) Array.size_replicate, dot]
  have hzero : (Array.replicate b.cols (0 : α)).getD j 0 = 0 := by simp [Array.getD]
  rw [hzero]
  refine List.foldl_ext _ _ _ fun sum p _ => ?_
  rw [entry_eq_line b p hj]

end Product

theorem exists_matmul {a b : Tensor2 α} (ha : a.Filled) (hb : b.Filled) (hdims : a.cols = b.rows)
    (hroom : Storage.entryBytes * (a.rows * b.cols) < Word.signedLimit) :
    ∃ c, a.matmul b = .ok c ∧ c.WellFormed ∧ c.rows = a.rows ∧ c.cols = b.cols ∧
      ∀ i < a.rows, ∀ j < b.cols, c.entry i j = a.dot b i j :=
  ⟨a.product b, matmul_of_filled ha hb hdims hroom, wellFormed_product hb hdims, rfl, rfl,
    fun _ hi _ hj => entry_product hb hdims hi hj⟩

end Tensor2

/-! ## Stacks -/

namespace Tensor3

/-! ### Entries -/

theorem get_of_data {t : Tensor3 α} {b row col : Nat} {x : α}
    (hline : b * t.rows + row < Word.limit)
    (hentry : (b * t.rows + row) * t.cols + col < Word.limit)
    (hx : t.data[(b * t.rows + row) * t.cols + col]? = some x) : t.get b row col = .ok x := by
  rw [get, Word.mul_of_lt (by omega), Outcome.ok_bind, Word.add_of_lt hline, Outcome.ok_bind,
    Word.mul_of_lt (by omega), Outcome.ok_bind, Word.add_of_lt hentry, Outcome.ok_bind, Flat.read,
    hx]

/-- The entry of a matrix of the stack. -/
def entry [Zero α] (t : Tensor3 α) (b row col : Nat) : α :=
  t.data.getD ((b * t.rows + row) * t.cols + col) 0

/-- Reading an entry that is there gives the entry. -/
theorem get_eq_entry [Zero α] {t : Tensor3 α} (h : t.WellFormed) (hsize : t.data.size < Word.limit)
    {b row col : Nat} (hb : b < t.batch) (hrow : row < t.rows) (hcol : col < t.cols) :
    t.get b row col = .ok (t.entry b row col) := by
  have hline := Tensor2.index_lt hb hrow
  have hin : (b * t.rows + row) * t.cols + col < t.data.size := by
    rw [h]
    exact Tensor2.index_lt hline hcol
  have hle : b * t.rows + row ≤ (b * t.rows + row) * t.cols :=
    Nat.le_mul_of_pos_right _ (Nat.zero_lt_of_lt hcol)
  refine get_of_data (by omega) (by omega) ?_
  rw [entry, Array.getD, dif_pos hin]
  exact Array.getElem?_eq_getElem hin

/-! ### Matrices -/

/-- The matrices are well formed and have the given dimensions. -/
def Uniform (ms : List (Tensor2 α)) (rows cols : Nat) : Prop :=
  ∀ m ∈ ms, m.WellFormed ∧ m.rows = rows ∧ m.cols = cols

/-- The stack of matrices that have the given dimensions. -/
def ofMatrices (ms : List (Tensor2 α)) (rows cols : Nat) : Tensor3 α :=
  ⟨Flat.concat (ms.map (·.data)), ms.length, rows, cols⟩

variable {ms : List (Tensor2 α)} {rows cols : Nat}

theorem Uniform.exists_at (h : Uniform ms rows cols) {b : Nat} (hb : b < ms.length) :
    ∃ m, ms[b]? = some m ∧ m.WellFormed ∧ m.rows = rows ∧ m.cols = cols :=
  ⟨_, List.getElem?_eq_getElem hb, h _ (List.getElem_mem hb)⟩

theorem Uniform.size_data (h : Uniform ms rows cols) :
    ∀ data ∈ ms.map (·.data), data.size = rows * cols := by
  intro data hdata
  obtain ⟨m, hm, rfl⟩ := List.mem_map.mp hdata
  obtain ⟨hwell, rfl, rfl⟩ := h m hm
  exact hwell

theorem wellFormed_ofMatrices (h : Uniform ms rows cols) :
    (ofMatrices ms rows cols).WellFormed := by
  rw [WellFormed, ofMatrices, Flat.size_concat h.size_data, List.length_map, Nat.mul_assoc]

/-- Every well-formed stack is one of matrices. -/
theorem exists_ofMatrices {t : Tensor3 α} (h : t.WellFormed) :
    ∃ ms, ms.length = t.batch ∧ Uniform ms t.rows t.cols ∧ t = ofMatrices ms t.rows t.cols := by
  refine ⟨(List.range t.batch).map fun b => ⟨t.data.extract (b * (t.rows * t.cols))
    (b * (t.rows * t.cols) + t.rows * t.cols), t.rows, t.cols⟩, by simp, fun m hm => ?_, ?_⟩
  · obtain ⟨b, hb, rfl⟩ := List.mem_map.mp hm
    have hend : b * (t.rows * t.cols) + t.rows * t.cols ≤ t.data.size := by
      rw [h, Nat.mul_assoc, ← Nat.succ_mul]
      exact Nat.mul_le_mul_right _ (List.mem_range.mp hb)
    refine ⟨?_, rfl, rfl⟩
    rw [Tensor2.WellFormed, Array.size_extract_of_le hend, Nat.add_sub_cancel_left]
  · have hdata : t.data.extract 0 (t.batch * (t.rows * t.cols)) = t.data := by
      rw [← Nat.mul_assoc, ← h]
      exact Array.extract_eq_self_of_le (Nat.le_refl _)
    rw [ofMatrices, List.length_map, List.length_range, List.map_map]
    exact congrArg (fun data => (⟨data, t.batch, t.rows, t.cols⟩ : Tensor3 α))
      (hdata.symm.trans (Flat.concat_stretches _ _ _).symm)

/-- An entry of a stack is one of the matrix that it belongs to. -/
theorem entry_ofMatrices [Zero α] (h : Uniform ms rows cols) {b row col : Nat} {m : Tensor2 α}
    (hm : ms[b]? = some m) (hrow : row < rows) (hcol : col < cols) :
    (ofMatrices ms rows cols).entry b row col = m.entry row col := by
  obtain ⟨-, rfl, rfl⟩ := h m (List.mem_of_getElem? hm)
  have hplace : (b * m.rows + row) * m.cols + col =
      b * (m.rows * m.cols) + (row * m.cols + col) := by
    rw [Nat.add_mul, Nat.mul_assoc, Nat.add_assoc]
  have hpart : (⟨Flat.concat (ms.map (·.data)), 0, m.rows * m.cols⟩ : Tensor2 α).line b = m.data :=
    Tensor2.line_concat h.size_data (by rw [List.getElem?_map, hm]; rfl)
  have hread := Tensor2.getElem?_line ⟨Flat.concat (ms.map (·.data)), 0, m.rows * m.cols⟩ b
    (Tensor2.index_lt hrow hcol)
  rw [hpart] at hread
  rw [entry, ofMatrices, Tensor2.entry, Array.getD_eq_getD_getElem?, Array.getD_eq_getD_getElem?,
    hread, hplace]

theorem entry_ofMatrices_map [Zero α] {f : Tensor2 α → Tensor2 α}
    (h : Uniform (ms.map f) rows cols) {b row col : Nat} {m : Tensor2 α} (hm : ms[b]? = some m)
    (hrow : row < rows) (hcol : col < cols) :
    (ofMatrices (ms.map f) rows cols).entry b row col = (f m).entry row col :=
  entry_ofMatrices h (by rw [List.getElem?_map, hm]; rfl) hrow hcol

section Matrices

variable (h : Uniform ms rows cols) (hsize : ms.length * (rows * cols) < Word.limit)
  (hlength : ms.length < Word.limit)

include h hsize hlength

theorem matrix_ofMatrices {b : Nat} {m : Tensor2 α} (hm : ms[b]? = some m) :
    (ofMatrices ms rows cols).matrix b = .ok m := by
  obtain ⟨hb, -⟩ := List.getElem?_eq_some_iff.mp hm
  obtain ⟨-, rfl, rfl⟩ := h m (List.mem_of_getElem? hm)
  have hall : (b + 1) * (m.rows * m.cols) ≤ ms.length * (m.rows * m.cols) :=
    Nat.mul_le_mul_right _ hb
  have hnext : (b + 1) * (m.rows * m.cols) = b * (m.rows * m.cols) + m.rows * m.cols :=
    Nat.succ_mul _ _
  have hdata : (Flat.concat (ms.map (·.data))).size = ms.length * (m.rows * m.cols) := by
    rw [Flat.size_concat h.size_data, List.length_map]
  have hpart : (Flat.concat (ms.map (·.data))).extract (b * (m.rows * m.cols))
      (b * (m.rows * m.cols) + m.rows * m.cols) = m.data :=
    Flat.extract_concat h.size_data (by rw [List.getElem?_map, hm]; rfl)
  rw [matrix, ofMatrices]
  dsimp only
  rw [Word.mul_of_lt (by omega), Outcome.ok_bind, Word.mul_of_lt (by omega), Outcome.ok_bind,
    Word.add_of_lt (by omega), Outcome.ok_bind, Word.mul_of_lt (by omega), Outcome.ok_bind,
    Flat.slice_of_le (by omega) (by rw [hdata]; exact hall), hnext, hpart]
  rfl

/-- A kernel is done for each matrix on its own. -/
theorem mapMatrices_ofMatrices {β : Type} {f : Tensor2 α → Outcome (Tensor2 β)}
    {g : Tensor2 α → Tensor2 β} (hf : ∀ m ∈ ms, f m = .ok (g m)) :
    (ofMatrices ms rows cols).mapMatrices f = .ok (Flat.concat ((ms.map g).map (·.data))) := by
  have hparts : (List.range ms.length).mapM (fun b => do
      let m ← (ofMatrices ms rows cols).matrix b
      f m) = .ok (ms.map g) := by
    rw [Outcome.mapM_eq_ok, List.forall₂_map_right_iff, List.forall₂_iff_get]
    refine ⟨List.length_range, fun b hb hb' => ?_⟩
    have hm : ms[b]? = some (ms.get ⟨b, hb'⟩) := List.getElem?_eq_getElem hb'
    rw [List.get_eq_getElem, List.getElem_range, matrix_ofMatrices h hsize hlength hm,
      Outcome.ok_bind, hf _ (List.get_mem _ _)]
  rw [mapMatrices, Outcome.tabulate_eq_mapM]
  exact congrArg (· >>= _) hparts

end Matrices

theorem ofData_of_size {data : Array α} {batch rows cols : Nat} (hlines : batch * rows < Word.limit)
    (hcount : batch * rows * cols < Word.limit) (hsize : data.size = batch * rows * cols) :
    ofData data batch rows cols = .ok ⟨data, batch, rows, cols⟩ := by
  rw [ofData, volume, Word.mul_of_lt hlines, Outcome.ok_bind, Word.mul_of_lt hcount,
    Outcome.ok_bind, ensure_of hsize]
  rfl

variable [Zero α]

theorem uniform_flipped (h : Uniform ms rows cols) :
    Uniform (ms.map (·.flipped)) cols rows := by
  intro m' hm'
  obtain ⟨m, hm, rfl⟩ := List.mem_map.mp hm'
  obtain ⟨hwell, rfl, rfl⟩ := h m hm
  exact ⟨Tensor2.wellFormed_flipped hwell, rfl, rfl⟩

theorem transposeInner_ofMatrices (h : Uniform ms rows cols)
    (hsize : ms.length * (rows * cols) < Word.limit)
    (hroom : matrixBytes * ms.length < Word.signedLimit) :
    (ofMatrices ms rows cols).transposeInner = .ok (ofMatrices (ms.map (·.flipped)) cols rows) := by
  have hdata := mapMatrices_ofMatrices h hsize (Flat.count_lt (by decide) hroom)
    fun m hm => Tensor2.transpose_of_filled (h m hm).1.filled
  have hbatch : matrixBytes * (ofMatrices ms rows cols).batch < Word.signedLimit := hroom
  rw [transposeInner, Storage.reserve, ensure_of hbatch, Outcome.ok_bind, hdata, Outcome.ok_bind,
    ofMatrices, ofMatrices, List.length_map]

variable [Add α] [Mul α]

theorem uniform_product (h : Uniform ms rows cols) {w : Tensor2 α} (hw : w.Filled)
    (hdims : cols = w.rows) : Uniform (ms.map (·.product w)) rows w.cols := by
  intro m' hm'
  obtain ⟨m, hm, rfl⟩ := List.mem_map.mp hm'
  obtain ⟨-, rfl, rfl⟩ := h m hm
  exact ⟨Tensor2.wellFormed_product hw hdims, rfl, rfl⟩

theorem batchedMatmul_ofMatrices (h : Uniform ms rows cols)
    (hsize : ms.length * (rows * cols) < Word.limit) {w : Tensor2 α} (hw : w.Filled)
    (hdims : cols = w.rows) (hlines : ms.length * rows < Word.limit)
    (hroom : Storage.entryBytes * (ms.length * rows * w.cols) < Word.signedLimit)
    (hlength : ms.length < Word.limit) :
    (ofMatrices ms rows cols).batchedMatmul w =
      .ok (ofMatrices (ms.map (·.product w)) rows w.cols) := by
  have hcount : ms.length * rows * w.cols < Word.limit := Flat.count_lt (by decide) hroom
  have hdata := mapMatrices_ofMatrices h hsize hlength (f := (Tensor2.matmul · w))
    (g := (·.product w)) fun m hm => by
      obtain ⟨hwell, hrows, hcols⟩ := h m hm
      have hone : rows * w.cols ≤ ms.length * rows * w.cols := by
        rw [Nat.mul_assoc]
        exact Nat.le_mul_of_pos_left _ (List.length_pos_of_mem hm)
      refine Tensor2.matmul_of_filled hwell.filled hw (hcols.trans hdims) ?_
      rw [hrows]
      exact Nat.lt_of_le_of_lt (Nat.mul_le_mul_left _ hone) hroom
  have hfill := wellFormed_ofMatrices (uniform_product h hw hdims)
  rw [WellFormed, ofMatrices, List.length_map] at hfill
  have hstack := ofData_of_size hlines hcount hfill
  have hbatch : (ofMatrices ms rows cols).batch = ms.length := rfl
  have hrows : (ofMatrices ms rows cols).rows = rows := rfl
  rw [batchedMatmul, hbatch, hrows, volume, Word.mul_of_lt hlines, Outcome.ok_bind,
    Word.mul_of_lt hcount, Outcome.ok_bind, Flat.reserve, Storage.reserve, ensure_of hroom,
    Outcome.ok_bind, hdata, Outcome.ok_bind, hstack, ofMatrices, List.length_map]

end Tensor3

end ShardedModel
