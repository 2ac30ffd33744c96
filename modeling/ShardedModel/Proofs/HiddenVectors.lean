import ShardedModel.Proofs.Faults
import ShardedModel.Proofs.Scores

/-!
# Hidden vectors in closed form

The projection takes a stack of embeddings to a matrix of hidden vectors by two products of
matrices for each sequence, with a transposition between them. What comes out has a closed form.
Stage A gives each token a number, the sum of the products of its embedding with the weights of
stage A; the hidden vector of a sequence has in each place the sum of the products of these
numbers with a column of stage B. All sums start at zero and go from left to right, so the form
holds bit for bit whatever sums and products are.

There has to be room for three blocks: the numbers, the list of matrices that are transposed,
and the hidden vectors. Where one of them is too large the projection faults, and for embeddings
and stages that go together this is the only way to fail.
-/

namespace ShardedModel

open Outcome

variable {α : Type} [Zero α] [Add α] [Mul α]

namespace Projection

variable {p : Projection α}

/-! ## Stage A -/

/-- The number that stage A gives to a token: its embedding times the weights. -/
def number (p : Projection α) (embeddings : Tensor3 α) (b s : Nat) : α :=
  (List.range embeddings.cols).foldl
    (fun sum d => sum + embeddings.entry b s d * p.stageA.entry d 0) 0

theorem entry_weighed {m : Tensor2 α} (hA : p.stageA.Filled) (hdim : m.cols = p.stageA.rows)
    (hone : p.stageA.cols = 1) {s : Nat} (hs : s < m.rows) :
    (p.weighed m).entry 0 s = m.dot p.stageA s 0 := by
  have hzero : 0 < p.stageA.cols := by omega
  rw [weighed, Tensor2.entry_flipped (Tensor2.wellFormed_product hA hdim) hs hzero,
    Tensor2.entry_product hA hdim hs hzero]

/-- Stage A gives one row for each sequence, with the number of each token. -/
theorem exists_applyStageA {embeddings : Tensor3 α}
    (hp : p.Fits embeddings.rows embeddings.cols) (h : embeddings.WellFormed)
    (hsize : embeddings.data.size < Word.limit)
    (htokens : Storage.entryBytes * (embeddings.batch * embeddings.rows) < Word.signedLimit)
    (hmatrices : Tensor3.matrixBytes * embeddings.batch < Word.signedLimit) :
    ∃ numbers, p.applyStageA embeddings = .ok numbers ∧ numbers.WellFormed ∧
      numbers.data.size < Word.limit ∧ numbers.batch = embeddings.batch ∧ numbers.rows = 1 ∧
      numbers.cols = embeddings.rows ∧ ∀ b < embeddings.batch, ∀ s < embeddings.rows,
        numbers.entry b 0 s = p.number embeddings b s := by
  obtain ⟨ms, hlength, hms, hof⟩ := Tensor3.exists_ofMatrices h
  rw [h, Nat.mul_assoc, ← hlength] at hsize
  rw [← hlength] at htokens hmatrices
  have hnumbers := applyStageA_ofMatrices hms hp.stageA.filled hp.rowsA hp.colsA hp.rowsB hsize
    htokens hmatrices
  have huniform := uniform_weighed hms hp.stageA.filled hp.rowsA hp.colsA
  have hwell := Tensor3.wellFormed_ofMatrices huniform
  have hsize' : (Tensor3.ofMatrices (ms.map p.weighed) 1 embeddings.rows).data.size <
      Word.limit := by
    rw [hwell, Tensor3.ofMatrices, List.length_map, Nat.mul_one]
    exact Flat.count_lt (by decide) htokens
  rw [← hof] at hnumbers
  refine ⟨_, hnumbers, hwell, hsize', (List.length_map _).trans hlength, rfl, rfl,
    fun b hb s hs => ?_⟩
  obtain ⟨m, hm, -, hrows, hcols⟩ := hms.exists_at (hlength ▸ hb)
  rw [Tensor3.entry_ofMatrices_map huniform hm Nat.one_pos hs, entry_weighed hp.stageA.filled
    (hcols.trans hp.rowsA.symm) hp.colsA (hrows ▸ hs), Tensor2.dot, number, hcols]
  refine List.foldl_ext _ _ _ fun sum d hd => ?_
  rw [← Tensor3.entry_ofMatrices hms hm hs (List.mem_range.mp hd), ← hof]

/-! ## Stage B -/

/-- Stage B multiplies the row of each sequence with its matrix. -/
theorem exists_applyStageB {numbers : Tensor3 α} {dim : Nat} (hp : p.Fits numbers.cols dim)
    (h : numbers.WellFormed) (hsize : numbers.data.size < Word.limit) (hone : numbers.rows = 1)
    (hbatch : numbers.batch < Word.limit)
    (hroom : Storage.entryBytes * (numbers.batch * dim) < Word.signedLimit) :
    ∃ hidden, p.applyStageB numbers = .ok hidden ∧ hidden.WellFormed ∧
      hidden.data.size < Word.limit ∧ hidden.rows = numbers.batch ∧ hidden.cols = dim ∧
      ∀ b < numbers.batch, ∀ j < dim, hidden.entry b j =
        (List.range numbers.cols).foldl
          (fun sum s => sum + numbers.entry b 0 s * p.stageB.entry s j) 0 := by
  obtain ⟨ms, hlength, hms, hof⟩ := Tensor3.exists_ofMatrices h
  rw [h, hone, Nat.mul_one, ← hlength] at hsize
  rw [← hlength] at hbatch hroom
  rw [hone] at hms hof
  obtain ⟨hhidden, hfill⟩ := applyStageB_ofMatrices hms hp.stageB.filled hp.rowsB hsize hbatch
    (by rw [hp.colsB]; exact hroom)
  have huniform := Tensor3.uniform_product hms hp.stageB.filled hp.rowsB.symm
  rw [← hof] at hhidden
  refine ⟨_, hhidden, hfill, ?_, hlength, hp.colsB, fun b hb j hj => ?_⟩
  · rw [hfill, hp.colsB]
    exact Flat.count_lt (by decide) hroom
  have hj : j < p.stageB.cols := hp.colsB ▸ hj
  obtain ⟨m, hm, -, hrows, hcols⟩ := hms.exists_at (hlength ▸ hb)
  -- Without its middle dimension, a stack of rows is the matrix of these rows.
  have hplace : (b * 1 + 0) * p.stageB.cols + j = b * p.stageB.cols + j := by
    rw [Nat.mul_one, Nat.add_zero]
  have hentry := Tensor3.entry_ofMatrices_map huniform hm Nat.one_pos hj
  rw [Tensor3.entry, Tensor3.ofMatrices, hplace] at hentry
  rw [Tensor2.entry, hentry, Tensor2.entry_product hp.stageB.filled (hcols.trans hp.rowsB.symm)
    (hrows ▸ Nat.one_pos) hj, Tensor2.dot, hcols]
  refine List.foldl_ext _ _ _ fun sum s hs => ?_
  rw [← Tensor3.entry_ofMatrices hms hm Nat.one_pos (List.mem_range.mp hs), ← hof]

/-! ## Both stages -/

/-- A place of the hidden vector of a sequence: its numbers times a column of stage B. -/
def hiddenEntry (p : Projection α) (embeddings : Tensor3 α) (b j : Nat) : α :=
  (List.range embeddings.rows).foldl
    (fun sum s => sum + p.number embeddings b s * p.stageB.entry s j) 0

/-- There is room for the numbers of stage A, for the matrices that it transposes, and for the
hidden vectors. -/
structure Room (batch seqLen dim : Nat) : Prop where
  numbers : Storage.entryBytes * (batch * seqLen) < Word.signedLimit
  matrices : Tensor3.matrixBytes * batch < Word.signedLimit
  vectors : Storage.entryBytes * (batch * dim) < Word.signedLimit

/-- Embeddings that are stored and whose dimensions are those of the stages. -/
structure Takes (p : Projection α) (embeddings : Tensor3 α) : Prop where
  fits : p.Fits embeddings.rows embeddings.cols
  wellFormed : embeddings.WellFormed
  entries : embeddings.data.size < Word.limit
  batch : embeddings.batch < Word.limit

section Apply

variable {embeddings : Tensor3 α} (h : p.Takes embeddings)
include h

theorem applyStageA_eq : p.applyStageA embeddings =
    embeddings.batchedMatmul p.stageA >>= Tensor3.transposeInner := by
  have hdim : embeddings.cols = p.embeddingDim := h.fits.rowsA.symm
  have hseqLen : embeddings.rows = p.seqLen := h.fits.rowsB.symm
  rw [applyStageA, ensure_of hdim, ok_bind, ensure_of hseqLen, ok_bind]

theorem applyStageA_of_no_room
    (hroom : ¬ (Storage.entryBytes * (embeddings.batch * embeddings.rows) < Word.signedLimit ∧
      Tensor3.matrixBytes * embeddings.batch < Word.signedLimit)) :
    p.applyStageA embeddings = .error .fault := by
  have hcount : embeddings.batch * embeddings.rows * p.stageA.cols =
      embeddings.batch * embeddings.rows := by rw [h.fits.colsA, Nat.mul_one]
  rw [applyStageA_eq h]
  by_cases htokens : Storage.entryBytes * (embeddings.batch * embeddings.rows) < Word.signedLimit
  · -- The numbers are there, and their matrices are too many to be listed.
    obtain ⟨ms, hlength, hms, hof⟩ := Tensor3.exists_ofMatrices h.wellFormed
    have hsize := h.entries
    have hbatch := h.batch
    rw [h.wellFormed, Nat.mul_assoc, ← hlength] at hsize
    rw [← hlength] at htokens hroom hcount hbatch
    have hproducts := Tensor3.batchedMatmul_ofMatrices hms hsize h.fits.stageA.filled
      h.fits.rowsA.symm (Flat.count_lt (by decide) htokens) (by rw [hcount]; exact htokens) hbatch
    have hfull : ¬ Tensor3.matrixBytes * (ms.map (·.product p.stageA)).length <
        Word.signedLimit := by
      rw [List.length_map]
      exact fun hmatrices => hroom ⟨htokens, hmatrices⟩
    rw [← hof] at hproducts
    rw [hproducts, ok_bind, Tensor3.transposeInner, Storage.reserve, Tensor3.ofMatrices,
      ensure_of_not hfull]
    rfl
  · have hfull : ¬ (embeddings.batch * embeddings.rows < Word.limit ∧ Storage.entryBytes *
        (embeddings.batch * embeddings.rows * p.stageA.cols) < Word.signedLimit) := by
      rw [hcount]
      exact fun hroom' => htokens hroom'.2
    rw [Tensor3.batchedMatmul_of_no_room hfull]
    rfl

theorem apply_of_no_room (hroom : ¬ Room embeddings.batch embeddings.rows embeddings.cols) :
    p.apply embeddings = .error .fault := by
  by_cases hfirst : Storage.entryBytes * (embeddings.batch * embeddings.rows) < Word.signedLimit ∧
      Tensor3.matrixBytes * embeddings.batch < Word.signedLimit
  · obtain ⟨numbers, hnumbers, -, -, hbatch, hone, -, -⟩ :=
      exists_applyStageA h.fits h.wellFormed h.entries hfirst.1 hfirst.2
    have hfull : ¬ (numbers.batch * numbers.rows < Word.limit ∧ Storage.entryBytes *
        (numbers.batch * numbers.rows * p.stageB.cols) < Word.signedLimit) := by
      rw [hbatch, hone, Nat.mul_one, h.fits.colsB]
      exact fun hvectors => hroom ⟨hfirst.1, hfirst.2, hvectors.2⟩
    rw [apply, hnumbers, ok_bind, applyStageB, Tensor3.batchedMatmul_of_no_room hfull]
    rfl
  · rw [apply, applyStageA_of_no_room h hfirst]
    rfl

/-- The projection of embeddings that go together with its stages has the closed form, in every
place and for every sequence, where there is room for it, and faults where not. -/
theorem apply_eq_closedForm :
    (Storage.entryBytes * (embeddings.batch * embeddings.rows) < Word.signedLimit →
      Tensor3.matrixBytes * embeddings.batch < Word.signedLimit →
      ∃ numbers, p.applyStageA embeddings = .ok numbers ∧ numbers.WellFormed ∧
        numbers.shape = (embeddings.batch, 1, embeddings.rows) ∧
        ∀ b < embeddings.batch, ∀ s < embeddings.rows,
          numbers.get b 0 s = .ok (p.number embeddings b s)) ∧
    (Room embeddings.batch embeddings.rows embeddings.cols →
      ∃ hidden, p.apply embeddings = .ok hidden ∧ hidden.WellFormed ∧
        hidden.rows = embeddings.batch ∧ hidden.cols = embeddings.cols ∧
        ∀ b < embeddings.batch, ∀ j < embeddings.cols,
          hidden.get b j = .ok (p.hiddenEntry embeddings b j)) ∧
    (¬ Room embeddings.batch embeddings.rows embeddings.cols →
      p.apply embeddings = .error .fault) := by
  refine ⟨fun htokens hmatrices => ?_, fun hroom => ?_, apply_of_no_room h⟩
  · obtain ⟨numbers, hnumbers, hwell, hsize, hbatch, hone, hcols, hentries⟩ :=
      exists_applyStageA h.fits h.wellFormed h.entries htokens hmatrices
    refine ⟨numbers, hnumbers, hwell, by rw [Tensor3.shape, hbatch, hone, hcols],
      fun b hb s hs => ?_⟩
    rw [Tensor3.get_eq_entry hwell hsize (hbatch ▸ hb) (hone ▸ Nat.one_pos) (hcols ▸ hs),
      hentries b hb s hs]
  · obtain ⟨numbers, hnumbers, hwell, hsize, hbatch, hone, hcols, hentries⟩ :=
      exists_applyStageA h.fits h.wellFormed h.entries hroom.numbers hroom.matrices
    obtain ⟨hidden, hhidden, hwell', hsize', hrows, hcols', hentries'⟩ :=
      exists_applyStageB (hcols ▸ h.fits) hwell hsize hone (hbatch ▸ h.batch)
        (hbatch ▸ hroom.vectors)
    refine ⟨hidden, by rw [apply, hnumbers, ok_bind, hhidden], hwell', hrows.trans hbatch, hcols',
      fun b hb j hj => ?_⟩
    have hb' : b < numbers.batch := hbatch ▸ hb
    rw [Tensor2.get_eq_entry hwell'.filled hsize' (hrows ▸ hb') (hcols' ▸ hj),
      hentries' b hb' j hj, hcols, hiddenEntry]
    refine congrArg Except.ok (List.foldl_ext _ _ _ fun sum s hs => ?_)
    rw [hentries b hb s (List.mem_range.mp hs)]

end Apply

/-- Two sequences of two tokens. The first number of the second sequence rounds away what its
second product adds, which it would not if the sum went from right to left. -/
theorem apply_eq_closedForm_rounded :
    let one : Binary32 := ⟨0x3f800000⟩
    let p : Projection Binary32 := ⟨⟨#[one, one], 2, 1⟩, ⟨#[one, 0, one, one], 2, 2⟩⟩
    let embeddings : Tensor3 Binary32 :=
      ⟨#[one, 0, 0, one, ⟨0x4b800000⟩, one, one, one], 2, 2, 2⟩
    p.Takes embeddings ∧
    (∃ numbers, p.applyStageA embeddings = .ok numbers ∧ numbers.shape = (2, 1, 2) ∧
      numbers.get 1 0 0 = .ok ⟨0x4b800000⟩) ∧
    ∃ hidden, p.apply embeddings = .ok hidden ∧ hidden.rows = 2 ∧ hidden.cols = 2 ∧
      hidden.get 1 0 = .ok ⟨0x4b800001⟩ := by
  intro one p embeddings
  have h : p.Takes embeddings := ⟨⟨rfl, rfl, rfl, rfl, rfl, rfl⟩, rfl, by decide, by decide⟩
  obtain ⟨hfirst, hboth, -⟩ := apply_eq_closedForm h
  obtain ⟨numbers, hnumbers, -, hshape, hget⟩ := hfirst (by decide) (by decide)
  obtain ⟨hidden, hhidden, -, hrows, hcols, hget'⟩ := hboth ⟨by decide, by decide, by decide⟩
  refine ⟨h, ⟨numbers, hnumbers, hshape, ?_⟩, hidden, hhidden, hrows, hcols, ?_⟩
  · rw [hget 1 (by decide) 0 (by decide)]
    decide +kernel
  · rw [hget' 1 (by decide) 0 (by decide)]
    decide +kernel

/-- A sequence of 2^61 empty embeddings has no entries, and neither has the hidden vector. Its
numbers would take more bytes than a block can have. -/
theorem apply_of_too_many_tokens :
    let p : Projection Binary32 := ⟨⟨#[], 0, 1⟩, ⟨#[], 2305843009213693952, 0⟩⟩
    let embeddings : Tensor3 Binary32 := ⟨#[], 1, 2305843009213693952, 0⟩
    p.Takes embeddings ∧ embeddings.batch * embeddings.rows < Word.limit ∧
    embeddings.batch * embeddings.cols < Word.limit ∧
    p.applyStageA embeddings = .error .fault ∧ p.apply embeddings = .error .fault := by
  intro p embeddings
  have h : p.Takes embeddings := ⟨⟨rfl, rfl, rfl, rfl, rfl, rfl⟩, rfl, by decide, by decide⟩
  refine ⟨h, by decide, by decide, applyStageA_of_no_room h fun hroom => ?_,
    apply_of_no_room h fun hroom => ?_⟩
  · exact absurd hroom.1 (by decide)
  · exact absurd hroom.numbers (by decide)

end Projection

end ShardedModel
