import ShardedModel.Proofs.Lookup
import ShardedModel.Proofs.MergedRanking
import ShardedModel.Scoring

/-!
# Scoring shard by shard is scoring

The score of an id is the product of its row of the table with a hidden vector. A shard
scores the rows of its slice, so what it gets are the columns of its own ids out of the
scores of the whole table: the same products, summed in the same order. `ScoresOf` says
what scores are, which leaves one such matrix.

Before that the projection takes the embeddings to hidden vectors. It is the same for any
number of shards, and each of its stages is done sequence by sequence.
-/

namespace ShardedModel

open Outcome

variable {α : Type} [Zero α]

/-! ## Entries of parts -/

namespace Tensor2

variable {t : Tensor2 α} {lo hi : Nat}

theorem entry_rowRange (hlt : lo < hi) {r j : Nat} (hr : r < hi - lo) (hj : j < t.cols) :
    (t.rowRange lo hi).entry r j = t.entry (lo + r) j := by
  rw [entry_eq_line t (lo + r) hj, ← line_rowRange hlt hr]
  exact entry_eq_line (t.rowRange lo hi) r hj

theorem entry_columns (h : t.Filled) (hhi : hi ≤ t.cols) {b j : Nat} (hb : b < t.rows)
    (hj : j < hi - lo) : (t.columns lo hi).entry b j = t.entry b (lo + j) := by
  have hentry : (t.columns lo hi).entry b j = ((t.columns lo hi).line b).getD j 0 :=
    entry_eq_line _ b hj
  rw [hentry, line_columns h hhi hb, entry_eq_line t b (by omega), Array.getD_eq_getD_getElem?,
    Array.getD_eq_getD_getElem?, Array.getElem?_extract, size_line h hb, if_pos (by omega)]

end Tensor2

/-! ## Scores of a table -/

variable [Add α] [Mul α]

/-- The score of id `j` for sequence `b`. -/
def score (table hidden : Tensor2 α) (b j : Nat) : α :=
  (List.range table.cols).foldl (fun sum p => sum + table.entry j p * hidden.entry b p) 0

/-- A matrix of scores has a row for each hidden vector and a column for each row of the
table. -/
structure ScoresOf (table hidden scores : Tensor2 α) : Prop where
  wellFormed : scores.WellFormed
  rows : scores.rows = hidden.rows
  cols : scores.cols = table.rows
  entries : ∀ b < hidden.rows, ∀ j < table.rows, scores.entry b j = score table hidden b j

variable {table hidden scores : Tensor2 α}

theorem ScoresOf.eq {scores' : Tensor2 α} (h : ScoresOf table hidden scores)
    (h' : ScoresOf table hidden scores') : scores = scores' := by
  refine Tensor2.eq_of_entries h.wellFormed h'.wellFormed (h.rows.trans h'.rows.symm)
    (h.cols.trans h'.cols.symm) fun b hb j hj => ?_
  rw [h.rows] at hb
  rw [h.cols] at hj
  rw [h.entries b hb j hj, h'.entries b hb j hj]

theorem ScoresOf.size_lt (hscores : ScoresOf table hidden scores)
    (hroom : Storage.entryBytes * (table.rows * hidden.rows) < Word.signedLimit) :
    scores.data.size < Word.limit := by
  rw [hscores.wellFormed, hscores.rows, hscores.cols, Nat.mul_comm]
  exact Flat.count_lt (by decide) hroom

/-- There are scores of any table, whether or not there is room for them. -/
theorem exists_scoresOf (table hidden : Tensor2 α) : ∃ scores, ScoresOf table hidden scores := by
  have hsize : ∀ l ∈ (List.range hidden.rows).map fun b =>
      Array.ofFn fun j : Fin table.rows => score table hidden b j, l.size = table.rows := by
    intro l hl
    obtain ⟨b, -, rfl⟩ := List.mem_map.mp hl
    exact Array.size_ofFn
  refine ⟨⟨Flat.concat ((List.range hidden.rows).map fun b =>
    Array.ofFn fun j : Fin table.rows => score table hidden b j), hidden.rows, table.rows⟩,
    ?_, rfl, rfl, ?_⟩
  · rw [Tensor2.WellFormed, Flat.size_concat hsize, List.length_map, List.length_range]
  · intro b hb j hj
    rw [Tensor2.entry_eq_line _ b hj,
      Tensor2.line_concat hsize (getElem?_map_range.mpr ⟨hb, rfl⟩), Array.getD_eq_getD_getElem?,
      Array.getElem?_ofFn, dif_pos hj]
    rfl

theorem exists_shardLogits {shard : Shard} {slice : TableSlice α}
    (hcheck : slice.check shard = .ok ()) (hslice : slice.table.Filled) (h : hidden.WellFormed)
    (hdim : slice.table.cols = hidden.cols)
    (hroom : Storage.entryBytes * (slice.table.rows * hidden.rows) < Word.signedLimit) :
    ∃ scores, shardLogits shard slice hidden = .ok ⟨shard.id, scores⟩ ∧
      ScoresOf slice.table hidden scores := by
  obtain ⟨columns, hcolumns, hwell, hrows, hcols, hentries⟩ := Tensor2.exists_transpose h
  obtain ⟨products, hproducts, hwell', hrows', hcols', hentries'⟩ :=
    Tensor2.exists_matmul hslice hwell.filled (hdim.trans hrows.symm) (hcols ▸ hroom)
  obtain ⟨scores, hscores, hwell'', hrows'', hcols'', hentries''⟩ :=
    Tensor2.exists_transpose hwell'
  rw [hrows', hcols', hcols] at hentries''
  refine ⟨scores, ?_, hwell'', hrows''.trans (hcols'.trans hcols), hcols''.trans hrows',
    fun b hb j hj => ?_⟩
  · rw [shardLogits, hcheck, ok_bind, TableSlice.embeddingDim, ensure_of hdim, ok_bind, hcolumns,
      ok_bind, hproducts, ok_bind, hscores]
    rfl
  · rw [hentries'' j hj b hb, hentries' j hj b (hcols ▸ hb), Tensor2.dot, score]
    refine List.foldl_ext _ _ _ fun sum p hp => ?_
    rw [hentries b hb p (hdim ▸ List.mem_range.mp hp)]

/-- The columns of a range of ids are the scores of their rows. -/
theorem ScoresOf.columns (h : ScoresOf table hidden scores) {lo hi : Nat} (hlt : lo < hi)
    (hhi : hi ≤ table.rows) : ScoresOf (table.rowRange lo hi) hidden (scores.columns lo hi) := by
  have hhi' : hi ≤ scores.cols := h.cols ▸ hhi
  refine ⟨Tensor2.wellFormed_columns h.wellFormed.filled hhi', h.rows, rfl, fun b hb j hj => ?_⟩
  have hj : j < hi - lo := hj
  rw [Tensor2.entry_columns h.wellFormed.filled hhi' (h.rows ▸ hb) hj,
    h.entries b hb (lo + j) (by omega), score, score]
  refine List.foldl_ext _ _ _ fun sum p hp => ?_
  rw [Tensor2.entry_rowRange hlt hj (List.mem_range.mp hp)]

omit [Zero α] [Add α] [Mul α] in
/-- Where there is room for the scores of all ids, there is for those of a shard. -/
theorem slice_room {v n i batch : Nat} (hi : i < n)
    (hroom : Storage.entryBytes * (v * batch) < Word.signedLimit) :
    Storage.entryBytes * ((Plan.bound v n (i + 1) - Plan.bound v n i) * batch) <
      Word.signedLimit := by
  have hwidth : Plan.bound v n (i + 1) - Plan.bound v n i ≤ v :=
    Nat.le_trans (Nat.sub_le _ _) (Plan.bound_le hi)
  exact Nat.lt_of_le_of_lt (Nat.mul_le_mul_left _ (Nat.mul_le_mul_right _ hwidth)) hroom

/-- A shard gets the columns of its ids out of the scores of the whole table. -/
theorem shardLogits_sliceAt {plan : Plan} {v n i : Nat} (hplan : plan.CutOf v n) (hi : i < n)
    (htable : table.Filled) (hrows : table.rows = v) (h : hidden.WellFormed)
    (hdim : table.cols = hidden.cols)
    (hroom : Storage.entryBytes * ((Plan.bound v n (i + 1) - Plan.bound v n i) * hidden.rows) <
      Word.signedLimit)
    (hscores : ScoresOf table hidden scores) :
    shardLogits (Plan.shardAt v n i) (sliceAt table v n i) hidden =
      .ok (Logits.ofColumns scores (Plan.shardAt v n i)) := by
  have hle : Plan.bound v n (i + 1) ≤ table.rows := hrows ▸ Plan.bound_le hi
  obtain ⟨part, hpart, hof⟩ := exists_shardLogits (check_sliceAt hplan hi)
    (Tensor2.wellFormed_rowRange htable hle).filled h hdim hroom
  rw [hpart, hof.eq (hscores.columns (hplan.bound_lt_succ hi) hle), Logits.ofColumns,
    Plan.shardAt_lo hi]
  rfl

/-! ## Hidden vectors -/

/-- The dimensions of the stages belong to embeddings of `dim` numbers and sequences of
`seqLen` tokens, and the stages are well formed. -/
structure Projection.Fits (p : Projection α) (seqLen dim : Nat) : Prop where
  stageA : p.stageA.WellFormed
  rowsA : p.stageA.rows = dim
  colsA : p.stageA.cols = 1
  stageB : p.stageB.WellFormed
  rowsB : p.stageB.rows = seqLen
  colsB : p.stageB.cols = dim

namespace Projection

variable {p : Projection α}

/-- The numbers that stage A gives for the embeddings of one sequence, in one row. -/
def weighed (p : Projection α) (m : Tensor2 α) : Tensor2 α := (m.product p.stageA).flipped

section Stages

variable {ms : List (Tensor2 α)} {seqLen dim : Nat}

/-- Stage A is done sequence by sequence. It has a row for each of its columns. -/
theorem applyStageA_of_filled (hms : Tensor3.Uniform ms seqLen dim) (hA : p.stageA.Filled)
    (hrowsA : p.stageA.rows = dim) (hrowsB : p.stageB.rows = seqLen)
    (hsize : ms.length * (seqLen * dim) < Word.limit) (hlines : ms.length * seqLen < Word.limit)
    (hroom : Storage.entryBytes * (ms.length * seqLen * p.stageA.cols) < Word.signedLimit)
    (hmatrices : Tensor3.matrixBytes * ms.length < Word.signedLimit) :
    p.applyStageA (.ofMatrices ms seqLen dim) =
      .ok (.ofMatrices (ms.map p.weighed) p.stageA.cols seqLen) := by
  have hproducts := Tensor3.batchedMatmul_ofMatrices hms hsize hA hrowsA.symm hlines hroom
    (Flat.count_lt (by decide) hmatrices)
  have hcount : ms.length * seqLen * p.stageA.cols < Word.limit := Flat.count_lt (by decide) hroom
  have hflipped := Tensor3.transposeInner_ofMatrices (Tensor3.uniform_product hms hA hrowsA.symm)
    (by rw [List.length_map, ← Nat.mul_assoc]; exact hcount)
    (by rw [List.length_map]; exact hmatrices)
  have hdim : (Tensor3.ofMatrices ms seqLen dim).cols = p.stageA.rows := hrowsA.symm
  have hseqLen : (Tensor3.ofMatrices ms seqLen dim).rows = p.stageB.rows := hrowsB.symm
  rw [applyStageA, embeddingDim, ensure_of hdim, ok_bind, Projection.seqLen, ensure_of hseqLen,
    ok_bind, hproducts, ok_bind, hflipped, List.map_map]
  rfl

/-- With one column, it gives a row of numbers. -/
theorem applyStageA_ofMatrices (hms : Tensor3.Uniform ms seqLen dim) (hA : p.stageA.Filled)
    (hrowsA : p.stageA.rows = dim) (hcolsA : p.stageA.cols = 1) (hrowsB : p.stageB.rows = seqLen)
    (hsize : ms.length * (seqLen * dim) < Word.limit)
    (htokens : Storage.entryBytes * (ms.length * seqLen) < Word.signedLimit)
    (hmatrices : Tensor3.matrixBytes * ms.length < Word.signedLimit) :
    p.applyStageA (.ofMatrices ms seqLen dim) = .ok (.ofMatrices (ms.map p.weighed) 1 seqLen) := by
  have hweighed := applyStageA_of_filled hms hA hrowsA hrowsB hsize
    (Flat.count_lt (by decide) htokens) (by rw [hcolsA, Nat.mul_one]; exact htokens) hmatrices
  rwa [hcolsA] at hweighed

theorem uniform_rows_weighed (hms : Tensor3.Uniform ms seqLen dim) (hA : p.stageA.Filled)
    (hrowsA : p.stageA.rows = dim) :
    Tensor3.Uniform (ms.map p.weighed) p.stageA.cols seqLen := by
  have huniform := Tensor3.uniform_flipped (Tensor3.uniform_product hms hA hrowsA.symm)
  rwa [List.map_map] at huniform

theorem uniform_weighed (hms : Tensor3.Uniform ms seqLen dim) (hA : p.stageA.Filled)
    (hrowsA : p.stageA.rows = dim) (hcolsA : p.stageA.cols = 1) :
    Tensor3.Uniform (ms.map p.weighed) 1 seqLen :=
  hcolsA ▸ uniform_rows_weighed hms hA hrowsA

/-- So is stage B. Its rows are the hidden vectors. -/
theorem applyStageB_ofMatrices (hms : Tensor3.Uniform ms 1 seqLen) (hB : p.stageB.Filled)
    (hrowsB : p.stageB.rows = seqLen) (hsize : ms.length * seqLen < Word.limit)
    (hlength : ms.length < Word.limit)
    (hroom : Storage.entryBytes * (ms.length * p.stageB.cols) < Word.signedLimit) :
    p.applyStageB (.ofMatrices ms 1 seqLen) =
      .ok ⟨Flat.concat ((ms.map (·.product p.stageB)).map (·.data)), ms.length, p.stageB.cols⟩ ∧
      (Flat.concat ((ms.map (·.product p.stageB)).map (·.data))).size =
        ms.length * p.stageB.cols := by
  have hprojected := Tensor3.batchedMatmul_ofMatrices hms (by rw [Nat.one_mul]; exact hsize) hB
    hrowsB.symm (by rw [Nat.mul_one]; exact hlength) (by rw [Nat.mul_one]; exact hroom) hlength
  have hdata : (Flat.concat ((ms.map (·.product p.stageB)).map (·.data))).size =
      ms.length * p.stageB.cols := by
    rw [Flat.size_concat (Tensor3.uniform_product hms hB hrowsB.symm).size_data, List.length_map,
      List.length_map, Nat.one_mul]
  refine ⟨?_, hdata⟩
  rw [applyStageB, hprojected, ok_bind, Tensor3.ofMatrices, Tensor3.squeezeMiddle, ensure_of rfl,
    ok_bind, List.length_map, Tensor2.ofData, Word.mul_of_lt (Flat.count_lt (by decide) hroom),
    ok_bind, ensure_of hdata]
  rfl

/-- Of any other number of rows, stage B makes no hidden vectors. -/
theorem applyStageB_of_rows_ne {rows : Nat} (hms : Tensor3.Uniform ms rows seqLen)
    (hB : p.stageB.Filled) (hrowsB : p.stageB.rows = seqLen)
    (hsize : ms.length * (rows * seqLen) < Word.limit) (hlines : ms.length * rows < Word.limit)
    (hroom : Storage.entryBytes * (ms.length * rows * p.stageB.cols) < Word.signedLimit)
    (hlength : ms.length < Word.limit) (hrows : rows ≠ 1) :
    p.applyStageB (.ofMatrices ms rows seqLen) = .error (.shape (.squeeze rows)) := by
  have hprojected := Tensor3.batchedMatmul_ofMatrices hms hsize hB hrowsB.symm hlines hroom
    hlength
  rw [applyStageB, hprojected, ok_bind, Tensor3.ofMatrices, Tensor3.squeezeMiddle,
    ensure_of_not hrows]
  rfl

end Stages

end Projection

end ShardedModel
