import ShardedModel.Proofs.Scores
import ShardedModel.Proofs.Stages

/-!
# A batch is predicted sequence by sequence

The sequences of a batch stand one after the other in flat storage, and every step of a
call goes over all of them: tokens are looked up in one pass, the stages multiply a stack,
the scores of a shard are one product of matrices. Each step has strides of its own, and a
wrong one would let a sequence see the numbers of another.

`predictSequence` says what a call computes for one sequence, and the batch does not occur in
it. The chain on a batch gives this for each of its sequences and nothing else. At every step
the storage is the concatenation of one part for each sequence, the parts have the same size,
and the part of a sequence is computed from its part of the step before.
-/

namespace ShardedModel

open Outcome

variable {α : Type}

/-! ## Parameters that were checked -/

namespace Parameters

/-- The table of a shard. -/
def table (params : Parameters α) (i : Nat) : Tensor2 α :=
  ((params.shards[i]?).map (·.table)).getD ⟨#[], 0, 0⟩

/-- Parameters that were checked against the cut of `v` ids into `n` ranges. -/
structure Checked (params : Parameters α) (v n : Nat) : Prop where
  length : params.shards.length = n
  slice : ∀ i < n, params.slice i = .ok ⟨i, params.table i⟩
  check : ∀ i < n, (⟨i, params.table i⟩ : TableSlice α).check (Plan.shardAt v n i) = .ok ()
  dim : ∀ i < n, (params.table i).cols = params.projection.embeddingDim

theorem checked_of_validate {params : Parameters α} {plan : Plan} {v n : Nat}
    (hplan : plan.CutOf v n) (h : params.validate plan = .ok ()) : params.Checked v n := by
  obtain ⟨hlength, hslices⟩ := (validate_eq_ok hplan).mp h
  have hget : ∀ i < n, params.shards[i]? = some ⟨i, params.table i⟩ := by
    intro i hi
    have hs : params.shards[i]? = some (params.shards.get ⟨i, hlength ▸ hi⟩) :=
      List.getElem?_eq_getElem _
    rw [table, hs]
    exact congrArg (fun id => some (⟨id, _⟩ : TableSlice α)) (hslices i _ hs).1
  refine ⟨hlength, fun i hi => slice_eq_ok.mpr ⟨hget i hi, rfl⟩, fun i hi => ?_,
    fun i hi => (hslices i _ (hget i hi)).2.2⟩
  rw [TableSlice.check_eq_ok, Plan.shardAt_lo hi]
  exact ⟨rfl, Plan.bound_le_succ hi, (hslices i _ (hget i hi)).2.1⟩

namespace Checked

variable {params : Parameters α} {v n : Nat}

theorem rows (h : params.Checked v n) {i : Nat} (hi : i < n) :
    (params.table i).rows = Plan.bound v n (i + 1) - Plan.bound v n i := by
  rw [(TableSlice.check_eq_ok.mp (h.check i hi)).2.2, Plan.shardAt_lo hi, Plan.shardAt_hi]

theorem mem_shards (h : params.Checked v n) {s : TableSlice α} :
    s ∈ params.shards ↔ ∃ i < n, s = ⟨i, params.table i⟩ := by
  constructor
  · intro hs
    obtain ⟨i, hi⟩ := List.getElem?_of_mem hs
    obtain ⟨hlt, -⟩ := List.getElem?_eq_some_iff.mp hi
    rw [h.length] at hlt
    obtain ⟨hget, -⟩ := slice_eq_ok.mp (h.slice i hlt)
    exact ⟨i, hlt, Option.some.inj (hi.symm.trans hget)⟩
  · rintro ⟨i, hi, rfl⟩
    exact List.mem_of_getElem? (slice_eq_ok.mp (h.slice i hi)).1

theorem slice_mem (h : params.Checked v n) {i : Nat} (hi : i < n) :
    (⟨i, params.table i⟩ : TableSlice α) ∈ params.shards :=
  h.mem_shards.mpr ⟨i, hi, rfl⟩

theorem eachShard_eq_mapM {β : Type} (h : params.Checked v n) {plan : Plan}
    (hplan : plan.CutOf v n) (step : Shard → TableSlice α → Outcome β) :
    Chain.eachShard plan params step =
      (List.range n).mapM fun i => step (Plan.shardAt v n i) ⟨i, params.table i⟩ := by
  rw [Chain.eachShard_eq hplan]
  refine mapM_congr fun i hi => ?_
  have hi := List.mem_range.mp hi
  rw [hplan.shard hi, ok_bind, h.slice i hi, ok_bind]

/-- A step that succeeds on each slice. -/
theorem eachShard {β : Type} (h : params.Checked v n) {plan : Plan} (hplan : plan.CutOf v n)
    {step : Shard → TableSlice α → Outcome β} {f : Nat → β}
    (hstep : ∀ i < n, step (Plan.shardAt v n i) ⟨i, params.table i⟩ = .ok (f i)) :
    Chain.eachShard plan params step = .ok ((List.range n).map f) := by
  rw [h.eachShard_eq_mapM hplan]
  exact mapM_eq_ok_map fun i hi => hstep i (List.mem_range.mp hi)

end Checked

/-- The data of all tensors are there, and the dimensions of the stages belong together. -/
structure Sound (params : Parameters α) : Prop where
  slices : ∀ s ∈ params.shards, s.table.Filled
  stageA : params.projection.stageA.Filled
  colsA : params.projection.stageA.cols = 1
  stageB : params.projection.stageB.Filled
  colsB : params.projection.stageB.cols = params.projection.stageA.rows

/-- There is room for each block of numbers that a call on a batch of this shape asks for. -/
structure RoomFor (params : Parameters α) (batch seqLen : Nat) : Prop where
  embeddings : Storage.entryBytes * (batch * seqLen * params.projection.embeddingDim) <
    Word.signedLimit
  numbers : Storage.entryBytes * (batch * seqLen) < Word.signedLimit
  matrices : Tensor3.matrixBytes * batch < Word.signedLimit
  scores : ∀ s ∈ params.shards, Storage.entryBytes * (s.table.rows * batch) < Word.signedLimit

/-- There is room for the lists that a call for `k` candidates puts together, whatever the
batch. -/
def ListsFit (params : Parameters α) (k : Nat) : Prop :=
  ∀ s ∈ params.shards, ListRoom params.shards.length k s.table.rows

instance (params : Parameters α) (k : Nat) : Decidable (params.ListsFit k) :=
  inferInstanceAs (Decidable (∀ s ∈ params.shards, _))

end Parameters

/-! ## Storage in parts -/

theorem Flat.concat_flatten (parts : List (List (Array α))) :
    concat parts.flatten = concat (parts.map concat) := by
  induction parts with
  | nil => rfl
  | cons part parts ih => rw [List.flatten_cons, concat_append, ih, List.map_cons, concat_cons]

/-- The lines of a batch, taken sequence by sequence. -/
theorem stack_of_sequences {sequences : List (List Int)} {seqLen dim : Nat}
    (line : Int → Array α) :
    (⟨sequences.flatten, sequences.length, seqLen⟩ : TokenBatch).stack dim line =
      .ofMatrices (sequences.map fun s => ⟨Flat.concat (s.map line), seqLen, dim⟩) seqLen dim := by
  rw [TokenBatch.stack, Tensor3.ofMatrices, List.length_map, List.map_map, List.map_flatten,
    Flat.concat_flatten, List.map_map]
  rfl

/-! ## One sequence -/

section OneSequence

variable [Zero α] [Add α] [Mul α]

namespace Parameters

/-- The embedding of a token: what the shards hand in for it, summed in their order. -/
def embedToken (params : Parameters α) (v n : Nat) (id : Int) : Array α :=
  sumLines (fun i => ownRow (params.table i) v n i id) (n - 1)

def embedSequence (params : Parameters α) (v n : Nat) (s : List Int) : Tensor2 α :=
  ⟨Flat.concat (s.map (params.embedToken v n)), s.length, params.projection.embeddingDim⟩

/-- The hidden vector of a sequence, as a matrix of one row. -/
def hiddenOf (params : Parameters α) (v n : Nat) (s : List Int) : Tensor2 α :=
  (params.projection.weighed (params.embedSequence v n s)).product params.projection.stageB

/-- The hidden vectors of some sequences, a row for each. -/
def hiddenRows (params : Parameters α) (v n : Nat) (sequences : List (List Int)) : Tensor2 α :=
  ⟨Flat.concat (sequences.map fun s => (params.hiddenOf v n s).data), sequences.length,
    params.projection.stageB.cols⟩

end Parameters

/-- The scores of the rows of a table for a hidden vector. -/
def scoresFor (table hidden : Tensor2 α) : List α :=
  (List.range table.rows).map (score table hidden 0)

/-- What a shard keeps for sequence `b`. -/
def Parameters.keptFor [Ord α] (params : Parameters α) (v n k : Nat) (sequences : List (List Int))
    (i b : Nat) : List (Candidate α) :=
  topK (scoresFor (params.table i) (params.hiddenOf v n (sequences.getD b []))) k

/-- The best `k` tokens after a sequence. -/
def Parameters.predictSequence [Ord α] (params : Parameters α) (v n k : Nat) (s : List Int) :
    List (Candidate α) :=
  Candidate.best ((List.range n).flatMap fun i =>
    (topK (scoresFor (params.table i) (params.hiddenOf v n s)) k).map
      (Candidate.shift (Plan.bound v n i))) k

end OneSequence

/-! ## All sequences of a batch -/

/-- The batch of some sequences. -/
def TokenBatch.join (sequences : List (List Int)) (seqLen : Nat) : TokenBatch :=
  ⟨sequences.flatten, sequences.length, seqLen⟩

/-- There are sequences, and all have the same positive length. -/
structure Rectangular (sequences : List (List Int)) (seqLen : Nat) : Prop where
  lengths : ∀ s ∈ sequences, s.length = seqLen
  nonempty : 0 < sequences.length
  seqLen_pos : 0 < seqLen

theorem Rectangular.length_flatten {sequences : List (List Int)} {seqLen : Nat}
    (h : Rectangular sequences seqLen) :
    sequences.flatten.length = sequences.length * seqLen := by
  rw [List.length_flatten, List.map_congr_left h.lengths, List.map_const',
    List.sum_replicate_nat]

/-- Ids of the right number are the sequences of a batch, one after the other. -/
theorem exists_sequences (seqLen : Nat) {ids : List Int} {batch : Nat}
    (h : ids.length = batch * seqLen) :
    ∃ sequences : List (List Int), sequences.length = batch ∧
      (∀ s ∈ sequences, s.length = seqLen) ∧ sequences.flatten = ids := by
  induction batch generalizing ids with
  | zero =>
      rw [Nat.zero_mul] at h
      exact ⟨[], rfl, by simp, (List.eq_nil_of_length_eq_zero h).symm⟩
  | succ batch ih =>
      rw [Nat.succ_mul] at h
      have hrest : (ids.drop seqLen).length = batch * seqLen := by
        rw [List.length_drop]
        omega
      obtain ⟨rest, hlength, hlengths, hflatten⟩ := ih hrest
      refine ⟨ids.take seqLen :: rest, by rw [List.length_cons, hlength], ?_, ?_⟩
      · intro s hs
        rcases List.mem_cons.mp hs with rfl | hs
        · rw [List.length_take]
          omega
        · exact hlengths s hs
      · rw [List.flatten_cons, hflatten, List.take_append_drop]

theorem TokenBatch.ofIds_eq_ok {ids : List Int} {batch seqLen : Nat} {tokens : TokenBatch} :
    ofIds ids batch seqLen = .ok tokens ↔ batch * seqLen < Word.limit ∧
      ids.length = batch * seqLen ∧ (batch ≠ 0 ∧ seqLen ≠ 0) ∧ tokens = ⟨ids, batch, seqLen⟩ := by
  rw [ofIds, bind_eq_ok]
  constructor
  · rintro ⟨count, hcount, h⟩
    obtain ⟨hlt, rfl⟩ := Word.check_eq_ok.mp hcount
    obtain ⟨⟨⟩, hlength, h⟩ := bind_eq_ok.mp h
    obtain ⟨⟨⟩, hpos, h⟩ := bind_eq_ok.mp h
    exact ⟨hlt, ensure_eq_ok.mp hlength, ensure_eq_ok.mp hpos, (Except.ok.inj h).symm⟩
  · rintro ⟨hlt, hlength, hpos, rfl⟩
    refine ⟨_, Word.mul_of_lt hlt, ?_⟩
    rw [ensure_of hlength, ok_bind, ensure_of hpos, ok_bind]

theorem TokenBatch.exists_join {ids : List Int} {batch seqLen : Nat} {tokens : TokenBatch}
    (h : ofIds ids batch seqLen = .ok tokens) :
    ∃ sequences, sequences.length = batch ∧ Rectangular sequences seqLen ∧
      tokens = join sequences seqLen := by
  obtain ⟨-, hlength, hpos, rfl⟩ := ofIds_eq_ok.mp h
  obtain ⟨sequences, rfl, hlengths, rfl⟩ := exists_sequences seqLen hlength
  exact ⟨sequences, rfl, ⟨hlengths, by omega, by omega⟩, rfl⟩

/-- A call for these sequences can be made. -/
structure Parameters.Serves (params : Parameters α) (v n : Nat) (sequences : List (List Int))
    (seqLen : Nat) : Prop extends Rectangular sequences seqLen where
  checked : params.Checked v n
  vocab : v ≤ Word.signedLimit
  sound : params.Sound
  words : ∀ s ∈ params.shards, s.table.data.size < Word.limit
  room : params.RoomFor sequences.length seqLen
  seqLen_eq : seqLen = params.projection.seqLen

namespace Parameters.Serves

variable [Zero α] [Add α] [Mul α]
variable {params : Parameters α} {plan : Plan} {v n k seqLen : Nat} {sequences : List (List Int)}
variable (h : params.Serves v n sequences seqLen) (hplan : plan.CutOf v n)

include h

omit [Zero α] [Add α] [Mul α] in
theorem filled {i : Nat} (hi : i < n) : (params.table i).Filled :=
  h.sound.slices _ (h.checked.slice_mem hi)

omit [Add α] [Mul α] in
theorem size_ownRow {i : Nat} (hi : i < n) (id : Int) :
    (ownRow (params.table i) v n i id).size = params.projection.embeddingDim := by
  rw [ShardedModel.size_ownRow hi (h.filled hi) (h.checked.rows hi), h.checked.dim i hi]

omit [Mul α] in
theorem size_embedToken (hn : 0 < n) (id : Int) :
    (params.embedToken v n id).size = params.projection.embeddingDim :=
  size_sumLines fun i hi => h.size_ownRow (by omega) id

omit [Mul α] in
theorem uniform_embedSequence (hn : 0 < n) :
    Tensor3.Uniform (sequences.map (params.embedSequence v n)) seqLen
      params.projection.embeddingDim := by
  intro m hm
  obtain ⟨s, hs, rfl⟩ := List.mem_map.mp hm
  refine ⟨?_, h.lengths s hs, rfl⟩
  have hsizes : ∀ line ∈ s.map (params.embedToken v n),
      line.size = params.projection.embeddingDim := by
    intro line hline
    obtain ⟨id, -, rfl⟩ := List.mem_map.mp hline
    exact h.size_embedToken hn id
  rw [Tensor2.WellFormed, embedSequence, Flat.size_concat hsizes, List.length_map]

include hplan

omit [Add α] [Mul α] in
theorem gathered :
    Chain.eachShard plan params (fun shard slice =>
        gather shard slice (.join sequences seqLen)) =
      .ok ((List.range n).map fun i => ⟨i, (TokenBatch.join sequences seqLen).stack
        params.projection.embeddingDim (ownRow (params.table i) v n i)⟩) := by
  refine h.checked.eachShard hplan fun i hi => ?_
  have hdim := h.checked.dim i hi
  have hlines : sequences.length * seqLen < Word.limit := Flat.count_lt (by decide) h.room.numbers
  have hgather : gather (Plan.shardAt v n i) ⟨i, params.table i⟩ (.join sequences seqLen) = .ok _ :=
    gather_of_filled hplan h.vocab hi (h.checked.check i hi) (h.filled hi)
      (h.words _ (h.checked.slice_mem hi)) h.length_flatten hlines
      (by rw [hdim]; exact h.room.embeddings)
  rw [hgather, hdim]
  rfl

omit [Mul α] in
theorem combined :
    combine ((List.range n).map fun i => ⟨i, (TokenBatch.join sequences seqLen).stack
        params.projection.embeddingDim (ownRow (params.table i) v n i)⟩) plan =
      .ok (.ofMatrices (sequences.map (params.embedSequence v n)) seqLen
        params.projection.embeddingDim) := by
  rw [combine_stack hplan _ fun i hi id => h.size_ownRow hi id, TokenBatch.join,
    stack_of_sequences]
  congr 2
  refine List.map_congr_left fun s hs => ?_
  rw [embedSequence, h.lengths s hs]
  rfl

theorem projected :
    ∃ weighed, params.projection.applyStageA (.ofMatrices
        (sequences.map (params.embedSequence v n)) seqLen params.projection.embeddingDim) =
      .ok weighed ∧
      params.projection.applyStageB weighed = .ok (params.hiddenRows v n sequences) := by
  have huniform := h.uniform_embedSequence hplan.pos
  have hlength : (sequences.map (params.embedSequence v n)).length = sequences.length :=
    List.length_map _
  have hle : sequences.length * params.projection.embeddingDim ≤
      sequences.length * seqLen * params.projection.embeddingDim :=
    Nat.mul_le_mul_right _ (Nat.le_mul_of_pos_right _ h.seqLen_pos)
  have hcolsB : params.projection.stageB.cols = params.projection.embeddingDim := h.sound.colsB
  have hnumbers : sequences.length * seqLen < Word.limit := Flat.count_lt (by decide) h.room.numbers
  have hbatch : sequences.length < Word.limit := Flat.count_lt (by decide) h.room.matrices
  have hsize : sequences.length * (seqLen * params.projection.embeddingDim) < Word.limit := by
    rw [← Nat.mul_assoc]
    exact Flat.count_lt (by decide) h.room.embeddings
  have hhidden : Storage.entryBytes * (sequences.length * params.projection.stageB.cols) <
      Word.signedLimit := by
    rw [hcolsB]
    exact Nat.lt_of_le_of_lt (Nat.mul_le_mul_left _ hle) h.room.embeddings
  have hweighed := Projection.applyStageA_ofMatrices huniform h.sound.stageA rfl h.sound.colsA
    h.seqLen_eq.symm (by rw [hlength]; exact hsize) (by rw [hlength]; exact h.room.numbers)
    (by rw [hlength]; exact h.room.matrices)
  have huniform' := Projection.uniform_weighed huniform h.sound.stageA rfl h.sound.colsA
  rw [List.map_map] at hweighed huniform'
  obtain ⟨hrows, -⟩ := Projection.applyStageB_ofMatrices huniform' h.sound.stageB
    h.seqLen_eq.symm (by rw [List.length_map]; exact hnumbers)
    (by rw [List.length_map]; exact hbatch) (by rw [List.length_map]; exact hhidden)
  rw [List.length_map, List.map_map, List.map_map] at hrows
  exact ⟨_, hweighed, hrows⟩

omit hplan

theorem size_hidden :
    ∀ line ∈ sequences.map fun s => (params.hiddenOf v n s).data,
      line.size = params.projection.stageB.cols := by
  intro line hline
  obtain ⟨s, hs, rfl⟩ := List.mem_map.mp hline
  have hlength : s.length = params.projection.stageB.rows := (h.lengths s hs).trans h.seqLen_eq
  have hwell : (params.hiddenOf v n s).WellFormed :=
    Tensor2.wellFormed_product h.sound.stageB hlength
  rw [hwell]
  show params.projection.stageA.cols * _ = _
  rw [h.sound.colsA, Nat.one_mul]
  rfl

theorem wellFormed_hiddenRows : (params.hiddenRows v n sequences).WellFormed := by
  rw [Tensor2.WellFormed, hiddenRows, Flat.size_concat h.size_hidden, List.length_map]

/-- The hidden vector of a sequence is its row of the hidden vectors of all sequences. -/
theorem entry_hiddenRows {b p : Nat} {s : List Int} (hs : sequences[b]? = some s)
    (hp : p < params.projection.stageB.cols) :
    (params.hiddenRows v n sequences).entry b p = (params.hiddenOf v n s).entry 0 p := by
  have hline : (params.hiddenRows v n sequences).line b = (params.hiddenOf v n s).data :=
    Tensor2.line_concat h.size_hidden (by rw [List.getElem?_map, hs]; rfl)
  have hentry := Tensor2.entry_eq_line (params.hiddenRows v n sequences) b hp
  rw [hentry, hline, Tensor2.entry, Nat.zero_mul, Nat.zero_add]

theorem line_scores {i b : Nat} {s : List Int} (hi : i < n) (hs : sequences[b]? = some s)
    {scores : Tensor2 α}
    (hof : ScoresOf (params.table i) (params.hiddenRows v n sequences) scores) :
    (scores.line b).toList = scoresFor (params.table i) (params.hiddenOf v n s) := by
  obtain ⟨hb, -⟩ := List.getElem?_eq_some_iff.mp hs
  have hsize : (scores.line b).size = (params.table i).rows := by
    rw [Tensor2.size_line hof.wellFormed.filled (by rw [hof.rows]; exact hb), hof.cols]
  have hdim : (params.table i).cols = params.projection.stageB.cols :=
    (h.checked.dim i hi).trans h.sound.colsB.symm
  refine List.ext_getElem (by simp [scoresFor, hsize]) fun j hj hj' => ?_
  rw [Array.length_toList, hsize] at hj
  have hentry := hof.entries b hb j hj
  rw [Tensor2.entry_eq_line scores b (hof.cols ▸ hj)] at hentry
  have hscore : score (params.table i) (params.hiddenRows v n sequences) b j =
      score (params.table i) (params.hiddenOf v n s) 0 j := by
    refine List.foldl_ext _ _ _ fun sum p hp => ?_
    rw [h.entry_hiddenRows hs (hdim ▸ List.mem_range.mp hp)]
  rw [hscore] at hentry
  simpa [scoresFor, Array.getD, hsize, hj] using hentry

theorem exists_logits {i : Nat} (hi : i < n) :
    ∃ scores, shardLogits (Plan.shardAt v n i) ⟨i, params.table i⟩
        (params.hiddenRows v n sequences) = .ok ⟨i, scores⟩ ∧
      ScoresOf (params.table i) (params.hiddenRows v n sequences) scores :=
  exists_shardLogits (h.checked.check i hi) (h.filled hi) h.wellFormed_hiddenRows
    ((h.checked.dim i hi).trans h.sound.colsB.symm) (h.room.scores _ (h.checked.slice_mem hi))

variable [Ord α]

theorem localTopK_eq (hk : 1 ≤ k) (hkn : k ≤ v / n) {i : Nat} (hi : i < n) {scores : Tensor2 α}
    (hof : ScoresOf (params.table i) (params.hiddenRows v n sequences) scores) :
    localTopK (Plan.shardAt v n i) ⟨i, scores⟩ k =
      .ok ⟨i, (List.range sequences.length).map (params.keptFor v n k sequences i)⟩ := by
  have hrows : scores.rows = sequences.length := hof.rows
  have hcols := hof.cols.trans (h.checked.rows hi)
  have hwide := Plan.bound_add_le (v := v) hi
  have hsize : scores.data.size < Word.limit := by
    rw [hof.wellFormed, hrows, hof.cols, Nat.mul_comm]
    exact Flat.count_lt (by decide) (h.room.scores _ (h.checked.slice_mem hi))
  rw [localTopK_of_fits hk rfl (Plan.width_shardAt hi) hcols (by omega), hrows,
    mapM_eq_ok_map (g := params.keptFor v n k sequences i)]
  · rfl
  · intro b hb
    have hb := List.mem_range.mp hb
    have hs : sequences[b]? = some (sequences.getD b []) := by
      simp [List.getD_eq_getElem?_getD, hb]
    rw [Tensor2.row_eq_line hof.wellFormed.filled hsize (by rw [hrows]; exact hb), ok_bind,
      h.line_scores hi hs hof]
    rfl

include hplan

theorem merge_keptFor (hk : 1 ≤ k) (hkn : k ≤ v / n) :
    merge (localsOf n sequences.length (params.keptFor v n k sequences)) plan k =
      .ok ⟨sequences.map (params.predictSequence v n k)⟩ := by
  have hlength : ∀ i < n, ∀ b,
      (scoresFor (params.table i) (params.hiddenOf v n (sequences.getD b []))).length =
        Plan.bound v n (i + 1) - Plan.bound v n i := by
    intro i hi b
    rw [scoresFor, List.length_map, List.length_range, h.checked.rows hi]
  have hlong : ∀ i < n, ∀ b < sequences.length,
      k ≤ (params.keptFor v n k sequences i b).length := by
    intro i hi b _
    have hwide := Plan.bound_add_le (v := v) hi
    rw [keptFor, length_topK, hlength i hi b]
    omega
  have hindex : ∀ i < n, ∀ b < sequences.length, ∀ c ∈ params.keptFor v n k sequences i b,
      c.index + Plan.bound v n i < Plan.bound v n (i + 1) := by
    intro i hi b _ c hc
    have hlt := index_lt_of_mem_candidatesOf (mem_candidatesOf_of_mem_topK hc)
    rw [hlength i hi b] at hlt
    omega
  have hrows : (List.range sequences.length).map (fun b => params.predictSequence v n k
      (sequences.getD b [])) = sequences.map (params.predictSequence v n k) := by
    refine List.ext_getElem (by simp) fun b hb _ => ?_
    rw [List.length_map, List.length_range] at hb
    simp [List.getD_eq_getElem?_getD, hb]
  rw [merge_of_fits hplan hk (fun _ => Nat.lt_of_le_of_lt h.vocab (by decide)) hlong hindex,
    ← hrows]
  rfl

/-- The chain on a batch predicts each of its sequences on its own. -/
theorem prediction_eq (hk : 1 ≤ k) (hkn : k ≤ v / n) :
    (Chain.run plan params (.join sequences seqLen) k).map (·.prediction) =
      .ok ⟨sequences.map (params.predictSequence v n k)⟩ := by
  obtain ⟨weighed, hweighed, hhidden⟩ := h.projected hplan
  have hinhabited : Nonempty (Tensor2 α) := ⟨⟨#[], 0, 0⟩⟩
  choose! scores hlogits hof using fun i (hi : i < n) => h.exists_logits hi
  have hall : Chain.eachShard plan params (fun shard slice =>
      shardLogits shard slice (params.hiddenRows v n sequences)) =
      .ok ((List.range n).map fun i => ⟨i, scores i⟩) := h.checked.eachShard hplan hlogits
  have hkept : (plan.shards.zip ((List.range n).map fun i =>
      (⟨i, scores i⟩ : Logits α))).mapM (fun e => localTopK e.1 e.2 k) =
      .ok (localsOf n sequences.length (params.keptFor v n k sequences)) := by
    rw [hplan.shards, List.zip_map', List.mapM_map]
    exact mapM_eq_ok_map fun i hi =>
      h.localTopK_eq hk hkn (List.mem_range.mp hi) (hof i (List.mem_range.mp hi))
  rw [Chain.run, h.gathered hplan, ok_bind, h.combined hplan, ok_bind, hweighed, ok_bind, hhidden,
    ok_bind, hall, ok_bind]
  refine (congrArg (fun kept => Except.map _ (kept >>= _)) hkept).trans ?_
  rw [ok_bind, h.merge_keptFor hplan hk hkn]
  rfl

end Parameters.Serves

end ShardedModel
