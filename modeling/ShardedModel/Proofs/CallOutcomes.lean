import ShardedModel.Proofs.Runnable

/-!
# Calls on complete parameters

Where the data of all tensors are there and every block of memory has room, a call can only
fail for dimensions that do not go together. They meet in three places: the length of the
sequences meets stage B, what stage A gives has to be one row for each sequence, and the hidden
vectors meet the table. The chain comes to these places in this order, so the first that does
not fit is what the call reports. If all of them fit, the call succeeds.
-/

namespace ShardedModel

open Outcome

variable {α : Type}

namespace Parameters

/-- The data of each tensor fill its dimensions, and those of a slice can be counted. -/
structure Complete (params : Parameters α) : Prop where
  slices : ∀ s ∈ params.shards, s.table.WellFormed
  words : ∀ s ∈ params.shards, s.table.data.size < Word.limit
  stageA : params.projection.stageA.WellFormed
  stageB : params.projection.stageB.WellFormed

/-- There is room for each block that a call on a batch of this shape asks for, whatever the
dimensions of the stages, and for the lists it puts together to find `k` candidates. -/
structure BlocksFit (params : Parameters α) (batch seqLen k : Nat) : Prop where
  embeddings : Storage.entryBytes * (batch * seqLen * params.projection.embeddingDim) <
    Word.signedLimit
  numbers : Storage.entryBytes * (batch * seqLen * params.projection.stageA.cols) <
    Word.signedLimit
  matrices : Tensor3.matrixBytes * batch < Word.signedLimit
  projected : Storage.entryBytes *
    (batch * params.projection.stageA.cols * params.projection.stageB.cols) < Word.signedLimit
  scores : ∀ s ∈ params.shards, Storage.entryBytes * (s.table.rows * batch) < Word.signedLimit
  lists : params.ListsFit k

/-- The first dimensions that do not go together, in the order of the chain. -/
def mismatch? (params : Parameters α) (seqLen : Nat) : Option ShapeCause :=
  let p := params.projection
  if seqLen ≠ p.seqLen then
    some (.sequenceLength p.seqLen seqLen)
  else if p.stageA.cols ≠ 1 then
    some (.squeeze p.stageA.cols)
  else if p.embeddingDim ≠ p.stageB.cols then
    some (.hiddenDim 0 p.embeddingDim p.stageB.cols)
  else
    none

theorem mismatch?_eq_none {params : Parameters α} {seqLen : Nat} :
    params.mismatch? seqLen = none ↔ seqLen = params.projection.stageB.rows ∧
      params.projection.stageA.cols = 1 ∧
      params.projection.stageB.cols = params.projection.stageA.rows := by
  by_cases hseqLen : seqLen = params.projection.stageB.rows
  · by_cases hone : params.projection.stageA.cols = 1
    · by_cases hdim : params.projection.stageA.rows = params.projection.stageB.cols
      · simp [mismatch?, Projection.seqLen, Projection.embeddingDim, hseqLen, hone, hdim]
      · simp [mismatch?, Projection.seqLen, Projection.embeddingDim, hseqLen, hone, hdim,
          Ne.symm hdim]
    · simp [mismatch?, Projection.seqLen, hseqLen, hone]
  · simp [mismatch?, Projection.seqLen, hseqLen]

variable [Zero α] {params : Parameters α} {plan : Plan} {v n k seqLen : Nat}
variable {sequences : List (List Int)}

theorem length_predictSequence [Add α] [Mul α] [Ord α] (hplan : plan.CutOf v n)
    (hchecked : params.Checked v n) (hkn : k ≤ v / n) (s : List Int) :
    (params.predictSequence v n k s).length = k := by
  have hkept : ∀ i ∈ List.range n,
      ((topK (scoresFor (params.table i) (params.hiddenOf v n s)) k).map
        (Candidate.shift (Plan.bound v n i))).length = k := by
    intro i hi
    have hi := List.mem_range.mp hi
    have hwide := Plan.bound_add_le (v := v) hi
    rw [List.length_map, length_topK, scoresFor, List.length_map, List.length_range,
      hchecked.rows hi]
    omega
  have hall : k ≤ n * k := Nat.le_mul_of_pos_left k hplan.pos
  rw [predictSequence, Candidate.best, List.length_take, List.length_mergeSort,
    List.length_flatMap, List.map_congr_left hkept, List.map_const', List.sum_replicate_nat,
    List.length_range]
  omega

/-! ## Up to the sum of the embeddings -/

section Chain

variable (hplan : plan.CutOf v n) (hv : v ≤ Word.signedLimit) (hchecked : params.Checked v n)
variable (hcomplete : params.Complete) (hrect : Rectangular sequences seqLen)
variable (hlines : sequences.length * seqLen < Word.limit)
variable (hroom : params.BlocksFit sequences.length seqLen k)

include hplan hv hchecked hcomplete hrect hlines hroom

theorem exists_embeddings [Add α] :
    ∃ gathered embeddings,
      Chain.eachShard plan params (fun shard slice =>
        gather shard slice (.join sequences seqLen)) = .ok gathered ∧
      combine gathered plan = .ok embeddings ∧ embeddings.WellFormed ∧
      embeddings.shape = (sequences.length, seqLen, params.projection.embeddingDim) := by
  have hsizes : ∀ i < n, ∀ id,
      (ownRow (params.table i) v n i id).size = params.projection.embeddingDim := by
    intro i hi id
    rw [size_ownRow hi (hcomplete.slices _ (hchecked.slice_mem hi)).filled (hchecked.rows hi),
      hchecked.dim i hi]
  have hgathered : Chain.eachShard plan params (fun shard slice =>
      gather shard slice (.join sequences seqLen)) =
      .ok ((List.range n).map fun i => ⟨i, (TokenBatch.join sequences seqLen).stack
        params.projection.embeddingDim (ownRow (params.table i) v n i)⟩) := by
    refine hchecked.eachShard hplan fun i hi => ?_
    have hslice := hchecked.slice_mem hi
    have hdim := hchecked.dim i hi
    have hgather : gather (Plan.shardAt v n i) ⟨i, params.table i⟩ (.join sequences seqLen) =
        .ok _ :=
      gather_of_filled hplan hv hi (hchecked.check i hi) (hcomplete.slices _ hslice).filled
        (hcomplete.words _ hslice) hrect.length_flatten hlines
        (by rw [hdim]; exact hroom.embeddings)
    rw [hgather, hdim]
    rfl
  refine ⟨_, _, hgathered, combine_stack hplan _ hsizes, ?_, rfl⟩
  have hlines : ∀ line ∈ (TokenBatch.join sequences seqLen).ids.map fun id =>
      sumLines (fun i => ownRow (params.table i) v n i id) (n - 1),
      line.size = params.projection.embeddingDim := by
    intro line hline
    obtain ⟨id, -, rfl⟩ := List.mem_map.mp hline
    have hpos := hplan.pos
    exact size_sumLines fun i hi => hsizes i (by omega) id
  rw [Tensor3.WellFormed, TokenBatch.stack, Flat.size_concat hlines, List.length_map]
  exact congrArg (· * _) hrect.length_flatten

variable [Add α] [Mul α]

omit hplan hv hchecked hrect in
/-- What stage A makes of the embeddings, if the sequences have the length of stage B. -/
theorem exists_weighed (hseqLen : seqLen = params.projection.stageB.rows)
    {embeddings : Tensor3 α} (hwell : embeddings.WellFormed)
    (hshape : embeddings.shape = (sequences.length, seqLen, params.projection.embeddingDim)) :
    ∃ ms, params.projection.applyStageA embeddings =
        .ok (.ofMatrices ms params.projection.stageA.cols seqLen) ∧
      ms.length = sequences.length ∧ Tensor3.Uniform ms params.projection.stageA.cols seqLen := by
  obtain ⟨ms, hlength, huniform, hof⟩ := Tensor3.exists_ofMatrices hwell
  simp only [Tensor3.shape, Prod.mk.injEq] at hshape
  obtain ⟨hbatch, hrows, hcols⟩ := hshape
  rw [hrows, hcols] at huniform hof
  rw [hbatch] at hlength
  have hsize : sequences.length * seqLen * params.projection.embeddingDim < Word.limit :=
    Flat.count_lt (by decide) hroom.embeddings
  rw [Nat.mul_assoc] at hsize
  refine ⟨ms.map params.projection.weighed, ?_, by rw [List.length_map, hlength],
    Projection.uniform_rows_weighed huniform hcomplete.stageA.filled rfl⟩
  rw [hof]
  exact Projection.applyStageA_of_filled huniform hcomplete.stageA.filled rfl hseqLen.symm
    (hlength ▸ hsize) (hlength ▸ hlines) (hlength ▸ hroom.numbers) (hlength ▸ hroom.matrices)

omit hv hcomplete hrect hlines hroom in
/-- All shards refuse hidden vectors of another dimension, and shard 0 is the first. -/
theorem logits_of_ne {hidden : Tensor2 α} (hdim : params.projection.embeddingDim ≠ hidden.cols) :
    Chain.eachShard plan params (fun shard slice => shardLogits shard slice hidden) =
      .error (.shape (.hiddenDim 0 params.projection.embeddingDim hidden.cols)) := by
  obtain ⟨m, rfl⟩ : ∃ m, n = m + 1 := ⟨n - 1, (Nat.sub_add_cancel hplan.pos).symm⟩
  have hfirst : 0 < m + 1 := Nat.zero_lt_succ m
  have hcols : (⟨0, params.table 0⟩ : TableSlice α).embeddingDim =
      params.projection.embeddingDim := hchecked.dim 0 hfirst
  rw [hchecked.eachShard_eq_mapM hplan, List.range_succ_eq_map, List.mapM_cons,
    shardLogits_of_ne (hchecked.check 0 hfirst) (by rw [hcols]; exact hdim), hcols]
  rfl

omit hplan hv hchecked hlines in
/-- Stage B refuses what stage A has given, unless it is one row for each sequence. -/
theorem hidden_of_ne (hseqLen : seqLen = params.projection.stageB.rows)
    (hone : params.projection.stageA.cols ≠ 1) {ms : List (Tensor2 α)}
    (hlength : ms.length = sequences.length)
    (huniform : Tensor3.Uniform ms params.projection.stageA.cols seqLen) :
    params.projection.applyStageB (.ofMatrices ms params.projection.stageA.cols seqLen) =
      .error (.shape (.squeeze params.projection.stageA.cols)) := by
  rw [← hlength] at hroom
  have hnumbers : ms.length * seqLen * params.projection.stageA.cols < Word.limit :=
    Flat.count_lt (by decide) hroom.numbers
  have hrows : ms.length * params.projection.stageA.cols ≤
      ms.length * seqLen * params.projection.stageA.cols :=
    Nat.mul_le_mul_right _ (Nat.le_mul_of_pos_right _ hrect.seqLen_pos)
  have hsize : ms.length * (params.projection.stageA.cols * seqLen) < Word.limit := by
    rw [Nat.mul_comm params.projection.stageA.cols, ← Nat.mul_assoc]
    exact hnumbers
  exact Projection.applyStageB_of_rows_ne huniform hcomplete.stageB.filled hseqLen.symm hsize
    (Nat.lt_of_le_of_lt hrows hnumbers) hroom.projected
    (Flat.count_lt (by decide) hroom.matrices) hone

variable [Ord α]

/-- The chain reports the first dimensions that do not go together. -/
theorem run_of_mismatch {cause : ShapeCause} (h : params.mismatch? seqLen = some cause) :
    Chain.run plan params (.join sequences seqLen) k = .error (.shape cause) := by
  obtain ⟨gathered, embeddings, hgathered, hcombined, hwell, hshape⟩ :=
    exists_embeddings hplan hv hchecked hcomplete hrect hlines hroom
  rw [Chain.run, hgathered, ok_bind, hcombined, ok_bind]
  by_cases hseqLen : seqLen = params.projection.seqLen
  · obtain ⟨ms, hweighed, hlength, huniform⟩ := exists_weighed hcomplete hlines hroom hseqLen
      hwell hshape
    rw [hweighed, ok_bind]
    by_cases hone : params.projection.stageA.cols = 1
    · have hdim : params.projection.embeddingDim ≠ params.projection.stageB.cols := by
        intro hdim
        simp [mismatch?, hseqLen, hone, hdim] at h
      obtain rfl : _ = cause := by simpa [mismatch?, hseqLen, hone, hdim] using h
      have hprojected := hroom.projected
      rw [hone, Nat.mul_one, ← hlength] at hprojected
      rw [hone] at huniform
      obtain ⟨hidden, hhidden, hcols⟩ : ∃ hidden, params.projection.applyStageB
          (.ofMatrices ms 1 seqLen) = .ok hidden ∧ hidden.cols = params.projection.stageB.cols :=
        ⟨_, (Projection.applyStageB_ofMatrices huniform hcomplete.stageB.filled hseqLen.symm
          (hlength ▸ hlines) (hlength ▸ Flat.count_lt (by decide) hroom.matrices)
          hprojected).1, rfl⟩
      rw [hone, hhidden, ok_bind, logits_of_ne hplan hchecked (by rw [hcols]; exact hdim), hcols]
      rfl
    · obtain rfl : _ = cause := by simpa [mismatch?, hseqLen, hone] using h
      rw [hidden_of_ne hcomplete hrect hroom hseqLen hone hlength huniform]
      rfl
  · obtain rfl : _ = cause := by simpa [mismatch?, hseqLen] using h
    simp only [Tensor3.shape, Prod.mk.injEq] at hshape
    obtain ⟨-, hrows, hcols⟩ := hshape
    rw [Projection.applyStageA, ensure_of hcols, ok_bind,
      ensure_of_not (by rw [hrows]; exact hseqLen), hrows]
    rfl

end Chain

end Parameters

/-! ## Calls -/

section Calls

variable [Zero α] [Add α] [Mul α] [Ord α]

/-- A coordinator answers a call as it would have answered it first. -/
theorem Coordinator.answer_after {plan : Plan} {v n : Nat} (hplan : plan.CutOf v n)
    {params : Parameters α} {options : CallOptions} {c : Coordinator α}
    (hc : create plan params options = .ok c) (before : List InferenceCall)
    (call : InferenceCall) : (c.inferAll before).2.answer call = c.answer call := by
  obtain ⟨⟨⟩, hparams, hcreate⟩ := bind_eq_ok.mp hc
  cases hcreate
  have hover : Over ⟨plan, params, options, ⟨options.timeoutMs, false⟩, .zero, []⟩ v n :=
    ⟨hplan, hparams, rfl⟩
  have hstart : Accounts ⟨plan, params, options, ⟨options.timeoutMs, false⟩, .zero, []⟩ v n []
      ⟨plan, params, options, ⟨options.timeoutMs, false⟩, .zero, []⟩ := .start rfl rfl
  obtain ⟨-, haccounts⟩ := hstart.inferAll hover hstart before
  exact (haccounts.step hover hstart call).1

/-- How a call comes out on complete parameters with room for all blocks, whatever calls were
made before. It succeeds exactly if the dimensions go together, and has then a row of `k`
candidates for each sequence. Otherwise it fails with the first dimensions that do not. -/
theorem Coordinator.answer_outcomes {v n k : Nat} {plan : Plan}
    (hplan : Plan.cut v n = .ok plan) (hv : v ≤ Word.signedLimit) {params : Parameters α}
    (hparams : params.validate plan = .ok ()) (hcomplete : params.Complete) {ids : List Int}
    {batch seqLen : Nat} {tokens : TokenBatch}
    (htokens : TokenBatch.ofIds ids batch seqLen = .ok tokens)
    (hroom : params.BlocksFit batch seqLen k) (hk : 1 ≤ k) (hkn : k ≤ v / n)
    (options : CallOptions) :
    ∃ c, create plan params options = .ok c ∧ ∀ before ms,
      let answer := (c.inferAll before).2.answer ⟨tokens, k, ms⟩
      ((∃ p, answer = .ok p) ↔ tokens.seqLen = params.projection.stageB.rows ∧
        params.projection.stageA.cols = 1 ∧
        params.projection.stageB.cols = params.projection.stageA.rows) ∧
      (∀ e, answer = .error e →
        ∃ cause, params.mismatch? tokens.seqLen = some cause ∧ e = .shape cause) ∧
      ∀ p, answer = .ok p → p.batch = tokens.batch ∧ ∀ row ∈ p.rows, row.length = k := by
  have hcut := Plan.cutOf_of_cut hplan
  have hchecked := Parameters.checked_of_validate hcut hparams
  obtain ⟨c, hc, hinfer⟩ := exists_create hcut hparams hk hkn options
  obtain ⟨hlines, -⟩ := TokenBatch.ofIds_eq_ok.mp htokens
  obtain ⟨sequences, rfl, hrect, rfl⟩ := TokenBatch.exists_join htokens
  refine ⟨c, hc, fun before ms => ?_⟩
  intro answer
  have hanswer : answer = ((Chain.run plan params (.join sequences seqLen) k).map
      (·.prediction)).mapError Failure.reported :=
    (answer_after hcut hc before _).trans (hinfer _ ms)
  clear_value answer
  have hseqLen : (TokenBatch.join sequences seqLen).seqLen = seqLen := rfl
  rw [hseqLen, ← Parameters.mismatch?_eq_none]
  cases hmismatch : params.mismatch? seqLen with
  | some cause =>
      rw [Parameters.run_of_mismatch hcut hv hchecked hcomplete hrect hlines hroom hmismatch]
        at hanswer
      have hshape : answer = .error (.shape cause) := hanswer
      subst hshape
      simp
  | none =>
      obtain ⟨hlength, hone, hdim⟩ := Parameters.mismatch?_eq_none.mp hmismatch
      have hnumbers := hroom.numbers
      rw [hone, Nat.mul_one] at hnumbers
      have hserves : params.Serves v n sequences seqLen :=
        ⟨hrect, hchecked, hv, ⟨fun s hs => (hcomplete.slices s hs).filled, hcomplete.stageA.filled,
          hone, hcomplete.stageB.filled, hdim⟩, hcomplete.words,
          ⟨hroom.embeddings, hnumbers, hroom.matrices, hroom.scores⟩, hlength⟩
      rw [hserves.prediction_eq hcut hk hkn] at hanswer
      have hok : answer = .ok ⟨sequences.map (params.predictSequence v n k)⟩ := hanswer
      subst hok
      refine ⟨by simp, by simp, fun p hp => ?_⟩
      cases hp
      refine ⟨List.length_map _, fun row hrow => ?_⟩
      obtain ⟨s, -, rfl⟩ := List.mem_map.mp hrow
      exact Parameters.length_predictSequence hcut hchecked hkn s

end Calls

/-- After five other calls, of which some have failed: a batch of the right length, and one on a
stage A that gives two rows for a sequence. -/
theorem Coordinator.answer_outcomes_uneven :
    let plan : Plan := ⟨5, [⟨0, 0, 2, 2, 5⟩, ⟨1, 2, 5, 2, 5⟩]⟩
    let wide : Parameters Nat :=
      ⟨unevenParams.shards, ⟨⟨#[2, 7], 1, 2⟩, unevenParams.projection.stageB⟩⟩
    let call : InferenceCall := ⟨⟨[4, -3, 9, 1], 2, 2⟩, 2, 7⟩
    Plan.cut 5 2 = .ok plan ∧
    (∃ c p, create plan unevenParams .standard = .ok c ∧
      (c.inferAll mixedCalls).2.answer call = .ok p ∧ p.batch = 2 ∧
      ∀ row ∈ p.rows, row.length = 2) ∧
    ∃ c, create plan wide .standard = .ok c ∧
      (c.inferAll mixedCalls).2.answer call = .error (.shape (.squeeze 2)) := by
  intro plan wide call
  have hplan : Plan.cut 5 2 = .ok plan := by cbv
  have hparams : unevenParams.validate plan = .ok () := by cbv
  have hwide : wide.validate plan = .ok () := by cbv
  have htokens : TokenBatch.ofIds [4, -3, 9, 1] 2 2 = .ok ⟨[4, -3, 9, 1], 2, 2⟩ := by cbv
  obtain ⟨c, hc, hcall⟩ := answer_outcomes hplan (by decide) hparams
    ⟨by decide, by decide, by decide, by decide⟩ htokens
    ⟨by decide, by decide, by decide, by decide, by decide, by decide⟩ (by decide : 1 ≤ 2)
    (by decide) .standard
  obtain ⟨c', hc', hcall'⟩ := answer_outcomes hplan (by decide) hwide
    ⟨by decide, by decide, by decide, by decide⟩ htokens
    ⟨by decide, by decide, by decide, by decide, by decide, by decide⟩ (by decide : 1 ≤ 2)
    (by decide) .standard
  obtain ⟨hsucceeds, -, hsizes⟩ := hcall mixedCalls 7
  obtain ⟨hfails, hcause, -⟩ := hcall' mixedCalls 7
  obtain ⟨p, hp⟩ := hsucceeds.mpr ⟨rfl, rfl, rfl⟩
  refine ⟨hplan, ⟨c, p, hc, hp, hsizes p hp⟩, c', hc', ?_⟩
  cases hanswer : (c'.inferAll mixedCalls).2.answer call with
  | ok p => exact absurd (hfails.mp ⟨p, hanswer⟩).2.1 (by decide)
  | error e =>
      obtain ⟨cause, hmismatch, rfl⟩ := hcause e hanswer
      cases hmismatch
      rfl

/-- A count of entries that fits a word is not enough. The two slices of a table of 2^62 empty
rows have no entries, everything is complete, and all dimensions go together; but the scores of
a slice for one sequence take 2^63 bytes. -/
theorem Coordinator.answer_of_wide_slices :
    let plan : Plan := ⟨4611686018427387904, [⟨0, 0, 2305843009213693952, 2, 4611686018427387904⟩,
      ⟨1, 2305843009213693952, 4611686018427387904, 2, 4611686018427387904⟩]⟩
    let slice : Tensor2 Binary32 := ⟨#[], 2305843009213693952, 0⟩
    let params : Parameters Binary32 := ⟨[⟨0, slice⟩, ⟨1, slice⟩], ⟨⟨#[], 0, 1⟩, ⟨#[], 1, 0⟩⟩⟩
    let call : InferenceCall := ⟨⟨[0], 1, 1⟩, 1, 0⟩
    Plan.cut 4611686018427387904 2 = .ok plan ∧ plan.vocabSize ≤ Word.signedLimit ∧
    params.validate plan = .ok () ∧ params.Complete ∧
    TokenBatch.ofIds [0] 1 1 = .ok call.tokens ∧ params.mismatch? call.tokens.seqLen = none ∧
    (∀ s ∈ params.shards, s.table.rows * call.tokens.batch < Word.limit) ∧
    ∀ options, ∃ c, create plan params options = .ok c ∧
      c.answer call = .error (.execution .taskFault) := by
  intro plan slice params call
  have hplan : Plan.cut 4611686018427387904 2 = .ok plan := by cbv
  have hparams : params.validate plan = .ok () := by cbv
  have hchain : Chain.run plan params call.tokens 1 = .error .fault := by cbv
  refine ⟨hplan, by decide, hparams, ⟨by decide, by decide, by decide, by decide⟩, rfl, rfl,
    by decide, fun options => ?_⟩
  obtain ⟨c, hc, hinfer⟩ := exists_create (k := 1) (Plan.cutOf_of_cut hplan) hparams (by decide)
    (by decide) options
  refine ⟨c, hc, ?_⟩
  rw [answer, hinfer, hchain]
  rfl

end ShardedModel
