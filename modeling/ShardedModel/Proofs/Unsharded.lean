import ShardedModel.Coordinator
import ShardedModel.Proofs.HiddenVectors
import ShardedModel.Proofs.ScheduledCall
import ShardedModel.Proofs.ZeroSum

/-!
# Shards do not show in the prediction

A model that was not cut makes a prediction in four steps: look up the embedding of each
token in the table, project, score all ids against the table, and rank. A call on a
coordinator makes it on shards, over a graph and in waves. The two give the same
prediction, bit for bit.

The way there is through the chain, which the call on the graph agrees with. Looking up is
the only place where the sharded call forms sums that the other does not, each with zero,
so there zero has to be neutral for the entries of the table. Everything after it reaches
the same numbers by the same sums. What has to be given besides is room for what is
computed: the call fails where a block of memory gets larger than a signed word can count.
-/

namespace ShardedModel

open Outcome

section Whole

variable {α : Type} [Zero α] [Add α] [Mul α] [Ord α]

/-! ## The model that was not cut -/

/-- The prediction of a model that was not cut. The whole table is the slice of the only
shard. -/
def predictWhole (table : Tensor2 α) (projection : Projection α) (tokens : TokenBatch) (k : Nat) :
    Outcome (Prediction α) := do
  let plan ← Plan.cut table.rows 1
  let shard ← plan.shard 0
  let embeddings ← embed table tokens
  let hidden ← projection.apply embeddings
  let logits ← shardLogits shard ⟨0, table⟩ hidden
  let rows ← (List.range tokens.batch).mapM logits.scores.row
  .ok ⟨rows.map fun scores => topK scores.toList k⟩

/-- Tokens and a model that belong together: the data fill the dimensions, and the dimensions
agree. -/
structure Suited (table : Tensor2 α) (projection : Projection α) (tokens : TokenBatch) :
    Prop where
  wellFormed : table.WellFormed
  fits : projection.Fits tokens.seqLen table.cols
  ids : tokens.ids.length = tokens.batch * tokens.seqLen
  batch_pos : 1 ≤ tokens.batch
  seqLen_pos : 1 ≤ tokens.seqLen

/-- There is room for what a call on `n` shards computes and for the lists it puts together to
find `k` candidates: the bytes of each block can be counted. -/
structure Room (table : Tensor2 α) (tokens : TokenBatch) (n k : Nat) : Prop where
  entries : table.data.size < Word.limit
  lists : ListRoom n k table.rows
  numbers : Storage.entryBytes * (tokens.batch * tokens.seqLen) < Word.signedLimit
  embeddings :
    Storage.entryBytes * (tokens.batch * tokens.seqLen * table.cols) < Word.signedLimit
  matrices : Tensor3.matrixBytes * tokens.batch < Word.signedLimit
  scores : Storage.entryBytes * (table.rows * tokens.batch) < Word.signedLimit

variable {table : Tensor2 α} {projection : Projection α} {tokens : TokenBatch} {n k : Nat}

omit [Zero α] [Add α] [Mul α] [Ord α] in
theorem Room.rows_le (h : Room table tokens n k) (hbatch : 1 ≤ tokens.batch) :
    table.rows ≤ Word.signedLimit := by
  have hle : table.rows ≤ table.rows * tokens.batch := Nat.le_mul_of_pos_right _ hbatch
  have hscores := h.scores
  rw [Storage.entryBytes] at hscores
  omega

omit [Zero α] [Add α] [Mul α] [Ord α] in
theorem Room.lines_lt (h : Room table tokens n k) : tokens.batch * tokens.seqLen < Word.limit :=
  Flat.count_lt (by decide) h.numbers

/-! ## What both ways compute -/

/-- What is computed from the embeddings on the way to the scores of all ids. -/
structure Scored (table : Tensor2 α) (projection : Projection α) (tokens : TokenBatch)
    (weighed : Tensor3 α) (hidden scores : Tensor2 α) : Prop where
  stageA : projection.applyStageA (embeddingsWithin table tokens 0 table.rows) = .ok weighed
  stageB : projection.applyStageB weighed = .ok hidden
  wellFormed : hidden.WellFormed
  rows : hidden.rows = tokens.batch
  cols : hidden.cols = table.cols
  logits : shardLogits (Plan.shardAt table.rows 1 0) ⟨0, table⟩ hidden = .ok ⟨0, scores⟩
  scores : ScoresOf table hidden scores

omit [Ord α] in
theorem Suited.exists_scored (h : Suited table projection tokens) (hroom : Room table tokens n k) :
    ∃ weighed hidden scores, Scored table projection tokens weighed hidden scores := by
  have hwell : (embeddingsWithin table tokens 0 table.rows).WellFormed :=
    wellFormed_embeddingsWithin h.wellFormed.filled h.ids (Nat.le_refl _)
  have hsize : (embeddingsWithin table tokens 0 table.rows).data.size < Word.limit := by
    rw [hwell]
    exact Flat.count_lt (by decide) hroom.embeddings
  obtain ⟨weighed, hweighed, hwell', hsize', hbatch, hone, hcols, -⟩ :=
    Projection.exists_applyStageA h.fits hwell hsize hroom.numbers hroom.matrices
  have hbatch : weighed.batch = tokens.batch := hbatch
  have hcols : weighed.cols = tokens.seqLen := hcols
  have hle : tokens.batch ≤ tokens.batch * tokens.seqLen := Nat.le_mul_of_pos_right _ h.seqLen_pos
  have hlines := hroom.lines_lt
  obtain ⟨hidden, hhidden, hwell'', -, hrows, hcols', -⟩ :=
    Projection.exists_applyStageB (hcols ▸ h.fits) hwell' hsize' hone (by omega)
      (by
        rw [hbatch]
        exact Nat.lt_of_le_of_lt (Nat.mul_le_mul_left _ (Nat.mul_le_mul_right _ hle))
          hroom.embeddings)
  obtain ⟨scores, hscores, hof⟩ :=
    exists_shardLogits (check_whole table) h.wellFormed.filled hwell'' hcols'.symm
      (by rw [hrows, hbatch]; exact hroom.scores)
  exact ⟨weighed, hidden, scores, hweighed, hhidden, hwell'', hrows.trans hbatch, hcols', hscores,
    hof⟩

omit [Zero α] [Add α] [Mul α] [Ord α] in
/-- A step that succeeds on each slice of a table. -/
theorem eachShard_of_split {β : Type} {plan : Plan} {v : Nat} (hplan : plan.CutOf v n)
    {step : Shard → TableSlice α → Outcome β} {f : Nat → β}
    (h : ∀ i < n, step (Plan.shardAt v n i) (sliceAt table v n i) = .ok (f i)) :
    Chain.eachShard plan ⟨(List.range n).map (sliceAt table v n), projection⟩ step =
      .ok ((List.range n).map f) := by
  rw [Chain.eachShard_eq hplan]
  refine mapM_eq_ok_map fun i hi => ?_
  have hi := List.mem_range.mp hi
  rw [hplan.shard hi, ok_bind, slice_of_split hi, ok_bind, h i hi]

section Scored

variable {weighed : Tensor3 α} {hidden scores : Tensor2 α}
variable (h : Scored table projection tokens weighed hidden scores)

include h

omit [Ord α] in
theorem Scored.size_lt (hroom : Room table tokens n k) : scores.data.size < Word.limit :=
  h.scores.size_lt (by rw [h.rows]; exact hroom.scores)

/-- The model that was not cut ranks the scores of all ids. -/
theorem Scored.predictWhole_eq (hsuited : Suited table projection tokens)
    (hroom : Room table tokens n k) (hpos : 0 < table.rows) :
    predictWhole table projection tokens k =
      .ok ⟨(List.range tokens.batch).map fun b => topK (scores.line b).toList k⟩ := by
  have hv := hroom.rows_le hsuited.batch_pos
  have hplan := Plan.cut_of_le (v := table.rows) (n := 1) Nat.one_pos hpos
    (Nat.lt_of_le_of_lt hv (by decide)) (by decide)
  have hembed := embed_eq_ok hsuited.wellFormed.filled hroom.entries hpos hv hsuited.ids
    hroom.lines_lt hroom.embeddings
  have hrows : (List.range tokens.batch).mapM scores.row =
      .ok ((List.range tokens.batch).map scores.line) := by
    refine mapM_eq_ok_map fun b hb => ?_
    refine Tensor2.row_eq_line h.scores.wellFormed.filled (h.size_lt hroom) ?_
    rw [h.scores.rows, h.rows]
    exact List.mem_range.mp hb
  rw [predictWhole, hplan, ok_bind, (Plan.cutOf_of_cut hplan).shard Nat.one_pos, ok_bind, hembed,
    ok_bind, Projection.apply, h.stageA, ok_bind, h.stageB, ok_bind, h.logits, ok_bind, hrows,
    ok_bind, List.map_map]
  rfl

variable [Std.TransOrd α] [Std.LawfulEqOrd α]

/-- The chain on the slices of a table ranks the scores of all ids. -/
theorem Scored.exists_chain {Plain : α → Prop} (hsuited : Suited table projection tokens)
    (hroom : Room table tokens n k) (hzero : ZeroNeutral Plain)
    (hplain : ∀ x ∈ table.data, Plain x) {plan : Plan} (hplan : plan.CutOf table.rows n)
    (hk : 1 ≤ k) (hkn : k ≤ table.rows / n) :
    ∃ chain, Chain.run plan ⟨(List.range n).map (sliceAt table table.rows n), projection⟩ tokens k =
        .ok chain ∧
      chain.prediction =
        ⟨(List.range tokens.batch).map fun b => topK (scores.line b).toList k⟩ := by
  have hfilled := hsuited.wellFormed.filled
  have hv := hroom.rows_le hsuited.batch_pos
  have hgathered : Chain.eachShard plan
      ⟨(List.range n).map (sliceAt table table.rows n), projection⟩
      (fun shard slice => gather shard slice tokens) = .ok (contributions table tokens n) :=
    eachShard_of_split hplan fun i hi => gather_sliceAt hplan hv hi hfilled hroom.entries rfl
      hsuited.ids hroom.lines_lt hroom.embeddings
  -- The only sums that the whole table does not form.
  have hcombined := combine_contributions hplan hzero hplain hfilled tokens
  have hlogits : Chain.eachShard plan
      ⟨(List.range n).map (sliceAt table table.rows n), projection⟩
      (fun shard slice => shardLogits shard slice hidden) =
      .ok ((List.range n).map fun i => Logits.ofColumns scores (Plan.shardAt table.rows n i)) :=
    eachShard_of_split hplan fun i hi => shardLogits_sliceAt hplan hi hfilled rfl h.wellFormed
      h.cols.symm (slice_room hi (by rw [h.rows]; exact hroom.scores)) h.scores
  obtain ⟨locals, hlocals, hmerge⟩ := merge_localTopK_ofColumns hplan h.scores.wellFormed.filled
    (h.size_lt hroom) h.scores.cols hk hkn
  rw [h.scores.rows, h.rows] at hmerge
  have hkept : (plan.shards.zip ((List.range n).map fun i =>
      Logits.ofColumns scores (Plan.shardAt table.rows n i))).mapM
      (fun e => localTopK e.1 e.2 k) = .ok locals := by
    rw [hplan.shards, List.mapM_map] at hlocals
    rw [hplan.shards, List.zip_map', List.mapM_map]
    exact hlocals
  refine ⟨⟨contributions table tokens n, embeddingsWithin table tokens 0 table.rows, weighed,
    hidden, (List.range n).map fun i => Logits.ofColumns scores (Plan.shardAt table.rows n i),
    locals, _⟩, ?_, rfl⟩
  rw [Chain.run, hgathered, ok_bind, hcombined, ok_bind, h.stageA, ok_bind, h.stageB, ok_bind,
    hlogits, ok_bind]
  refine (congrArg (· >>= _) hkept).trans ?_
  rw [ok_bind, hmerge]
  rfl

end Scored

/-! ## Calls on a coordinator -/

/-- The first call prepares a graph and runs it. -/
theorem Coordinator.infer_of_prepare {c : Coordinator α} (hnew : c.prepared = [])
    {p : Prepared α} (hp : c.prepare k = .ok p) (tokens : TokenBatch) (ms : Nat) :
    (c.infer tokens k ms).1 = p.run c.executor tokens := by
  have hlookup : c.lookup k = none := by rw [lookup, hnew]; rfl
  have hlookup' : c.countPrepared.lookup k = none := hlookup
  have hgraph : c.preparedGraph k =
      (.ok p, { c.countPrepared with prepared := c.prepared ++ [(k, p)] }) := by
    rw [preparedGraph, hlookup]
    dsimp only
    rw [hp]
    dsimp only
    rw [enter, hlookup']
    rfl
  rw [infer, inferOn, attempt, hgraph]
  dsimp only
  cases p.run c.executor tokens <;> rfl

/-- A call on checked parameters gives what the chain gives. -/
theorem Coordinator.exists_create {v : Nat} {plan : Plan} (hplan : plan.CutOf v n)
    {params : Parameters α} (hparams : params.validate plan = .ok ()) (hk : 1 ≤ k)
    (hkn : k ≤ v / n) (options : CallOptions) :
    ∃ c, create plan params options = .ok c ∧ ∀ tokens ms, (c.infer tokens k ms).1 =
      ((Chain.run plan params tokens k).map (·.prediction)).mapError Failure.reported := by
  have hready : ∀ tokens, Call.Ready ⟨plan, params, tokens, k⟩ v n := fun tokens =>
    Call.ready_of_validate hplan hparams hk hkn
  obtain ⟨g, ws, hbuild, hws, hprepare⟩ :=
    Call.exists_prepared (hready ⟨[], 0, 0⟩) hparams options.coalesce
  refine ⟨⟨plan, params, options, ⟨options.timeoutMs, false⟩, .zero, []⟩, ?_, fun tokens ms => ?_⟩
  · rw [create, hparams, ok_bind]
  · rw [infer_of_prepare rfl (by rw [prepare, hbuild, ok_bind, hprepare])]
    exact Call.run_eq_chain (hready tokens) hbuild hws rfl

end Whole

/-! ## The same prediction -/

/-- A call on the shards of a table gives the prediction of the whole table. The sum and the
product of bit patterns are any for which zero is neutral to numbers other than minus zero. -/
theorem infer_eq_predictWhole [Add Binary32] [Mul Binary32]
    (hzero : ∀ x : Binary32, x.isNaN = false → x ≠ Binary32.negZero → x + 0 = x ∧ 0 + x = x)
    {table : Tensor2 Binary32} {projection : Projection Binary32} {tokens : TokenBatch} {n k : Nat}
    (hsuited : Suited table projection tokens)
    (hplain : ∀ x ∈ table.data, x.isNaN = false ∧ x ≠ Binary32.negZero)
    (hroom : Room table tokens n k) (hn : 1 ≤ n) (hle : n ≤ table.rows) (hk : 1 ≤ k)
    (hkn : k ≤ table.rows / n) (options : CallOptions) (ms : Nat) :
    ∃ plan params c p, Plan.cut table.rows n = .ok plan ∧
      Parameters.ofFullTable table plan projection = .ok params ∧
      Coordinator.create plan params options = .ok c ∧
      (c.infer tokens k ms).1 = .ok p ∧ p.batch = tokens.batch ∧
      predictWhole table projection tokens k = .ok p := by
  have hpos : 0 < table.rows := Nat.lt_of_lt_of_le hn hle
  have hneutral : ZeroNeutral fun x : Binary32 => x.isNaN = false ∧ x ≠ Binary32.negZero :=
    ⟨by decide, fun x hx => (hzero x hx.1 hx.2).1, fun x hx => (hzero x hx.1 hx.2).2⟩
  have hlimit : table.rows < Word.limit :=
    Nat.lt_of_le_of_lt (hroom.rows_le hsuited.batch_pos) (by decide)
  have hslices := slices_room hroom.lists.shards
  have hcut := Plan.cut_of_le hn hle hlimit (shards_room hslices)
  have hplan := Plan.cutOf_of_cut hcut
  obtain ⟨weighed, hidden, scores, hscored⟩ := hsuited.exists_scored hroom
  obtain ⟨chain, hchain, hprediction⟩ :=
    hscored.exists_chain hsuited hroom hneutral hplain hplan hk hkn
  obtain ⟨c, hc, hinfer⟩ := Coordinator.exists_create hplan
    (validate_of_split hplan hsuited.fits.rowsA.symm) hk hkn options
  refine ⟨_, _, c, chain.prediction, hcut, ?_, hc, ?_, ?_, ?_⟩
  · rw [Parameters.ofFullTable,
      splitTable_of_cut hplan hsuited.wellFormed.filled hroom.entries rfl hslices]
    rfl
  · rw [hinfer, hchain]
    rfl
  · rw [hprediction, Prediction.batch, List.length_map, List.length_range]
  · rw [hscored.predictWhole_eq hsuited hroom hpos, hprediction]

/-- Five rows of two numbers, the first and the third of them equal. -/
def tiedTable : Tensor2 Binary32 :=
  ⟨#[⟨0x3f800000⟩, ⟨0x40000000⟩, ⟨0xbf800000⟩, ⟨0x3f000000⟩, ⟨0x3f800000⟩, ⟨0x40000000⟩, ⟨0⟩,
    ⟨0xc0000000⟩, ⟨0x3f800000⟩, ⟨0x40400000⟩], 5, 2⟩

/-- A projection for sequences of two tokens. -/
def tiedProjection : Projection Binary32 :=
  ⟨⟨#[⟨0x3f800000⟩, ⟨0x40000000⟩], 2, 1⟩,
    ⟨#[⟨0x3f800000⟩, ⟨0⟩, ⟨0x3f000000⟩, ⟨0x3f800000⟩], 2, 2⟩⟩

/-- With the sums and products of the format, on two shards that the equal rows are divided
among, and with ids from outside of the vocabulary on both sides. -/
theorem infer_eq_predictWhole_tied :
    let tokens : TokenBatch := ⟨[9, -3, 1, 3], 2, 2⟩
    Suited tiedTable tiedProjection tokens ∧
    (∀ x ∈ tiedTable.data, x.isNaN = false ∧ x ≠ Binary32.negZero) ∧ Room tiedTable tokens 2 2 ∧
    ∃ plan params c p, Plan.cut 5 2 = .ok plan ∧
      Parameters.ofFullTable tiedTable plan tiedProjection = .ok params ∧
      Coordinator.create plan params .standard = .ok c ∧
      (c.infer tokens 2 0).1 = .ok p ∧ p.batch = 2 ∧
      predictWhole tiedTable tiedProjection tokens 2 = .ok p := by
  intro tokens
  have hsuited : Suited tiedTable tiedProjection tokens :=
    ⟨rfl, ⟨rfl, rfl, rfl, rfl, rfl, rfl⟩, rfl, by decide, by decide⟩
  have hplain : ∀ x ∈ tiedTable.data, x.isNaN = false ∧ x ≠ Binary32.negZero := by decide
  have hroom : Room tiedTable tokens 2 2 :=
    ⟨by decide, by decide, by decide, by decide, by decide, by decide⟩
  exact ⟨hsuited, hplain, hroom, infer_eq_predictWhole
    (fun _ hx hneg => Binary32.add_zero_and_zero_add hx hneg) hsuited hplain hroom (by decide)
    (by decide) (by decide) (by decide) .standard 0⟩

/-- Without room the call fails: a table of 2^62 empty rows has no entries and 2^62 scores for
a sequence, and their bytes are too many. -/
theorem infer_of_too_many_scores :
    let table : Tensor2 Binary32 := ⟨#[], 4611686018427387904, 0⟩
    let projection : Projection Binary32 := ⟨⟨#[], 0, 1⟩, ⟨#[], 1, 0⟩⟩
    let tokens : TokenBatch := ⟨[0], 1, 1⟩
    let plan : Plan := ⟨table.rows, [⟨0, 0, table.rows, 1, table.rows⟩]⟩
    let params : Parameters Binary32 := ⟨[⟨0, table⟩], projection⟩
    Suited table projection tokens ∧
    (∀ x ∈ table.data, x.isNaN = false ∧ x ≠ Binary32.negZero) ∧
    table.rows ≤ Word.signedLimit ∧ table.rows * tokens.batch < Word.limit ∧
    Plan.cut table.rows 1 = .ok plan ∧ Parameters.ofFullTable table plan projection = .ok params ∧
    ∀ options, ∃ c, Coordinator.create plan params options = .ok c ∧
      ∀ ms, (c.infer tokens 1 ms).1 = .error (.execution .taskFault) := by
  intro table projection tokens plan params
  have hcut : Plan.cut table.rows 1 = .ok plan := by cbv
  have hparams : Parameters.ofFullTable table plan projection = .ok params := by cbv
  have hvalid : params.validate plan = .ok () := by cbv
  have hchain : Chain.run plan params tokens 1 = .error .fault := by cbv
  refine ⟨⟨rfl, ⟨rfl, rfl, rfl, rfl, rfl, rfl⟩, rfl, by decide, by decide⟩,
    fun x hx => absurd hx (Array.not_mem_empty x), by decide, by decide, hcut, hparams,
    fun options => ?_⟩
  obtain ⟨c, hc, hinfer⟩ := Coordinator.exists_create (k := 1) (Plan.cutOf_of_cut hcut) hvalid
    (by decide) (by decide) options
  refine ⟨c, hc, fun ms => ?_⟩
  rw [hinfer, hchain]
  rfl

end ShardedModel
