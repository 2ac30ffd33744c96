import ShardedModel.Parameters.Source
import ShardedModel.Proofs.CallHistory
import ShardedModel.Proofs.DiskRuns
import ShardedModel.Proofs.Sequences

/-!
# Parameters on which calls succeed

The check of parameters compares owners and dimensions of slices. It looks neither at data nor
at the stages of the projection, and what comes from a file was made by no constructor that
would. So parameters can pass the check and calls on them fail all the same.

`Parameters.Sound` and `Parameters.RoomFor` are what is missing. That they suffice is shown step
by step along the chain. That nothing less does is read off a chain that succeeded: each of its
steps has checked or reached something, and together they leave no entry of a tensor out.
-/

namespace ShardedModel

open Outcome

variable {α : Type}

/-! ## What a step that succeeded has seen -/

section Steps

variable [Zero α]

theorem le_signedLimit_of_clampToVocab {id : Int} {v token : Nat} (hv : v < Word.limit)
    (h : clampToVocab id v = .ok token) : v ≤ Word.signedLimit := by
  unfold clampToVocab at h
  dsimp only at h
  split at h
  · next hle =>
      rw [Word.toSigned, Int.bmod_def] at hle
      rw [Word.limit] at hv hle
      rw [Word.signedLimit]
      split at hle <;> omega
  · cases h

/-- A shard has moved the first token into the vocabulary and made room for all of them. -/
theorem gather_eq_ok {shard : Shard} {slice : TableSlice α} {tokens : TokenBatch}
    {g : Gathered α} (hv : shard.vocabSize < Word.limit) (hids : tokens.ids ≠ [])
    (h : gather shard slice tokens = .ok g) :
    shard.vocabSize ≤ Word.signedLimit ∧
      g.embeddings.shape = (tokens.batch, tokens.seqLen, slice.table.cols) ∧
      Storage.entryBytes * (tokens.ids.length * slice.table.cols) < Word.signedLimit := by
  obtain ⟨⟨⟩, -, h⟩ := bind_eq_ok.mp h
  obtain ⟨located, hlocated, h⟩ := bind_eq_ok.mp h
  obtain ⟨count, hroom, h⟩ := bind_eq_ok.mp h
  obtain ⟨rows, -, h⟩ := bind_eq_ok.mp h
  obtain ⟨stack, hstack, h⟩ := bind_eq_ok.mp h
  obtain ⟨volume, -, hstack⟩ := bind_eq_ok.mp hstack
  obtain ⟨⟨⟩, -, hstack⟩ := bind_eq_ok.mp hstack
  cases hstack
  cases h
  have hall := mapM_eq_ok.mp hlocated
  obtain ⟨-, hbytes, -⟩ := Flat.room_eq_ok.mp hroom
  obtain ⟨id, hid⟩ := List.exists_mem_of_ne_nil _ hids
  obtain ⟨place, -, hplace⟩ := exists_of_forall₂ hall hid
  obtain ⟨token, htoken, -⟩ := bind_eq_ok.mp hplace
  refine ⟨le_signedLimit_of_clampToVocab hv htoken, rfl, ?_⟩
  rw [hall.length_eq]
  exact hbytes

omit [Zero α] in
theorem rows_of_matrix {t : Tensor3 α} {b : Nat} {m : Tensor2 α} (h : t.matrix b = .ok m) :
    m.rows = t.rows := by
  obtain ⟨count, -, h⟩ := bind_eq_ok.mp h
  obtain ⟨start, -, h⟩ := bind_eq_ok.mp h
  obtain ⟨next, -, h⟩ := bind_eq_ok.mp h
  obtain ⟨stop, -, h⟩ := bind_eq_ok.mp h
  obtain ⟨data, -, h⟩ := bind_eq_ok.mp h
  cases h
  rfl

theorem transposeInner_eq_ok {t u : Tensor3 α} (h : t.transposeInner = .ok u) :
    u.shape = (t.batch, t.cols, t.rows) ∧ Tensor3.matrixBytes * t.batch < Word.signedLimit := by
  obtain ⟨⟨⟩, hroom, h⟩ := bind_eq_ok.mp h
  obtain ⟨data, -, h⟩ := bind_eq_ok.mp h
  cases h
  exact ⟨rfl, ensure_eq_ok.mp hroom⟩

variable [Add α] [Mul α]

/-- The first matrix alone has reached all entries of the other factor. -/
theorem batchedMatmul_eq_ok {t u : Tensor3 α} {w : Tensor2 α} (hpos : 0 < t.batch)
    (h : t.batchedMatmul w = .ok u) :
    u.shape = (t.batch, t.rows, w.cols) ∧
      Storage.entryBytes * (t.batch * t.rows * w.cols) < Word.signedLimit ∧
      (0 < t.rows → w.Filled) := by
  obtain ⟨count, hcount, h⟩ := bind_eq_ok.mp h
  obtain ⟨⟨⟩, hroom, h⟩ := bind_eq_ok.mp h
  obtain ⟨data, hdata, h⟩ := bind_eq_ok.mp h
  obtain ⟨volume, -, h⟩ := bind_eq_ok.mp h
  obtain ⟨⟨⟩, -, h⟩ := bind_eq_ok.mp h
  cases h
  obtain ⟨-, -, rfl⟩ := volume_eq_ok.mp hcount
  refine ⟨rfl, ensure_eq_ok.mp hroom, fun hrows => ?_⟩
  obtain ⟨parts, hparts, -⟩ := bind_eq_ok.mp hdata
  rw [tabulate_eq_mapM] at hparts
  obtain ⟨part, -, hpart⟩ :=
    exists_of_forall₂ (mapM_eq_ok.mp hparts) (List.mem_range.mpr hpos)
  obtain ⟨m, hm, hproduct⟩ := bind_eq_ok.mp hpart
  exact ((Tensor2.matmul_eq_ok hproduct).2 (by rw [rows_of_matrix hm]; exact hrows)).2

end Steps

/-! ## What the sum and the stages have seen -/

theorem shape_foldlM_add [Add α] {rs : List (Gathered α)} {t u : Tensor3 α}
    (h : rs.foldlM (fun sum r => sum.add r.embeddings) t = .ok u) : u.shape = t.shape := by
  induction rs generalizing t with
  | nil =>
      cases h
      rfl
  | cons r rs ih =>
      obtain ⟨sum, hsum, h⟩ := bind_eq_ok.mp h
      obtain ⟨⟨⟩, -, hsum⟩ := bind_eq_ok.mp hsum
      cases hsum
      have hshape := ih h
      exact hshape

theorem exists_of_combine [Add α] {results : List (Gathered α)} {plan : Plan} {t : Tensor3 α}
    (h : combine results plan = .ok t) : ∃ r ∈ results, t.shape = r.embeddings.shape := by
  obtain ⟨ordered, hordered, h⟩ := bind_eq_ok.mp h
  cases ordered with
  | nil => cases h
  | cons first rest =>
      have hfirst := (orderByShard_eq_ok.mp hordered).1.mem_iff.mp List.mem_cons_self
      exact ⟨first, hfirst, shape_foldlM_add h⟩

namespace Projection

variable [Zero α] [Add α] [Mul α] {p : Projection α}

theorem applyStageA_eq_ok {t u : Tensor3 α} (hbatch : 0 < t.batch) (hrows : 0 < t.rows)
    (h : p.applyStageA t = .ok u) :
    t.rows = p.seqLen ∧ u.shape = (t.batch, p.stageA.cols, t.rows) ∧ p.stageA.Filled ∧
      Storage.entryBytes * (t.batch * t.rows * p.stageA.cols) < Word.signedLimit ∧
      Tensor3.matrixBytes * t.batch < Word.signedLimit := by
  obtain ⟨⟨⟩, -, h⟩ := bind_eq_ok.mp h
  obtain ⟨⟨⟩, hseqLen, h⟩ := bind_eq_ok.mp h
  obtain ⟨products, hproducts, h⟩ := bind_eq_ok.mp h
  obtain ⟨hshape, hroom, hfilled⟩ := batchedMatmul_eq_ok hbatch hproducts
  obtain ⟨hshape', hmatrices⟩ := transposeInner_eq_ok h
  simp only [Tensor3.shape, Prod.mk.injEq] at hshape
  rw [hshape.1] at hmatrices
  rw [hshape.1, hshape.2.1, hshape.2.2] at hshape'
  exact ⟨ensure_eq_ok.mp hseqLen, hshape', hfilled hrows, hroom, hmatrices⟩

/-- Only a row of numbers has a hidden vector. -/
theorem applyStageB_eq_ok {t : Tensor3 α} {u : Tensor2 α} (hbatch : 0 < t.batch)
    (h : p.applyStageB t = .ok u) :
    t.rows = 1 ∧ p.stageB.Filled ∧ u.rows = t.batch ∧ u.cols = p.stageB.cols := by
  obtain ⟨products, hproducts, h⟩ := bind_eq_ok.mp h
  obtain ⟨⟨⟩, hone, h⟩ := bind_eq_ok.mp h
  obtain ⟨count, -, h⟩ := bind_eq_ok.mp h
  obtain ⟨⟨⟩, -, h⟩ := bind_eq_ok.mp h
  cases h
  obtain ⟨hshape, -, hfilled⟩ := batchedMatmul_eq_ok hbatch hproducts
  simp only [Tensor3.shape, Prod.mk.injEq] at hshape
  have hrows : t.rows = 1 := hshape.2.1.symm.trans (ensure_eq_ok.mp hone)
  exact ⟨hrows, hfilled (by omega), hshape.1, hshape.2.2⟩

end Projection

/-! ## Calls that succeed -/

section Chain

variable [Zero α] [Add α] [Mul α] [Ord α]
variable {params : Parameters α} {plan : Plan} {v n k seqLen : Nat} {sequences : List (List Int)}

omit [Mul α] [Ord α] in
/-- Each part of the sum has the dimensions of the sum, so what one shard has seen is enough. -/
theorem Parameters.Checked.of_combine (hplan : plan.CutOf v n) (hchecked : params.Checked v n)
    (hv : v < Word.limit) {tokens : TokenBatch} (hids : tokens.ids ≠ [])
    {gathered : List (Gathered α)} {combined : Tensor3 α}
    (hgathered : Chain.eachShard plan params (fun shard slice => gather shard slice tokens) =
      .ok gathered) (hcombined : combine gathered plan = .ok combined) :
    v ≤ Word.signedLimit ∧
      combined.shape = (tokens.batch, tokens.seqLen, params.projection.embeddingDim) ∧
      Storage.entryBytes * (tokens.ids.length * params.projection.embeddingDim) <
        Word.signedLimit := by
  rw [hchecked.eachShard_eq_mapM hplan, mapM_eq_ok] at hgathered
  obtain ⟨part, hpart, hshape⟩ := exists_of_combine hcombined
  obtain ⟨i, hi, hgather⟩ := exists_of_forall₂ hgathered.flip hpart
  obtain ⟨hvocab, hpartShape, hroom⟩ := gather_eq_ok hv hids hgather
  have hdim := hchecked.dim i (List.mem_range.mp hi)
  rw [hdim] at hpartShape hroom
  exact ⟨hvocab, hshape.trans hpartShape, hroom⟩

omit [Ord α] in
/-- Every shard has rows, and scoring them has reached all entries. -/
theorem Parameters.Checked.of_logits (hplan : plan.CutOf v n) (hchecked : params.Checked v n)
    {hidden : Tensor2 α} {logits : List (Logits α)}
    (hlogits : Chain.eachShard plan params (fun shard slice => shardLogits shard slice hidden) =
      .ok logits) :
    params.projection.embeddingDim = hidden.cols ∧ ∀ s ∈ params.shards, s.table.Filled ∧
      Storage.entryBytes * (s.table.rows * hidden.rows) < Word.signedLimit := by
  rw [hchecked.eachShard_eq_mapM hplan, mapM_eq_ok] at hlogits
  have hscored : ∀ i < n, (params.table i).cols = hidden.cols ∧ (params.table i).Filled ∧
      Storage.entryBytes * ((params.table i).rows * hidden.rows) < Word.signedLimit := by
    intro i hi
    obtain ⟨l, -, hl⟩ := exists_of_forall₂ hlogits (List.mem_range.mpr hi)
    obtain ⟨hcols, hfilled, hroom⟩ := shardLogits_eq_ok hl
    have hwide := hplan.bound_lt_succ hi
    refine ⟨hcols, hfilled ?_, hroom⟩
    rw [hchecked.rows hi]
    omega
  refine ⟨(hchecked.dim 0 hplan.pos).symm.trans (hscored 0 hplan.pos).1, fun s hs => ?_⟩
  obtain ⟨i, hi, rfl⟩ := hchecked.mem_shards.mp hs
  exact (hscored i hi).2

/-- A chain succeeds only if the call can be made. -/
theorem Parameters.serves_of_chain (hplan : plan.CutOf v n) (hchecked : params.Checked v n)
    (hv : v < Word.limit) (hwords : ∀ s ∈ params.shards, s.table.data.size < Word.limit)
    (hrect : Rectangular sequences seqLen) {chain : Chain α}
    (h : Chain.run plan params (.join sequences seqLen) k = .ok chain) :
    params.Serves v n sequences seqLen := by
  obtain ⟨gathered, hgathered, h⟩ := bind_eq_ok.mp h
  obtain ⟨combined, hcombined, h⟩ := bind_eq_ok.mp h
  obtain ⟨weighed, hweighed, h⟩ := bind_eq_ok.mp h
  obtain ⟨hidden, hhidden, h⟩ := bind_eq_ok.mp h
  obtain ⟨logits, hlogits, -⟩ := bind_eq_ok.mp h
  have hpos := hrect.nonempty
  have hseqLen := hrect.seqLen_pos
  have hlength : (TokenBatch.join sequences seqLen).ids.length = sequences.length * seqLen :=
    hrect.length_flatten
  have hids : (TokenBatch.join sequences seqLen).ids ≠ [] := by
    refine List.ne_nil_of_length_pos ?_
    rw [hlength]
    exact Nat.mul_pos hpos hseqLen
  obtain ⟨hvocab, hshape, hembeddings⟩ := hchecked.of_combine hplan hv hids hgathered hcombined
  simp only [Tensor3.shape, TokenBatch.join, Prod.mk.injEq] at hshape
  obtain ⟨hbatch, hrows, -⟩ := hshape
  obtain ⟨hseqLen', hweighedShape, hstageA, hnumbers, hmatrices⟩ :=
    Projection.applyStageA_eq_ok (by omega) (by omega) hweighed
  simp only [Tensor3.shape, Prod.mk.injEq] at hweighedShape
  obtain ⟨hone, hstageB, hhiddenRows, hhiddenCols⟩ :=
    Projection.applyStageB_eq_ok (by omega) hhidden
  obtain ⟨hdim, hslices⟩ := hchecked.of_logits hplan hlogits
  -- The middle dimension that is dropped is the number of columns of stage A.
  have hcolsA : params.projection.stageA.cols = 1 := hweighedShape.2.1.symm.trans hone
  rw [hlength] at hembeddings
  rw [hcolsA, Nat.mul_one, hbatch, hrows] at hnumbers
  rw [hbatch] at hmatrices
  rw [hhiddenRows, hweighedShape.1, hbatch] at hslices
  exact ⟨hrect, hchecked, hvocab, ⟨fun s hs => (hslices s hs).1, hstageA, hcolsA, hstageB,
    hhiddenCols.symm.trans hdim.symm⟩, hwords,
    ⟨hembeddings, hnumbers, hmatrices, fun s hs => (hslices s hs).2⟩, hrows.symm.trans hseqLen'⟩

/-- When a call succeeds, and what it predicts then. -/
theorem Coordinator.infer_eq_ok_iff (hplan : plan.CutOf v n) (hv : v < Word.limit)
    (hwords : ∀ s ∈ params.shards, s.table.data.size < Word.limit) {options : CallOptions}
    {c : Coordinator α} (hc : create plan params options = .ok c)
    (hrect : Rectangular sequences seqLen) {ms : Nat} {p : Prediction α} :
    (c.infer (.join sequences seqLen) k ms).1 = .ok p ↔
      (1 ≤ k ∧ k ≤ v / n) ∧ params.Serves v n sequences seqLen ∧
        p = ⟨sequences.map (params.predictSequence v n k)⟩ := by
  obtain ⟨⟨⟩, hparams, hcreate⟩ := bind_eq_ok.mp hc
  have hchecked := Parameters.checked_of_validate hplan hparams
  by_cases hk : 1 ≤ k ∧ k ≤ v / n
  · obtain ⟨c', hc', hinfer⟩ := exists_create hplan hparams hk.1 hk.2 options
    obtain rfl : c = c' := Except.ok.inj (hc.symm.trans hc')
    rw [hinfer]
    constructor
    · intro h
      cases hrun : Chain.run plan params (.join sequences seqLen) k with
      | error e =>
          rw [hrun] at h
          cases h
      | ok chain =>
          have hserves := Parameters.serves_of_chain hplan hchecked hv hwords hrect hrun
          rw [hserves.prediction_eq hplan hk.1 hk.2] at h
          exact ⟨hk, hserves, (Except.ok.inj h).symm⟩
    · rintro ⟨-, hserves, rfl⟩
      rw [hserves.prediction_eq hplan hk.1 hk.2]
      rfl
  · cases hcreate
    have hover : Over ⟨plan, params, options, ⟨options.timeoutMs, false⟩, .zero, []⟩ v n :=
      ⟨hplan, hparams, rfl⟩
    obtain ⟨e, hne, he⟩ := hover.prepare_of_not_mem hk
    rw [infer_of_error (fun _ hp => by cases hp) he hne]
    simp [hk]

end Chain

/-! ## Parameters from a file -/

section Loading

variable {disk disk' : Disk}

theorem ParameterSource.load_file_eq_ok {plan : Plan} {path : String}
    {params : Parameters Binary32} :
    ((file path).load plan : ExceptT Failure (StateM Disk) _).run.run disk = (.ok params, disk') ↔
      ∃ content, disk.read path = .ok content ∧ Parameters.decode content = .ok params ∧
        params.validate plan = .ok () ∧ disk = disk' := by
  constructor
  · intro h
    obtain ⟨content, between, hread, h⟩ := run_bind_eq_ok.mp h
    obtain ⟨decoded, between', hdecode, h⟩ := run_bind_eq_ok.mp h
    obtain ⟨⟨⟩, between'', hcheck, h⟩ := run_bind_eq_ok.mp h
    rw [run_read] at hread
    rw [run_liftExcept] at hdecode hcheck
    obtain ⟨hcontent, rfl⟩ := Prod.mk.inj hread
    obtain ⟨hdecoded, rfl⟩ := Prod.mk.inj hdecode
    obtain ⟨hchecked, rfl⟩ := Prod.mk.inj hcheck
    cases h
    exact ⟨content, hcontent, hdecoded, hchecked, rfl⟩
  · rintro ⟨content, hread, hdecode, hcheck, rfl⟩
    refine run_bind_eq_ok.mpr ⟨content, disk, ?_, run_bind_eq_ok.mpr ⟨params, disk, ?_,
      run_bind_eq_ok.mpr ⟨(), disk, ?_, rfl⟩⟩⟩
    · rw [run_read, hread]
    · rw [run_liftExcept, hdecode]
    · rw [run_liftExcept, hcheck]

/-- A coordinator can be made of whatever a file was loaded to. Its calls succeed only if the
parameters are sound and there is room for what is computed, and then they do if the lists of the
call have room as well. -/
theorem infer_loaded_outcomes {v n : Nat} {plan : Plan} (hplan : Plan.cut v n = .ok plan)
    (hv : v ≤ Word.signedLimit) {path : String} {params : Parameters Binary32}
    (hload : ((ParameterSource.file path).load plan :
      ExceptT Failure (StateM Disk) _).run.run disk = (.ok params, disk'))
    (hwords : ∀ s ∈ params.shards, s.table.data.size < Word.limit) (options : CallOptions) :
    ∃ c, Coordinator.create plan params options = .ok c ∧
      ∀ ids batch tokens k ms,
        TokenBatch.ofIds ids batch params.projection.seqLen = .ok tokens → 1 ≤ k → k ≤ v / n →
        ((∃ p, (c.infer tokens k ms).1 = .ok p) →
          params.Sound ∧ params.RoomFor batch params.projection.seqLen) ∧
        (params.Sound → params.RoomFor batch params.projection.seqLen → params.ListsFit k →
          ∃ p, (c.infer tokens k ms).1 = .ok p) := by
  have hcut := Plan.cutOf_of_cut hplan
  obtain ⟨content, -, -, hparams, -⟩ := ParameterSource.load_file_eq_ok.mp hload
  have hc : Coordinator.create plan params options =
      .ok ⟨plan, params, options, ⟨options.timeoutMs, false⟩, .zero, []⟩ := by
    rw [Coordinator.create, hparams, ok_bind]
  refine ⟨_, hc, fun ids batch tokens k ms htokens hk hkn => ?_⟩
  obtain ⟨sequences, rfl, hrect, rfl⟩ := TokenBatch.exists_join htokens
  constructor
  · rintro ⟨p, hp⟩
    obtain ⟨-, hserves, -⟩ := (Coordinator.infer_eq_ok_iff hcut
      (Nat.lt_of_le_of_lt hv (by decide)) hwords hc hrect).mp hp
    exact ⟨hserves.sound, hserves.room⟩
  · intro hsound hroom _
    exact ⟨_, (Coordinator.infer_eq_ok_iff hcut (Nat.lt_of_le_of_lt hv (by decide)) hwords hc
      hrect).mpr ⟨⟨hk, hkn⟩, ⟨hrect, Parameters.checked_of_validate hcut hparams, hv, hsound,
        hwords, hroom, rfl⟩, rfl⟩⟩

end Loading

/-- Parameters for two ids whose table has the given entries. -/
def twoIds (entries : Array Binary32) : Parameters Binary32 :=
  ⟨[⟨0, ⟨entries, 2, 1⟩⟩], ⟨⟨#[⟨0x3f800000⟩], 1, 1⟩, ⟨#[⟨0x40000000⟩], 1, 1⟩⟩⟩

/-- A disk with two files of parameters. The table in the second lacks its last entry. -/
def twoFiles : Disk :=
  ⟨[], [(["whole"], .file (twoIds #[⟨0x3f800000⟩, ⟨0xc0000000⟩]).encode),
    (["short"], .file (twoIds #[⟨0x3f800000⟩]).encode)]⟩

/-- Both files load, and calls succeed on the first only. -/
theorem infer_loaded_outcomes_short :
    let plan : Plan := ⟨2, [⟨0, 0, 2, 1, 2⟩]⟩
    let load (path : String) : ExceptT Failure (StateM Disk) (Parameters Binary32) :=
      (ParameterSource.file path).load plan
    Plan.cut 2 1 = .ok plan ∧
    ∃ whole short, (load "/whole").run.run twoFiles = (.ok whole, twoFiles) ∧
      (load "/short").run.run twoFiles = (.ok short, twoFiles) ∧
      (∃ c, Coordinator.create plan whole .standard = .ok c ∧
        ∃ p, (c.infer ⟨[0], 1, 1⟩ 1 0).1 = .ok p) ∧
      ∃ c, Coordinator.create plan short .standard = .ok c ∧
        ∀ p, (c.infer ⟨[0], 1, 1⟩ 1 0).1 ≠ .ok p := by
  intro plan load
  have hplan : Plan.cut 2 1 = .ok plan := rfl
  have hwhole : (load "/whole").run.run twoFiles =
      (.ok (twoIds #[⟨0x3f800000⟩, ⟨0xc0000000⟩]), twoFiles) :=
    ParameterSource.load_file_eq_ok.mpr ⟨(twoIds #[⟨0x3f800000⟩, ⟨0xc0000000⟩]).encode,
      by decide +kernel, by decide +kernel, rfl, rfl⟩
  have hshort : (load "/short").run.run twoFiles = (.ok (twoIds #[⟨0x3f800000⟩]), twoFiles) :=
    ParameterSource.load_file_eq_ok.mpr ⟨(twoIds #[⟨0x3f800000⟩]).encode,
      by decide +kernel, by decide +kernel, rfl, rfl⟩
  obtain ⟨c, hc, hcall⟩ := infer_loaded_outcomes hplan (by decide) hwhole (by decide) .standard
  obtain ⟨c', hc', hcall'⟩ := infer_loaded_outcomes hplan (by decide) hshort (by decide) .standard
  refine ⟨hplan, _, _, hwhole, hshort, ⟨c, hc, ?_⟩, c', hc', fun p hp => ?_⟩
  · exact (hcall [0] 1 _ 1 0 rfl (by decide) (by decide)).2
      ⟨by decide, by decide, rfl, by decide, rfl⟩ ⟨by decide, by decide, by decide, by decide⟩
      (by decide)
  · obtain ⟨hsound, -⟩ := (hcall' [0] 1 _ 1 0 rfl (by decide) (by decide)).1 ⟨p, hp⟩
    exact absurd (hsound.slices _ List.mem_cons_self) (by decide)

end ShardedModel
