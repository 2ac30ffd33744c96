import ShardedModel.Parameters.Seeded
import ShardedModel.Proofs.BuiltGraph
import ShardedModel.Proofs.Lookup
import ShardedModel.Proofs.ScheduledCall
import ShardedModel.Settings

/-!
# Settings that are accepted can be used

Settings are checked before anything is made of them, and the planner and the builder of
graphs check once more what they get. The two belong together: settings that are accepted can
be cut, built and prepared, and where the check refuses the sizes of the cut, the planner or
the builder refuses too. Which numbers the parameters are drawn from does not matter, since
preparing looks at their dimensions only.

What the check leaves open is memory. A plan, the slices of its table and its graph need room
for lists of so many records for each shard, and drawing needs room for the table and for
stage B.
-/

namespace ShardedModel

open Outcome

/-! ## Drawing -/

section Drawing

variable {α σ : Type}

theorem size_foldl_push {f : Array α × σ → Nat → Array α × σ}
    (hf : ∀ xs n, (f xs n).1.size = xs.1.size + 1) (ns : List Nat) (xs : Array α × σ) :
    (ns.foldl f xs).1.size = xs.1.size + ns.length := by
  induction ns generalizing xs with
  | nil => rfl
  | cons n ns ih =>
      rw [List.foldl_cons, ih, hf, List.length_cons]
      omega

variable (next : σ → α × σ)

theorem size_drawMany (count : Nat) (source : σ) :
    (drawMany next count source).1.size = count := by
  rw [drawMany, size_foldl_push fun xs _ => Array.size_push (next xs.2).1, List.length_range]
  exact Nat.zero_add count

theorem exists_drawMatrix {rows cols : Nat}
    (hroom : Storage.entryBytes * (rows * cols) < Word.signedLimit) (source : σ) :
    ∃ data source', drawMatrix next rows cols source = .ok (⟨data, rows, cols⟩, source') ∧
      data.size = rows * cols := by
  refine ⟨(drawMany next (rows * cols) source).1, (drawMany next (rows * cols) source).2, ?_,
    size_drawMany next _ source⟩
  rw [drawMatrix, Flat.room_eq_ok.mpr ⟨Flat.count_lt (by decide) hroom, hroom, rfl⟩, ok_bind]

theorem drawMatrix_of_no_room {rows cols : Nat}
    (hroom : ¬ Storage.entryBytes * (rows * cols) < Word.signedLimit) (source : σ) :
    drawMatrix next rows cols source = .error .fault := by
  rw [drawMatrix, Flat.room_of_no_room hroom]
  rfl

section Plans

variable {v dim seqLen : Nat} (hpos : 0 < v)
  (htable : Storage.entryBytes * (v * dim) < Word.signedLimit)
include hpos htable

omit next in
theorem stageA_room : Storage.entryBytes * (dim * 1) < Word.signedLimit := by
  rw [Nat.mul_one]
  exact Nat.lt_of_le_of_lt (Nat.mul_le_mul_left _ (Nat.le_mul_of_pos_left dim hpos)) htable

/-- All plans for a vocabulary get the same table and the same projection from a source. -/
theorem Parameters.exists_drawn_whole
    (hstageB : Storage.entryBytes * (seqLen * dim) < Word.signedLimit) (source : σ) :
    ∃ table projection, table.WellFormed ∧ table.rows = v ∧ table.cols = dim ∧
      projection.embeddingDim = dim ∧ projection.seqLen = seqLen ∧
      ∀ plan : Plan, plan.vocabSize = v →
        drawn next source plan dim seqLen = ofFullTable table plan projection := by
  obtain ⟨table, source₁, hdraw, hsize⟩ := exists_drawMatrix next htable source
  obtain ⟨stageA, source₂, hdrawA, -⟩ := exists_drawMatrix next (stageA_room hpos htable) source₁
  obtain ⟨stageB, source₃, hdrawB, -⟩ := exists_drawMatrix next hstageB source₂
  refine ⟨⟨table, v, dim⟩, ⟨⟨stageA, dim, 1⟩, ⟨stageB, seqLen, dim⟩⟩, hsize, rfl, rfl, rfl, rfl,
    fun plan hvocab => ?_⟩
  simp only [drawn, hvocab, hdraw, hdrawA, hdrawB, ok_bind]
  rw [Projection.ofStages, ensure_of rfl, ok_bind, ensure_of rfl, ok_bind, ok_bind]

/-- Parameters that are drawn for a plan fit it. -/
theorem Parameters.exists_drawn {plan : Plan} {n : Nat} (hplan : plan.CutOf v n)
    (hslices : TableSlice.recordBytes * Storage.capacity n < Word.signedLimit)
    (hstageB : Storage.entryBytes * (seqLen * dim) < Word.signedLimit) (source : σ) :
    ∃ params, drawn next source plan dim seqLen = .ok params ∧
      params.validate plan = .ok () := by
  obtain ⟨table, projection, hwell, rfl, rfl, hdim, -, hdrawn⟩ :=
    exists_drawn_whole next hpos htable hstageB source
  have hsplit := splitTable_of_cut hplan hwell.filled
    (by rw [hwell]; exact Flat.count_lt (by decide) htable) rfl hslices
  refine ⟨⟨_, projection⟩, ?_, validate_of_split hplan hdim.symm⟩
  rw [hdrawn plan hplan.vocabSize, ofFullTable, hsplit, ok_bind]

end Plans

/-- Without room for the table or for stage B, nothing is drawn. -/
theorem Parameters.drawn_of_no_room {plan : Plan} {dim seqLen : Nat} (hpos : 0 < plan.vocabSize)
    (hroom : ¬ (Storage.entryBytes * (plan.vocabSize * dim) < Word.signedLimit ∧
      Storage.entryBytes * (seqLen * dim) < Word.signedLimit)) (source : σ) :
    drawn next source plan dim seqLen = .error .fault := by
  by_cases htable : Storage.entryBytes * (plan.vocabSize * dim) < Word.signedLimit
  · obtain ⟨table, source₁, hdraw, -⟩ := exists_drawMatrix next htable source
    obtain ⟨stageA, source₂, hdrawA, -⟩ := exists_drawMatrix next (stageA_room hpos htable) source₁
    have hdrawB := drawMatrix_of_no_room next (fun hstageB => hroom ⟨htable, hstageB⟩) source₂
    simp only [drawn, hdraw, hdrawA, hdrawB, ok_bind, error_bind]
  · rw [drawn, drawMatrix_of_no_room next htable]
    rfl

end Drawing

/-! ## What is refused -/

/-- How the planner or the builder refuses what the check of the settings refuses with this
cause, if the cause is in the sizes of the cut. -/
def ConfigCause.refusal? : ConfigCause → Option Failure
  | .shardCountZero => some (.config .noShards)
  | .vocabBelowShardCount v n => some (.config (.tooFewIds v n))
  | .topKZero => some (.config .zeroTopK)
  | .topKAboveWidth k width => some (.emptyShard 0 width k)
  | _ => none

namespace Settings

/-- The graph of a deployment with these settings. -/
def inferenceGraph (s : Settings) (coalesce : Bool) : Outcome Graph := do
  let plan ← Plan.cut s.model.vocabSize s.sharding.shardCount
  Graph.build plan ⟨s.sharding.topK, coalesce⟩

variable {s : Settings}

theorem sizes_of_validate (h : s.validate = .ok ()) :
    1 ≤ s.sharding.shardCount ∧ s.sharding.shardCount ≤ s.model.vocabSize ∧
      1 ≤ s.sharding.topK ∧ s.sharding.topK ≤ s.model.vocabSize / s.sharding.shardCount := by
  obtain ⟨⟨⟩, hshards, h⟩ := bind_eq_ok.mp h
  obtain ⟨⟨⟩, hvocab, h⟩ := bind_eq_ok.mp h
  obtain ⟨⟨⟩, htopK, h⟩ := bind_eq_ok.mp h
  obtain ⟨⟨⟩, hwidth, -⟩ := bind_eq_ok.mp h
  exact ⟨Nat.pos_of_ne_zero (ensure_eq_ok.mp hshards), ensure_eq_ok.mp hvocab,
    Nat.pos_of_ne_zero (ensure_eq_ok.mp htopK), ensure_eq_ok.mp hwidth⟩

section Sizes

variable (hvocab : s.model.vocabSize < Word.limit)
variable (hroom : Plan.listBytes * s.sharding.shardCount < Word.signedLimit)

include hvocab hroom

theorem cut_of_room (hpos : 1 ≤ s.sharding.shardCount)
    (hle : s.sharding.shardCount ≤ s.model.vocabSize) :
    ∃ plan, Plan.cut s.model.vocabSize s.sharding.shardCount = .ok plan :=
  ⟨_, Plan.cut_of_le hpos hle hvocab (shards_room (slices_room hroom))⟩

/-- Settings that are refused for the sizes of the cut are refused when it is made. -/
theorem inferenceGraph_of_refused {cause : ConfigCause} {e : Failure}
    (h : s.validate = .error (.config cause)) (he : cause.refusal? = some e) (coalesce : Bool) :
    s.inferenceGraph coalesce = .error e := by
  rw [inferenceGraph]
  rcases bind_eq_error.mp h with h | ⟨⟨⟩, hshards, h⟩
  · obtain ⟨hzero, ⟨⟩⟩ := ensure_eq_error.mp h
    cases he
    rw [Plan.cut, ensure_of_not hzero]
    rfl
  have hshards := ensure_eq_ok.mp hshards
  rcases bind_eq_error.mp h with h | ⟨⟨⟩, hle, h⟩
  · obtain ⟨hlt, ⟨⟩⟩ := ensure_eq_error.mp h
    cases he
    rw [Plan.cut, ensure_of hshards, ok_bind, ensure_of_not hlt]
    rfl
  obtain ⟨plan, hcut⟩ :=
    cut_of_room hvocab hroom (Nat.pos_of_ne_zero hshards) (ensure_eq_ok.mp hle)
  rw [hcut, ok_bind]
  rcases bind_eq_error.mp h with h | ⟨⟨⟩, -, h⟩
  · obtain ⟨hzero, ⟨⟩⟩ := ensure_eq_error.mp h
    cases he
    rw [not_not.mp hzero, Graph.build_of_zero]
  rcases bind_eq_error.mp h with h | ⟨⟨⟩, -, h⟩
  · obtain ⟨hlt, ⟨⟩⟩ := ensure_eq_error.mp h
    cases he
    exact Graph.build_of_lt (Plan.cutOf_of_cut hcut) (Nat.lt_of_not_le hlt) coalesce
  -- What is checked after this does not concern the cut.
  rcases bind_eq_error.mp h with h | ⟨⟨⟩, -, h⟩
  · obtain ⟨-, ⟨⟩⟩ := ensure_eq_error.mp h
    cases he
  rcases bind_eq_error.mp h with h | ⟨⟨⟩, -, h⟩
  · obtain ⟨-, ⟨⟩⟩ := ensure_eq_error.mp h
    cases he
  · obtain ⟨-, ⟨⟩⟩ := ensure_eq_error.mp h
    cases he

theorem inferenceGraph_eq_ok_iff (coalesce : Bool) :
    (∃ g, s.inferenceGraph coalesce = .ok g) ↔
      1 ≤ s.sharding.shardCount ∧ s.sharding.shardCount ≤ s.model.vocabSize ∧
        1 ≤ s.sharding.topK ∧ s.sharding.topK ≤ s.model.vocabSize / s.sharding.shardCount := by
  constructor
  · intro hmade
    obtain ⟨g, hg⟩ := hmade
    obtain ⟨plan, hplan, hg⟩ := bind_eq_ok.mp hg
    have hcut := Plan.cutOf_of_cut hplan
    exact ⟨hcut.pos, hcut.le, (Graph.exists_build_iff hcut coalesce).mp ⟨g, hg⟩⟩
  · intro hsizes
    obtain ⟨hpos, hle, hk⟩ := hsizes
    obtain ⟨plan, hplan⟩ := cut_of_room hvocab hroom hpos hle
    obtain ⟨g, hg⟩ := (Graph.exists_build_iff (Plan.cutOf_of_cut hplan) coalesce).mpr hk
    exact ⟨g, by rw [inferenceGraph, hplan, ok_bind, hg]⟩

/-- Settings that are accepted can be used up to a graph that is prepared with parameters from
any source of numbers. -/
theorem exists_prepared_of_validate (h : s.validate = .ok ()) (coalesce : Bool) :
    ∃ plan g, Plan.cut s.model.vocabSize s.sharding.shardCount = .ok plan ∧
      Graph.build plan ⟨s.sharding.topK, coalesce⟩ = .ok g ∧
      (Storage.entryBytes * (s.model.vocabSize * s.model.embeddingDim) < Word.signedLimit →
        Storage.entryBytes * (s.model.seqLen * s.model.embeddingDim) < Word.signedLimit →
        ∀ (α σ : Type) (next : σ → α × σ) (source : σ), ∃ params p,
          Parameters.drawn next source plan s.model.embeddingDim s.model.seqLen = .ok params ∧
          Prepared.prepare g params = .ok p) := by
  obtain ⟨hpos, hle, hk, hkn⟩ := sizes_of_validate h
  obtain ⟨plan, hplan⟩ := cut_of_room hvocab hroom hpos hle
  have hcut := Plan.cutOf_of_cut hplan
  obtain ⟨g, hbuild, -⟩ := Graph.exists_build hcut hk hkn coalesce
  refine ⟨_, g, hplan, hbuild, fun htable hstageB α σ next source => ?_⟩
  obtain ⟨params, hdrawn, hparams⟩ :=
    Parameters.exists_drawn next (Nat.lt_of_lt_of_le hpos hle) htable hcut (slices_room hroom)
      hstageB source
  -- The tokens of a call do not matter to what is prepared.
  obtain ⟨g', ws, hbuild', -, hprepare⟩ := Call.exists_prepared
    (Call.ready_of_validate (c := ⟨_, params, ⟨[], 0, 0⟩, s.sharding.topK⟩) hcut hparams hk hkn)
    hparams coalesce
  obtain rfl : g = g' := Except.ok.inj (hbuild.symm.trans hbuild')
  exact ⟨params, _, hdrawn, hprepare⟩

end Sizes

/-- The check of settings agrees with the planner and the builder of graphs, if there is room
for the lists that have records for each shard. A graph can be made exactly if there are shards,
no more than ids, and each has the candidates asked for. Settings that are accepted can be used,
with parameters from any source that there is room for. Settings that are refused for one of
these sizes are refused by the planner or the builder, for the same reason. -/
theorem validate_agrees (s : Settings) (hvocab : s.model.vocabSize < Word.limit)
    (hroom : Plan.listBytes * s.sharding.shardCount < Word.signedLimit) (coalesce : Bool) :
    ((∃ g, s.inferenceGraph coalesce = .ok g) ↔
      1 ≤ s.sharding.shardCount ∧ s.sharding.shardCount ≤ s.model.vocabSize ∧
        1 ≤ s.sharding.topK ∧ s.sharding.topK ≤ s.model.vocabSize / s.sharding.shardCount) ∧
    (s.validate = .ok () →
      ∃ plan g, Plan.cut s.model.vocabSize s.sharding.shardCount = .ok plan ∧
        Graph.build plan ⟨s.sharding.topK, coalesce⟩ = .ok g ∧
        (Storage.entryBytes * (s.model.vocabSize * s.model.embeddingDim) < Word.signedLimit →
          Storage.entryBytes * (s.model.seqLen * s.model.embeddingDim) < Word.signedLimit →
          ∀ (α σ : Type) (next : σ → α × σ) (source : σ), ∃ params p,
            Parameters.drawn next source plan s.model.embeddingDim s.model.seqLen = .ok params ∧
            Prepared.prepare g params = .ok p)) ∧
    ∀ cause e, s.validate = .error (.config cause) → cause.refusal? = some e →
      s.inferenceGraph coalesce = .error e :=
  ⟨inferenceGraph_eq_ok_iff hvocab hroom coalesce,
    fun h => exists_prepared_of_validate hvocab hroom h coalesce,
    fun _ _ h he => inferenceGraph_of_refused hvocab hroom h he coalesce⟩

/-- The standard settings, with the numbers from zero on for parameters; and the standard
settings with one candidate more than the narrower shard has ids. -/
theorem validate_agrees_standard :
    let greedy : Settings := { standard with sharding := ⟨2, 25137⟩ }
    (∃ plan g params p, Plan.cut 50272 2 = .ok plan ∧ Graph.build plan ⟨4, true⟩ = .ok g ∧
      Parameters.drawn (fun x : Nat => (x, x + 1)) 0 plan 1600 256 = .ok params ∧
      Prepared.prepare g params = .ok p) ∧
    greedy.validate = .error (.config (.topKAboveWidth 25137 25136)) ∧
    greedy.inferenceGraph false = .error (.emptyShard 0 25136 25137) := by
  intro greedy
  have haccepted : standard.validate = .ok () := by decide +kernel
  have hrefused : greedy.validate = .error (.config (.topKAboveWidth 25137 25136)) := by
    decide +kernel
  obtain ⟨-, huse, -⟩ := validate_agrees standard (by decide) (by decide) true
  obtain ⟨-, -, hrefuse⟩ := validate_agrees greedy (by decide) (by decide) false
  obtain ⟨plan, g, hplan, hbuild, hdraw⟩ := huse haccepted
  obtain ⟨params, p, hdrawn, hprepare⟩ :=
    hdraw (by decide) (by decide) Nat Nat (fun x => (x, x + 1)) 0
  exact ⟨⟨plan, g, params, p, hplan, hbuild, hdrawn, hprepare⟩, hrefused,
    hrefuse _ _ hrefused rfl⟩

/-- Counts that fit a word are not enough. Embeddings of 2^61 numbers are accepted, but one of
them alone takes 2^63 bytes, so no parameters can be drawn. So are 2^58 shards, whose nodes all
have ids that fit a word, but their list takes more than 2^63 bytes and cannot be made. -/
theorem validate_of_too_large :
    let wide : Settings :=
      { standard with model := ⟨1, 2305843009213693952, 1, 42, none⟩, sharding := ⟨1, 1⟩ }
    let many : Settings :=
      { standard with
        model := ⟨288230376151711744, 1, 1, 42, none⟩, sharding := ⟨288230376151711744, 1⟩ }
    wide.validate = .ok () ∧ wide.model.vocabSize * wide.model.embeddingDim < Word.limit ∧
    wide.model.seqLen * wide.model.embeddingDim < Word.limit ∧
    (∃ plan, Plan.cut 1 1 = .ok plan ∧ ∀ (α σ : Type) (next : σ → α × σ) (source : σ),
      Parameters.drawn next source plan wide.model.embeddingDim wide.model.seqLen =
        .error .fault) ∧
    many.validate = .ok () ∧ 7 * many.sharding.shardCount + 4 < Word.limit ∧
    ∀ coalesce, many.inferenceGraph coalesce = .error .fault := by
  intro wide many
  have hwide : wide.validate = .ok () := by decide +kernel
  have hmany : many.validate = .ok () := by decide +kernel
  have hcut : Plan.cut 288230376151711744 288230376151711744 = .error .fault := by
    rw [Plan.cut, ensure_of (by decide), ok_bind, ensure_of (by decide), ok_bind, Storage.reserve,
      ensure_of_not (by decide)]
    rfl
  refine ⟨hwide, by decide, by decide,
    ⟨⟨1, [⟨0, 0, 1, 1, 1⟩]⟩, by decide, fun α σ next source => ?_⟩, hmany, by decide,
    fun coalesce => ?_⟩
  · have hdraw : drawMatrix next 1 2305843009213693952 source = .error .fault := by
      rw [drawMatrix, Flat.room, Word.mul_of_lt (by decide), ok_bind, Flat.reserve,
        Storage.reserve, ensure_of_not (by decide)]
      rfl
    show Parameters.drawn next source ⟨1, [⟨0, 0, 1, 1, 1⟩]⟩ 2305843009213693952 1 = _
    rw [Parameters.drawn, hdraw]
    rfl
  · show (do
      let plan ← Plan.cut 288230376151711744 288230376151711744
      Graph.build plan ⟨1, coalesce⟩) = _
    rw [hcut]
    rfl

end Settings

end ShardedModel
