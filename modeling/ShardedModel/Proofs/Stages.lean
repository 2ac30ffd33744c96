import ShardedModel.Chain
import ShardedModel.Proofs.Dataflow
import ShardedModel.Proofs.Execution
import ShardedModel.Proofs.Faults

/-!
# What the stages of a call compute

`Call.meaning` says what each operation of an inference call computes, without graph or
chain: each stage from the stages before it, and failing where one of them does. Both
ways of making the call are then compared with it. A node of the dataflow computes its
meaning as soon as the nodes it reads have theirs, in whatever order that comes about. The
chain computes the meanings stage by stage, and within a stage shard by shard, so it
fails with the first failing one in that order.
-/

namespace ShardedModel

open Outcome

variable {α : Type}

/-- What is asked for in one inference call. -/
structure Call (α : Type) where
  plan : Plan
  params : Parameters α
  tokens : TokenBatch
  k : Nat

namespace Call

section Meaning

variable [Zero α] [Add α] [Mul α] [Ord α] (c : Call α)

/-- What shard `i` hands in to the sum of embeddings. -/
def gathered (i : Nat) : Outcome (Gathered α) := do
  let shard ← c.plan.shard i
  let slice ← c.params.slice i
  gather shard slice c.tokens

def combined : Outcome (Tensor3 α) := do
  let results ← (List.range c.plan.shardCount).mapM c.gathered
  combine results c.plan

def scores : Outcome (Tensor3 α) := do
  let embeddings ← c.combined
  c.params.projection.applyStageA embeddings

def hidden : Outcome (Tensor2 α) := do
  let scores ← c.scores
  c.params.projection.applyStageB scores

/-- The scores of shard `i`. -/
def logits (i : Nat) : Outcome (Logits α) := do
  let shard ← c.plan.shard i
  let slice ← c.params.slice i
  let hidden ← c.hidden
  shardLogits shard slice hidden

/-- What shard `i` keeps of its scores. -/
def kept (i : Nat) : Outcome (LocalTopK α) := do
  let shard ← c.plan.shard i
  let logits ← c.logits i
  localTopK shard logits c.k

def prediction : Outcome (Prediction α) := do
  let locals ← (List.range c.plan.shardCount).mapM c.kept
  merge locals c.plan c.k

/-- What an operation computes. -/
def meaning : Operation → Outcome (Value α)
  | .input => .ok (.tokens c.tokens)
  | .gather i => do
      let g ← c.gathered i
      .ok (.gathered g)
  | .accumulate => do
      let embeddings ← c.combined
      .ok (.combined embeddings)
  | .stageA => do
      let scores ← c.scores
      .ok (.scores scores)
  | .stageB => do
      let hidden ← c.hidden
      .ok (.hidden hidden)
  | .shardLogits i => do
      let l ← c.logits i
      .ok (.logits l)
  | .localTopK i _ => do
      let l ← c.kept i
      .ok (.topK l)
  | .merge _ => do
      let p ← c.prediction
      .ok (.prediction p)
  | .copy destinations => .error (.execution (.notComputed (.copy destinations)))

end Meaning

/-- The plan is a cut, each shard has a slice that fits, and `k` candidates can be kept. -/
structure Ready (c : Call α) (v n : Nat) : Prop where
  cut : c.plan.CutOf v n
  slices : ∀ i < n, ∃ slice, c.params.slice i = .ok slice ∧
    slice.check (Plan.shardAt v n i) = .ok () ∧
    slice.embeddingDim = c.params.projection.embeddingDim
  pos : 1 ≤ c.k
  le : c.k ≤ v / n

theorem ready_of_validate {c : Call α} {v n : Nat} (hcut : c.plan.CutOf v n)
    (hparams : c.params.validate c.plan = .ok ()) (hpos : 1 ≤ c.k) (hle : c.k ≤ v / n) :
    c.Ready v n := by
  refine ⟨hcut, fun i hi => ?_, hpos, hle⟩
  obtain ⟨⟨⟩, -, hparams⟩ := bind_eq_ok.mp hparams
  have hshard := forM_eq_ok.mp hparams _ (hcut.mem_shards.mpr ⟨i, hi, rfl⟩)
  obtain ⟨slice, hslice, hshard⟩ := bind_eq_ok.mp hshard
  obtain ⟨⟨⟩, hcheck, hdim⟩ := bind_eq_ok.mp hshard
  exact ⟨slice, hslice, hcheck, ensure_eq_ok.mp hdim⟩

/-! ## Nodes compute their meaning -/

section Nodes

open ShardedModel.Graph

variable [Zero α] [Add α] [Mul α] [Ord α] {c : Call α} {d : Graph} {n : Nat}

/-- The nodes of a graph with the values that their operations mean, where there are any. -/
def look (c : Call α) (d : Graph) (id : NodeId) : Option (Value α) :=
  (d.node? id).bind fun m => (c.meaning m.op).toOption

theorem look_eq_some (hflow : Flow d n c.k) {m : Node} {p : PartitionId}
    (hm : FlowNode n c.k m p) {x : Value α} (hx : c.meaning m.op = .ok x) :
    c.look d m.id = some x := by
  rw [look, d.node?_of_mem (hflow.mem hm), Option.bind_some, hx]
  rfl

omit [Zero α] [Add α] [Mul α] [Ord α] in
/-- What a node reads that reads one value. -/
theorem readInputs_single {look : NodeId → Option (Value α)} {m : Node} {v : ValueRef}
    (hinputs : m.inputs = [v]) {x : Value α} (hx : look v.node = some x) :
    Task.readInputs look m = .ok [x] := by
  rw [Task.readInputs_eq_ok, hinputs]
  exact .cons hx .nil

omit [Zero α] [Add α] [Mul α] [Ord α] in
/-- What a node reads that reads one value from each shard. -/
theorem readInputs_shards {γ : Type} {look : NodeId → Option (Value α)} {m : Node}
    {at' : Nat → ValueRef} (hinputs : m.inputs = (List.range n).map at')
    {f : Nat → Outcome γ} {wrap : γ → Value α} {ys : List γ}
    (hys : (List.range n).mapM f = .ok ys)
    (hlook : ∀ i < n, ∀ y, f i = .ok y → look (at' i).node = some (wrap y)) :
    Task.readInputs look m = .ok (ys.map wrap) := by
  rw [Task.readInputs_eq_ok, hinputs, List.forall₂_map_left_iff, List.forall₂_map_right_iff]
  have hall := (List.forall₂_and_left _ _).mpr
    ⟨fun i (hi : i ∈ List.range n) => List.mem_range.mp hi, mapM_eq_ok.mp hys⟩
  exact hall.imp fun i y hy => hlook i hy.1 y hy.2

/-- A node computes its meaning, if the nodes it reads have theirs. -/
theorem outcome_eq_meaning (hflow : Flow d n c.k) (hplan : d.plan = c.plan)
    (hcount : c.plan.shardCount = n) {m : Node} {p : PartitionId} (hm : FlowNode n c.k m p)
    (hinputs : ∀ u q, FlowNode n c.k u q → .of u.id ∈ m.inputs → ∃ x, c.meaning u.op = .ok x) :
    m.outcome d.plan c.params c.tokens (c.look d) = c.meaning m.op := by
  have hevaluate : ∀ {xs : List (Value α)}, Task.readInputs (c.look d) m = .ok xs →
      m.op ≠ .input →
      m.outcome d.plan c.params c.tokens (c.look d) = m.op.evaluate xs c.plan c.params := by
    intro xs hreads hinput
    rw [Node.outcome_of_reads hreads, hplan,
      Node.compute_evaluate hinput (hflow.isCopy_eq_false (hflow.mem hm))]
  cases hm with
  | input => rfl
  | gather hi =>
      rw [hevaluate (readInputs_single rfl (look_eq_some hflow .input rfl)) nofun]
      simp only [meaning, gathered, Operation.evaluate, single, Value.asTokens, ok_bind, bind_assoc]
  | accumulate =>
      have hgathered : ∀ i ∈ List.range n, ∃ g, c.gathered i = .ok g := by
        intro i hi
        obtain ⟨x, hx⟩ := hinputs _ _ (.gather (List.mem_range.mp hi))
          (List.mem_map.mpr ⟨i, hi, rfl⟩)
        obtain ⟨g, hg, -⟩ := bind_eq_ok.mp hx
        exact ⟨g, hg⟩
      obtain ⟨gs, hgs⟩ := mapM_of_forall hgathered
      have hreads : Task.readInputs (c.look d)
          ⟨n + 1, .accumulate, (List.range n).map fun i => .of (1 + i)⟩ =
          .ok (gs.map .gathered) :=
        readInputs_shards rfl hgs fun i hi g hg =>
          look_eq_some hflow (.gather hi) (bind_eq_ok.mpr ⟨g, hg, rfl⟩)
      have hvalues := mapM_map_of_forall Value.asGathered .gathered (fun _ => rfl) gs
      rw [hevaluate hreads nofun]
      simp only [meaning, combined, Operation.evaluate, hvalues, hcount, hgs, ok_bind]
  | stageA =>
      obtain ⟨x, hx⟩ := hinputs _ _ .accumulate (List.mem_singleton_self _)
      obtain ⟨embeddings, hembeddings, ⟨⟩⟩ := bind_eq_ok.mp hx
      rw [hevaluate (readInputs_single rfl (look_eq_some hflow .accumulate hx)) nofun]
      simp only [meaning, scores, Operation.evaluate, single, Value.asCombined, ok_bind,
        hembeddings]
  | stageB =>
      obtain ⟨x, hx⟩ := hinputs _ _ .stageA (List.mem_singleton_self _)
      obtain ⟨scores, hscores, ⟨⟩⟩ := bind_eq_ok.mp hx
      rw [hevaluate (readInputs_single rfl (look_eq_some hflow .stageA hx)) nofun]
      simp only [meaning, hidden, Operation.evaluate, single, Value.asScores, ok_bind,
        hscores]
  | shardLogits hi =>
      obtain ⟨x, hx⟩ := hinputs _ _ .stageB (List.mem_singleton_self _)
      obtain ⟨hidden, hhidden, ⟨⟩⟩ := bind_eq_ok.mp hx
      rw [hevaluate (readInputs_single rfl (look_eq_some hflow .stageB hx)) nofun]
      simp only [meaning, logits, Operation.evaluate, single, Value.asHidden, ok_bind, bind_assoc,
        hhidden]
  | localTopK hi =>
      obtain ⟨x, hx⟩ := hinputs _ _ (.shardLogits hi) (List.mem_singleton_self _)
      obtain ⟨logits, hlogits, ⟨⟩⟩ := bind_eq_ok.mp hx
      rw [hevaluate (readInputs_single rfl (look_eq_some hflow (.shardLogits hi) hx)) nofun]
      simp only [meaning, kept, Operation.evaluate, single, Value.asLogits, ok_bind, bind_assoc,
        hlogits]
  | merge =>
      have hkept : ∀ i ∈ List.range n, ∃ l, c.kept i = .ok l := by
        intro i hi
        obtain ⟨x, hx⟩ := hinputs _ _ (.localTopK (List.mem_range.mp hi))
          (List.mem_map.mpr ⟨i, hi, rfl⟩)
        obtain ⟨l, hl, -⟩ := bind_eq_ok.mp hx
        exact ⟨l, hl⟩
      obtain ⟨locals, hlocals⟩ := mapM_of_forall hkept
      have hreads : Task.readInputs (c.look d)
          ⟨3 * n + 4, .merge c.k, (List.range n).map fun i => .of (n + 4 + 2 * i + 1)⟩ =
          .ok (locals.map .topK) :=
        readInputs_shards rfl hlocals fun i hi l hl =>
          look_eq_some hflow (.localTopK hi) (bind_eq_ok.mpr ⟨l, hl, rfl⟩)
      have hvalues := mapM_map_of_forall Value.asTopK .topK (fun _ => rfl) locals
      rw [hevaluate hreads nofun]
      simp only [meaning, prediction, Operation.evaluate, hvalues, hcount, hlocals, ok_bind]

end Nodes

/-! ## The chain computes meanings in order -/

end Call

/-- The place of an operation in the order of the chain. -/
def Operation.stage : Operation → Nat
  | .input => 0
  | .gather _ => 1
  | .accumulate => 2
  | .stageA => 3
  | .stageB => 4
  | .shardLogits _ => 5
  | .localTopK _ _ => 6
  | .merge _ => 7
  | .copy _ => 8

/-- All stages but those with an operation for each shard have one operation. -/
theorem Graph.FlowNode.eq_of_stage {n k : Nat} {u m : Node} {q p : PartitionId}
    (hu : FlowNode n k u q) (hm : FlowNode n k m p) (hs : u.op.stage = m.op.stage)
    (hone : m.op.shard? = none) : u = m := by
  cases hm <;> cases hu <;> first | rfl | (cases hs; done) | cases hone

theorem Chain.eachShard_eq {β : Type} {plan : Plan} {v n : Nat} (h : plan.CutOf v n)
    (params : Parameters α) (step : Shard → TableSlice α → Outcome β) :
    eachShard plan params step = (List.range n).mapM (fun i => do
      let shard ← plan.shard i
      let slice ← params.slice i
      step shard slice) := by
  rw [eachShard, h.shards, List.mapM_map]
  refine mapM_congr fun i hi => ?_
  rw [h.shard (List.mem_range.mp hi)]
  rfl

namespace Call

section Order

open ShardedModel.Graph

variable [Zero α] [Add α] [Mul α] [Ord α] {c : Call α} {n : Nat}

/-- All operations of the stages before stage `s` have a value. -/
def Done (c : Call α) (n s : Nat) : Prop :=
  ∀ u q, FlowNode n c.k u q → u.op.stage < s → ∃ x, c.meaning u.op = .ok x

theorem done_one : c.Done n 1 := by
  intro u q hu hlt
  cases hu with
  | input => exact ⟨_, rfl⟩
  | _ => simp only [Operation.stage] at hlt; omega

theorem Done.succ {s : Nat} (h : c.Done n s)
    (hs : ∀ u q, FlowNode n c.k u q → u.op.stage = s → ∃ x, c.meaning u.op = .ok x) :
    c.Done n (s + 1) := by
  intro u q hu hlt
  rcases Nat.lt_succ_iff_lt_or_eq.mp hlt with hlt | heq
  · exact h u q hu hlt
  · exact hs u q hu heq

/-- The operation of `m` fails with `e`, and all operations before it have a value: those of
earlier stages, and those of its own stage with a lower id. -/
structure FailsFirst (c : Call α) (n : Nat) (m : Node) (e : Failure) : Prop where
  fails : c.meaning m.op = .error e
  before : c.Done n m.op.stage
  beside : ∀ u q, FlowNode n c.k u q → u.op.stage = m.op.stage → u.id < m.id →
    ∃ x, c.meaning u.op = .ok x

theorem failsFirst_of_one {m : Node} {p : PartitionId} (hm : FlowNode n c.k m p)
    (hone : m.op.shard? = none) (hdone : c.Done n m.op.stage) {e : Failure}
    (hfails : c.meaning m.op = .error e) : c.FailsFirst n m e := by
  refine ⟨hfails, hdone, fun u q hu hs hlt => ?_⟩
  obtain rfl := hu.eq_of_stage hm hs hone
  exact absurd hlt (Nat.lt_irrefl _)

theorem done_of_one {m : Node} {p : PartitionId} (hm : FlowNode n c.k m p)
    (hone : m.op.shard? = none) (hdone : c.Done n m.op.stage) {x : Value α}
    (hx : c.meaning m.op = .ok x) : c.Done n (m.op.stage + 1) :=
  hdone.succ fun _ _ hu hs => ⟨x, hu.eq_of_stage hm hs hone ▸ hx⟩

/-- A stage with an operation for each shard: `nodeAt i` computes what `f i` does. -/
structure ShardStage {β : Type} (c : Call α) (n s : Nat) (nodeAt : Nat → Node)
    (f : Nat → Outcome β) (wrap : β → Value α) : Prop where
  flow : ∀ i < n, FlowNode n c.k (nodeAt i) i
  only : ∀ u q, FlowNode n c.k u q → u.op.stage = s → ∃ i < n, u = nodeAt i
  stage : ∀ i, (nodeAt i).op.stage = s
  ordered : ∀ i j, (nodeAt i).id < (nodeAt j).id → i < j
  meaning : ∀ i, c.meaning (nodeAt i).op = (do
    let y ← f i
    .ok (wrap y))

section Shards

variable {β : Type} {s : Nat} {nodeAt : Nat → Node} {f : Nat → Outcome β} {wrap : β → Value α}

theorem ShardStage.failsFirst (h : c.ShardStage n s nodeAt f wrap) (hdone : c.Done n s)
    {e : Failure} (hf : (List.range n).mapM f = .error e) :
    ∃ m p, FlowNode n c.k m p ∧ c.FailsFirst n m e := by
  obtain ⟨j, hj, hbefore, hfails⟩ := mapM_range_eq_error hf
  refine ⟨_, _, h.flow j hj, ?_, (h.stage j).symm ▸ hdone, fun u q hu hs hlt => ?_⟩
  · rw [h.meaning]
    exact bind_eq_error.mpr (.inl hfails)
  · obtain ⟨i, -, rfl⟩ := h.only u q hu (hs.trans (h.stage j))
    obtain ⟨y, hy⟩ := hbefore i (h.ordered i j hlt)
    exact ⟨_, (h.meaning i).trans (bind_eq_ok.mpr ⟨y, hy, rfl⟩)⟩

theorem ShardStage.done (h : c.ShardStage n s nodeAt f wrap) (hdone : c.Done n s) {ys : List β}
    (hf : (List.range n).mapM f = .ok ys) : c.Done n (s + 1) := by
  refine hdone.succ fun u q hu hs => ?_
  obtain ⟨i, hi, rfl⟩ := h.only u q hu hs
  obtain ⟨y, -, hy⟩ := exists_of_forall₂ (mapM_eq_ok.mp hf) (List.mem_range.mpr hi)
  exact ⟨_, (h.meaning i).trans (bind_eq_ok.mpr ⟨y, hy, rfl⟩)⟩

end Shards

theorem shardStage_gather :
    c.ShardStage n 1 (fun i => ⟨1 + i, .gather i, [.of 0]⟩) c.gathered .gathered := by
  refine ⟨fun i hi => .gather hi, fun u q hu hs => ?_, fun _ => rfl,
    fun i j hlt => Nat.lt_of_add_lt_add_left hlt, fun _ => rfl⟩
  cases hu with
  | gather hi => exact ⟨_, hi, rfl⟩
  | _ => cases hs

theorem shardStage_logits :
    c.ShardStage n 5 (fun i => ⟨n + 4 + 2 * i, .shardLogits i, [.of (n + 3)]⟩)
      c.logits .logits := by
  refine ⟨fun i hi => .shardLogits hi, fun u q hu hs => ?_, fun _ => rfl, fun i j hlt => ?_,
    fun _ => rfl⟩
  · cases hu with
    | shardLogits hi => exact ⟨_, hi, rfl⟩
    | _ => cases hs
  · change n + 4 + 2 * i < n + 4 + 2 * j at hlt
    omega

theorem shardStage_kept :
    c.ShardStage n 6 (fun i => ⟨n + 4 + 2 * i + 1, .localTopK i c.k, [.of (n + 4 + 2 * i)]⟩)
      c.kept .topK := by
  refine ⟨fun i hi => .localTopK hi, fun u q hu hs => ?_, fun _ => rfl, fun i j hlt => ?_,
    fun _ => rfl⟩
  · cases hu with
    | localTopK hi => exact ⟨_, hi, rfl⟩
    | _ => cases hs
  · change n + 4 + 2 * i + 1 < n + 4 + 2 * j + 1 at hlt
    omega

/-- The chain computes the meanings of the operations one after the other. -/
theorem chain_eq {v : Nat} (h : c.plan.CutOf v n) :
    Chain.run c.plan c.params c.tokens c.k = (do
      let gathered ← (List.range n).mapM c.gathered
      let combined ← c.combined
      let scores ← c.scores
      let hidden ← c.hidden
      let logits ← (List.range n).mapM c.logits
      let locals ← (List.range n).mapM c.kept
      let prediction ← c.prediction
      .ok ⟨gathered, combined, scores, hidden, logits, locals, prediction⟩) := by
  -- A stage computes from the values of earlier stages, and its meaning computes them again.
  rw [Chain.run, Chain.eachShard_eq h]
  refine bind_congr_ok fun gathered hgathered => ?_
  have hcombined : c.combined = combine gathered c.plan := by
    rw [combined, h.shardCount]
    exact congrArg (· >>= _) hgathered
  rw [← hcombined]
  refine bind_congr_ok fun combined hcombined => ?_
  have hscores : c.scores = c.params.projection.applyStageA combined := by
    rw [scores, hcombined, ok_bind]
  rw [← hscores]
  refine bind_congr_ok fun scores hscores => ?_
  have hhidden : c.hidden = c.params.projection.applyStageB scores := by
    rw [hidden, hscores, ok_bind]
  rw [← hhidden]
  refine bind_congr_ok fun hidden hhidden => ?_
  have hlogits : (Chain.eachShard c.plan c.params fun shard slice =>
      shardLogits shard slice hidden) = (List.range n).mapM c.logits := by
    rw [Chain.eachShard_eq h]
    refine mapM_congr fun i _ => ?_
    simp only [logits, hhidden, ok_bind]
  rw [hlogits]
  refine bind_congr_ok fun logits hlogits => ?_
  have hkept : ((c.plan.shards.zip logits).mapM fun e => localTopK e.1 e.2 c.k) =
      (List.range n).mapM c.kept := by
    rw [h.shards, List.zip_map_left, List.mapM_map]
    refine (mapM_zip (fun i l => localTopK (Plan.shardAt v n i) l c.k) hlogits).trans
      (mapM_congr fun i hi => ?_)
    rw [kept, h.shard (List.mem_range.mp hi), ok_bind]
  refine (congrArg (· >>= _) hkept).trans ?_
  refine bind_congr_ok fun locals hlocals => ?_
  have hprediction : c.prediction = merge locals c.plan c.k := by
    rw [prediction, h.shardCount, hlocals, ok_bind]
  rw [← hprediction]

/-- Either every operation has a value and the chain succeeds, or the chain fails with the
first failing operation in its order. -/
theorem chain_cases {v : Nat} (h : c.plan.CutOf v n) :
    (∃ chain, Chain.run c.plan c.params c.tokens c.k = .ok chain ∧ c.Done n 8 ∧
      c.prediction = .ok chain.prediction) ∨
    ∃ e, Chain.run c.plan c.params c.tokens c.k = .error e ∧
      ∃ m p, FlowNode n c.k m p ∧ c.FailsFirst n m e := by
  rw [chain_eq h]
  rcases hgathered : (List.range n).mapM c.gathered with e | gathered
  · exact .inr ⟨e, rfl, shardStage_gather.failsFirst done_one hgathered⟩
  have hdone := shardStage_gather.done done_one hgathered
  rcases hcombined : c.combined with e | combined
  · have hfails : c.meaning .accumulate = .error e := bind_eq_error.mpr (.inl hcombined)
    exact .inr ⟨e, rfl, _, _, .accumulate, failsFirst_of_one .accumulate rfl hdone hfails⟩
  have hdone := done_of_one .accumulate rfl hdone (bind_eq_ok.mpr ⟨_, hcombined, rfl⟩)
  rcases hscores : c.scores with e | scores
  · have hfails : c.meaning .stageA = .error e := bind_eq_error.mpr (.inl hscores)
    exact .inr ⟨e, rfl, _, _, .stageA, failsFirst_of_one .stageA rfl hdone hfails⟩
  have hdone := done_of_one .stageA rfl hdone (bind_eq_ok.mpr ⟨_, hscores, rfl⟩)
  rcases hhidden : c.hidden with e | hidden
  · have hfails : c.meaning .stageB = .error e := bind_eq_error.mpr (.inl hhidden)
    exact .inr ⟨e, rfl, _, _, .stageB, failsFirst_of_one .stageB rfl hdone hfails⟩
  have hdone := done_of_one .stageB rfl hdone (bind_eq_ok.mpr ⟨_, hhidden, rfl⟩)
  rcases hlogits : (List.range n).mapM c.logits with e | logits
  · exact .inr ⟨e, rfl, shardStage_logits.failsFirst hdone hlogits⟩
  have hdone := shardStage_logits.done hdone hlogits
  rcases hkept : (List.range n).mapM c.kept with e | locals
  · exact .inr ⟨e, rfl, shardStage_kept.failsFirst hdone hkept⟩
  have hdone := shardStage_kept.done hdone hkept
  rcases hprediction : c.prediction with e | prediction
  · have hfails : c.meaning (.merge c.k) = .error e := bind_eq_error.mpr (.inl hprediction)
    exact .inr ⟨e, rfl, _, _, .merge, failsFirst_of_one .merge rfl hdone hfails⟩
  have hdone := done_of_one .merge rfl hdone (bind_eq_ok.mpr ⟨_, hprediction, rfl⟩)
  exact .inl ⟨_, rfl, hdone, rfl⟩

end Order

/-! ## Which failures the shards can have -/

section Failures

variable [Zero α] [Add α] [Mul α] [Ord α] {c : Call α} {v n i j : Nat}

omit [Add α] [Mul α] [Ord α] in
/-- After one shard looked up the batch, another can only fault. -/
theorem gathered_onlyFaults (h : c.Ready v n) (hi : i < n) {g : Gathered α}
    (hg : c.gathered i = .ok g) (hj : j < n) : (c.gathered j).OnlyFaults := by
  obtain ⟨slice, hslice, -, hdim⟩ := h.slices i hi
  obtain ⟨slice', hslice', hcheck', hdim'⟩ := h.slices j hj
  rw [gathered, h.cut.shard hi, ok_bind, hslice, ok_bind] at hg
  rw [gathered, h.cut.shard hj, ok_bind, hslice', ok_bind]
  refine gather_onlyFaults hcheck' ?_
  rw [hdim', ← hdim]
  exact fills_of_gather hg

omit [Ord α] in
/-- Shards refuse the hidden vectors all together. -/
theorem logits_cases (h : c.Ready v n) {hidden : Tensor2 α} (hhidden : c.hidden = .ok hidden) :
    (∀ i < n, (c.logits i).OnlyFaults) ∨ ∀ i < n, ∃ e, c.logits i = .error e ∧ e ≠ .fault := by
  by_cases hdim : c.params.projection.embeddingDim = hidden.cols
  · refine .inl fun i hi => ?_
    obtain ⟨slice, hslice, hcheck, hsliceDim⟩ := h.slices i hi
    rw [logits, h.cut.shard hi, ok_bind, hslice, ok_bind, hhidden, ok_bind]
    exact shardLogits_onlyFaults hcheck (hsliceDim.trans hdim)
  · refine .inr fun i hi => ?_
    obtain ⟨slice, hslice, hcheck, hsliceDim⟩ := h.slices i hi
    rw [logits, h.cut.shard hi, ok_bind, hslice, ok_bind, hhidden, ok_bind]
    exact ⟨_, shardLogits_of_ne hcheck (hsliceDim ▸ hdim), nofun⟩

/-- A shard that scored its ids can only fault on ranking them. -/
theorem kept_onlyFaults (h : c.Ready v n) (hi : i < n) {l : Logits α}
    (hl : c.logits i = .ok l) : (c.kept i).OnlyFaults := by
  rw [kept, h.cut.shard hi, ok_bind, hl, ok_bind]
  obtain ⟨shard, hshard, hl⟩ := bind_eq_ok.mp hl
  obtain ⟨slice, -, hl⟩ := bind_eq_ok.mp hl
  obtain ⟨hidden, -, hl⟩ := bind_eq_ok.mp hl
  rw [h.cut.shard hi, Except.ok.injEq] at hshard
  subst hshard
  obtain ⟨howner, hcols⟩ := shardLogits_dims hl
  have hlt := h.cut.bound_lt_succ hi
  have hwidth := Plan.bound_add_le (v := v) hi
  have hle := h.le
  rw [← Plan.shardAt_lo hi] at hlt hwidth
  refine localTopK_onlyFaults h.pos howner (Nat.le_of_lt hlt) hcols ?_
  change c.k ≤ Plan.bound v n (i + 1) - (Plan.shardAt v n i).lo
  omega

end Failures

end Call

end ShardedModel
