import ShardedModel.Graph.Build
import ShardedModel.Proofs.Cut
import ShardedModel.Proofs.Joining

/-!
# The graph of a plan

The graph of a plan is made by adding nodes one after the other. `FlowNode` lists them
with their ids and places, and says nothing about how they came about. From the list
follows that the graph can be built for every plan that was cut from a vocabulary, with
as many candidates as its narrowest shard has ids, and that what is built is the
dataflow with values routed through copies.
-/

namespace ShardedModel.Graph

variable {g : Graph}

/-! ## Growing a graph -/

/-- `g'` is `g` with nodes added at the end, each with its place. -/
structure Grows (g g' : Graph) (added : List (Node × PartitionId)) : Prop where
  nodes : g'.nodes = g.nodes ++ added.map (·.1)
  nextId : g'.nextId = g.nextId + added.length
  placed : ∀ e ∈ added, g'.placement e.1.id = some e.2
  kept : ∀ id < g.nextId, g'.placement id = g.placement id
  plan : g'.plan = g.plan
  partitions : g'.partitions = g.partitions
  weights : g'.weights = g.weights

namespace Grows

theorem refl (g : Graph) : Grows g g [] :=
  ⟨by simp, rfl, by simp, fun _ _ => rfl, rfl, rfl, rfl⟩

theorem addNode (g : Graph) (op : Operation) (inputs : List ValueRef) (p : PartitionId) :
    Grows g (g.addNode op inputs p) [(⟨g.nextId, op, inputs⟩, p)] := by
  refine ⟨rfl, rfl, ?_, fun id hid => if_neg (Nat.ne_of_lt hid), rfl, rfl, rfl⟩
  intro e he
  rw [List.mem_singleton] at he
  subst he
  exact if_pos rfl

theorem trans {g₁ g₂ g₃ : Graph} {before after : List (Node × PartitionId)}
    (h₁ : Grows g₁ g₂ before) (h₂ : Grows g₂ g₃ after) : Grows g₁ g₃ (before ++ after) := by
  refine ⟨?_, ?_, fun e he => ?_, fun id hid => ?_, h₂.plan.trans h₁.plan,
    h₂.partitions.trans h₁.partitions, h₂.weights.trans h₁.weights⟩
  · rw [h₂.nodes, h₁.nodes, List.map_append, List.append_assoc]
  · rw [h₂.nextId, h₁.nextId, List.length_append, Nat.add_assoc]
  · rcases List.mem_append.mp he with he | he
    · have hin : e.1 ∈ g₂.nodes := by
        rw [h₁.nodes]
        exact List.mem_append_right _ (List.mem_map_of_mem he)
      rw [h₂.kept e.1.id (g₂.fresh e.1 hin), h₁.placed e he]
    · exact h₂.placed e he
  · have hle : g₁.nextId ≤ g₂.nextId := h₁.nextId ▸ Nat.le_add_right _ _
    rw [h₂.kept id (Nat.lt_of_lt_of_le hid hle), h₁.kept id hid]

theorem length_flatMap_range {size : Nat} {new : Nat → List (Node × PartitionId)}
    (hsize : ∀ i, (new i).length = size) (n : Nat) :
    ((List.range n).flatMap new).length = size * n := by
  rw [List.length_flatMap]
  simp [hsize, Nat.mul_comm]

/-- A loop over shards that adds `size` nodes for each. -/
theorem foldl_range (size : Nat) (step : Graph → Nat → Graph)
    (new : Nat → List (Node × PartitionId)) (hsize : ∀ i, (new i).length = size)
    (hstep : ∀ i g', g'.nextId = g.nextId + size * i → Grows g' (step g' i) (new i)) (n : Nat) :
    Grows g ((List.range n).foldl step g) ((List.range n).flatMap new) := by
  induction n with
  | zero => exact .refl g
  | succ n ih =>
      rw [List.range_succ, List.foldl_append, List.flatMap_append, List.flatMap_singleton]
      refine ih.trans (hstep n _ ?_)
      rw [ih.nextId, length_flatMap_range hsize]

end Grows

/-! ## The nodes of the dataflow -/

/-- The nodes for `n` shards and `k` candidates, each with its place. -/
inductive FlowNode (n k : Nat) : Node → PartitionId → Prop
  | input : FlowNode n k ⟨0, .input, []⟩ 0
  | gather {i : Nat} (hi : i < n) : FlowNode n k ⟨1 + i, .gather i, [.of 0]⟩ i
  | accumulate :
      FlowNode n k ⟨n + 1, .accumulate, (List.range n).map fun i => .of (1 + i)⟩ (n - 1)
  | stageA : FlowNode n k ⟨n + 2, .stageA, [.of (n + 1)]⟩ n
  | stageB : FlowNode n k ⟨n + 3, .stageB, [.of (n + 2)]⟩ (n + 1)
  | shardLogits {i : Nat} (hi : i < n) :
      FlowNode n k ⟨n + 4 + 2 * i, .shardLogits i, [.of (n + 3)]⟩ i
  | localTopK {i : Nat} (hi : i < n) :
      FlowNode n k ⟨n + 4 + 2 * i + 1, .localTopK i k, [.of (n + 4 + 2 * i)]⟩ i
  | merge : FlowNode n k
      ⟨3 * n + 4, .merge k, (List.range n).map fun i => .of (n + 4 + 2 * i + 1)⟩ (n - 1)

theorem addEmbedding_grows (hg : g.nextId = 0) (n : Nat) :
    Grows g (g.addEmbedding n) ([(⟨0, .input, []⟩, 0)] ++
      (List.range n).flatMap (fun i => [(⟨1 + i, .gather i, [.of 0]⟩, i)]) ++
      [(⟨n + 1, .accumulate, (List.range n).map fun i => .of (1 + i)⟩, n - 1)]) := by
  have hfirst : (g.addNode .input [] 0).nextId = 1 := by
    rw [(Grows.addNode ..).nextId, hg]
    rfl
  have hinput : Grows g (g.addNode .input [] 0) [(⟨0, .input, []⟩, 0)] :=
    hg ▸ Grows.addNode g .input [] 0
  have hgathers := Grows.foldl_range 1 (fun g i => g.addNode (.gather i) [.of 0] i)
    (fun i => [(⟨1 + i, .gather i, [.of 0]⟩, i)]) (fun _ => rfl)
    (fun i g' hg' => by
      have hid : g'.nextId = 1 + i := by rw [hg', hfirst, Nat.one_mul]
      exact hid ▸ Grows.addNode g' (.gather i) [.of 0] i) n
  have hsum := hinput.trans hgathers
  have hnext : ((List.range n).foldl (fun g i => g.addNode (.gather i) [.of 0] i)
      (g.addNode .input [] 0)).nextId = n + 1 := by
    rw [hsum.nextId, hg]
    simp [Nat.add_comm]
  have haccumulate := Grows.addNode ((List.range n).foldl
    (fun g i => g.addNode (.gather i) [.of 0] i) (g.addNode .input [] 0)) .accumulate
    ((List.range n).map fun i => .of (1 + i)) (n - 1)
  rw [hnext] at haccumulate
  have hall := hsum.trans haccumulate
  rw [addEmbedding, hg, hfirst]
  exact hall

theorem addProjection_grows {n : Nat} (hg : g.nextId = n + 2) :
    Grows g (g.addProjection n) [(⟨n + 2, .stageA, [.of (n + 1)]⟩, n),
      (⟨n + 3, .stageB, [.of (n + 2)]⟩, n + 1)] := by
  have hA : Grows g (g.addNode .stageA [.of (n + 1)] n) [(⟨n + 2, .stageA, [.of (n + 1)]⟩, n)] :=
    hg ▸ Grows.addNode g .stageA [.of (n + 1)] n
  have hnext : (g.addNode .stageA [.of (n + 1)] n).nextId = n + 3 := by
    rw [hA.nextId, hg]
    rfl
  have hB := Grows.addNode (g.addNode .stageA [.of (n + 1)] n) .stageB [.of (n + 2)] (n + 1)
  rw [hnext] at hB
  show Grows g ((g.addNode .stageA [.of (g.nextId - 1)] n).addNode .stageB
    [.of (g.nextId + 1 - 1)] (n + 1)) _
  rw [hg]
  exact hA.trans hB

/-- The two nodes of a shard after the projection. -/
def rankingNodes (n k i : Nat) : List (Node × PartitionId) :=
  [(⟨n + 4 + 2 * i, .shardLogits i, [.of (n + 3)]⟩, i),
    (⟨n + 4 + 2 * i + 1, .localTopK i k, [.of (n + 4 + 2 * i)]⟩, i)]

/-- How they are added. -/
def rankingStep (n k : Nat) (g : Graph) (i : Nat) : Graph :=
  (g.addNode (.shardLogits i) [.of (n + 3)] i).addNode (.localTopK i k) [.of g.nextId] i

theorem rankingStep_grows {n k i : Nat} (hg : g.nextId = n + 4 + 2 * i) :
    Grows g (rankingStep n k g i) (rankingNodes n k i) := by
  rw [rankingNodes, ← hg]
  exact (Grows.addNode g (.shardLogits i) [.of (n + 3)] i).trans
    (Grows.addNode _ (.localTopK i k) [.of g.nextId] i)

theorem addRanking_grows {n : Nat} (hg : g.nextId = n + 4) (k : Nat) :
    Grows g (g.addRanking n k) ((List.range n).flatMap (rankingNodes n k) ++
      [(⟨3 * n + 4, .merge k, (List.range n).map fun i => .of (n + 4 + 2 * i + 1)⟩,
        n - 1)]) := by
  have hsize : ∀ i, (rankingNodes n k i).length = 2 := fun _ => rfl
  have hshards := Grows.foldl_range 2 (rankingStep n k) (rankingNodes n k) hsize
    (fun i g' hg' => rankingStep_grows (hg'.trans (by rw [hg]))) n
  rw [addRanking, hg]
  show Grows g (((List.range n).foldl (rankingStep n k) g).addNode (.merge k) _ _) _
  generalize (List.range n).foldl (rankingStep n k) g = g' at hshards ⊢
  have hid : g'.nextId = 3 * n + 4 := by
    rw [hshards.nextId, hg, Grows.length_flatMap_range hsize]
    exact (by omega : n + 4 + 2 * n = 3 * n + 4)
  exact hshards.trans (hid ▸ Grows.addNode g' (.merge k) _ (n - 1))

/-! ## Weights -/

theorem weightHome?_placeWeight (g : Graph) (w w' : Weight) (p : PartitionId) :
    (g.placeWeight w p).weightHome? w' = if w' = w then some p else g.weightHome? w' := by
  show (((g.weights.filter (·.1 ≠ w)) ++ [(w, p)]).find? (·.1 == w')).map (·.2) = _
  rw [List.find?_append]
  split
  · next heq =>
      subst heq
      have hnone : (g.weights.filter (·.1 ≠ w')).find? (·.1 == w') = none := by
        rw [List.find?_eq_none]
        intro e he
        simpa using (List.mem_filter.mp he).2
      rw [hnone]
      simp
  · next hne =>
      have hsame : (g.weights.filter (·.1 ≠ w)).find? (·.1 == w') =
          g.weights.find? (·.1 == w') := by
        rw [List.find?_filter]
        congr 1
        funext e
        by_cases he : e.1 = w'
        · simp [he, hne]
        · simp [he]
      rw [hsame, weightHome?]
      simp [Ne.symm hne]

/-- The loop that places the slices touches nothing else. -/
theorem placeSlices_frame (g : Graph) (n : Nat) :
    let g' := (List.range n).foldl (fun g i => g.placeWeight (.embeddingSlice i) i) g
    g'.nodes = g.nodes ∧ g'.nextId = g.nextId ∧ g'.plan = g.plan ∧
      g'.partitions = g.partitions ∧
      ∀ i < n, g'.weightHome? (.embeddingSlice i) = some i := by
  induction n with
  | zero => exact ⟨rfl, rfl, rfl, rfl, fun i hi => absurd hi (Nat.not_lt_zero i)⟩
  | succ n ih =>
      obtain ⟨hnodes, hnext, hplan, hpartitions, hslices⟩ := ih
      simp only [List.range_succ, List.foldl_append, List.foldl_cons, List.foldl_nil]
      refine ⟨hnodes, hnext, hplan, hpartitions, fun i hi => ?_⟩
      rw [weightHome?_placeWeight]
      split
      · next heq => rw [Weight.embeddingSlice.inj heq]
      · next hne =>
          refine hslices i (Nat.lt_of_le_of_ne (Nat.lt_succ_iff.mp hi) ?_)
          rintro rfl
          exact hne rfl

theorem placeWeights_frame (g : Graph) (n : Nat) :
    (g.placeWeights n).nodes = g.nodes ∧ (g.placeWeights n).nextId = g.nextId ∧
      (g.placeWeights n).plan = g.plan ∧ (g.placeWeights n).partitions = g.partitions ∧
      (∀ i < n, (g.placeWeights n).weightHome? (.embeddingSlice i) = some i) ∧
      (g.placeWeights n).weightHome? .stageA = some n ∧
      (g.placeWeights n).weightHome? .stageB = some (n + 1) := by
  obtain ⟨hnodes, hnext, hplan, hpartitions, hslices⟩ := placeSlices_frame g n
  rw [placeWeights]
  refine ⟨hnodes, hnext, hplan, hpartitions, fun i hi => ?_, ?_, ?_⟩
  · rw [weightHome?_placeWeight, if_neg (by simp), weightHome?_placeWeight, if_neg (by simp)]
    exact hslices i hi
  · rw [weightHome?_placeWeight, if_neg (by simp), weightHome?_placeWeight, if_pos rfl]
  · rw [weightHome?_placeWeight, if_pos rfl]

/-! ## The dataflow as a whole -/

/-- What is known of the dataflow of `n` shards: its nodes, where they and their weights are,
and its output. -/
structure Flow (d : Graph) (n k : Nat) : Prop where
  nodes : ∀ m, m ∈ d.nodes ↔ ∃ p, FlowNode n k m p
  inputCount : d.nodes.countP (·.op == .input) = 1
  placement : ∀ m p, FlowNode n k m p → d.placement m.id = some p
  partitions : d.partitions = n + 2
  slices : ∀ i < n, d.weightHome? (.embeddingSlice i) = some i
  stageA : d.weightHome? .stageA = some n
  stageB : d.weightHome? .stageB = some (n + 1)
  output : d.output? = some (.of (3 * n + 4))

/-- The nodes in the order in which they are added. -/
def flowNodes (n k : Nat) : List (Node × PartitionId) :=
  ([(⟨0, .input, []⟩, 0)] ++
    (List.range n).flatMap (fun i => [(⟨1 + i, .gather i, [.of 0]⟩, i)]) ++
    [(⟨n + 1, .accumulate, (List.range n).map fun i => .of (1 + i)⟩, n - 1)]) ++
  ([(⟨n + 2, .stageA, [.of (n + 1)]⟩, n), (⟨n + 3, .stageB, [.of (n + 2)]⟩, n + 1)] ++
  ((List.range n).flatMap (rankingNodes n k) ++
    [(⟨3 * n + 4, .merge k, (List.range n).map fun i => .of (n + 4 + 2 * i + 1)⟩, n - 1)]))

theorem mem_flowNodes {n k : Nat} {m : Node} {p : PartitionId} :
    (m, p) ∈ flowNodes n k ↔ FlowNode n k m p := by
  simp only [flowNodes, rankingNodes, List.mem_append, List.mem_flatMap, List.mem_range,
    List.mem_cons, List.not_mem_nil, or_false, Prod.mk.injEq]
  constructor
  · rintro (((⟨rfl, rfl⟩ | ⟨i, hi, rfl, rfl⟩) | ⟨rfl, rfl⟩) | (⟨rfl, rfl⟩ | ⟨rfl, rfl⟩) |
      ⟨i, hi, ⟨rfl, rfl⟩ | ⟨rfl, rfl⟩⟩ | ⟨rfl, rfl⟩)
    · exact .input
    · exact .gather hi
    · exact .accumulate
    · exact .stageA
    · exact .stageB
    · exact .shardLogits hi
    · exact .localTopK hi
    · exact .merge
  · intro h
    cases h with
    | input => exact .inl (.inl (.inl ⟨rfl, rfl⟩))
    | gather hi => exact .inl (.inl (.inr ⟨_, hi, rfl, rfl⟩))
    | accumulate => exact .inl (.inr ⟨rfl, rfl⟩)
    | stageA => exact .inr (.inl (.inl ⟨rfl, rfl⟩))
    | stageB => exact .inr (.inl (.inr ⟨rfl, rfl⟩))
    | shardLogits hi => exact .inr (.inr (.inl ⟨_, hi, .inl ⟨rfl, rfl⟩⟩))
    | localTopK hi => exact .inr (.inr (.inl ⟨_, hi, .inr ⟨rfl, rfl⟩⟩))
    | merge => exact .inr (.inr (.inr ⟨rfl, rfl⟩))

theorem countP_flowNodes (n k : Nat) :
    ((flowNodes n k).map (·.1)).countP (·.op == .input) = 1 := by
  simp [flowNodes, rankingNodes, List.countP_append, List.countP_map,
    List.countP_flatMap, Function.comp_def]

/-- From a graph without nodes, exactly these are added. -/
theorem grows_flowNodes {base : Graph} (hnext : base.nextId = 0) (n k : Nat) :
    Grows base (((base.addEmbedding n).addProjection n).addRanking n k) (flowNodes n k) := by
  have hembedding := addEmbedding_grows hnext n
  have hnextA : (base.addEmbedding n).nextId = n + 2 := by
    rw [hembedding.nextId, hnext]
    simp [Nat.one_add]
  have hprojection := addProjection_grows hnextA
  have hnextR : ((base.addEmbedding n).addProjection n).nextId = n + 4 := by
    rw [hprojection.nextId, hnextA]
    rfl
  exact hembedding.trans (hprojection.trans (addRanking_grows hnextR k))

theorem dataflow_nodes (plan : Plan) (k : Nat) :
    (dataflow plan k).nodes = (flowNodes plan.shardCount k).map (·.1) := by
  obtain ⟨hnodes, hnext, -⟩ :=
    placeWeights_frame (.empty plan (plan.shardCount + 2)) plan.shardCount
  refine (grows_flowNodes hnext plan.shardCount k).nodes.trans ?_
  rw [hnodes]
  rfl

theorem dataflow_flow (plan : Plan) (k : Nat) :
    Flow (dataflow plan k) plan.shardCount k ∧ (dataflow plan k).plan = plan := by
  rw [dataflow]
  generalize plan.shardCount = n
  obtain ⟨hnodes, hnext, hplan, hpartitions, hslices, hstageA, hstageB⟩ :=
    placeWeights_frame (.empty plan (n + 2)) n
  generalize placeWeights (.empty plan (n + 2)) n = base at *
  change base.nextId = 0 at hnext
  change base.nodes = [] at hnodes
  have hall := grows_flowNodes hnext n k
  generalize ((base.addEmbedding n).addProjection n).addRanking n k = g at hall ⊢
  have hweight : ∀ w, (g.setOutput (.of (g.nextId - 1))).weightHome? w = base.weightHome? w := by
    intro w
    rw [weightHome?, weightHome?]
    exact congrArg (fun ws : List (Weight × PartitionId) => (ws.find? (·.1 == w)).map (·.2))
      hall.weights
  have hlength : (flowNodes n k).length = 3 * n + 5 := by
    simp [flowNodes, rankingNodes]
    omega
  refine ⟨⟨fun m => ?_, ?_, fun m p hm => hall.placed (m, p) (mem_flowNodes.mpr hm),
    hall.partitions.trans hpartitions, fun i hi => (hweight _).trans (hslices i hi),
    (hweight _).trans hstageA, (hweight _).trans hstageB, ?_⟩, hall.plan.trans hplan⟩
  · show m ∈ g.nodes ↔ _
    rw [hall.nodes, hnodes, List.nil_append, List.mem_map]
    constructor
    · rintro ⟨⟨m', p⟩, hin, rfl⟩
      exact ⟨p, mem_flowNodes.mp hin⟩
    · rintro ⟨p, hm⟩
      exact ⟨(m, p), mem_flowNodes.mpr hm, rfl⟩
  · show g.nodes.countP _ = 1
    rw [hall.nodes, hnodes, List.nil_append, countP_flowNodes]
  · show some (ValueRef.of (g.nextId - 1)) = _
    rw [hall.nextId, hnext, hlength, Nat.zero_add]
    rfl

namespace Flow

variable {d : Graph} {n k : Nat}

theorem isCopy_eq_false (h : Flow d n k) {m : Node} (hm : m ∈ d.nodes) : m.op.isCopy = false := by
  obtain ⟨p, hm⟩ := (h.nodes m).mp hm
  cases hm <;> rfl

theorem mem (h : Flow d n k) {m : Node} {p : PartitionId} (hm : FlowNode n k m p) : m ∈ d.nodes :=
  (h.nodes m).mpr ⟨p, hm⟩

theorem valuePartition (h : Flow d n k) {m : Node} {p : PartitionId} (hm : FlowNode n k m p) :
    d.valuePartition (.of m.id) = .ok p :=
  valuePartition_eq_ok.mpr ⟨m, h.mem hm, rfl,
    .inr ⟨h.isCopy_eq_false (h.mem hm), rfl, h.placement m p hm⟩⟩

/-- Each input is the value of an earlier node. -/
theorem exists_input {m : Node} {p : PartitionId} (hm : FlowNode n k m p) {v : ValueRef}
    (hv : v ∈ m.inputs) : ∃ u q, FlowNode n k u q ∧ v = .of u.id ∧ u.id < m.id := by
  cases hm with
  | input => cases hv
  | gather hi =>
      rw [List.mem_singleton] at hv
      exact ⟨_, _, .input, hv, by change (_ : Nat) < _; dsimp only; omega⟩
  | accumulate =>
      obtain ⟨i, hi, rfl⟩ := List.mem_map.mp hv
      rw [List.mem_range] at hi
      exact ⟨_, _, .gather hi, rfl, by change (_ : Nat) < _; dsimp only; omega⟩
  | stageA =>
      rw [List.mem_singleton] at hv
      exact ⟨_, _, .accumulate, hv, by change (_ : Nat) < _; dsimp only; omega⟩
  | stageB =>
      rw [List.mem_singleton] at hv
      exact ⟨_, _, .stageA, hv, by change (_ : Nat) < _; dsimp only; omega⟩
  | shardLogits hi =>
      rw [List.mem_singleton] at hv
      exact ⟨_, _, .stageB, hv, by change (_ : Nat) < _; dsimp only; omega⟩
  | localTopK hi =>
      rw [List.mem_singleton] at hv
      exact ⟨_, _, .shardLogits hi, hv, by change (_ : Nat) < _; dsimp only; omega⟩
  | merge =>
      obtain ⟨i, hi, rfl⟩ := List.mem_map.mp hv
      rw [List.mem_range] at hi
      exact ⟨_, _, .localTopK hi, rfl, by change (_ : Nat) < _; dsimp only; omega⟩

theorem ranks (h : Flow d n k) : d.Ranks (fun id => id) := by
  constructor
  · intro m hm v hv
    obtain ⟨p, hm⟩ := (h.nodes m).mp hm
    obtain ⟨u, q, hu, rfl, -⟩ := exists_input hm hv
    exact ⟨u, h.mem hu, rfl⟩
  · intro m hm v hv
    obtain ⟨p, hm⟩ := (h.nodes m).mp hm
    obtain ⟨u, q, hu, rfl, hlt⟩ := exists_input hm hv
    exact hlt

theorem place_lt (hn : 0 < n) {m : Node} {p : PartitionId} (hm : FlowNode n k m p) :
    p < n + 2 := by
  cases hm <;> change (_ : Nat) < _ <;> omega

theorem length_inputs {m : Node} {p : PartitionId} (hm : FlowNode n k m p) :
    m.inputs.length = m.op.arity n := by
  cases hm <;> simp [Operation.arity]

theorem checkWeight (h : Flow d n k) {m : Node} {p : PartitionId} (hm : FlowNode n k m p) :
    d.checkWeight m.op p = .ok () := by
  cases hm with
  | gather hi => simp [Graph.checkWeight, Operation.weight?, h.slices _ hi]
  | shardLogits hi => simp [Graph.checkWeight, Operation.weight?, h.slices _ hi]
  | stageA => simp [Graph.checkWeight, Operation.weight?, h.stageA]
  | stageB => simp [Graph.checkWeight, Operation.weight?, h.stageB]
  | _ => rfl

/-- Crossings can be found in the dataflow, since every value in it resolves. -/
theorem insertCopies (h : Flow d n k) : ∃ g count, d.insertCopies = .ok (g, count) := by
  obtain ⟨found, hfound⟩ : ∃ found, d.crossings = .ok found := by
    refine crossings_of_resolved fun m hm _ => ?_
    obtain ⟨p, hm⟩ := (h.nodes m).mp hm
    refine ⟨⟨p, h.placement m p hm⟩, fun v hv => ?_⟩
    obtain ⟨u, q, hu, rfl, -⟩ := exists_input hm hv
    exact ⟨q, h.valuePartition hu⟩
  exact ⟨_, _, Outcome.bind_eq_ok.mpr ⟨_, hfound, rfl⟩⟩

theorem output_has (h : Flow d n k) {v : ValueRef} (hv : d.output? = some v) :
    v = .of (3 * n + 4) ∧ d.Has v.node := by
  rw [h.output, Option.some.injEq] at hv
  exact ⟨hv.symm, hv ▸ ⟨_, h.mem .merge, rfl⟩⟩

/-- However its values are routed, the dataflow passes the check. -/
theorem valid (h : Flow d n k) (hn : 0 < n) (hcount : d.plan.shardCount = n) {g : Graph}
    (hroutes : Routes d g) : g.Valid := by
  refine hroutes.valid h.inputCount (fun m hm => ?_) (fun v p hv => ?_)
    ⟨_, _, h.output, h.valuePartition .merge⟩ (waves_of_ranks h.ranks)
  · have hcopy := h.isCopy_eq_false hm
    obtain ⟨p, hm⟩ := (h.nodes m).mp hm
    refine ⟨p, h.placement m p hm, h.partitions ▸ place_lt hn hm, ?_, h.checkWeight hm, ?_, ?_⟩
    · rw [hcount, length_inputs hm]
    · exact fun heq => Operation.isCopy_eq_false.mp hcopy _ heq
    · intro hop
      rw [hcopy] at hop
      cases hop
  · obtain ⟨m, hm, hid, hwhere⟩ := valuePartition_eq_ok.mp hv
    have hcopy := h.isCopy_eq_false hm
    obtain ⟨q, hm⟩ := (h.nodes m).mp hm
    rcases hwhere with ⟨destinations, hop, -⟩ | ⟨-, -, hplace⟩
    · exact absurd hop (Operation.isCopy_eq_false.mp hcopy _)
    · rw [← hid, h.placement m q hm, Option.some.injEq] at hplace
      exact h.partitions ▸ hplace ▸ place_lt hn hm

end Flow

/-! ## Building -/

theorem mem_of_narrowest {widths : List (Shard × Nat)} {e : Shard × Nat}
    (h : narrowest widths = some e) : e ∈ widths := by
  cases widths with
  | nil => cases h
  | cons s rest =>
      have hfold : ∀ (rest : List (Shard × Nat)) (s : Shard × Nat),
          rest.foldl (fun best next => if next.2 < best.2 then next else best) s ∈ s :: rest := by
        intro rest
        induction rest with
        | nil => exact fun s => List.mem_singleton_self s
        | cons t rest ih =>
            intro s
            rw [List.foldl_cons]
            have hin := ih (if t.2 < s.2 then t else s)
            rcases List.mem_cons.mp hin with heq | hin
            · rw [heq]
              split
              · exact List.mem_cons_of_mem _ List.mem_cons_self
              · exact List.mem_cons_self
            · exact List.mem_cons_of_mem _ (List.mem_cons_of_mem _ hin)
      rw [narrowest, Option.some.injEq] at h
      exact h ▸ hfold rest s

theorem widths_of_cut {plan : Plan} {v n : Nat} (h : plan.CutOf v n) :
    (plan.shards.mapM fun s => do
      let width ← s.width
      Except.ok (s, width)) = .ok ((List.range n).map fun i =>
        (Plan.shardAt v n i, Plan.bound v n (i + 1) - Plan.bound v n i)) := by
  rw [h.shards, List.mapM_map]
  refine Outcome.mapM_eq_ok_map fun i hi => ?_
  rw [Function.comp_apply, Plan.width_shardAt (List.mem_range.mp hi)]
  rfl

theorem checkWidths_of_cut {plan : Plan} {v n k : Nat} (h : plan.CutOf v n) (hk : k ≤ v / n) :
    checkWidths plan k = .ok () := by
  rw [checkWidths, widths_of_cut h, Outcome.ok_bind]
  split
  · next shard width hnarrowest =>
      obtain ⟨i, hi, heq⟩ := List.mem_map.mp (mem_of_narrowest hnarrowest)
      have hle := Plan.bound_add_le (v := v) (List.mem_range.mp hi)
      have hwidth := congrArg Prod.snd heq
      dsimp only at hwidth
      exact ensure_of (by omega)
  · rfl

/-- The graph of a plan can be built, and is its dataflow with values routed through copies. -/
theorem exists_build {plan : Plan} {v n k : Nat} (h : plan.CutOf v n) (hpos : 1 ≤ k)
    (hk : k ≤ v / n) (coalesce : Bool) :
    ∃ g, build plan ⟨k, coalesce⟩ = .ok g ∧ Routes (dataflow plan k) g ∧ g.Valid := by
  obtain ⟨hflow, hplan⟩ := dataflow_flow plan k
  rw [h.shardCount] at hflow
  have hcount : (dataflow plan k).plan.shardCount = n := by rw [hplan, h.shardCount]
  obtain ⟨g, count, hinsert⟩ := hflow.insertCopies
  have hroutes := insertCopies_routes hinsert
  have hjoined : Routes (dataflow plan k) (if coalesce then g.coalesceCopies.1 else g) := by
    split
    · exact hroutes.coalesceCopies (fun m hm => hflow.isCopy_eq_false hm)
        (fun v hv => (hflow.output_has hv).2)
    · exact hroutes
  have hvalid := hflow.valid h.pos hcount hjoined
  have hvalidate : (if coalesce then g.coalesceCopies.1 else g).validate = .ok () :=
    validate_eq_ok.mpr hvalid
  refine ⟨_, ?_, hjoined, hvalid⟩
  rw [build, ensure_of (Nat.ne_of_gt hpos), Outcome.ok_bind, checkWidths_of_cut h hk,
    Outcome.ok_bind, h.shardCount, Word.sub_of_le h.pos, Outcome.ok_bind, hinsert,
    Outcome.ok_bind]
  dsimp only
  rw [hvalidate]
  rfl

end ShardedModel.Graph
