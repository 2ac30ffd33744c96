import Mathlib.Data.List.Permutation
import ShardedModel.Proofs.RoutedFailure
import ShardedModel.Proofs.Stages

/-!
# A scheduled call is the chain

The graph of a plan runs in waves, and its copies decide which operations share one: the
first shard looks up its tokens a wave before the others, who wait for a copy of them. So
the waves follow the order of the chain except that they compute the shards of a stage
together. Where several of these fail, the chain reports the first shard and the run a
fault or the lowest id, and the two are the same, because shards fail other than by a
fault only all together.

The results of a wave may come in any order. `runArriving` runs a graph with an order of
arrival for each wave, and gives the same outcome for all of them.
-/

namespace ShardedModel

open Outcome

variable {α : Type}

/-! ## The waves of the operations -/

namespace Graph

/-- The depths of the nodes of a dataflow whose values are routed through copies. -/
structure FlowDepths (n : Nat) (depth : NodeId → Nat) : Prop where
  input : depth 0 = 0
  gather : ∀ i < n, depth (1 + i) = if i = 0 then 1 else 2
  accumulate : ∀ i < n, depth (1 + i) < depth (n + 1)
  stageA : depth (n + 1) < depth (n + 2)
  stageB : depth (n + 2) < depth (n + 3)
  logits : ∀ i < n, depth (n + 4 + 2 * i) = depth (n + 3) + 2
  kept : ∀ i < n, depth (n + 4 + 2 * i + 1) = depth (n + 3) + 3
  merge : ∀ i < n, depth (n + 4 + 2 * i + 1) < depth (3 * n + 4)

theorem Flow.depths {d g : Graph} {n k : Nat} (h : Flow d n k) (hroutes : Routes d g)
    {depth : NodeId → Nat} (hdepths : g.Depths depth) : FlowDepths n depth := by
  have hsingle : ∀ {u m : Node} {q p : PartitionId}, FlowNode n k u q → FlowNode n k m p →
      m.inputs = [.of u.id] → depth m.id = depth u.id + if q = p then 1 else 2 :=
    fun hu hm hinputs => hroutes.depth_of_single hdepths (h.mem hm) hinputs
      (h.isCopy_eq_false (h.mem hm)) (h.placement _ _ hm) (h.valuePartition hu)
  have hlt : ∀ {u m : Node} {q p : PartitionId}, FlowNode n k u q → FlowNode n k m p →
      .of u.id ∈ m.inputs → depth u.id < depth m.id :=
    fun _ hm hin => hroutes.depth_lt hdepths (h.mem hm) hin
  have hinput : depth 0 = 0 := by
    obtain ⟨m, hm, hid, -, -, hinputs⟩ := hroutes.kept _ (h.mem .input)
    rw [List.forall₂_nil_left_iff] at hinputs
    rcases hdepths.tight m hm with hzero | ⟨v, hv, -⟩
    · rw [hid] at hzero
      exact hzero
    · rw [hinputs] at hv
      cases hv
  have hlogits : ∀ i < n, depth (n + 4 + 2 * i) = depth (n + 3) + 2 := by
    intro i hi
    have hdepth : depth (n + 4 + 2 * i) = depth (n + 3) + if n + 1 = i then 1 else 2 :=
      hsingle .stageB (.shardLogits hi) rfl
    rw [hdepth, if_neg (by omega)]
  refine ⟨hinput, fun i hi => ?_, fun i hi => ?_, ?_, ?_, hlogits, fun i hi => ?_, fun i hi => ?_⟩
  · have hdepth : depth (1 + i) = depth 0 + if 0 = i then 1 else 2 :=
      hsingle .input (.gather hi) rfl
    rw [hdepth, hinput, Nat.zero_add]
    simp only [eq_comm]
  · exact hlt (.gather hi) .accumulate (List.mem_map.mpr ⟨i, List.mem_range.mpr hi, rfl⟩)
  · exact hlt .accumulate .stageA (List.mem_singleton_self _)
  · exact hlt .stageA .stageB (List.mem_singleton_self _)
  · have hdepth : depth (n + 4 + 2 * i + 1) = depth (n + 4 + 2 * i) + if i = i then 1 else 2 :=
      hsingle (.shardLogits hi) (.localTopK hi) rfl
    rw [hdepth, hlogits i hi, if_pos rfl]
  · exact hlt (.localTopK hi) .merge (List.mem_map.mpr ⟨i, List.mem_range.mpr hi, rfl⟩)

namespace FlowDepths

variable {n k : Nat} {depth : NodeId → Nat} {u m : Node} {q p : PartitionId}

/-- The first wave that a stage can run in. -/
def level (n : Nat) (depth : NodeId → Nat) : Nat → Nat
  | 0 => 0
  | 1 => 1
  | 2 => depth (n + 1)
  | 3 => depth (n + 2)
  | 4 => depth (n + 3)
  | 5 => depth (n + 3) + 2
  | 6 => depth (n + 3) + 3
  | 7 => depth (3 * n + 4)
  | _ + 8 => depth (3 * n + 4) + 1

theorem level_le (h : FlowDepths n depth) (hn : 0 < n) {s t : Nat} (hst : s ≤ t) :
    level n depth s ≤ level n depth t := by
  have hgather := h.gather 0 hn
  have haccumulate := h.accumulate 0 hn
  have hA := h.stageA
  have hB := h.stageB
  have hkept := h.kept 0 hn
  have hmerge := h.merge 0 hn
  induction hst with
  | refl => exact Nat.le_refl _
  | @step t _ ih =>
      refine Nat.le_trans ih ?_
      match t with
      | 0 | 1 | 2 | 3 | 4 | 5 | 6 | 7 | _ + 8 => simp only [level]; omega

theorem level_bounds (h : FlowDepths n depth) (hm : FlowNode n k m p) :
    level n depth m.op.stage ≤ depth m.id ∧ depth m.id < level n depth (m.op.stage + 1) := by
  cases hm with
  | input => simp only [Operation.stage, level, h.input]; omega
  | gather hi =>
      have hgather := h.gather _ hi
      have haccumulate := h.accumulate _ hi
      simp only [Operation.stage, level]
      split at hgather <;> omega
  | accumulate => exact ⟨Nat.le_refl _, h.stageA⟩
  | stageA => exact ⟨Nat.le_refl _, h.stageB⟩
  | stageB => simp only [Operation.stage, level]; omega
  | shardLogits hi => simp only [Operation.stage, level, h.logits _ hi]; omega
  | localTopK hi =>
      have hmerge := h.merge _ hi
      simp only [Operation.stage, level, h.kept _ hi] at hmerge ⊢
      omega
  | merge => exact ⟨Nat.le_refl _, Nat.lt_succ_self _⟩

/-- Later stages run in later waves. -/
theorem lt_of_stage_lt (h : FlowDepths n depth) (hn : 0 < n) (hu : FlowNode n k u q)
    (hm : FlowNode n k m p) (hs : u.op.stage < m.op.stage) : depth u.id < depth m.id :=
  calc depth u.id
    _ < level n depth (u.op.stage + 1) := (h.level_bounds hu).2
    _ ≤ level n depth m.op.stage := h.level_le hn hs
    _ ≤ depth m.id := (h.level_bounds hm).1

/-- What ran in an earlier wave comes earlier in the chain. -/
theorem before_of_lt (h : FlowDepths n depth) (hn : 0 < n) (hu : FlowNode n k u q)
    (hm : FlowNode n k m p) (hlt : depth u.id < depth m.id) :
    u.op.stage < m.op.stage ∨ u.op.stage = m.op.stage ∧ u.id < m.id := by
  rcases Nat.lt_trichotomy u.op.stage m.op.stage with hs | hs | hs
  · exact .inl hs
  · refine .inr ⟨hs, ?_⟩
    by_cases hone : m.op.shard? = none
    · obtain rfl := hu.eq_of_stage hm hs hone
      exact absurd hlt (Nat.lt_irrefl _)
    -- Only the lookups of a stage are in different waves.
    cases hm with
    | gather hj =>
        cases hu with
        | gather hi =>
            have hdepth := h.gather _ hi
            have hdepth' := h.gather _ hj
            change (_ : Nat) < _
            dsimp only at hlt ⊢
            split at hdepth <;> split at hdepth' <;> omega
        | _ => cases hs
    | shardLogits hj =>
        cases hu with
        | shardLogits hi =>
            dsimp only at hlt
            rw [h.logits _ hi, h.logits _ hj] at hlt
            exact absurd hlt (Nat.lt_irrefl _)
        | _ => cases hs
    | localTopK hj =>
        cases hu with
        | localTopK hi =>
            dsimp only at hlt
            rw [h.kept _ hi, h.kept _ hj] at hlt
            exact absurd hlt (Nat.lt_irrefl _)
        | _ => cases hs
    | _ => exact absurd rfl hone
  · exact absurd hlt (Nat.not_lt_of_gt (h.lt_of_stage_lt hn hm hu hs))

theorem stage_eq_of_eq (h : FlowDepths n depth) (hn : 0 < n) (hu : FlowNode n k u q)
    (hm : FlowNode n k m p) (heq : depth u.id = depth m.id) : u.op.stage = m.op.stage := by
  rcases Nat.lt_trichotomy u.op.stage m.op.stage with hs | hs | hs
  · exact absurd heq (Nat.ne_of_lt (h.lt_of_stage_lt hn hu hm hs))
  · exact hs
  · exact absurd heq (Nat.ne_of_gt (h.lt_of_stage_lt hn hm hu hs))

end FlowDepths

end Graph

/-! ## Failing runs -/

namespace Call

open ShardedModel.Graph

variable [Zero α] [Add α] [Mul α] [Ord α] {c : Call α} {v n : Nat} {m : Node}
variable {p : PartitionId} {e : Failure} {depth : NodeId → Nat}

/-- A lookup that fails first is that of the first shard, or has faulted. -/
theorem FailsFirst.of_gather (hready : c.Ready v n) {j : Nat} (hj : j < n)
    (h : c.FailsFirst n ⟨1 + j, .gather j, [.of 0]⟩ e) : e = .fault ∨ j = 0 := by
  by_cases hzero : j = 0
  · exact .inr hzero
  have hlt : 1 + 0 < 1 + j := Nat.add_lt_add_left (Nat.pos_of_ne_zero hzero) 1
  obtain ⟨x, hx⟩ := h.beside _ _ (.gather hready.cut.pos) rfl hlt
  obtain ⟨g, hg, -⟩ := bind_eq_ok.mp hx
  exact .inl (gathered_onlyFaults hready hready.cut.pos hg hj e (bind_pure_eq_error.mp h.fails))

/-- Scores that fail first are those of the first shard, with none faulting, or have faulted. -/
theorem FailsFirst.of_logits (hready : c.Ready v n) {j : Nat} (hj : j < n)
    (h : c.FailsFirst n ⟨n + 4 + 2 * j, .shardLogits j, [.of (n + 3)]⟩ e) :
    e = .fault ∨ j = 0 ∧ ∀ i < n, ∀ e', c.logits i = .error e' → e' ≠ .fault := by
  obtain ⟨x, hx⟩ := h.before _ _ .stageB (Nat.lt_succ_self _)
  obtain ⟨hidden, hhidden, -⟩ := bind_eq_ok.mp hx
  rcases logits_cases hready hhidden with hfaults | hrefuse
  · exact .inl (hfaults j hj e (bind_pure_eq_error.mp h.fails))
  refine .inr ⟨?_, fun i hi e' he' => ?_⟩
  · by_contra hne
    have hlt : n + 4 + 2 * 0 < n + 4 + 2 * j := by omega
    obtain ⟨x, hx⟩ := h.beside _ _ (.shardLogits hready.cut.pos) rfl hlt
    obtain ⟨l, hl, -⟩ := bind_eq_ok.mp hx
    obtain ⟨e', he', -⟩ := hrefuse 0 hready.cut.pos
    rw [hl] at he'
    cases he'
  · obtain ⟨e'', he'', hne⟩ := hrefuse i hi
    rw [he', Except.error.injEq] at he''
    exact he'' ▸ hne

/-- A ranking that fails first has faulted. -/
theorem FailsFirst.of_kept (hready : c.Ready v n) {j : Nat} (hj : j < n)
    (h : c.FailsFirst n ⟨n + 4 + 2 * j + 1, .localTopK j c.k, [.of (n + 4 + 2 * j)]⟩ e) :
    e = .fault := by
  obtain ⟨x, hx⟩ := h.before _ _ (.shardLogits hj) (Nat.lt_succ_self _)
  obtain ⟨l, hl, -⟩ := bind_eq_ok.mp hx
  exact kept_onlyFaults hready hj hl e (bind_pure_eq_error.mp h.fails)

/-- The first failing operation of the chain decides its wave. -/
theorem FailsFirst.decides (hready : c.Ready v n) (hdepths : FlowDepths n depth)
    (hm : FlowNode n c.k m p) (h : c.FailsFirst n m e) :
    e = .fault ∨ ∀ u q, FlowNode n c.k u q → depth u.id = depth m.id →
      ∀ e', c.meaning u.op = .error e' → e' ≠ .fault ∧ m.id ≤ u.id := by
  have hn := hready.cut.pos
  by_cases hfault : e = .fault
  · exact .inl hfault
  have halone : ∀ u e', u = m → c.meaning u.op = .error e' → e' ≠ .fault ∧ m.id ≤ u.id := by
    rintro u e' rfl he'
    rw [h.fails, Except.error.injEq] at he'
    exact ⟨he' ▸ hfault, Nat.le_refl _⟩
  by_cases hone : m.op.shard? = none
  · refine .inr fun u q hu heq e' he' => halone u e' ?_ he'
    exact hu.eq_of_stage hm (hdepths.stage_eq_of_eq hn hu hm heq) hone
  -- Shards of one stage can fail in one wave. Then the first of them has failed as well.
  refine .inr fun u q hu heq e' he' => ?_
  have hs := hdepths.stage_eq_of_eq hn hu hm heq
  cases hm with
  | gather hj =>
      obtain rfl := (h.of_gather hready hj).resolve_left hfault
      cases hu with
      | gather hi =>
          have hdepth := hdepths.gather _ hi
          dsimp only at heq
          rw [heq, hdepths.gather _ hj, if_pos rfl] at hdepth
          obtain rfl : q = 0 := by
            by_contra hne
            rw [if_neg hne] at hdepth
            cases hdepth
          exact halone _ e' rfl he'
      | _ => cases hs
  | shardLogits hj =>
      obtain ⟨rfl, hrefuse⟩ := (h.of_logits hready hj).resolve_left hfault
      cases hu with
      | shardLogits hi =>
          refine ⟨hrefuse _ hi e' (bind_pure_eq_error.mp he'), ?_⟩
          exact Nat.add_le_add_left (Nat.zero_le _) _
      | _ => cases hs
  | localTopK hj => exact absurd (h.of_kept hready hj) hfault
  | _ => exact absurd rfl hone

/-- A run of the dataflow with its values routed through copies fails as the chain does. -/
theorem run_of_failsFirst {d g : Graph} (hready : c.Ready v n) (hflow : Flow d n c.k)
    (hplan : d.plan = c.plan) (hroutes : Routes d g) {executor : Executor}
    (hrun : executor.starved = false) {ws : List (List NodeId)} (hws : g.waves = .ok ws)
    (hm : FlowNode n c.k m p) (h : c.FailsFirst n m e) :
    Prepared.run ⟨g, c.params, ws⟩ executor c.tokens = .error e.reported := by
  have hcount := hready.cut.shardCount
  obtain ⟨depth, hdepths⟩ := exists_depths hws
  have hflowDepths := hflow.depths hroutes hdepths
  have hbelow : ∀ u q, FlowNode n c.k u q → depth u.id < depth m.id →
      ∃ x, c.meaning u.op = .ok x := by
    intro u q hu hlt
    rcases hflowDepths.before_of_lt hready.cut.pos hu hm hlt with hs | ⟨hs, hid⟩
    · exact h.before u q hu hs
    · exact h.beside u q hu hs hid
  have houtcome : ∀ u q, FlowNode n c.k u q → depth u.id ≤ depth m.id →
      u.outcome d.plan c.params c.tokens (c.look d) = c.meaning u.op := by
    intro u q hu hle
    refine outcome_eq_meaning hflow hplan hcount hu fun w r hw hin => hbelow w r hw ?_
    exact Nat.lt_of_lt_of_le (hroutes.depth_lt hdepths (hflow.mem hu) hin) hle
  refine hroutes.run_fails (fun u hu => hflow.isCopy_eq_false hu) hrun hws hdepths (hflow.mem hm)
    (fun u hu hlt => ?_) ((houtcome m p hm (Nat.le_refl _)).trans h.fails) ?_
  · obtain ⟨q, hu⟩ := (hflow.nodes u).mp hu
    obtain ⟨x, hx⟩ := hbelow u q hu hlt
    exact ⟨x, look_eq_some hflow hu hx, (houtcome u q hu (Nat.le_of_lt hlt)).trans hx⟩
  · refine (h.decides hready hflowDepths hm).imp_right fun hfirst u hu heq e' he' => ?_
    obtain ⟨q, hu⟩ := (hflow.nodes u).mp hu
    exact hfirst u q hu heq e' ((houtcome u q hu (Nat.le_of_eq heq)).symm.trans he')

/-- Where every operation has a value, the run finds that of the last one. -/
theorem run_of_done {d g : Graph} (hcount : c.plan.shardCount = n) (hflow : Flow d n c.k)
    (hplan : d.plan = c.plan) (hroutes : Routes d g) {executor : Executor}
    (hrun : executor.starved = false) {ws : List (List NodeId)} (hws : g.waves = .ok ws)
    (hdone : c.Done n 8) {r : Prediction α} (hr : c.prediction = .ok r) :
    Prepared.run ⟨g, c.params, ws⟩ executor c.tokens = .ok r := by
  have hall : ∀ u q, FlowNode n c.k u q → ∃ x, c.meaning u.op = .ok x :=
    fun u q hu => hdone u q hu (by cases hu <;> simp [Operation.stage])
  have hexplains : d.Explains c.params c.tokens (c.look d) := by
    intro u hu
    obtain ⟨q, hu⟩ := (hflow.nodes u).mp hu
    obtain ⟨x, hx⟩ := hall u q hu
    refine ⟨x, look_eq_some hflow hu hx, ?_⟩
    rw [outcome_eq_meaning hflow hplan hcount hu fun w r hw _ => hall w r hw, hx]
  obtain ⟨ws', hws'⟩ := waves_of_ranks hflow.ranks
  obtain ⟨look', hlook', hold⟩ := hroutes.explains_extend hws' hexplains
  have hmerge : d.Has (3 * n + 4) := ⟨_, hflow.mem .merge, rfl⟩
  refine (Prepared.run_eq_ok hrun hws).mpr ⟨look', hlook', .of (3 * n + 4), .prediction r,
    hroutes.output.trans hflow.output, hroutes.has hmerge, ?_, rfl⟩
  exact (hold _ hmerge).trans (look_eq_some hflow .merge (bind_eq_ok.mpr ⟨r, hr, rfl⟩))

omit [Zero α] [Add α] [Mul α] [Ord α] in
/-- The graph of a plan can be prepared with parameters that were checked. -/
theorem exists_prepared (hready : c.Ready v n) (hparams : c.params.validate c.plan = .ok ())
    (coalesce : Bool) : ∃ g ws, build c.plan ⟨c.k, coalesce⟩ = .ok g ∧ g.waves = .ok ws ∧
      Prepared.prepare g c.params = .ok ⟨g, c.params, ws⟩ := by
  obtain ⟨-, hplan⟩ := dataflow_flow c.plan c.k
  obtain ⟨g, hbuild, hroutes, hvalid⟩ := exists_build hready.cut hready.pos hready.le coalesce
  obtain ⟨ws, hws⟩ := hvalid.waves
  have hvalidate : g.validate = .ok () := validate_eq_ok.mpr hvalid
  refine ⟨g, ws, hbuild, hws, ?_⟩
  rw [Prepared.prepare, hvalidate, ok_bind, hroutes.plan, hplan, hparams, ok_bind, hws]
  rfl

/-- The graph of a plan runs as the chain does. -/
theorem run_eq_chain (hready : c.Ready v n) {coalesce : Bool} {g : Graph}
    (hbuild : build c.plan ⟨c.k, coalesce⟩ = .ok g) {ws : List (List NodeId)}
    (hws : g.waves = .ok ws) {executor : Executor} (hrun : executor.starved = false) :
    Prepared.run ⟨g, c.params, ws⟩ executor c.tokens =
      ((Chain.run c.plan c.params c.tokens c.k).map (·.prediction)).mapError
        Failure.reported := by
  obtain ⟨hflow, hplan⟩ := dataflow_flow c.plan c.k
  rw [hready.cut.shardCount] at hflow
  obtain ⟨g', hbuild', hroutes, -⟩ := exists_build hready.cut hready.pos hready.le coalesce
  obtain rfl : g' = g := Except.ok.inj (hbuild'.symm.trans hbuild)
  rcases chain_cases hready.cut with ⟨chain, hchain, hdone, hr⟩ | ⟨e, hchain, m, p, hm, hfails⟩
  · rw [hchain]
    exact run_of_done hready.cut.shardCount hflow hplan hroutes hrun hws hdone hr
  · rw [hchain]
    exact run_of_failsFirst hready hflow hplan hroutes hrun hws hm hfails

end Call

/-! ## Results in any order -/

section Arrival

variable [Zero α] [Add α] [Mul α] [Ord α]

/-- The order in which the results of a wave come in, given the values that were there before
the wave and the results in the order of ids. -/
structure Arrival (α : Type) where
  order : Values α → List (NodeId × Outcome (Value α)) → List (NodeId × Outcome (Value α))
  perm : ∀ values results, (order values results).Perm results

namespace Prepared

variable (p : Prepared α) (arrival : Arrival α) (executor : Executor) (tokens : TokenBatch)

/-- Runs one wave and settles its results as they come in. -/
def runWaveArriving (values : Values α) (wave : List NodeId) : Outcome (Values α) := do
  let tasks ← wave.mapM fun id => do
    let n ← p.graph.node id
    let task ← Task.ofNode tokens (values.lookup ·) n
    .ok (id, task)
  ensure (¬ (executor.starved ∧ tasks.any (·.2.isCompute))) (.timeout executor.timeoutMs)
  let new ← settle (arrival.order values
    (tasks.map fun (id, task) => (id, task.result p.graph.plan p.params)))
  .ok (values ++ new)

/-- Runs a prepared graph, with the results of each wave in the order in which they come in. -/
def runArriving : Outcome (Prediction α) := do
  let values ← p.waves.foldlM (p.runWaveArriving arrival executor tokens) []
  let output ← p.graph.output
  match values.lookup output.node with
  | some v => v.asPrediction
  | none => .error (.execution .outputNotProduced)

variable {p arrival executor tokens}

theorem runWaveArriving_eq (values : Values α) {wave : List NodeId}
    (hordered : wave.Pairwise (· < ·)) :
    p.runWaveArriving arrival executor tokens values wave =
      p.runWave executor tokens values wave := by
  refine bind_congr_ok fun tasks htasks => bind_congr_ok fun _ _ => ?_
  have hids : List.Forall₂ (fun id (e : NodeId × Task α) => id = e.1) wave tasks := by
    refine (mapM_eq_ok.mp htasks).imp fun id e he => ?_
    obtain ⟨n, -, he⟩ := bind_eq_ok.mp he
    obtain ⟨task, -, he⟩ := bind_eq_ok.mp he
    rw [← Except.ok.inj he]
  have hresults : (tasks.map fun (id, task) => (id, task.result p.graph.plan p.params)).Pairwise
      (fun a b => a.1 < b.1) := by
    rw [List.pairwise_map]
    have hmap : wave = tasks.map (·.1) := by
      rw [← List.forall₂_eq_eq_eq, List.forall₂_map_right_iff]
      exact hids
    rw [hmap, List.pairwise_map] at hordered
    exact hordered
  rw [settle_perm (arrival.perm values _) hresults]

theorem runArriving_eq (hwaves : p.graph.waves = .ok p.waves) :
    p.runArriving arrival executor tokens = p.run executor tokens := by
  obtain ⟨depth, hdepths⟩ := Graph.exists_depths hwaves
  obtain ⟨count, hlayered⟩ := layered_of_depths hwaves hdepths
  have hordered : ∀ wave ∈ p.waves, wave.Pairwise (· < ·) := by
    intro wave hwave
    rw [hlayered.waves] at hwave
    obtain ⟨i, -, rfl⟩ := List.mem_map.mp hwave
    exact List.pairwise_map.mpr (p.graph.ordered_layer depth i)
  have hruns : p.waves.foldlM (p.runWaveArriving arrival executor tokens) [] =
      p.runWaves executor tokens :=
    foldlM_congr (fun wave hwave values => runWaveArriving_eq values (hordered wave hwave)) []
  rw [runArriving, hruns]
  rfl

end Prepared

/-- A call on the graph of a plan agrees with the chain, whatever order the results of its waves
come in: it succeeds with the same prediction, or it fails with the same failure, where a fault
of the chain is reported as a failed execution. -/
theorem runArriving_eq_chain {v n k : Nat} {plan : Plan} (hplan : Plan.cut v n = .ok plan)
    {params : Parameters α} (hparams : params.validate plan = .ok ()) (hpos : 1 ≤ k)
    (hk : k ≤ v / n) (coalesce : Bool) :
    ∃ p : Prepared α, (do
      let graph ← Graph.build plan ⟨k, coalesce⟩
      Prepared.prepare graph params) = .ok p ∧
      ∀ (tokens : TokenBatch) (arrival : Arrival α) (executor : Executor),
        executor.starved = false →
        p.runArriving arrival executor tokens =
          ((Chain.run plan params tokens k).map (·.prediction)).mapError Failure.reported := by
  have hready : ∀ tokens, Call.Ready ⟨plan, params, tokens, k⟩ v n := fun tokens =>
    Call.ready_of_validate (Plan.cutOf_of_cut hplan) hparams hpos hk
  obtain ⟨g, ws, hbuild, hws, hprepare⟩ :=
    Call.exists_prepared (hready ⟨[], 0, 0⟩) hparams coalesce
  refine ⟨⟨g, params, ws⟩, ?_, fun tokens arrival executor hrun => ?_⟩
  · rw [hbuild, ok_bind, hprepare]
  · rw [Prepared.runArriving_eq hws]
    exact Call.run_eq_chain (hready tokens) hbuild hws hrun

end Arrival

/-- Results in the opposite order of ids. -/
def Arrival.reversed (α : Type) : Arrival α :=
  ⟨fun _ results => results.reverse, fun _ results => results.reverse_perm⟩

/-- Parameters for five ids in two shards and sequences of two tokens. -/
def unevenParams : Parameters Nat :=
  ⟨[⟨0, ⟨#[3, 1], 2, 1⟩⟩, ⟨1, ⟨#[4, 1, 5], 3, 1⟩⟩], ⟨⟨#[2], 1, 1⟩, ⟨#[1, 10], 2, 1⟩⟩⟩

/-- With them, a batch that is there, one with fewer ids than it says, and one that says to
have more than can be. -/
theorem runArriving_eq_chain_uneven :
    ∃ plan p, Plan.cut 5 2 = .ok plan ∧ unevenParams.validate plan = .ok () ∧
      (do
        let graph ← Graph.build plan ⟨2, true⟩
        Prepared.prepare graph unevenParams) = .ok p ∧
      p.runArriving (.reversed Nat) .standard ⟨[4, -3, 9, 1], 2, 2⟩ =
        .ok ⟨[[⟨350, 4⟩, ⟨280, 2⟩], [⟨150, 4⟩, ⟨120, 2⟩]]⟩ ∧
      p.runArriving (.reversed Nat) .standard ⟨[4, -3, 9], 2, 2⟩ =
        .error (.shape (.stackData 3 2 2 1)) ∧
      p.runArriving (.reversed Nat) .standard ⟨[4], 9223372036854775808, 2⟩ =
        .error (.execution .taskFault) := by
  have hplan : Plan.cut 5 2 = .ok ⟨5, [⟨0, 0, 2, 2, 5⟩, ⟨1, 2, 5, 2, 5⟩]⟩ := by decide
  have hparams : unevenParams.validate ⟨5, [⟨0, 0, 2, 2, 5⟩, ⟨1, 2, 5, 2, 5⟩]⟩ = .ok () := by
    decide
  obtain ⟨p, hp, hrun⟩ :=
    runArriving_eq_chain (k := 2) hplan hparams (by decide) (by decide) true
  have hgathered : Chain.eachShard ⟨5, [⟨0, 0, 2, 2, 5⟩, ⟨1, 2, 5, 2, 5⟩]⟩ unevenParams
      (fun shard slice => gather shard slice ⟨[4, -3, 9, 1], 2, 2⟩) =
      .ok [⟨0, ⟨#[0, 3, 0, 1], 2, 2, 1⟩⟩, ⟨1, ⟨#[5, 0, 5, 0], 2, 2, 1⟩⟩] := by
    decide +kernel
  refine ⟨_, p, hplan, hparams, hp, ?_, ?_, ?_⟩
  · rw [hrun _ _ _ rfl, Chain.run, hgathered, Outcome.ok_bind]
    cbv
  · rw [hrun _ _ _ rfl]
    decide +kernel
  · rw [hrun _ _ _ rfl]
    decide +kernel

end ShardedModel
