import ShardedModel.Proofs.ComponentFailures
import ShardedModel.Proofs.JoinedGraph
import ShardedModel.Proofs.RoutedFailure

/-!
# A prepared graph runs in order

Preparing a graph checks it and fixes its schedule, and a run then goes by the schedule
without checking again that values are there when they are read. It is enough: each node
has its wave, all that it reads is in earlier waves, and it reads as many values as its
operation takes. So the failures that are there for a graph that was not prepared do not
occur, and what is left are the failures of the operations themselves and the deadline.

Values are added to the end of a list as they are computed, so the list is the record of
what was evaluated, and in which order.
-/

namespace ShardedModel

variable {α : Type}

/-- The failures of a run in which something is not where the schedule says. -/
def Failure.ofSchedule : Failure → Bool
  | .execution (.inputNotReady ..) | .execution (.copyWithoutSource _)
  | .execution .outputNotProduced | .execution (.inputCount _) | .execution (.notComputed _)
  | .placement (.unknownNode _) | .placement .noOutput => true
  | _ => false

theorem Failure.OfComponent.ofSchedule_eq_false {e : Failure} (h : e.OfComponent) :
    e.ofSchedule = false ∧ e.reported.ofSchedule = false := by
  cases h <;> exact ⟨rfl, rfl⟩

/-- A wave fails with what one of its tasks failed with. -/
theorem exists_of_settle {results : List (NodeId × Outcome (Value α))} {e : Failure}
    (h : settle results = .error e) : ∃ id e', (id, .error e') ∈ results ∧ e = e'.reported := by
  by_cases hfault : ∃ id, (id, Except.error Failure.fault) ∈ results
  · obtain ⟨id, hid⟩ := hfault
    rw [settle_fault hid, Except.error.injEq] at h
    exact ⟨id, .fault, hid, h.symm⟩
  · push Not at hfault
    rw [settle_of_no_fault hfault] at h
    obtain ⟨before, r, after, hsplit, -, hr⟩ := Outcome.mapM_eq_error.mp h
    have hin : r ∈ results := by
      have hsorted : r ∈ results.mergeSort fun a b => decide (a.1 ≤ b.1) := by
        rw [hsplit]
        exact List.mem_append_right before List.mem_cons_self
      exact List.mem_mergeSort.mp hsorted
    obtain ⟨id, result⟩ := r
    cases result with
    | ok x => cases hr
    | error e' =>
        obtain rfl : e' = e := Except.error.inj hr
        have hne : e' ≠ .fault := by
          rintro rfl
          exact hfault id hin
        exact ⟨id, e', hin, (Failure.reported_of_ne hne).symm⟩

/-- The executor, with tasks that run. -/
def Executor.awake (executor : Executor) : Executor := { executor with starved := false }

/-- The values that are there once the task of a node was made. -/
def Task.addTo (values : Values α) (id : NodeId) : Task α → Values α
  | .handOn x => values ++ [(id, x)]
  | .compute .. => values

theorem Task.lookup_addTo {values : Values α} {id other : NodeId} (h : other ≠ id)
    (task : Task α) : (task.addTo values id).lookup other = values.lookup other := by
  cases task with
  | compute => rfl
  | handOn x =>
      rw [addTo, List.lookup_append, List.lookup_cons, beq_eq_false_iff_ne.mpr h, List.lookup_nil,
        Option.or_none]

section Run

variable [Zero α] [Add α] [Mul α] [Ord α]
variable {p : Prepared α} {executor : Executor} {tokens : TokenBatch} {depth : NodeId → Nat}

namespace Prepared

/-! ## The deadline -/

/-- Without tasks that run, a wave runs as it does with them or misses the deadline. -/
theorem runWave_awake (p : Prepared α) (executor : Executor) (tokens : TokenBatch)
    (values : Values α) (wave : List NodeId) :
    executor.starved = true ∧
        p.runWave executor tokens values wave = .error (.timeout executor.timeoutMs) ∨
      p.runWave executor tokens values wave = p.runWave executor.awake tokens values wave := by
  unfold runWave
  generalize List.mapM (m := Outcome) (β := NodeId × Task α) _ wave = made
  cases made with
  | error e => exact .inr rfl
  | ok tasks =>
      rw [Outcome.ok_bind, Outcome.ok_bind]
      by_cases h : executor.starved = true ∧ tasks.any (·.2.isCompute) = true
      · refine .inl ⟨h.1, ?_⟩
        rw [ensure_of_not (not_not.mpr h)]
        rfl
      · refine .inr ?_
        rw [ensure_of h, ensure_of (by simp [Executor.awake])]

theorem foldlM_awake (p : Prepared α) (executor : Executor) (tokens : TokenBatch)
    (waves : List (List NodeId)) (values : Values α) :
    executor.starved = true ∧
        waves.foldlM (p.runWave executor tokens) values = .error (.timeout executor.timeoutMs) ∨
      waves.foldlM (p.runWave executor tokens) values =
        waves.foldlM (p.runWave executor.awake tokens) values := by
  induction waves generalizing values with
  | nil => exact .inr rfl
  | cons wave waves ih =>
      rw [List.foldlM_cons, List.foldlM_cons]
      rcases runWave_awake p executor tokens values wave with h | h
      · exact .inl ⟨h.1, by rw [h.2, Outcome.error_bind]⟩
      · rw [h]
        cases p.runWave executor.awake tokens values wave with
        | error e => exact .inr rfl
        | ok values' => exact ih values'

/-! ## Where a run has got to -/

/-- The values after the first `i` waves. -/
def runFirst (p : Prepared α) (executor : Executor) (tokens : TokenBatch) (i : Nat) :
    Outcome (Values α) :=
  (p.waves.take i).foldlM (p.runWave executor tokens) []

theorem runFirst_eq {count : Nat} (h : p.Layered depth count) (i : Nat) :
    p.runFirst executor tokens i = p.runBelow executor tokens depth (min i count) := by
  rw [runFirst, runBelow, h.waves, ← List.map_take, List.take_range]

omit [Zero α] [Add α] [Mul α] [Ord α] in
theorem Layered.mem_waves {count : Nat} (h : p.Layered depth count) {id : NodeId} :
    id ∈ p.waves.flatten ↔ p.graph.Has id := by
  rw [h.waves, List.mem_flatten]
  constructor
  · rintro ⟨wave, hwave, hid⟩
    obtain ⟨i, -, rfl⟩ := List.mem_map.mp hwave
    obtain ⟨n, hn, rfl⟩ := List.mem_map.mp hid
    exact ⟨n, (Graph.mem_layer.mp hn).1, rfl⟩
  · rintro ⟨n, hn, rfl⟩
    exact ⟨_, List.mem_map.mpr ⟨depth n.id, List.mem_range.mpr (h.lt n hn), rfl⟩,
      List.mem_map.mpr ⟨n, Graph.mem_layer.mpr ⟨hn, rfl⟩, rfl⟩⟩

omit [Zero α] [Add α] [Mul α] [Ord α] in
/-- No node is in two waves, nor twice in one. -/
theorem Layered.nodup_waves {count : Nat} (h : p.Layered depth count) :
    p.waves.flatten.Nodup := by
  rw [h.waves, List.nodup_flatten]
  constructor
  · intro wave hwave
    obtain ⟨i, -, rfl⟩ := List.mem_map.mp hwave
    have hordered := List.pairwise_map.mpr (p.graph.ordered_layer depth i)
    exact hordered.imp fun hlt => Nat.ne_of_lt hlt
  · refine List.pairwise_map.mpr (List.nodup_range.imp fun {i j} hne id hi hj => hne ?_)
    obtain ⟨n, hn, rfl⟩ := List.mem_map.mp hi
    obtain ⟨m, hm, hid⟩ := List.mem_map.mp hj
    rw [← (Graph.mem_layer.mp hn).2, ← (Graph.mem_layer.mp hm).2, hid]

omit [Zero α] [Add α] [Mul α] [Ord α] in
theorem Layered.flatten_take {count : Nat} (h : p.Layered depth count) (i : Nat) :
    (p.waves.take i).flatten = ((List.range (min i count)).map fun i =>
      (p.graph.layer depth i).map (·.id)).flatten := by
  rw [h.waves, ← List.map_take, List.take_range]

omit [Zero α] [Add α] [Mul α] [Ord α] in
theorem Layered.getElem?_waves {count : Nat} (h : p.Layered depth count) {i : Nat}
    {wave : List NodeId} : p.waves[i]? = some wave ↔
      i < count ∧ (p.graph.layer depth i).map (·.id) = wave := by
  rw [h.waves, Outcome.getElem?_map_range]

/-- When a wave begins, all that its nodes read is there. -/
theorem Reached.exists_inputs (hdepths : p.graph.Depths depth) {i : Nat} {values : Values α}
    (h : p.Reached tokens depth i values) {n : Node} (hn : n ∈ p.graph.nodes)
    (hi : depth n.id = i) : ∀ v ∈ n.inputs, ∃ x, values.lookup v.node = some x := by
  intro v hv
  obtain ⟨m, hm, hid⟩ := hdepths.has n hn v hv
  have hlt := hdepths.lt n hn v hv
  rw [← hid, hi] at hlt
  obtain ⟨x, hx, -⟩ := h.explained m hm hlt
  exact ⟨x, hid ▸ hx⟩

omit [Zero α] [Add α] [Mul α] [Ord α] in
/-- A node whose inputs are there has a task. A copy has a source, since it reads one value. -/
theorem exists_task (tokens : TokenBatch) (hvalid : p.graph.Valid) {values : Values α} {n : Node}
    (hn : n ∈ p.graph.nodes) (hinputs : ∀ v ∈ n.inputs, ∃ x, values.lookup v.node = some x) :
    ∃ task, Task.ofNode tokens (values.lookup ·) n = .ok task := by
  obtain ⟨xs, hxs⟩ : ∃ xs, Task.readInputs (values.lookup ·) n = .ok xs :=
    Task.readInputs_of_forall hinputs
  cases hop : n.op.isCopy with
  | false => exact Task.ofNode_of_reads hop hxs
  | true =>
      obtain ⟨q, hnode⟩ := hvalid.nodes n hn
      have hlength : xs.length = 1 := by
        rw [← (Task.readInputs_eq_ok.mp hxs).length_eq, hnode.arity, Operation.arity_of_copy hop]
      obtain ⟨x, rfl⟩ := List.length_eq_one_iff.mp hlength
      refine ⟨.handOn x, ?_⟩
      rw [Task.ofNode, hxs, Outcome.ok_bind]
      cases hcopy : n.op with
      | copy => simp only [Task.ofInputs, hcopy]
      | _ => rw [hcopy] at hop; cases hop

/-! ## Values handed on within a wave -/

/-- The task of a node, as a wave makes it when `values` are there. -/
def taskOf (p : Prepared α) (tokens : TokenBatch) (values : Values α) (id : NodeId) :
    Outcome (NodeId × Task α) := do
  let n ← p.graph.node id
  let task ← Task.ofNode tokens (values.lookup ·) n
  .ok (id, task)

/-- The tasks of a wave, made one after the other, where a value that is handed on is there at
once, for the nodes after it in the same wave too. -/
def tasksAtOnce (p : Prepared α) (tokens : TokenBatch) :
    Values α → List NodeId → Outcome (List (NodeId × Task α))
  | _, [] => .ok []
  | values, id :: rest => do
      let made ← p.taskOf tokens values id
      let tasks ← p.tasksAtOnce tokens (made.2.addTo values id) rest
      .ok (made :: tasks)

omit [Zero α] [Add α] [Mul α] [Ord α] in
/-- Where no node of a wave reads another, it makes no difference. -/
theorem tasksAtOnce_eq {values now : Values α} {ns : List Node}
    (hns : ∀ n ∈ ns, n ∈ p.graph.nodes)
    (hapart : ∀ n ∈ ns, ∀ v ∈ n.inputs, ∀ m ∈ ns, v.node ≠ m.id)
    (hsame : ∀ n ∈ ns, ∀ v ∈ n.inputs, now.lookup v.node = values.lookup v.node) :
    p.tasksAtOnce tokens now (ns.map (·.id)) = (ns.map (·.id)).mapM (p.taskOf tokens values) := by
  induction ns generalizing now with
  | nil => rfl
  | cons n ns ih =>
      have hreads : Task.readInputs (now.lookup ·) n = Task.readInputs (values.lookup ·) n :=
        Task.readInputs_congr (hsame n List.mem_cons_self)
      have hhead : p.taskOf tokens now n.id = p.taskOf tokens values n.id := by
        rw [taskOf, taskOf, p.graph.node_of_mem (hns n List.mem_cons_self), Outcome.ok_bind,
          Outcome.ok_bind, Task.ofNode, Task.ofNode, hreads]
      rw [List.map_cons, List.mapM_cons, tasksAtOnce, hhead]
      refine Outcome.bind_congr_ok fun made _ => ?_
      rw [ih (fun m hm => hns m (List.mem_cons_of_mem n hm))
        (fun m hm v hv k hk => hapart m (List.mem_cons_of_mem n hm) v hv k
          (List.mem_cons_of_mem n hk))]
      · rfl
      · intro m hm v hv
        have hm := List.mem_cons_of_mem n hm
        rw [Task.lookup_addTo (hapart m hm v hv n List.mem_cons_self), hsame m hm v hv]

/-- What was evaluated so far, in order. -/
theorem keys_of_runBelow (hrun : executor.starved = false) {i : Nat} {values : Values α}
    (h : p.runBelow executor tokens depth i = .ok values) :
    values.map (·.1) =
      ((List.range i).map fun i => (p.graph.layer depth i).map (·.id)).flatten := by
  induction i generalizing values with
  | zero =>
      cases h
      rfl
  | succ i ih =>
      rw [runBelow_succ] at h
      obtain ⟨before, hbefore, hwave⟩ := Outcome.bind_eq_ok.mp h
      obtain ⟨new, hnew, rfl⟩ := (runWave_eq_ok hrun
        (fun n hn => (Graph.mem_layer.mp hn).1) (p.graph.ordered_layer depth i)).mp hwave
      have hkeys : new.map (·.1) = (p.graph.layer depth i).map (·.id) := by
        rw [← List.forall₂_eq_eq_eq, List.forall₂_map_left_iff, List.forall₂_map_right_iff]
        exact (hnew.imp fun _ _ he => he.1).flip
      rw [List.map_append, ih hbefore, hkeys, List.range_succ, List.map_append, List.flatten_append]
      simp

/-! ## How a run fails -/

/-- The failure of a node of the graph, with a value for each that it reads. -/
def FailsAt (p : Prepared α) (e : Failure) : Prop :=
  ∃ n ∈ p.graph.nodes, ∃ xs e', xs.length = n.inputs.length ∧
    n.op.evaluate xs p.graph.plan p.params = .error e' ∧ e'.OfComponent ∧ e = e'.reported

/-- A node with as many values as it reads fails as its operation does. -/
theorem failsAt_of_outcome (hvalid : p.graph.Valid) {look : NodeId → Option (Value α)} {n : Node}
    (hn : n ∈ p.graph.nodes) {task : Task α} (htask : Task.ofNode tokens look n = .ok task)
    {e : Failure} (h : n.outcome p.graph.plan p.params tokens look = .error e) :
    p.FailsAt e.reported := by
  obtain ⟨xs, hxs, htask⟩ := Outcome.bind_eq_ok.mp htask
  obtain ⟨q, hnode⟩ := hvalid.nodes n hn
  have hreads : xs.length = n.inputs.length := (Task.readInputs_eq_ok.mp hxs).length_eq.symm
  have hlength : xs.length = n.op.arity p.graph.plan.shardCount := hreads.trans hnode.arity
  rw [Node.outcome_of_reads hxs] at h
  by_cases hinput : n.op = .input
  · simp [Node.compute, Task.ofInputs, hinput, Task.result] at h
  · cases hcopy : n.op.isCopy with
    | true =>
        -- A copy hands on what it reads.
        rw [Node.compute, htask, Outcome.ok_bind] at h
        cases hop : n.op with
        | copy =>
            rw [Operation.arity_of_copy hcopy] at hlength
            obtain ⟨x, rfl⟩ := List.length_eq_one_iff.mp hlength
            simp only [Task.ofInputs, hop, Except.ok.injEq] at htask
            rw [← htask] at h
            cases h
        | _ => rw [hop] at hcopy; cases hcopy
    | false =>
        rw [Node.compute_evaluate hinput hcopy] at h
        exact ⟨n, hn, xs, e, hreads, h, Operation.evaluate_fails hinput hcopy hlength p.params e h,
          rfl⟩

/-- The waves fail where a node does. -/
theorem failsAt_of_runBelow (hrun : executor.starved = false) (hvalid : p.graph.Valid)
    (hdepths : p.graph.Depths depth) {i : Nat} {e : Failure}
    (h : p.runBelow executor tokens depth i = .error e) : p.FailsAt e := by
  induction i with
  | zero => cases h
  | succ i ih =>
      rw [runBelow_succ] at h
      rcases Outcome.bind_eq_error.mp h with h | ⟨values, hvalues, hwave⟩
      · exact ih h
      · have hreached := reached_of_runBelow hrun hdepths hvalues
        have hlayer : ∀ n ∈ p.graph.layer depth i, n ∈ p.graph.nodes :=
          fun n hn => (Graph.mem_layer.mp hn).1
        have htasks : ∀ n ∈ p.graph.layer depth i,
            ∃ task, Task.ofNode tokens (values.lookup ·) n = .ok task := by
          intro n hn
          obtain ⟨hn, hi⟩ := Graph.mem_layer.mp hn
          exact exists_task tokens hvalid hn (hreached.exists_inputs hdepths hn hi)
        rw [runWave_of_tasks hrun hlayer htasks, Outcome.bind_pure_eq_error] at hwave
        obtain ⟨id, e', hin, rfl⟩ := exists_of_settle hwave
        obtain ⟨n, hn, heq⟩ := List.mem_map.mp hin
        obtain ⟨task, htask⟩ := htasks n hn
        exact failsAt_of_outcome hvalid (hlayer n hn) htask (Prod.mk.inj heq).2

/-! ## Runs of prepared graphs -/

omit [Zero α] [Add α] [Mul α] [Ord α] in
theorem layered_of_prepare {g : Graph} {params : Parameters α}
    (h : prepare g params = .ok p) : p.graph = g ∧ p.params = params ∧ p.graph.Valid ∧
      ∃ depth count, p.Layered depth count := by
  obtain ⟨_, hvalidate, h⟩ := Outcome.bind_eq_ok.mp h
  obtain ⟨_, -, h⟩ := Outcome.bind_eq_ok.mp h
  obtain ⟨waves, hwaves, h⟩ := Outcome.bind_eq_ok.mp h
  cases h
  obtain ⟨depth, hdepths⟩ := Graph.exists_depths hwaves
  exact ⟨rfl, rfl, Graph.validate_eq_ok.mp hvalidate, depth, layered_of_depths hwaves hdepths⟩

/-- Waves that ran are waves that ran awake. -/
theorem runBelow_of_runFirst {count : Nat} (hlayered : p.Layered depth count) {i : Nat}
    {values : Values α} (h : p.runFirst executor tokens i = .ok values) :
    p.runBelow executor.awake tokens depth (min i count) = .ok values := by
  rw [← runFirst_eq hlayered]
  rcases foldlM_awake p executor tokens (p.waves.take i) [] with ⟨-, hlate⟩ | hsame
  · rw [runFirst, hlate] at h
    cases h
  · exact hsame.symm.trans h

/-- The tasks of the wave at a depth. -/
theorem tasks_of_reached (hvalid : p.graph.Valid) (hdepths : p.graph.Depths depth) {i : Nat}
    {values : Values α} (hreached : p.Reached tokens depth i values) :
    ∃ tasks, ((p.graph.layer depth i).map (·.id)).mapM (p.taskOf tokens values) = .ok tasks ∧
      p.tasksAtOnce tokens values ((p.graph.layer depth i).map (·.id)) = .ok tasks := by
  have hlayer : ∀ n ∈ p.graph.layer depth i, n ∈ p.graph.nodes :=
    fun n hn => (Graph.mem_layer.mp hn).1
  rw [tasksAtOnce_eq hlayer ?_ fun _ _ _ _ => rfl]
  · obtain ⟨tasks, htasks⟩ : ∃ tasks, ((p.graph.layer depth i).map (·.id)).mapM
        (p.taskOf tokens values) = .ok tasks := by
      refine Outcome.mapM_of_forall fun id hid => ?_
      obtain ⟨n, hn, rfl⟩ := List.mem_map.mp hid
      obtain ⟨hn, hi⟩ := Graph.mem_layer.mp hn
      obtain ⟨task, htask⟩ := exists_task tokens hvalid hn
        (hreached.exists_inputs hdepths hn hi)
      exact ⟨(n.id, task), by rw [taskOf, p.graph.node_of_mem hn, Outcome.ok_bind, htask]; rfl⟩
    exact ⟨tasks, htasks, htasks⟩
  · -- Nodes of one depth do not read each other.
    intro n hn v hv m hm heq
    obtain ⟨hn, hi⟩ := Graph.mem_layer.mp hn
    have hlt := hdepths.lt n hn v hv
    rw [heq, (Graph.mem_layer.mp hm).2, hi] at hlt
    exact Nat.lt_irrefl i hlt

theorem run_error_cases (hvalid : p.graph.Valid) {count : Nat} (hlayered : p.Layered depth count)
    {e : Failure} (h : p.run executor tokens = .error e) :
    executor.starved = true ∧ e = .timeout executor.timeoutMs ∨ p.FailsAt e ∨
      ∃ values v x, p.runWaves executor tokens = .ok values ∧ p.graph.output? = some v ∧
        values.lookup v.node = some x ∧ x.asPrediction = .error e := by
  rcases foldlM_awake p executor tokens p.waves [] with ⟨hstarved, hlate⟩ | hsame
  · change p.runWaves executor tokens = _ at hlate
    rw [run, hlate, Outcome.error_bind, Except.error.injEq] at h
    exact .inl ⟨hstarved, h.symm⟩
  · change p.runWaves executor tokens = p.runWaves executor.awake tokens at hsame
    refine .inr ?_
    rcases Outcome.bind_eq_error.mp h with hwaves | ⟨values, hvalues, h⟩
    · rw [hsame, runWaves_eq hlayered] at hwaves
      exact .inl (failsAt_of_runBelow rfl hvalid hlayered.depths hwaves)
    · -- The output is a node of the graph, and has its value as all nodes have.
      obtain ⟨v, q, hv, hq⟩ := hvalid.output
      obtain ⟨n, hn, hid⟩ := Graph.has_of_valuePartition hq
      have hbelow : p.runBelow executor.awake tokens depth count = .ok values := by
        rw [← runWaves_eq hlayered, ← hsame, hvalues]
      have hreached := reached_of_runBelow rfl hlayered.depths hbelow
      obtain ⟨x, hx, -⟩ := hreached.explained n hn (hlayered.lt n hn)
      rw [hid] at hx
      rw [Graph.output_eq_ok.mpr hv, Outcome.ok_bind, hx] at h
      exact .inr ⟨values, v, x, hvalues, hv, hx, h⟩

end Prepared

/-- What a run of a prepared graph does, whatever the graph. It fails with none of the failures
that a schedule is there to prevent. No node is in two waves, and all are in one. After `i`
waves exactly their nodes have been evaluated, in order; all that the nodes of the next wave
read is there, and their tasks are the same if values handed on in that wave are there at
once. A run that succeeds gets to the end, and has then evaluated every node. A run that fails
has missed its deadline, or an operation failed on what its node read, or the output is no
prediction. -/
theorem run_consistent {g : Graph} {params : Parameters α} {p : Prepared α}
    (hprepare : Prepared.prepare g params = .ok p) (executor : Executor) (tokens : TokenBatch) :
    (∀ e, p.run executor tokens = .error e → e.ofSchedule = false) ∧
    p.waves.flatten.Nodup ∧ (∀ id, id ∈ p.waves.flatten ↔ g.Has id) ∧
    (∀ i values, p.runFirst executor tokens i = .ok values →
      values.map (·.1) = (p.waves.take i).flatten ∧
      ∀ wave, p.waves[i]? = some wave →
        (∀ id ∈ wave, ∃ n ∈ g.nodes, n.id = id ∧
          ∀ v ∈ n.inputs, ∃ x, values.lookup v.node = some x) ∧
        ∃ tasks, wave.mapM (p.taskOf tokens values) = .ok tasks ∧
          p.tasksAtOnce tokens values wave = .ok tasks) ∧
    (∀ r, p.run executor tokens = .ok r → ∃ values, p.runWaves executor tokens = .ok values) ∧
    (∀ values, p.runWaves executor tokens = .ok values →
      (values.map (·.1)).Perm (g.nodes.map (·.id))) ∧
    ∀ e, p.run executor tokens = .error e →
      executor.starved = true ∧ e = .timeout executor.timeoutMs ∨ p.FailsAt e ∨
      ∃ values v x, p.runWaves executor tokens = .ok values ∧ g.output? = some v ∧
        values.lookup v.node = some x ∧ x.asPrediction = .error e := by
  obtain ⟨rfl, rfl, hvalid, depth, count, hlayered⟩ := Prepared.layered_of_prepare hprepare
  have hdepths := hlayered.depths
  refine ⟨fun e he => ?_, hlayered.nodup_waves, fun id => hlayered.mem_waves,
    fun i values hvalues => ?_, fun r hr => ?_, fun values hvalues => ?_,
    fun e he => Prepared.run_error_cases hvalid hlayered he⟩
  · rcases Prepared.run_error_cases hvalid hlayered he with ⟨-, rfl⟩ |
      ⟨n, -, xs, e', -, -, hcomponent, rfl⟩ | ⟨values, v, x, -, -, -, hx⟩
    · rfl
    · exact hcomponent.ofSchedule_eq_false.2
    · exact (x.asPrediction_fails e hx).ofSchedule_eq_false.1
  · have hbelow := Prepared.runBelow_of_runFirst hlayered hvalues
    have hreached := Prepared.reached_of_runBelow rfl hdepths hbelow
    have hkeys := Prepared.keys_of_runBelow rfl hbelow
    refine ⟨hkeys.trans (hlayered.flatten_take i).symm, fun wave hwave => ?_⟩
    obtain ⟨hi, rfl⟩ := hlayered.getElem?_waves.mp hwave
    rw [Nat.min_eq_left (Nat.le_of_lt hi)] at hreached
    refine ⟨fun id hid => ?_, Prepared.tasks_of_reached hvalid hdepths hreached⟩
    obtain ⟨n, hn, rfl⟩ := List.mem_map.mp hid
    obtain ⟨hn, hni⟩ := Graph.mem_layer.mp hn
    exact ⟨n, hn, rfl, hreached.exists_inputs hdepths hn hni⟩
  · obtain ⟨values, hvalues, -⟩ := Outcome.bind_eq_ok.mp hr
    exact ⟨values, hvalues⟩
  · have hfirst : p.runFirst executor tokens p.waves.length = .ok values := by
      rw [Prepared.runFirst, List.take_length]
      exact hvalues
    have hkeys := Prepared.keys_of_runBelow rfl (Prepared.runBelow_of_runFirst hlayered hfirst)
    rw [hkeys, ← hlayered.flatten_take, List.take_length]
    have hnodes : (p.graph.nodes.map (·.id)).Nodup :=
      (List.pairwise_map.mpr p.graph.ordered).imp fun hlt => Nat.ne_of_lt hlt
    refine (List.perm_ext_iff_of_nodup hlayered.nodup_waves hnodes).mpr fun id => ?_
    rw [hlayered.mem_waves, List.mem_map]
    rfl

end Run

/-- A graph of copies and one lookup, whose output is a copy of the tokens. All of its nodes are
evaluated, and then the output is found to be no prediction; without tasks that run, the
lookup misses the deadline. -/
theorem run_consistent_chained :
    let params : Parameters Nat := ⟨[⟨0, ⟨#[2, 3], 2, 1⟩⟩], ⟨⟨#[5], 1, 1⟩, ⟨#[7], 1, 1⟩⟩⟩
    let p : Prepared Nat := ⟨Graph.chained, params, [[0], [1, 2], [3, 4, 5, 6]]⟩
    Prepared.prepare Graph.chained params = .ok p ∧
    p.run .standard ⟨[1], 1, 1⟩ = .error (.execution (.valueKind .prediction .tokens)) ∧
    (Failure.execution (.valueKind .prediction .tokens)).ofSchedule = false ∧
    (∃ values, p.runWaves .standard ⟨[1], 1, 1⟩ = .ok values ∧
      (values.map (·.1)).Perm (Graph.chained.nodes.map (·.id))) ∧
    p.run ⟨50, true⟩ ⟨[1], 1, 1⟩ = .error (.timeout 50) ∧
    (Failure.timeout 50).ofSchedule = false := by
  intro params p
  let batch : TokenBatch := ⟨[1], 1, 1⟩
  have hvalidate : Graph.chained.validate = .ok () := by decide +kernel
  have hwaves : Graph.chained.waves = .ok [[0], [1, 2], [3, 4, 5, 6]] := by decide +kernel
  have hparams : params.validate Graph.chained.plan = .ok () := by decide
  have hprepare : Prepared.prepare Graph.chained params = .ok p := by
    rw [Prepared.prepare, hvalidate, Outcome.ok_bind, hparams, Outcome.ok_bind, hwaves]
    rfl
  -- The sort of the results of a wave does not evaluate, so the values are given: all nodes but
  -- the lookup have the tokens.
  let value (id : NodeId) : Value Nat :=
    if id = 3 then .gathered ⟨0, ⟨#[3], 1, 1, 1⟩⟩ else .tokens batch
  have houtcome : ∀ n ∈ Graph.chained.nodes,
      n.outcome Graph.chained.plan params batch (some ∘ value) = .ok (value n.id) := by
    decide +kernel
  obtain ⟨values, hvalues, hfound⟩ : ∃ values, p.runWaves .standard batch = .ok values ∧
      ∀ id, p.graph.Has id → values.lookup id = some (value id) :=
    Prepared.runWaves_of_explains rfl hwaves fun n hn => ⟨value n.id, rfl, houtcome n hn⟩
  have hrun : p.run .standard batch = .error (.execution (.valueKind .prediction .tokens)) := by
    have houtput : p.graph.output? = some (.of 5) := rfl
    have hhas : p.graph.Has (ValueRef.of 5).node := ⟨⟨5, .copy [0], [⟨2, 1⟩]⟩, by decide, rfl⟩
    rw [Prepared.run, hvalues, Outcome.ok_bind, Graph.output_eq_ok.mpr houtput, Outcome.ok_bind,
      hfound _ hhas]
    rfl
  have hlate : p.run ⟨50, true⟩ batch = .error (.timeout 50) := by
    have hfirst : p.runWave ⟨50, true⟩ batch [] [0] = .ok [(0, .tokens batch)] := by
      decide +kernel
    have hcopies : p.runWave ⟨50, true⟩ batch [(0, .tokens batch)] [1, 2] =
        .ok [(0, .tokens batch), (1, .tokens batch), (2, .tokens batch)] := by
      let copies : Values Nat := [(1, .tokens batch), (2, .tokens batch)]
      have hordered : copies.Pairwise (fun a b => a.1 < b.1) := by simp [copies]
      change (settle (copies.map fun e => (e.1, .ok e.2)) >>= fun new =>
        .ok ([(0, .tokens batch)] ++ new)) = _
      rw [settle_of_values hordered]
      rfl
    have hlookup : p.runWave ⟨50, true⟩ batch
        [(0, .tokens batch), (1, .tokens batch), (2, .tokens batch)] [3, 4, 5, 6] =
        .error (.timeout 50) := by decide +kernel
    rw [Prepared.run, Prepared.runWaves, List.foldlM_cons, hfirst, Outcome.ok_bind,
      List.foldlM_cons, hcopies, Outcome.ok_bind, List.foldlM_cons, hlookup]
    rfl
  obtain ⟨hnever, -, -, -, -, hall, -⟩ := run_consistent hprepare .standard ⟨[1], 1, 1⟩
  obtain ⟨hnever', -⟩ := run_consistent hprepare ⟨50, true⟩ ⟨[1], 1, 1⟩
  exact ⟨hprepare, hrun, hnever _ hrun, ⟨values, hvalues, hall values hvalues⟩, hlate,
    hnever' _ hlate⟩

end ShardedModel
