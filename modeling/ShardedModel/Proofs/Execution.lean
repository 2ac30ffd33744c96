import ShardedModel.Execution.Run
import ShardedModel.Proofs.Placement

/-!
# What a run computes

A run is explained by one function from nodes to values: `Explains` says that it gives
each node what the node computes from the values of its inputs. A run that succeeds
leaves such a function behind, and where there is one the run succeeds and finds it.
Neither speaks of waves, so two graphs with different schedules can be compared node
by node.

A run that fails does so in its first wave with a failing node. The nodes below that
wave are explained as before, and the failures of the wave are settled: a fault comes
first, and then the lowest id.
-/

namespace ShardedModel

variable {α : Type}

/-! ## What one node computes -/

namespace Task

variable {look look' : NodeId → Option (Value α)} {tokens : TokenBatch} {n n' : Node}

theorem readInputs_congr (h : ∀ v ∈ n.inputs, look v.node = look' v.node) :
    readInputs look n = readInputs look' n := by
  unfold readInputs
  refine Outcome.mapM_congr fun v hv => ?_
  rw [h v hv]

theorem readInputs_eq_ok {xs : List (Value α)} :
    readInputs look n = .ok xs ↔
      List.Forall₂ (fun (v : ValueRef) x => look v.node = some x) n.inputs xs := by
  rw [readInputs, Outcome.mapM_eq_ok]
  constructor
  · refine List.Forall₂.imp fun v x h => ?_
    split at h
    · next y hy =>
        rw [Except.ok.injEq] at h
        exact h ▸ hy
    · cases h
  · refine List.Forall₂.imp fun v x h => ?_
    rw [h]

theorem readInputs_of_forall (h : ∀ v ∈ n.inputs, ∃ x, look v.node = some x) :
    ∃ xs, readInputs look n = .ok xs := by
  refine Outcome.mapM_of_forall fun v hv => ?_
  obtain ⟨x, hx⟩ := h v hv
  exact ⟨x, by rw [hx]⟩

/-- Only a copy asks for something in what it reads before it runs. -/
theorem ofNode_of_reads (hop : n.op.isCopy = false) {xs : List (Value α)}
    (hreads : readInputs look n = .ok xs) : ∃ task, ofNode tokens look n = .ok task := by
  rw [ofNode, hreads, Outcome.ok_bind]
  unfold ofInputs
  split
  · exact ⟨_, rfl⟩
  · next h => rw [h] at hop; cases hop
  · exact ⟨_, rfl⟩

end Task

section Nodes

variable [Zero α] [Add α] [Mul α] [Ord α]

/-- What a node computes from the values it reads. -/
def Node.compute (plan : Plan) (params : Parameters α) (tokens : TokenBatch) (n : Node)
    (xs : List (Value α)) : Outcome (Value α) := do
  let task ← Task.ofInputs tokens n xs
  task.result plan params

/-- What a node computes, where `look` finds the values of the nodes it reads. -/
def Node.outcome (plan : Plan) (params : Parameters α) (tokens : TokenBatch)
    (look : NodeId → Option (Value α)) (n : Node) : Outcome (Value α) := do
  let xs ← Task.readInputs look n
  n.compute plan params tokens xs

variable {plan : Plan} {params : Parameters α} {tokens : TokenBatch}
variable {look look' : NodeId → Option (Value α)} {n n' : Node}

namespace Node

/-- Nodes with the same operation compute the same. Copies are the same whatever their
destinations. -/
theorem compute_congr (hop : n'.op = n.op ∨ n'.op.isCopy = true ∧ n.op.isCopy = true)
    (hid : n'.id = n.id) (xs : List (Value α)) :
    n'.compute plan params tokens xs = n.compute plan params tokens xs := by
  rw [compute, compute]
  rcases hop with hop | ⟨hcopy', hcopy⟩
  · simp only [Task.ofInputs, hop, hid]
  · cases hn : n.op <;> rw [hn] at hcopy <;> cases hcopy
    cases hn' : n'.op <;> rw [hn'] at hcopy' <;> cases hcopy'
    simp only [Task.ofInputs, hn, hn', hid]

theorem outcome_congr (h : ∀ v ∈ n.inputs, look v.node = look' v.node) :
    n.outcome plan params tokens look = n.outcome plan params tokens look' := by
  rw [outcome, outcome, Task.readInputs_congr h]

theorem outcome_of_reads {xs : List (Value α)} (hreads : Task.readInputs look n = .ok xs) :
    n.outcome plan params tokens look = n.compute plan params tokens xs := by
  rw [outcome, hreads, Outcome.ok_bind]

theorem outcome_of_task {task : Task α} (h : Task.ofNode tokens look n = .ok task) :
    n.outcome plan params tokens look = task.result plan params := by
  obtain ⟨xs, hreads, htask⟩ := Outcome.bind_eq_ok.mp h
  rw [outcome_of_reads hreads, compute, htask, Outcome.ok_bind]

theorem exists_task_of_outcome {x : Value α} (h : n.outcome plan params tokens look = .ok x) :
    ∃ task, Task.ofNode tokens look n = .ok task := by
  obtain ⟨xs, hreads, h⟩ := Outcome.bind_eq_ok.mp h
  obtain ⟨task, htask, -⟩ := Outcome.bind_eq_ok.mp h
  exact ⟨task, by rw [Task.ofNode, hreads, Outcome.ok_bind, htask]⟩

/-- A copy that reads one value hands it on. -/
theorem outcome_copy {destinations : List PartitionId} (hop : n.op = .copy destinations)
    {v : ValueRef} (hinputs : n.inputs = [v]) {x : Value α} :
    n.outcome plan params tokens look = .ok x ↔ look v.node = some x := by
  have hreads : ∀ xs, Task.readInputs look n = .ok xs ↔ ∃ y, look v.node = some y ∧ xs = [y] := by
    intro xs
    rw [Task.readInputs_eq_ok, hinputs, List.forall₂_cons_left_iff]
    simp only [List.forall₂_nil_left_iff]
    constructor
    · rintro ⟨y, rest, hy, rfl, rfl⟩
      exact ⟨y, hy, rfl⟩
    · rintro ⟨y, hy, rfl⟩
      exact ⟨y, [], hy, rfl, rfl⟩
  have hcompute : ∀ y, n.compute plan params tokens [y] = .ok y := by
    intro y
    simp only [compute, Task.ofInputs, hop, Outcome.ok_bind, Task.result]
  rw [outcome, Outcome.bind_eq_ok]
  constructor
  · rintro ⟨xs, hxs, hx⟩
    obtain ⟨y, hy, rfl⟩ := (hreads xs).mp hxs
    rw [hcompute, Except.ok.injEq] at hx
    exact hx ▸ hy
  · intro hx
    exact ⟨[x], (hreads [x]).mpr ⟨x, hx, rfl⟩, hcompute x⟩

theorem compute_evaluate (hinput : n.op ≠ .input) (hcopy : n.op.isCopy = false)
    (xs : List (Value α)) :
    n.compute plan params tokens xs = n.op.evaluate xs plan params := by
  unfold compute Task.ofInputs
  split
  · next h => exact absurd h hinput
  · next h => rw [h] at hcopy; cases hcopy
  · rfl

end Node

/-- What a node computes depends on the nodes of lower depth only. -/
theorem Graph.Depths.outcome_congr {g : Graph} {depth : NodeId → Nat} (hdepths : g.Depths depth)
    (hn : n ∈ g.nodes) (heq : ∀ m ∈ g.nodes, depth m.id < depth n.id → look m.id = look' m.id) :
    n.outcome plan params tokens look = n.outcome plan params tokens look' := by
  refine Node.outcome_congr fun v hv => ?_
  obtain ⟨m, hm, hid⟩ := hdepths.has n hn v hv
  have hlt := hdepths.lt n hn v hv
  rw [← hid] at hlt ⊢
  exact heq m hm hlt

/-- `look` gives each node the value that it computes from the values of its inputs. -/
def Graph.Explains (g : Graph) (params : Parameters α) (tokens : TokenBatch)
    (look : NodeId → Option (Value α)) : Prop :=
  ∀ n ∈ g.nodes, ∃ x, look n.id = some x ∧ n.outcome g.plan params tokens look = .ok x

end Nodes

/-! ## Settling a wave -/

section Settle

variable {results : List (NodeId × Outcome (Value α))}

theorem settle_fault {id : NodeId} (h : (id, .error .fault) ∈ results) :
    settle results = .error (.execution .taskFault) := by
  unfold settle
  exact if_pos (List.any_eq_true.mpr ⟨_, h, rfl⟩)

theorem settle_of_no_fault (h : ∀ id, (id, Except.error Failure.fault) ∉ results) :
    settle results =
      (results.mergeSort (·.1 ≤ ·.1)).mapM fun (id, result) => result.map (id, ·) := by
  unfold settle
  refine if_neg fun hany => ?_
  obtain ⟨⟨id, result⟩, hin, hfault⟩ := List.any_eq_true.mp hany
  split at hfault
  · next heq =>
      cases heq
      exact h _ hin
  · cases hfault

theorem mergeSort_of_ordered (h : results.Pairwise (fun a b => a.1 < b.1)) :
    results.mergeSort (fun a b => decide (a.1 ≤ b.1)) = results :=
  List.mergeSort_of_pairwise (h.imp fun hlt => decide_eq_true (Nat.le_of_lt hlt))

theorem sorted_mergeSort (results : List (NodeId × Outcome (Value α))) :
    (results.mergeSort (fun a b => decide (a.1 ≤ b.1))).Pairwise (fun a b => a.1 ≤ b.1) := by
  refine (List.pairwise_mergeSort ?_ ?_ results).imp of_decide_eq_true
  · intro a b c hab hbc
    simp only [decide_eq_true_eq] at hab hbc ⊢
    exact Nat.le_trans hab hbc
  · intro a b
    simpa using Nat.le_total a.1 b.1

/-- Results in the order of ids give values exactly if all are values. -/
theorem settle_eq_ok (hordered : results.Pairwise (fun a b => a.1 < b.1)) {new : Values α} :
    settle results = .ok new ↔
      List.Forall₂ (fun r e => e.1 = r.1 ∧ r.2 = .ok e.2) results new := by
  have hstep : ∀ (r : NodeId × Outcome (Value α)) (e : NodeId × Value α),
      r.2.map (r.1, ·) = .ok e ↔ e.1 = r.1 ∧ r.2 = .ok e.2 := by
    rintro ⟨id, result⟩ ⟨id', x⟩
    cases result with
    | error e => simp [Except.map]
    | ok y => simp [Except.map, eq_comm]
  constructor
  · intro h
    by_cases hfault : ∃ id, (id, Except.error Failure.fault) ∈ results
    · obtain ⟨id, hid⟩ := hfault
      rw [settle_fault hid] at h
      cases h
    · push Not at hfault
      rw [settle_of_no_fault hfault, mergeSort_of_ordered hordered] at h
      exact (Outcome.mapM_eq_ok.mp h).imp fun r e => (hstep r e).mp
  · intro h
    have hfault : ∀ id, (id, Except.error Failure.fault) ∉ results := by
      intro id hin
      obtain ⟨e, -, -, he⟩ := Outcome.exists_of_forall₂ h hin
      cases he
    rw [settle_of_no_fault hfault, mergeSort_of_ordered hordered]
    exact Outcome.mapM_eq_ok.mpr (h.imp fun r e => (hstep r e).mpr)

theorem settle_of_values {values : Values α} (h : values.Pairwise (fun a b => a.1 < b.1)) :
    settle (values.map fun e => (e.1, .ok e.2)) = .ok values := by
  rw [settle_eq_ok (List.pairwise_map.mpr h), List.forall₂_map_left_iff]
  exact List.forall₂_same.mpr fun e _ => ⟨rfl, rfl⟩

/-- Without a fault, the failure of the lowest id decides. -/
theorem settle_eq_error (hordered : results.Pairwise (fun a b => a.1 < b.1))
    (hfault : ∀ id, (id, Except.error Failure.fault) ∉ results) {id : NodeId} {e : Failure}
    (hin : (id, .error e) ∈ results)
    (hfirst : ∀ id' e', (id', Except.error e') ∈ results → id ≤ id') :
    settle results = .error e := by
  rw [settle_of_no_fault hfault, mergeSort_of_ordered hordered, Outcome.mapM_eq_error]
  obtain ⟨before, after, rfl⟩ := List.append_of_mem hin
  refine ⟨before, _, after, rfl, ?_, rfl⟩
  rintro ⟨id', result⟩ hbefore
  have hlt := (List.pairwise_append.mp hordered).2.2 _ hbefore _ List.mem_cons_self
  cases result with
  | ok x => exact ⟨(id', x), rfl⟩
  | error e' =>
      have := hfirst id' e' (List.mem_append_left _ hbefore)
      exact absurd hlt (Nat.not_lt.mpr this)

/-- The order in which results come in does not matter. -/
theorem settle_perm {results' : List (NodeId × Outcome (Value α))}
    (hperm : results'.Perm results) (hordered : results.Pairwise (fun a b => a.1 < b.1)) :
    settle results' = settle results := by
  have hsort : results'.mergeSort (fun a b => decide (a.1 ≤ b.1)) =
      results.mergeSort (fun a b => decide (a.1 ≤ b.1)) := by
    refine List.Perm.eq_of_pairwise ?_ (sorted_mergeSort _) (sorted_mergeSort _)
      ((List.mergeSort_perm _ _).trans (hperm.trans (List.mergeSort_perm _ _).symm))
    intro a b ha hb hab hba
    have ha' : a ∈ results := hperm.mem_iff.mp (List.mem_mergeSort.mp ha)
    exact eq_of_key_eq hordered ha' (List.mem_mergeSort.mp hb) (Nat.le_antisymm hab hba)
  by_cases h : ∃ id, (id, Except.error Failure.fault) ∈ results
  · obtain ⟨id, hid⟩ := h
    rw [settle_fault hid, settle_fault (hperm.mem_iff.mpr hid)]
  · push Not at h
    rw [settle_of_no_fault h, settle_of_no_fault fun id hid => h id (hperm.mem_iff.mp hid), hsort]

end Settle

/-! ## One wave -/

section Run

variable [Zero α] [Add α] [Mul α] [Ord α]
variable {p : Prepared α} {executor : Executor} {tokens : TokenBatch} {depth : NodeId → Nat}

namespace Prepared

/-- A wave whose tasks can be made is settled from what its nodes compute. -/
theorem runWave_of_tasks (hrun : executor.starved = false) {values : Values α} {ns : List Node}
    (hns : ∀ n ∈ ns, n ∈ p.graph.nodes)
    (htasks : ∀ n ∈ ns, ∃ task, Task.ofNode tokens (values.lookup ·) n = .ok task) :
    p.runWave executor tokens values (ns.map (·.id)) = (do
      let new ← settle (ns.map fun n =>
        (n.id, n.outcome p.graph.plan p.params tokens (values.lookup ·)))
      .ok (values ++ new)) := by
  obtain ⟨task, htask⟩ : ∃ task : Node → Task α,
      ∀ n ∈ ns, Task.ofNode tokens (values.lookup ·) n = .ok (task n) := by
    refine ⟨fun n => (Task.ofNode tokens (values.lookup ·) n).toOption.getD (.compute .input []),
      fun n hn => ?_⟩
    obtain ⟨t, ht⟩ := htasks n hn
    simp only [ht, Except.toOption, Option.getD_some]
  have htasks : ((ns.map (·.id)).mapM fun id => do
      let n ← p.graph.node id
      let task ← Task.ofNode tokens (values.lookup ·) n
      Except.ok (id, task)) = .ok (ns.map fun n => (n.id, task n)) := by
    rw [List.mapM_map]
    refine Outcome.mapM_eq_ok_map fun n hn => ?_
    rw [Function.comp_apply, p.graph.node_of_mem (hns n hn), Outcome.ok_bind, htask n hn]
    rfl
  rw [runWave, htasks, Outcome.ok_bind, ensure_of (by simp [hrun]), Outcome.ok_bind, List.map_map]
  refine congrArg (settle · >>= _) (List.map_congr_left fun n hn => ?_)
  rw [Function.comp_apply, Node.outcome_of_task (htask n hn)]

theorem runWave_eq_ok (hrun : executor.starved = false) {values values' : Values α}
    {ns : List Node} (hns : ∀ n ∈ ns, n ∈ p.graph.nodes)
    (hordered : ns.Pairwise (fun a b => a.id < b.id)) :
    p.runWave executor tokens values (ns.map (·.id)) = .ok values' ↔
      ∃ new, List.Forall₂ (fun n e => e.1 = n.id ∧
        n.outcome p.graph.plan p.params tokens (values.lookup ·) = .ok e.2) ns new ∧
        values' = values ++ new := by
  have hsettled : ∀ new, settle (ns.map fun n =>
        (n.id, n.outcome p.graph.plan p.params tokens (values.lookup ·))) = .ok new ↔
      List.Forall₂ (fun n e => e.1 = n.id ∧
        n.outcome p.graph.plan p.params tokens (values.lookup ·) = .ok e.2) ns new := by
    intro new
    rw [settle_eq_ok (List.pairwise_map.mpr hordered), List.forall₂_map_left_iff]
  constructor
  · intro h
    have htasks : ∀ n ∈ ns, ∃ task, Task.ofNode tokens (values.lookup ·) n = .ok task := by
      obtain ⟨tasks, htasks, -⟩ := Outcome.bind_eq_ok.mp h
      rw [List.mapM_map] at htasks
      intro n hn
      obtain ⟨e, -, he⟩ := Outcome.exists_of_forall₂ (Outcome.mapM_eq_ok.mp htasks) hn
      rw [Function.comp_apply, p.graph.node_of_mem (hns n hn), Outcome.ok_bind] at he
      obtain ⟨task, htask, -⟩ := Outcome.bind_eq_ok.mp he
      exact ⟨task, htask⟩
    rw [runWave_of_tasks hrun hns htasks] at h
    obtain ⟨new, hnew, h⟩ := Outcome.bind_eq_ok.mp h
    rw [Except.ok.injEq] at h
    exact ⟨new, (hsettled new).mp hnew, h.symm⟩
  · rintro ⟨new, hnew, rfl⟩
    have htasks : ∀ n ∈ ns, ∃ task, Task.ofNode tokens (values.lookup ·) n = .ok task := by
      intro n hn
      obtain ⟨e, -, -, he⟩ := Outcome.exists_of_forall₂ hnew hn
      exact Node.exists_task_of_outcome he
    rw [runWave_of_tasks hrun hns htasks, (hsettled new).mpr hnew]
    rfl

/-! ## The waves up to a depth -/

/-- The waves of a prepared graph are the layers of its graph. -/
structure Layered (p : Prepared α) (depth : NodeId → Nat) (count : Nat) : Prop where
  depths : p.graph.Depths depth
  waves : p.waves = (List.range count).map fun i => (p.graph.layer depth i).map (·.id)
  lt : ∀ n ∈ p.graph.nodes, depth n.id < count

omit [Zero α] [Add α] [Mul α] [Ord α] in
theorem layered_of_depths (hwaves : p.graph.waves = .ok p.waves)
    (hdepths : p.graph.Depths depth) : ∃ count, p.Layered depth count := by
  obtain ⟨count, hcount, hlt⟩ := hdepths.waves_eq
  refine ⟨count, hdepths, ?_, hlt⟩
  rw [hwaves, Except.ok.injEq] at hcount
  exact hcount

/-- The first `i` waves. -/
def runBelow (p : Prepared α) (executor : Executor) (tokens : TokenBatch)
    (depth : NodeId → Nat) (i : Nat) : Outcome (Values α) :=
  ((List.range i).map fun i => (p.graph.layer depth i).map (·.id)).foldlM
    (p.runWave executor tokens) []

theorem runBelow_succ (i : Nat) :
    p.runBelow executor tokens depth (i + 1) = (do
      let values ← p.runBelow executor tokens depth i
      p.runWave executor tokens values ((p.graph.layer depth i).map (·.id))) := by
  rw [runBelow, List.range_succ, List.map_append, List.foldlM_append]
  simp only [List.map_cons, List.map_nil, List.foldlM_cons, List.foldlM_nil, bind_pure]
  rfl

/-- The nodes below depth `i` have the values that they compute, and no other node has one. -/
structure Reached (p : Prepared α) (tokens : TokenBatch) (depth : NodeId → Nat) (i : Nat)
    (values : Values α) : Prop where
  explained : ∀ n ∈ p.graph.nodes, depth n.id < i → ∃ x, values.lookup n.id = some x ∧
    n.outcome p.graph.plan p.params tokens (values.lookup ·) = .ok x
  below : ∀ e ∈ values, ∃ n ∈ p.graph.nodes, n.id = e.1 ∧ depth n.id < i

theorem Reached.lookup_eq_none {i : Nat} {values : Values α}
    (h : p.Reached tokens depth i values) {id : NodeId}
    (hid : ∀ n ∈ p.graph.nodes, n.id = id → i ≤ depth id) : values.lookup id = none := by
  rw [List.lookup_eq_none_iff]
  intro e he
  obtain ⟨n, hn, heq, hlt⟩ := h.below e he
  rw [bne_iff_ne]
  rintro rfl
  have := hid n hn heq
  rw [heq] at hlt
  omega

omit [Zero α] [Add α] [Mul α] [Ord α] in
theorem lookup_of_forall₂ {R : Node → Value α → Prop} {ns : List Node} {new : Values α}
    (h : List.Forall₂ (fun n e => e.1 = n.id ∧ R n e.2) ns new)
    (hordered : ns.Pairwise (fun a b => a.id < b.id)) {n : Node} (hn : n ∈ ns) :
    ∃ x, new.lookup n.id = some x ∧ R n x := by
  induction h with
  | nil => cases hn
  | cons hhead _ ih =>
      obtain ⟨hfirst, hrest⟩ := List.pairwise_cons.mp hordered
      rcases List.mem_cons.mp hn with rfl | hn'
      · refine ⟨_, ?_, hhead.2⟩
        rw [List.lookup_cons, hhead.1, beq_self_eq_true]
      · obtain ⟨x, hx, hr⟩ := ih hrest hn'
        refine ⟨x, ?_, hr⟩
        rw [List.lookup_cons, hhead.1, beq_eq_false_iff_ne.mpr (Nat.ne_of_gt (hfirst n hn'))]
        exact hx

/-- What one wave adds. -/
theorem Reached.step (hdepths : p.graph.Depths depth) {i : Nat} {values new : Values α}
    (h : p.Reached tokens depth i values)
    (hnew : List.Forall₂ (fun n e => e.1 = n.id ∧
      n.outcome p.graph.plan p.params tokens (values.lookup ·) = .ok e.2)
      (p.graph.layer depth i) new) :
    p.Reached tokens depth (i + 1) (values ++ new) := by
  have hkeep : ∀ n ∈ p.graph.nodes, depth n.id < i →
      (values ++ new).lookup n.id = values.lookup n.id := by
    intro n hn hlt
    obtain ⟨x, hx, -⟩ := h.explained n hn hlt
    rw [List.lookup_append, hx, Option.some_or]
  -- Nodes up to depth `i` read below it, where the new values change nothing.
  have houtcome : ∀ n ∈ p.graph.nodes, depth n.id < i + 1 →
      n.outcome p.graph.plan p.params tokens ((values ++ new).lookup ·) =
        n.outcome p.graph.plan p.params tokens (values.lookup ·) := by
    intro n hn hlt
    exact hdepths.outcome_congr hn fun m hm hlower => hkeep m hm (by omega)
  constructor
  · intro n hn hlt
    by_cases hi : depth n.id = i
    · obtain ⟨x, hx, hout⟩ := lookup_of_forall₂ (R := fun n x =>
          n.outcome p.graph.plan p.params tokens (values.lookup ·) = .ok x) hnew
        (p.graph.ordered_layer depth i) (Graph.mem_layer.mpr ⟨hn, hi⟩)
      refine ⟨x, ?_, (houtcome n hn hlt).trans hout⟩
      have hnone : values.lookup n.id = none :=
        h.lookup_eq_none fun m _ _ => Nat.le_of_eq hi.symm
      rw [List.lookup_append, hnone, Option.none_or, hx]
    · have hlt' : depth n.id < i := by omega
      obtain ⟨x, hx, hout⟩ := h.explained n hn hlt'
      exact ⟨x, (hkeep n hn hlt').trans hx, (houtcome n hn hlt).trans hout⟩
  · intro e he
    rcases List.mem_append.mp he with he | he
    · obtain ⟨n, hn, hid, hlt⟩ := h.below e he
      exact ⟨n, hn, hid, Nat.lt_succ_of_lt hlt⟩
    · obtain ⟨n, hn, hid, -⟩ := Outcome.exists_of_forall₂ hnew.flip he
      obtain ⟨hn, hi⟩ := Graph.mem_layer.mp hn
      exact ⟨n, hn, hid.symm, hi ▸ Nat.lt_succ_self i⟩

theorem reached_of_runBelow (hrun : executor.starved = false) (hdepths : p.graph.Depths depth)
    {i : Nat} {values : Values α} (h : p.runBelow executor tokens depth i = .ok values) :
    p.Reached tokens depth i values := by
  induction i generalizing values with
  | zero =>
      cases h
      exact ⟨fun n _ hlt => absurd hlt (Nat.not_lt_zero _), by simp⟩
  | succ i ih =>
      rw [runBelow_succ] at h
      obtain ⟨before, hbefore, hwave⟩ := Outcome.bind_eq_ok.mp h
      have hlayer : ∀ n ∈ p.graph.layer depth i, n ∈ p.graph.nodes :=
        fun n hn => (Graph.mem_layer.mp hn).1
      obtain ⟨new, hnew, rfl⟩ :=
        (runWave_eq_ok hrun hlayer (p.graph.ordered_layer depth i)).mp hwave
      exact (ih hbefore).step hdepths hnew

/-- Two explanations of the nodes below a depth agree on them. -/
theorem Reached.lookup_eq (hdepths : p.graph.Depths depth) {look : NodeId → Option (Value α)}
    {i : Nat} {values : Values α} (h : p.Reached tokens depth i values)
    (hlook : ∀ n ∈ p.graph.nodes, depth n.id < i → ∃ x, look n.id = some x ∧
      n.outcome p.graph.plan p.params tokens look = .ok x) {n : Node} (hn : n ∈ p.graph.nodes)
    (hlt : depth n.id < i) : values.lookup n.id = look n.id := by
  generalize hd : depth n.id = d
  induction d using Nat.strongRecOn generalizing n with
  | ind d ih =>
      obtain ⟨x, hx, hout⟩ := h.explained n hn hlt
      obtain ⟨y, hy, hout'⟩ := hlook n hn hlt
      have heq : n.outcome p.graph.plan p.params tokens (values.lookup ·) =
          n.outcome p.graph.plan p.params tokens look :=
        hdepths.outcome_congr hn fun m hm hlower =>
          ih (depth m.id) (hd ▸ hlower) hm (Nat.lt_trans hlower hlt) rfl
      rw [hout, hout', Except.ok.injEq] at heq
      rw [hx, hy, heq]

/-- Where the nodes below a depth have an explanation, the waves up to it succeed. -/
theorem runBelow_of_explained (hrun : executor.starved = false)
    (hdepths : p.graph.Depths depth) {look : NodeId → Option (Value α)} {i : Nat}
    (hlook : ∀ n ∈ p.graph.nodes, depth n.id < i → ∃ x, look n.id = some x ∧
      n.outcome p.graph.plan p.params tokens look = .ok x) :
    ∃ values, p.runBelow executor tokens depth i = .ok values := by
  induction i with
  | zero => exact ⟨[], rfl⟩
  | succ i ih =>
      have hlook' := fun n hn hlt => hlook n hn (Nat.lt_succ_of_lt hlt)
      obtain ⟨values, hvalues⟩ := ih hlook'
      have hreached := reached_of_runBelow hrun hdepths hvalues
      have houtcome : ∀ n ∈ p.graph.layer depth i, ∃ e : NodeId × Value α,
          (n.outcome p.graph.plan p.params tokens (values.lookup ·)).map (n.id, ·) = .ok e := by
        intro n hn
        obtain ⟨hn, hi⟩ := Graph.mem_layer.mp hn
        obtain ⟨x, -, hout⟩ := hlook n hn (by omega)
        have heq : n.outcome p.graph.plan p.params tokens (values.lookup ·) =
            n.outcome p.graph.plan p.params tokens look :=
          hdepths.outcome_congr hn fun m hm hlt =>
            hreached.lookup_eq hdepths hlook' hm (hi ▸ hlt)
        exact ⟨(n.id, x), by rw [heq, hout]; rfl⟩
      obtain ⟨new, hnew⟩ := Outcome.mapM_of_forall houtcome
      refine ⟨values ++ new, ?_⟩
      rw [runBelow_succ, hvalues, Outcome.ok_bind,
        runWave_eq_ok hrun (fun n hn => (Graph.mem_layer.mp hn).1)
          (p.graph.ordered_layer depth i)]
      refine ⟨new, (Outcome.mapM_eq_ok.mp hnew).imp fun n e he => ?_, rfl⟩
      cases hout : n.outcome p.graph.plan p.params tokens (values.lookup ·) with
      | error e' =>
          rw [hout] at he
          cases he
      | ok x =>
          rw [hout] at he
          cases he
          exact ⟨rfl, rfl⟩

/-! ## Whole runs -/

theorem runWaves_eq {count : Nat} (h : p.Layered depth count) :
    p.runWaves executor tokens = p.runBelow executor tokens depth count := by
  rw [runWaves, runBelow, h.waves]

/-- A run that succeeds leaves behind an explanation of the graph and nothing else. -/
theorem explains_of_runWaves (hrun : executor.starved = false)
    (hwaves : p.graph.waves = .ok p.waves) {values : Values α}
    (h : p.runWaves executor tokens = .ok values) :
    p.graph.Explains p.params tokens (values.lookup ·) ∧
      ∀ id, ¬ p.graph.Has id → values.lookup id = none := by
  obtain ⟨depth, hdepths⟩ := Graph.exists_depths hwaves
  obtain ⟨count, hlayered⟩ := layered_of_depths hwaves hdepths
  rw [runWaves_eq hlayered] at h
  have hreached := reached_of_runBelow hrun hdepths h
  refine ⟨fun n hn => hreached.explained n hn (hlayered.lt n hn), fun id hid => ?_⟩
  exact hreached.lookup_eq_none fun n hn heq => absurd ⟨n, hn, heq⟩ hid

/-- A run of a graph that has an explanation succeeds and finds it. -/
theorem runWaves_of_explains (hrun : executor.starved = false)
    (hwaves : p.graph.waves = .ok p.waves) {look : NodeId → Option (Value α)}
    (hlook : p.graph.Explains p.params tokens look) :
    ∃ values, p.runWaves executor tokens = .ok values ∧
      ∀ id, p.graph.Has id → values.lookup id = look id := by
  obtain ⟨depth, hdepths⟩ := Graph.exists_depths hwaves
  obtain ⟨count, hlayered⟩ := layered_of_depths hwaves hdepths
  have hlook' := fun n hn (_ : depth n.id < count) => hlook n hn
  obtain ⟨values, hvalues⟩ := runBelow_of_explained hrun hdepths hlook'
  refine ⟨values, (runWaves_eq hlayered).trans hvalues, ?_⟩
  rintro id ⟨n, hn, rfl⟩
  exact (reached_of_runBelow hrun hdepths hvalues).lookup_eq hdepths hlook' hn (hlayered.lt n hn)

theorem runBelow_error {i : Nat} {e : Failure}
    (h : p.runBelow executor tokens depth i = .error e) {j : Nat} (hij : i ≤ j) :
    p.runBelow executor tokens depth j = .error e := by
  induction hij with
  | refl => exact h
  | step _ ih => rw [runBelow_succ, ih, Outcome.error_bind]

/-- A run fails in the first wave that does not settle. -/
theorem runWaves_eq_error (hrun : executor.starved = false) {count : Nat}
    (hlayered : p.Layered depth count) {look : NodeId → Option (Value α)} {i : Nat}
    (hi : i < count)
    (hlook : ∀ n ∈ p.graph.nodes, depth n.id < i → ∃ x, look n.id = some x ∧
      n.outcome p.graph.plan p.params tokens look = .ok x)
    (htasks : ∀ n ∈ p.graph.layer depth i, ∃ task, Task.ofNode tokens look n = .ok task)
    {e : Failure} (hsettle : settle ((p.graph.layer depth i).map fun n =>
      (n.id, n.outcome p.graph.plan p.params tokens look)) = .error e) :
    p.runWaves executor tokens = .error e := by
  have hdepths := hlayered.depths
  obtain ⟨values, hvalues⟩ := runBelow_of_explained hrun hdepths hlook
  have hreached := reached_of_runBelow hrun hdepths hvalues
  have hreads : ∀ n ∈ p.graph.layer depth i, ∀ v ∈ n.inputs,
      values.lookup v.node = look v.node := by
    intro n hn v hv
    obtain ⟨hn, hdepth⟩ := Graph.mem_layer.mp hn
    obtain ⟨m, hm, hid⟩ := hdepths.has n hn v hv
    have hlt := hdepths.lt n hn v hv
    rw [hdepth, ← hid] at hlt
    exact hid ▸ hreached.lookup_eq hdepths hlook hm hlt
  have houtcomes : (p.graph.layer depth i).map (fun n =>
        (n.id, n.outcome p.graph.plan p.params tokens (values.lookup ·))) =
      (p.graph.layer depth i).map fun n =>
        (n.id, n.outcome p.graph.plan p.params tokens look) :=
    List.map_congr_left fun n hn => by rw [Node.outcome_congr (hreads n hn)]
  have hfails : p.runBelow executor tokens depth (i + 1) = .error e := by
    rw [runBelow_succ, hvalues, Outcome.ok_bind,
      runWave_of_tasks hrun (fun n hn => (Graph.mem_layer.mp hn).1), houtcomes, hsettle]
    · rfl
    · intro n hn
      rw [Task.ofNode, Task.readInputs_congr (hreads n hn)]
      exact htasks n hn
  rw [runWaves_eq hlayered]
  exact runBelow_error hfails hi

/-- A run gives a prediction exactly if the graph has an explanation in which its output, a
node of the graph, has that prediction. -/
theorem run_eq_ok (hrun : executor.starved = false) (hwaves : p.graph.waves = .ok p.waves)
    {r : Prediction α} :
    p.run executor tokens = .ok r ↔ ∃ look, p.graph.Explains p.params tokens look ∧
      ∃ v x, p.graph.output? = some v ∧ p.graph.Has v.node ∧ look v.node = some x ∧
        x.asPrediction = .ok r := by
  constructor
  · intro h
    obtain ⟨values, hvalues, h⟩ := Outcome.bind_eq_ok.mp h
    obtain ⟨v, hv, h⟩ := Outcome.bind_eq_ok.mp h
    obtain ⟨hlook, hnone⟩ := explains_of_runWaves hrun hwaves hvalues
    split at h
    · next x hx =>
        refine ⟨_, hlook, v, x, Graph.output_eq_ok.mp hv, ?_, hx, h⟩
        by_contra hid
        rw [hnone v.node hid] at hx
        cases hx
    · cases h
  · rintro ⟨look, hlook, v, x, hv, hid, hx, hr⟩
    obtain ⟨values, hvalues, hlookup⟩ := runWaves_of_explains hrun hwaves hlook
    rw [run, hvalues, Outcome.ok_bind, Graph.output_eq_ok.mpr hv, Outcome.ok_bind,
      hlookup v.node hid, hx]
    exact hr

end Prepared

end Run

end ShardedModel
