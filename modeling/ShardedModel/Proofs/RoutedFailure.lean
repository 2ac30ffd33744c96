import ShardedModel.Proofs.CopyPasses

/-!
# How a routed graph fails

A graph with values routed through copies runs in other waves than the graph without
them, but copies do not fail. So a run fails at the nodes of the graph without copies,
in the first wave that has a failing one. If that node faulted, the run reports a fault
of a task; if not, and no other node of the wave faulted or failed with a lower id, the
run reports its failure.
-/

namespace ShardedModel

variable {α : Type}

/-- What a run reports of a failing task: a fault is a failure to execute, and all else is
reported as it is. -/
def Failure.reported : Failure → Failure
  | .fault => .execution .taskFault
  | e => e

theorem Failure.reported_of_ne {e : Failure} (h : e ≠ .fault) : e.reported = e := by
  unfold reported
  split
  · next => exact absurd rfl h
  · rfl

namespace Graph.Routes

variable {d g : Graph}

theorem has_of_via {n : Node} (hop : n.op.isCopy = false) {v w : ValueRef}
    (hvia : Via d g n v w) : d.Has v.node := by
  cases hvia with
  | copy hcopy =>
      rw [hop] at hcopy
      cases hcopy
  | near _ _ hvalue => exact has_of_valuePartition hvalue
  | far _ _ hvalue => exact has_of_valuePartition hvalue

variable [Zero α] [Add α] [Mul α] [Ord α]
variable {params : Parameters α} {tokens : TokenBatch} {look : NodeId → Option (Value α)}

/-- `look'` is `look` with new copies given the values of their sources. -/
structure Extends (d g : Graph) (look look' : NodeId → Option (Value α)) : Prop where
  old : ∀ id, d.Has id → look' id = look id
  fresh : ∀ m ∈ g.nodes, ∀ v, FreshCopy d g m v → look' m.id = look v.node

omit [Zero α] [Add α] [Mul α] [Ord α] in
theorem Extends.of_via {look' : NodeId → Option (Value α)} (hlook : Extends d g look look')
    (h : Routes d g) {n : Node} (hop : n.op.isCopy = false) {v w : ValueRef}
    (hvia : Via d g n v w) : look' w.node = look v.node := by
  have hcopies : ∀ m ∈ g.nodes, ∀ v, FreshCopy d g m v → look' m.id = look' v.node := by
    intro m hm v hv
    obtain ⟨p, hp, -⟩ := hv.near
    rw [hlook.fresh m hm v hv, hlook.old v.node (has_of_valuePartition hp)]
  rw [h.eq_of_via hcopies hvia, hlook.old v.node (has_of_via hop hvia)]

/-- A node whose inputs have values computes the same where they are routed. -/
theorem outcome_image {look' : NodeId → Option (Value α)} (hlook : Extends d g look look')
    (h : Routes d g) {n n' : Node} (hcopy : n.op.isCopy = false) (hid : n'.id = n.id)
    (hop : n'.op = n.op) (hinputs : List.Forall₂ (Via d g n) n.inputs n'.inputs)
    (hvalues : ∀ v ∈ n.inputs, ∃ x, look v.node = some x) :
    n'.outcome g.plan params tokens look' = n.outcome d.plan params tokens look ∧
      ∃ task, Task.ofNode tokens look' n' = .ok task := by
  obtain ⟨xs, hreads⟩ := Task.readInputs_of_forall hvalues
  have hreads' : Task.readInputs look' n' = .ok xs :=
    (Task.readInputs_transfer (hinputs.imp fun v w => hlook.of_via h hcopy)).mp hreads
  rw [Node.outcome_of_reads hreads, Node.outcome_of_reads hreads', h.plan]
  exact ⟨Node.compute_congr (.inl hop) hid xs, Task.ofNode_of_reads (hop ▸ hcopy) hreads'⟩

section Wave

-- Nodes below depth `i` have values, so everything up to depth `i` can be computed.
variable {look' : NodeId → Option (Value α)} {depth : NodeId → Nat} {i : Nat}
variable (h : Routes d g) (hd : ∀ n ∈ d.nodes, n.op.isCopy = false) (hdepths : g.Depths depth)
variable (hlook : Extends d g look look')
variable (hbelow : ∀ n ∈ d.nodes, depth n.id < i →
  ∃ x, look n.id = some x ∧ n.outcome d.plan params tokens look = .ok x)

include h hd hdepths hlook hbelow

theorem image_upTo {n' : Node} (hn' : n' ∈ g.nodes) (hle : depth n'.id ≤ i)
    (hid : d.Has n'.id) :
    ∃ n ∈ d.nodes, n'.id = n.id ∧
      n'.outcome g.plan params tokens look' = n.outcome d.plan params tokens look ∧
      ∃ task, Task.ofNode tokens look' n' = .ok task := by
  obtain ⟨n, hn, hid, hop, -, hinputs⟩ := h.image hn' hid
  refine ⟨n, hn, hid, outcome_image hlook h (hd n hn) hid hop hinputs fun v hv => ?_⟩
  obtain ⟨w, -, hvia⟩ := Outcome.exists_of_forall₂ hinputs hv
  obtain ⟨m, hm, hmid⟩ := has_of_via (hd n hn) hvia
  have hlt := h.depth_lt hdepths hn hv
  rw [← hmid, ← hid] at hlt
  obtain ⟨x, hx, -⟩ := hbelow m hm (by omega)
  exact ⟨x, hmid ▸ hx⟩

omit h hd in
theorem copy_upTo {m : Node} (hm : m ∈ g.nodes) (hle : depth m.id ≤ i) {v : ValueRef}
    (hv : FreshCopy d g m v) :
    ∃ x, look' m.id = some x ∧ m.outcome g.plan params tokens look' = .ok x := by
  obtain ⟨p, hp, -⟩ := hv.near
  obtain ⟨n, hn, hid⟩ := has_of_valuePartition hp
  have hdepth := hdepths.of_single hm hv.inputs
  rw [← hid] at hdepth
  obtain ⟨x, hx, -⟩ := hbelow n hn (by omega)
  rw [hid] at hx
  refine ⟨x, by rw [hlook.fresh m hm v hv, hx], (outcome_fresh hv).mpr ?_⟩
  rw [hlook.old v.node (has_of_valuePartition hp), hx]

theorem explained_below : ∀ n' ∈ g.nodes, depth n'.id < i →
    ∃ x, look' n'.id = some x ∧ n'.outcome g.plan params tokens look' = .ok x := by
  intro n' hn' hlt
  rcases h.fresh n' hn' with hid | ⟨v, hv⟩
  · obtain ⟨n, hn, hnid, hout, -⟩ := h.image_upTo hd hdepths hlook hbelow hn' (Nat.le_of_lt hlt) hid
    obtain ⟨x, hx, hok⟩ := hbelow n hn (hnid ▸ hlt)
    exact ⟨x, by rw [hlook.old n'.id hid, hnid, hx], hout.trans hok⟩
  · exact copy_upTo hdepths hlook hbelow hn' (Nat.le_of_lt hlt) hv

theorem tasks_at {n' : Node} (hn' : n' ∈ g.layer depth i) :
    ∃ task, Task.ofNode tokens look' n' = .ok task := by
  obtain ⟨hn', hdepth⟩ := Graph.mem_layer.mp hn'
  rcases h.fresh n' hn' with hid | ⟨v, hv⟩
  · obtain ⟨-, -, -, -, htask⟩ := h.image_upTo hd hdepths hlook hbelow hn' (Nat.le_of_eq hdepth) hid
    exact htask
  · obtain ⟨x, -, hout⟩ := copy_upTo hdepths hlook hbelow hn' (Nat.le_of_eq hdepth) hv
    exact Node.exists_task_of_outcome hout

/-- What fails in wave `i` is a node of the graph without copies. -/
theorem failing_at {n' : Node} (hn' : n' ∈ g.layer depth i) {e : Failure}
    (he : n'.outcome g.plan params tokens look' = .error e) :
    ∃ n ∈ d.nodes, n.id = n'.id ∧ depth n.id = i ∧
      n.outcome d.plan params tokens look = .error e := by
  obtain ⟨hn', hdepth⟩ := Graph.mem_layer.mp hn'
  rcases h.fresh n' hn' with hid | ⟨v, hv⟩
  · obtain ⟨n, hn, hid, hout, -⟩ :=
      h.image_upTo hd hdepths hlook hbelow hn' (Nat.le_of_eq hdepth) hid
    exact ⟨n, hn, hid.symm, hid ▸ hdepth, hout ▸ he⟩
  · obtain ⟨x, -, hout⟩ := copy_upTo hdepths hlook hbelow hn' (Nat.le_of_eq hdepth) hv
    rw [hout] at he
    cases he

end Wave

/-- The first wave with a failing node decides how a run fails. -/
theorem run_fails (h : Routes d g) (hd : ∀ n ∈ d.nodes, n.op.isCopy = false)
    {executor : Executor} (hrun : executor.starved = false) {ws : List (List NodeId)}
    (hws : g.waves = .ok ws) {depth : NodeId → Nat} (hdepths : g.Depths depth) {failing : Node}
    (hfailing : failing ∈ d.nodes)
    (hbelow : ∀ n ∈ d.nodes, depth n.id < depth failing.id →
      ∃ x, look n.id = some x ∧ n.outcome d.plan params tokens look = .ok x)
    {e : Failure} (he : failing.outcome d.plan params tokens look = .error e)
    (hfirst : e = .fault ∨ ∀ n ∈ d.nodes, depth n.id = depth failing.id →
      ∀ e', n.outcome d.plan params tokens look = .error e' → e' ≠ .fault ∧ failing.id ≤ n.id) :
    Prepared.run ⟨g, params, ws⟩ executor tokens = .error e.reported := by
  obtain ⟨look', hold, hfresh⟩ := extend g d look look
  have hlook : Extends d g look look' := ⟨hold, hfresh⟩
  obtain ⟨count, hlayered⟩ := Prepared.layered_of_depths (p := ⟨g, params, ws⟩) hws hdepths
  obtain ⟨failing', hfailing', hid', -⟩ := h.kept failing hfailing
  have hdepth' : depth failing'.id = depth failing.id := by rw [hid']
  obtain ⟨n, hn, hid, hout, -⟩ := h.image_upTo hd hdepths hlook hbelow hfailing'
    (Nat.le_of_eq hdepth') ⟨failing, hfailing, hid'.symm⟩
  obtain rfl : n = failing := eq_of_key_eq d.ordered hn hfailing (hid.symm.trans hid')
  have hin : (n.id, .error e) ∈ (g.layer depth (depth n.id)).map fun n =>
      (n.id, n.outcome g.plan params tokens look') :=
    List.mem_map.mpr ⟨failing', Graph.mem_layer.mpr ⟨hfailing', hdepth'⟩, by rw [hout, he, hid']⟩
  -- A fault in the failing wave is reported before all else, and without one the lowest id is.
  have hsettle : settle ((g.layer depth (depth n.id)).map fun n =>
      (n.id, n.outcome g.plan params tokens look')) = .error e.reported := by
    by_cases hfault : e = .fault
    · subst hfault
      exact settle_fault hin
    · have hfirst := hfirst.resolve_left hfault
      have hfails : ∀ id e', (id, Except.error e') ∈ (g.layer depth (depth n.id)).map (fun n =>
          (n.id, n.outcome g.plan params tokens look')) → e' ≠ .fault ∧ n.id ≤ id := by
        intro id e' hin
        obtain ⟨m', hm', heq⟩ := List.mem_map.mp hin
        obtain ⟨rfl, hout'⟩ := Prod.mk.inj heq
        obtain ⟨m, hm, hmid, hmdepth, hmout⟩ := h.failing_at hd hdepths hlook hbelow hm' hout'
        exact hmid ▸ hfirst m hm hmdepth e' hmout
      rw [Failure.reported_of_ne hfault]
      exact settle_eq_error (List.pairwise_map.mpr (g.ordered_layer depth _))
        (fun id hid => (hfails id _ hid).1 rfl) hin (fun id e' hid => (hfails id e' hid).2)
  have hruns : Prepared.runWaves ⟨g, params, ws⟩ executor tokens = .error e.reported :=
    Prepared.runWaves_eq_error hrun hlayered (hdepth' ▸ hlayered.lt failing' hfailing')
      (h.explained_below hd hdepths hlook hbelow)
      (fun n' hn' => h.tasks_at hd hdepths hlook hbelow hn') hsettle
  rw [Prepared.run, hruns]
  rfl

end Graph.Routes

end ShardedModel
