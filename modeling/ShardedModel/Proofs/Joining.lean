import Mathlib.Data.List.Basic
import ShardedModel.Proofs.Copies

/-!
# What joining copies does to a graph

Joining copies takes nodes out. Whoever read a copy that went reads what stands in for
it, which is a copy of the same source and therefore at the same depth, so the depths of
the old graph still rank the new one.

A graph without copies of its own keeps being routed through copies when the inserted
ones are joined.
-/

namespace ShardedModel.Graph

variable {g : Graph}

/-! ## Groups -/

theorem copySource?_eq_some {n : Node} {v : ValueRef} :
    copySource? n = some v ↔ n.op.isCopy = true ∧ n.inputs.head? = some v := by
  unfold copySource?
  split
  · next h => simp [h]
  · next h => simp [h]

theorem op_of_copySource? {n : Node} {v : ValueRef} (h : copySource? n = some v) :
    ∃ destinations, n.op = .copy destinations := by
  obtain ⟨hcopy, -⟩ := copySource?_eq_some.mp h
  cases hop : n.op <;> rw [hop] at hcopy <;> cases hcopy
  exact ⟨_, rfl⟩

theorem group?_of_not_copy {n : Node} (h : n.op.isCopy = false) : g.group? n = none := by
  have hnone : copySource? n = none := if_neg (by simp [h])
  simp [group?, hnone]

/-- A group is that of all copies of its source, the first of which stays. -/
theorem group?_eq_some {n : Node} {group : CopyGroup} (h : g.group? n = some group) :
    ∃ source first rest, copySource? n = some source ∧ g.copiesOf source = first :: rest ∧
      group.keeper = first.id ∧
      group.destinations = (((first :: rest).flatMap (destinationsOf ·.op)).mergeSort
        (· ≤ ·)).eraseDups := by
  obtain ⟨source, hsource, h⟩ := Option.bind_eq_some_iff.mp h
  split at h
  · next first second rest hcopies =>
      cases h
      exact ⟨source, first, second :: rest, hsource, hcopies, rfl, rfl⟩
  · cases h

theorem group?_congr {n m : Node} (h : copySource? m = copySource? n) :
    g.group? m = g.group? n := by
  rw [group?, group?, h]

/-- Joining leaves an operation as it is or makes one copy into another. -/
theorem isCopy_joinedOp (g : Graph) (n : Node) :
    g.joinedOp n = n.op ∨ (g.joinedOp n).isCopy = true ∧ n.op.isCopy = true := by
  cases hgroup : g.group? n with
  | none => exact .inl (by rw [joinedOp, hgroup])
  | some group =>
      obtain ⟨source, -, -, hsource, -⟩ := group?_eq_some hgroup
      exact .inr ⟨by rw [joinedOp, hgroup]; rfl, (copySource?_eq_some.mp hsource).1⟩

/-- The copy of a group that stays. -/
theorem exists_keeper {n : Node} {group : CopyGroup} (h : g.group? n = some group) :
    ∃ m ∈ g.nodes, m.id = group.keeper ∧ copySource? m = copySource? n ∧
      g.group? m = some group := by
  obtain ⟨source, first, rest, hsource, hcopies, hkeeper, -⟩ := group?_eq_some h
  have hfirst : first ∈ g.copiesOf source := by
    rw [hcopies]
    exact List.mem_cons_self
  obtain ⟨hmem, hcopy⟩ := List.mem_filter.mp hfirst
  have hcopy' : copySource? first = copySource? n := (beq_iff_eq.mp hcopy).trans hsource.symm
  exact ⟨first, hmem, hkeeper.symm, hcopy', (group?_congr hcopy').trans h⟩

theorem mem_destinations {n : Node} {group : CopyGroup} (hn : n ∈ g.nodes)
    (h : g.group? n = some group) {p : PartitionId} (hp : p ∈ destinationsOf n.op) :
    p ∈ group.destinations := by
  obtain ⟨source, first, rest, hsource, hcopies, -, hdestinations⟩ := group?_eq_some h
  have hin : n ∈ first :: rest := by
    rw [← hcopies, copiesOf, List.mem_filter]
    exact ⟨hn, by simp [hsource]⟩
  rw [hdestinations, List.mem_eraseDups, List.mem_mergeSort, List.mem_flatMap]
  exact ⟨n, hin, hp⟩

/-- The node that has the value of a node after copies were joined. -/
def standIn (g : Graph) (id : NodeId) : NodeId :=
  match (g.node? id).bind g.group? with
  | some group => group.keeper
  | none => id

theorem standIn_of_group {n : Node} (hn : n ∈ g.nodes) {group : CopyGroup}
    (h : g.group? n = some group) : g.standIn n.id = group.keeper := by
  rw [standIn, g.node?_of_mem hn, Option.bind_some, h]

theorem standIn_of_no_group {n : Node} (hn : n ∈ g.nodes) (h : g.group? n = none) :
    g.standIn n.id = n.id := by
  rw [standIn, g.node?_of_mem hn, Option.bind_some, h]

/-- What stands in for a node stays, and is the node itself or a copy of the same source. -/
theorem exists_standIn {n : Node} (hn : n ∈ g.nodes) :
    ∃ m ∈ g.nodes, m.id = g.standIn n.id ∧ g.absorbed m = false ∧
      (m = n ∨ ∃ source, copySource? n = some source ∧ copySource? m = some source) := by
  cases hgroup : g.group? n with
  | none =>
      exact ⟨n, hn, (standIn_of_no_group hn hgroup).symm, by simp [absorbed, hgroup], .inl rfl⟩
  | some group =>
      obtain ⟨m, hm, hid, hsame, hgroup'⟩ := exists_keeper hgroup
      obtain ⟨source, -, -, hsource, -⟩ := group?_eq_some hgroup
      refine ⟨m, hm, hid.trans (standIn_of_group hn hgroup).symm, ?_,
        .inr ⟨source, hsource, hsame.trans hsource⟩⟩
      simp [absorbed, hgroup', hid]

/-- A value of a node that is in no group stays. -/
theorem redirect_of_no_group {v : ValueRef} {n : Node} (hn : n ∈ g.nodes) (hid : n.id = v.node)
    (hgroup : g.group? n = none) : g.redirect v = v := by
  have hnode : g.node? v.node = some n := hid ▸ g.node?_of_mem hn
  simp [redirect, hnode, hgroup]

/-- A slot of a copy is found at the keeper of its group, among the destinations of all. -/
theorem redirect_of_group {v : ValueRef} {n : Node} (hn : n ∈ g.nodes) (hid : n.id = v.node)
    {group : CopyGroup} (hgroup : g.group? n = some group) {p : PartitionId}
    (hslot : (destinationsOf n.op)[v.slot]? = some p) :
    g.redirect v = ⟨group.keeper, group.destinations.idxOf p⟩ ∧ p ∈ group.destinations := by
  have hnode : g.node? v.node = some n := hid ▸ g.node?_of_mem hn
  exact ⟨by simp [redirect, hnode, hgroup, hslot],
    mem_destinations hn hgroup (List.mem_of_getElem? hslot)⟩

/-- A value of a node in a group is at one of its destinations. -/
theorem destination_of_group {v : ValueRef} {p : PartitionId} (h : g.valuePartition v = .ok p)
    {n : Node} (hn : n ∈ g.nodes) (hid : n.id = v.node) {group : CopyGroup}
    (hgroup : g.group? n = some group) : (destinationsOf n.op)[v.slot]? = some p := by
  obtain ⟨source, -, -, hsource, -⟩ := group?_eq_some hgroup
  obtain ⟨destinations, hop⟩ := op_of_copySource? hsource
  obtain ⟨m, hm, hmid, hwhere⟩ := valuePartition_eq_ok.mp h
  obtain rfl : m = n := eq_of_key_eq g.ordered hm hn (hmid.trans hid.symm)
  simpa [hop, Operation.isCopy, destinationsOf] using hwhere

/-- A value that resolves is found at what stands in for its node. -/
theorem redirect_node {v : ValueRef} {p : PartitionId} (h : g.valuePartition v = .ok p) :
    (g.redirect v).node = g.standIn v.node := by
  obtain ⟨n, hn, hid, -⟩ := valuePartition_eq_ok.mp h
  cases hgroup : g.group? n with
  | none => rw [redirect_of_no_group hn hid hgroup, ← hid, standIn_of_no_group hn hgroup]
  | some group =>
      have hslot := destination_of_group h hn hid hgroup
      rw [(redirect_of_group hn hid hgroup hslot).1, ← hid, standIn_of_group hn hgroup]

theorem keep_iff {n : Node} (hn : n ∈ g.nodes) :
    (!((g.nodes.filter g.absorbed).map (·.id)).contains n.id) = true ↔ g.absorbed n = false := by
  rw [Bool.not_eq_true', ← Bool.not_eq_true, List.contains_iff_mem, List.mem_map,
    ← Bool.not_eq_true, not_iff_not]
  constructor
  · rintro ⟨m, hm, hid⟩
    obtain ⟨hm, habsorbed⟩ := List.mem_filter.mp hm
    exact eq_of_key_eq g.ordered hm hn hid ▸ habsorbed
  · intro habsorbed
    exact ⟨n, List.mem_filter.mpr ⟨hn, habsorbed⟩, rfl⟩

theorem mem_nodes_coalesceCopies {n' : Node} :
    n' ∈ g.coalesceCopies.1.nodes ↔ ∃ n ∈ g.nodes, g.absorbed n = false ∧
      n' = ⟨n.id, g.joinedOp n, n.inputs.map g.redirect⟩ := by
  show n' ∈ (g.nodes.filter _).map _ ↔ _
  rw [List.mem_map]
  constructor
  · rintro ⟨n, hn, rfl⟩
    obtain ⟨hn, hkeep⟩ := List.mem_filter.mp hn
    exact ⟨n, hn, (keep_iff hn).mp hkeep, rfl⟩
  · rintro ⟨n, hn, hstays, rfl⟩
    exact ⟨n, List.mem_filter.mpr ⟨hn, (keep_iff hn).mpr hstays⟩, rfl⟩

theorem placement_coalesceCopies {n : Node} (hn : n ∈ g.nodes) (h : g.absorbed n = false) :
    g.coalesceCopies.1.placement n.id = g.placement n.id :=
  if_pos ((keep_iff hn).mpr h)

theorem has_standIn {n : Node} (hn : n ∈ g.nodes) :
    g.coalesceCopies.1.Has (g.standIn n.id) := by
  obtain ⟨m, hm, hid, hstays, -⟩ := exists_standIn hn
  exact ⟨_, mem_nodes_coalesceCopies.mpr ⟨m, hm, hstays, rfl⟩, hid⟩

/-! ## Depths -/

theorem Valid.inputs_of_copy (h : g.Valid) {n : Node} (hn : n ∈ g.nodes) {source : ValueRef}
    (hsource : copySource? n = some source) : n.inputs = [source] := by
  obtain ⟨-, hhead⟩ := copySource?_eq_some.mp hsource
  obtain ⟨destinations, hop⟩ := op_of_copySource? hsource
  obtain ⟨p, hnode⟩ := h.nodes n hn
  have hlength : n.inputs.length = 1 := by
    rw [hnode.arity, hop]
    rfl
  obtain ⟨v, hv⟩ := List.length_eq_one_iff.mp hlength
  rw [hv, List.head?_cons, Option.some.injEq] at hhead
  rw [hv, hhead]

/-- What stands in for a node runs in the same wave. -/
theorem Valid.depth_standIn (h : g.Valid) {depth : NodeId → Nat} (hdepths : g.Depths depth)
    {id : NodeId} (hid : g.Has id) : depth (g.standIn id) = depth id := by
  obtain ⟨n, hn, rfl⟩ := hid
  obtain ⟨m, hm, hmid, -, rfl | ⟨source, hn', hm'⟩⟩ := exists_standIn hn
  · rw [← hmid]
  · rw [← hmid, hdepths.of_single hm (h.inputs_of_copy hm hm'),
      hdepths.of_single hn (h.inputs_of_copy hn hn')]

theorem Valid.ranks_coalesceCopies (h : g.Valid) {depth : NodeId → Nat}
    (hdepths : g.Depths depth) : g.coalesceCopies.1.Ranks depth := by
  have hinput : ∀ n' ∈ g.coalesceCopies.1.nodes, ∀ w ∈ n'.inputs, ∃ n ∈ g.nodes, n'.id = n.id ∧
      ∃ v ∈ n.inputs, w.node = g.standIn v.node := by
    intro n' hn' w hw
    obtain ⟨n, hn, -, rfl⟩ := mem_nodes_coalesceCopies.mp hn'
    obtain ⟨v, hv, rfl⟩ := List.mem_map.mp hw
    obtain ⟨p, hnode⟩ := h.nodes n hn
    exact ⟨n, hn, rfl, v, hv, redirect_node (hnode.near v hv)⟩
  constructor
  · intro n' hn' w hw
    obtain ⟨n, hn, -, v, hv, hw⟩ := hinput n' hn' w hw
    obtain ⟨m, hm, hid⟩ := hdepths.has n hn v hv
    rw [hw, ← hid]
    exact has_standIn hm
  · intro n' hn' w hw
    obtain ⟨n, hn, hid, v, hv, hw⟩ := hinput n' hn' w hw
    rw [hid, hw, h.depth_standIn hdepths (hdepths.has n hn v hv)]
    exact hdepths.lt n hn v hv

/-! ## Joining inserted copies -/

/-- A copy that was joined with others delivers to where it delivered before. -/
theorem redirect_of_copy {c : Node} (hc : c ∈ g.nodes) {destinations : List PartitionId}
    (hop : c.op = .copy destinations) {slot : Nat} {p : PartitionId}
    (hslot : destinations[slot]? = some p) :
    ∃ m ∈ g.nodes, g.absorbed m = false ∧ m.id = (g.redirect ⟨c.id, slot⟩).node ∧
      (m = c ∨ copySource? m = copySource? c) ∧
      ∃ delivered, g.joinedOp m = .copy delivered ∧
        delivered[(g.redirect ⟨c.id, slot⟩).slot]? = some p := by
  cases hgroup : g.group? c with
  | none =>
      have hredirect : g.redirect ⟨c.id, slot⟩ = ⟨c.id, slot⟩ := redirect_of_no_group hc rfl hgroup
      rw [hredirect]
      exact ⟨c, hc, by simp [absorbed, hgroup], rfl, .inl rfl, destinations,
        by simp [joinedOp, hgroup, hop], hslot⟩
  | some group =>
      obtain ⟨hredirect, hp⟩ := redirect_of_group (v := ⟨c.id, slot⟩) hc rfl hgroup
        (by rw [hop]; exact hslot)
      obtain ⟨m, hm, hid, hsame, hgroup'⟩ := exists_keeper hgroup
      rw [hredirect]
      exact ⟨m, hm, by simp [absorbed, hgroup', hid], hid, .inr hsame, group.destinations,
        by simp [joinedOp, hgroup'], List.getElem?_idxOf hp⟩

theorem redirect_of_not_copy {v : ValueRef} {n : Node} (hn : n ∈ g.nodes) (hid : n.id = v.node)
    (hop : n.op.isCopy = false) : g.redirect v = v :=
  redirect_of_no_group hn hid (group?_of_not_copy hop)

/-- Joining changes no count of nodes that are not copies. -/
theorem countP_coalesceCopies (g : Graph) {P : Operation → Bool}
    (hcopy : ∀ destinations, P (.copy destinations) = false) :
    g.coalesceCopies.1.nodes.countP (fun n => P n.op) = g.nodes.countP fun n => P n.op := by
  show ((g.nodes.filter _).map _).countP _ = _
  rw [List.countP_map, List.countP_filter]
  refine List.countP_congr fun n hn => ?_
  rw [Bool.and_eq_true, keep_iff hn]
  cases hgroup : g.group? n with
  | none => simp [joinedOp, absorbed, hgroup]
  | some group =>
      obtain ⟨source, -, -, hsource, -⟩ := group?_eq_some hgroup
      obtain ⟨destinations, hop⟩ := op_of_copySource? hsource
      simp [joinedOp, hgroup, hop, hcopy]

namespace Routes

variable {d : Graph}

theorem redirect_of_has (h : Routes d g) (hd : ∀ n ∈ d.nodes, n.op.isCopy = false)
    {v : ValueRef} (hv : d.Has v.node) : g.redirect v = v := by
  obtain ⟨n, hn, hid⟩ := hv
  obtain ⟨n', hn', hid', hop, -⟩ := h.kept n hn
  exact redirect_of_not_copy hn' (hid'.trans hid) (hop ▸ hd n hn)

/-- A copy of `g` is new if `d` has none. -/
theorem fresh_of_copySource? (h : Routes d g) (hd : ∀ n ∈ d.nodes, n.op.isCopy = false)
    {m : Node} (hm : m ∈ g.nodes) {v : ValueRef} (hv : copySource? m = some v) :
    FreshCopy d g m v := by
  obtain ⟨hop, hhead⟩ := copySource?_eq_some.mp hv
  rcases h.fresh m hm with hid | ⟨u, hu⟩
  · obtain ⟨n, hn, -, hop', -⟩ := h.image hm hid
    rw [hop', hd n hn] at hop
    cases hop
  · rw [hu.inputs, List.head?_cons, Option.some.injEq] at hhead
    exact hhead ▸ hu

/-- A new copy that stays is a new copy afterwards. -/
theorem fresh_joined (h : Routes d g) (hd : ∀ n ∈ d.nodes, n.op.isCopy = false) {m : Node}
    (hm : m ∈ g.nodes) (hstays : g.absorbed m = false) {v : ValueRef} (hv : FreshCopy d g m v) :
    FreshCopy d g.coalesceCopies.1 ⟨m.id, g.joinedOp m, m.inputs.map g.redirect⟩ v := by
  obtain ⟨p, hp, hplace⟩ := hv.near
  refine ⟨hv.fresh, ?_, ?_, p, hp, (placement_coalesceCopies hm hstays).trans hplace⟩
  · show m.inputs.map g.redirect = [v]
    rw [hv.inputs, List.map_singleton, h.redirect_of_has hd (has_of_valuePartition hp)]
  · obtain ⟨destinations, hne, hop⟩ := hv.delivers
    obtain ⟨q, hq⟩ := List.exists_mem_of_ne_nil _ hne
    cases hgroup : g.group? m with
    | none => exact ⟨destinations, hne, by simp [joinedOp, hgroup, hop]⟩
    | some group =>
        have hin : q ∈ group.destinations := mem_destinations hm hgroup (by rw [hop]; exact hq)
        exact ⟨group.destinations, List.ne_nil_of_mem hin, by simp [joinedOp, hgroup]⟩

theorem delivers_joined (h : Routes d g) (hd : ∀ n ∈ d.nodes, n.op.isCopy = false)
    {v w : ValueRef} {p : PartitionId} (hdelivers : Delivers d g v p w) :
    Delivers d g.coalesceCopies.1 v p (g.redirect w) := by
  obtain ⟨c, hc, hcid, hnot, hinputs, destinations, hop, hslot⟩ := hdelivers
  have hsource : copySource? c = some v :=
    copySource?_eq_some.mpr ⟨by rw [hop]; rfl, by rw [hinputs]; rfl⟩
  obtain ⟨m, hm, hstays, hmid, hsame, delivered, hjoined, hslot'⟩ := redirect_of_copy hc hop hslot
  rw [hcid] at hmid hslot'
  have hmsource : copySource? m = some v := by
    rcases hsame with rfl | hsame
    · exact hsource
    · exact hsame.trans hsource
  have hfresh := h.fresh_joined hd hm hstays (h.fresh_of_copySource? hd hm hmsource)
  exact ⟨_, mem_nodes_coalesceCopies.mpr ⟨m, hm, hstays, rfl⟩, hmid,
    not_has_of_le hfresh.fresh, hfresh.inputs, delivered, hjoined, hslot'⟩

/-- Joining the copies that were inserted into a graph without copies leaves it routed. -/
theorem coalesceCopies (h : Routes d g) (hd : ∀ n ∈ d.nodes, n.op.isCopy = false)
    (houtput : ∀ v, d.output? = some v → d.Has v.node) : Routes d g.coalesceCopies.1 := by
  refine ⟨h.plan, h.partitions, h.weights, ?_, ?_, fun n hn => ?_, fun m' hm' => ?_⟩
  · show g.output?.map g.redirect = d.output?
    rw [h.output]
    cases hv : d.output? with
    | none => rfl
    | some v => rw [Option.map_some, h.redirect_of_has hd (houtput v hv)]
  · exact (countP_coalesceCopies g (P := (· == .input)) fun _ => rfl).trans h.inputs
  · obtain ⟨n', hn', hid, hop, hplace, hinputs⟩ := h.kept n hn
    have hgroup : g.group? n' = none := group?_of_not_copy (hop ▸ hd n hn)
    have hstays : g.absorbed n' = false := by simp [absorbed, hgroup]
    refine ⟨_, mem_nodes_coalesceCopies.mpr ⟨n', hn', hstays, rfl⟩, hid, ?_, ?_, ?_⟩
    · simp [joinedOp, hgroup, hop]
    · rw [← hid, placement_coalesceCopies hn' hstays, hid, hplace]
    · refine List.forall₂_map_right_iff.mpr (hinputs.imp fun v w hvia => ?_)
      cases hvia with
      | copy hcopy =>
          rw [hd n hn] at hcopy
          cases hcopy
      | near hop hplace hvalue =>
          rw [h.redirect_of_has hd (has_of_valuePartition hvalue)]
          exact .near hop hplace hvalue
      | far hop hplace hvalue hne hdelivers =>
          exact .far hop hplace hvalue hne (h.delivers_joined hd hdelivers)
  · obtain ⟨m, hm, hstays, rfl⟩ := mem_nodes_coalesceCopies.mp hm'
    rcases h.fresh m hm with hid | ⟨v, hv⟩
    · exact .inl hid
    · exact .inr ⟨v, h.fresh_joined hd hm hstays hv⟩

end Routes

end ShardedModel.Graph
