import ShardedModel.Graph.Placement
import ShardedModel.Proofs.Schedule

/-!
# What a checked graph promises

Checking a graph walks over its nodes and stops at the first thing that is wrong.
`Valid` says what has been found out when nothing was: a condition for each node, an
output that exists and a schedule. Where a value lives is taken apart the same way.
-/

namespace ShardedModel

theorem Operation.isCopy_eq_false {op : Operation} :
    op.isCopy = false ↔ ∀ destinations, op = .copy destinations → False := by
  cases op <;> simp [isCopy]

namespace Graph

variable {g : Graph}

theorem partitionOf_eq_ok {id : NodeId} {p : PartitionId} :
    g.partitionOf id = .ok p ↔ g.placement id = some p := by
  unfold partitionOf
  split
  · next q hq => rw [hq, Except.ok.injEq, Option.some.injEq]
  · next hq => simp [hq]

/-- A value lives on a destination of its copy, or where its node runs. -/
theorem valuePartition_eq_ok {v : ValueRef} {p : PartitionId} :
    g.valuePartition v = .ok p ↔ ∃ n ∈ g.nodes, n.id = v.node ∧
      ((∃ destinations, n.op = .copy destinations ∧ destinations[v.slot]? = some p) ∨
        (n.op.isCopy = false ∧ v.slot = 0 ∧ g.placement v.node = some p)) := by
  constructor
  · intro h
    obtain ⟨n, hn, h⟩ := Outcome.bind_eq_ok.mp h
    obtain ⟨hmem, hid⟩ := mem_of_node hn
    refine ⟨n, hmem, hid, ?_⟩
    split at h
    · next destinations hop =>
        split at h
        · next q hq =>
            rw [Except.ok.injEq] at h
            exact .inl ⟨destinations, hop, h ▸ hq⟩
        · cases h
    · next hop =>
        split at h
        · next hslot =>
            exact .inr ⟨Operation.isCopy_eq_false.mpr hop, hslot, partitionOf_eq_ok.mp h⟩
        · cases h
  · rintro ⟨n, hn, hid, h⟩
    unfold valuePartition
    rw [← hid, g.node_of_mem hn, Outcome.ok_bind]
    rcases h with ⟨destinations, hop, hslot⟩ | ⟨hop, hslot, hplace⟩
    · simp only [hop, hslot]
    · split
      · next destinations hcopy => exact absurd hcopy (Operation.isCopy_eq_false.mp hop _)
      · rw [if_pos hslot, hid, partitionOf_eq_ok]
        exact hplace

theorem has_of_valuePartition {v : ValueRef} {p : PartitionId}
    (h : g.valuePartition v = .ok p) : g.Has v.node := by
  obtain ⟨n, hn, hid, -⟩ := valuePartition_eq_ok.mp h
  exact ⟨n, hn, hid⟩

/-- What a check of one node finds out. -/
structure ValidNode (g : Graph) (n : Node) (p : PartitionId) : Prop where
  placed : g.placement n.id = some p
  lt : p < g.partitions
  arity : n.inputs.length = n.op.arity g.plan.shardCount
  weight : g.checkWeight n.op p = .ok ()
  delivers : n.op ≠ .copy []
  near : ∀ v ∈ n.inputs, g.valuePartition v = .ok p

theorem checkInput_eq_ok {op : Operation} {p : PartitionId} {v : ValueRef} {u : Unit} :
    g.checkInput op p v = .ok u ↔ g.valuePartition v = .ok p := by
  constructor
  · intro h
    obtain ⟨home, hhome, h⟩ := Outcome.bind_eq_ok.mp h
    exact ensure_eq_ok.mp h ▸ hhome
  · intro h
    rw [checkInput, h, Outcome.ok_bind]
    exact ensure_of rfl

theorem checkNode_eq_ok {n : Node} {u : Unit} :
    g.checkNode n = .ok u ↔ ∃ p, g.ValidNode n p := by
  constructor
  · intro h
    obtain ⟨p, hplaced, h⟩ := Outcome.bind_eq_ok.mp h
    obtain ⟨⟨⟩, hlt, h⟩ := Outcome.bind_eq_ok.mp h
    obtain ⟨⟨⟩, harity, h⟩ := Outcome.bind_eq_ok.mp h
    obtain ⟨⟨⟩, hweight, h⟩ := Outcome.bind_eq_ok.mp h
    obtain ⟨⟨⟩, hdelivers, h⟩ := Outcome.bind_eq_ok.mp h
    exact ⟨p, partitionOf_eq_ok.mp hplaced, ensure_eq_ok.mp hlt, ensure_eq_ok.mp harity, hweight,
      ensure_eq_ok.mp hdelivers,
      fun v hv => checkInput_eq_ok.mp (Outcome.forM_eq_ok.mp h v hv)⟩
  · rintro ⟨p, h⟩
    rw [checkNode, partitionOf_eq_ok.mpr h.placed, Outcome.ok_bind, ensure_of h.lt,
      Outcome.ok_bind]
    dsimp only
    rw [ensure_of h.arity, Outcome.ok_bind, h.weight, Outcome.ok_bind,
      ensure_of h.delivers, Outcome.ok_bind, Outcome.forM_eq_ok]
    exact fun v hv => checkInput_eq_ok.mpr (h.near v hv)

/-- What a check of a whole graph finds out. -/
structure Valid (g : Graph) : Prop where
  input : g.nodes.countP (·.op == .input) = 1
  nodes : ∀ n ∈ g.nodes, ∃ p, g.ValidNode n p
  output : ∃ v p, g.output? = some v ∧ g.valuePartition v = .ok p
  waves : ∃ ws, g.waves = .ok ws

theorem output_eq_ok {v : ValueRef} : g.output = .ok v ↔ g.output? = some v := by
  unfold output
  split
  · next w hw => rw [hw, Except.ok.injEq, Option.some.injEq]
  · next hw => simp [hw]

theorem validate_eq_ok {u : Unit} : g.validate = .ok u ↔ g.Valid := by
  constructor
  · intro h
    obtain ⟨⟨⟩, hinput, h⟩ := Outcome.bind_eq_ok.mp h
    obtain ⟨⟨⟩, hnodes, h⟩ := Outcome.bind_eq_ok.mp h
    obtain ⟨v, hv, h⟩ := Outcome.bind_eq_ok.mp h
    obtain ⟨p, hp, h⟩ := Outcome.bind_eq_ok.mp h
    obtain ⟨ws, hws, -⟩ := Outcome.bind_eq_ok.mp h
    exact ⟨ensure_eq_ok.mp hinput,
      fun n hn => checkNode_eq_ok.mp (Outcome.forM_eq_ok.mp hnodes n hn),
      ⟨v, p, output_eq_ok.mp hv, hp⟩, ⟨ws, hws⟩⟩
  · intro h
    obtain ⟨v, p, hv, hp⟩ := h.output
    obtain ⟨ws, hws⟩ := h.waves
    have hnodes : g.nodes.forM g.checkNode = .ok () :=
      Outcome.forM_eq_ok.mpr fun n hn => checkNode_eq_ok.mpr (h.nodes n hn)
    rw [validate, ensure_of h.input, Outcome.ok_bind, hnodes, Outcome.ok_bind, output_eq_ok.mpr hv,
      Outcome.ok_bind, hp, Outcome.ok_bind, hws]
    rfl

end Graph

end ShardedModel
