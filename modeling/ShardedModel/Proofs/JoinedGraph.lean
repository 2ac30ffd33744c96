import Mathlib.Algebra.BigOperators.Group.Finset.Basic
import Mathlib.Data.List.Permutation
import ShardedModel.Proofs.Joining

/-!
# A checked graph stays one when its copies are joined

Joining takes copies out and sends their readers elsewhere, so each of the things that a
check looks at could break: a reference could dangle, a slot could be one too far, a node
could end up reading from another partition, and nodes could come to wait for each other.
None of it happens. What replaces a value is delivered to the partition where the value
was, which settles references, slots and places together, and it runs in the same wave,
which settles the schedule.

How many nodes go is a matter of counting. Of the copies of one value all but the first
go, and nothing else does.
-/

namespace ShardedModel

theorem Operation.arity_of_copy {op : Operation} (h : op.isCopy = true) (n : Nat) :
    op.arity n = 1 := by
  cases op with
  | copy => rfl
  | _ => cases h

namespace Graph

variable {g : Graph}

/-! ## Where values are -/

/-- What stands in for a value lives where the value did. -/
theorem valuePartition_redirect {v : ValueRef} {p : PartitionId}
    (h : g.valuePartition v = .ok p) :
    g.coalesceCopies.1.valuePartition (g.redirect v) = .ok p := by
  obtain ⟨n, hn, hid, hwhere⟩ := valuePartition_eq_ok.mp h
  rcases hwhere with ⟨destinations, hop, hslot⟩ | ⟨hop, hslot, hplace⟩
  · obtain ⟨m, hm, hstays, hmid, -, delivered, hjoined, hslot'⟩ := redirect_of_copy hn hop hslot
    rw [hid] at hmid hslot'
    exact valuePartition_eq_ok.mpr ⟨_, mem_nodes_coalesceCopies.mpr ⟨m, hm, hstays, rfl⟩, hmid,
      .inl ⟨delivered, hjoined, hslot'⟩⟩
  · have hgroup : g.group? n = none := group?_of_not_copy hop
    have hstays : g.absorbed n = false := by simp [absorbed, hgroup]
    have hjoined : g.joinedOp n = n.op := by simp [joinedOp, hgroup]
    rw [redirect_of_not_copy hn hid hop]
    refine valuePartition_eq_ok.mpr ⟨_, mem_nodes_coalesceCopies.mpr ⟨n, hn, hstays, rfl⟩, hid,
      .inr ⟨hjoined ▸ hop, hslot, ?_⟩⟩
    rw [← hid, placement_coalesceCopies hn hstays, hid, hplace]

/-- The two values resolve, each in its graph, to the same partition. -/
def SamePlace (g g' : Graph) (v v' : ValueRef) : Prop :=
  ∃ p, g.valuePartition v = .ok p ∧ g'.valuePartition v' = .ok p

theorem SamePlace.of_redirect {v : ValueRef} {p : PartitionId} (h : g.valuePartition v = .ok p) :
    SamePlace g g.coalesceCopies.1 v (g.redirect v) :=
  ⟨p, h, valuePartition_redirect h⟩

/-! ## The check -/

theorem checkWeight_of_copy {op : Operation} {p : PartitionId} (h : op.isCopy = true) :
    g.checkWeight op p = .ok () := by
  cases op with
  | copy => rfl
  | _ => cases h

theorem ValidNode.joined {n : Node} {p : PartitionId} (h : g.ValidNode n p) (hn : n ∈ g.nodes)
    (hstays : g.absorbed n = false) :
    g.coalesceCopies.1.ValidNode ⟨n.id, g.joinedOp n, n.inputs.map g.redirect⟩ p := by
  refine ⟨(placement_coalesceCopies hn hstays).trans h.placed, h.lt, ?_, ?_, ?_, fun w hw => ?_⟩
  · show (n.inputs.map g.redirect).length = (g.joinedOp n).arity g.plan.shardCount
    rw [List.length_map, h.arity]
    rcases isCopy_joinedOp g n with hop | ⟨hop, hop'⟩
    · rw [hop]
    · rw [Operation.arity_of_copy hop, Operation.arity_of_copy hop']
  · show g.checkWeight (g.joinedOp n) p = .ok ()
    rcases isCopy_joinedOp g n with hop | ⟨hop, -⟩
    · rw [hop, h.weight]
    · exact checkWeight_of_copy hop
  · show g.joinedOp n ≠ .copy []
    cases hgroup : g.group? n with
    | none =>
        rw [joinedOp, hgroup]
        exact h.delivers
    | some group =>
        -- The destinations of the copy itself are among those of its group.
        obtain ⟨source, -, -, hsource, -⟩ := group?_eq_some hgroup
        obtain ⟨destinations, hop⟩ := op_of_copySource? hsource
        obtain ⟨q, hq⟩ := List.exists_mem_of_ne_nil destinations
          fun hnil => h.delivers (hnil ▸ hop)
        have hin : q ∈ group.destinations := mem_destinations hn hgroup (by rw [hop]; exact hq)
        rw [joinedOp, hgroup]
        exact fun heq => List.ne_nil_of_mem hin (Operation.copy.inj heq)
  · obtain ⟨v, hv, rfl⟩ := List.mem_map.mp hw
    exact valuePartition_redirect (h.near v hv)

theorem Valid.joined (h : g.Valid) : g.coalesceCopies.1.Valid := by
  obtain ⟨v, p, hv, hp⟩ := h.output
  obtain ⟨ws, hws⟩ := h.waves
  obtain ⟨depth, hdepths⟩ := exists_depths hws
  refine ⟨(countP_coalesceCopies g (P := (· == .input)) fun _ => rfl).trans h.input,
    fun n' hn' => ?_, ?_, waves_of_ranks (h.ranks_coalesceCopies hdepths)⟩
  · obtain ⟨n, hn, hstays, rfl⟩ := mem_nodes_coalesceCopies.mp hn'
    obtain ⟨p, hnode⟩ := h.nodes n hn
    exact ⟨p, hnode.joined hn hstays⟩
  · exact ⟨g.redirect v, p, congrArg (·.map g.redirect) hv, valuePartition_redirect hp⟩

/-! ## How many copies go -/

/-- The values that copies read. -/
def copiedValues (g : Graph) : Finset ValueRef :=
  ((g.nodes.filter (·.op.isCopy)).flatMap (·.inputs)).toFinset

/-- How many copies read a value. -/
def copyReaders (g : Graph) (v : ValueRef) : Nat :=
  g.nodes.countP fun n => n.op.isCopy && decide (v ∈ n.inputs)

theorem Valid.copySource?_iff (h : g.Valid) {n : Node} (hn : n ∈ g.nodes) {v : ValueRef} :
    copySource? n = some v ↔ n.op.isCopy = true ∧ v ∈ n.inputs := by
  constructor
  · intro hsource
    exact ⟨(copySource?_eq_some.mp hsource).1, by simp [h.inputs_of_copy hn hsource]⟩
  · rintro ⟨hop, hv⟩
    obtain ⟨u, hu⟩ : ∃ u, n.inputs.head? = some u :=
      ⟨_, List.head?_eq_some_head (List.ne_nil_of_mem hv)⟩
    have hsource := copySource?_eq_some.mpr ⟨hop, hu⟩
    rw [h.inputs_of_copy hn hsource, List.mem_singleton] at hv
    rw [hsource, hv]

theorem Valid.exists_copySource? (h : g.Valid) {n : Node} (hn : n ∈ g.nodes)
    (hop : n.op.isCopy = true) : ∃ v, copySource? n = some v := by
  obtain ⟨p, hnode⟩ := h.nodes n hn
  have hlength : n.inputs.length = 1 := by rw [hnode.arity, Operation.arity_of_copy hop]
  obtain ⟨v, hv⟩ := List.length_eq_one_iff.mp hlength
  exact ⟨v, copySource?_eq_some.mpr ⟨hop, by rw [hv]; rfl⟩⟩

theorem Valid.mem_copiedValues (h : g.Valid) {v : ValueRef} :
    v ∈ g.copiedValues ↔ ∃ n ∈ g.nodes, copySource? n = some v := by
  rw [copiedValues, List.mem_toFinset, List.mem_flatMap]
  constructor
  · rintro ⟨n, hn, hv⟩
    obtain ⟨hn, hop⟩ := List.mem_filter.mp hn
    exact ⟨n, hn, (h.copySource?_iff hn).mpr ⟨hop, hv⟩⟩
  · rintro ⟨n, hn, hsource⟩
    obtain ⟨hop, hv⟩ := (h.copySource?_iff hn).mp hsource
    exact ⟨n, List.mem_filter.mpr ⟨hn, hop⟩, hv⟩

theorem Valid.copyReaders_eq (h : g.Valid) (v : ValueRef) :
    g.copyReaders v = (g.copiesOf v).length := by
  rw [copyReaders, copiesOf, ← List.countP_eq_length_filter]
  refine List.countP_congr fun n hn => ?_
  rw [Bool.and_eq_true, decide_eq_true_iff, beq_iff_eq, h.copySource?_iff hn]

/-- Of the copies of a value, all but the first go. -/
theorem filter_absorbed_copiesOf (g : Graph) (v : ValueRef) :
    (g.copiesOf v).filter g.absorbed = (g.copiesOf v).tail := by
  cases hcopies : g.copiesOf v with
  | nil => rfl
  | cons first rest =>
      have hsource : ∀ n ∈ first :: rest, copySource? n = some v := by
        intro n hn
        rw [← hcopies] at hn
        exact beq_iff_eq.mp (List.mem_filter.mp hn).2
      have hordered : (first :: rest).Pairwise (fun a b => a.id < b.id) :=
        hcopies ▸ g.ordered.filter _
      have hgroup : ∀ n ∈ first :: rest, ∀ group, g.group? n = some group →
          group.keeper = first.id := by
        intro n hn group hgroup
        obtain ⟨source, first', rest', hsource', hcopies', hkeeper, -⟩ := group?_eq_some hgroup
        rw [hsource n hn, Option.some.injEq] at hsource'
        rw [← hsource', hcopies, List.cons.injEq] at hcopies'
        rw [hkeeper, hcopies'.1]
      have hfirst : g.absorbed first = false := by
        unfold absorbed
        split
        · next group h => simp [hgroup first List.mem_cons_self group h]
        · rfl
      have hrest : ∀ n ∈ rest, g.absorbed n = true := by
        intro n hn
        have hmem := List.mem_cons_of_mem first hn
        have hlt := (List.pairwise_cons.mp hordered).1 n hn
        obtain ⟨group, h⟩ : ∃ group, g.group? n = some group := by
          obtain ⟨second, rest', rfl⟩ := List.exists_cons_of_ne_nil (List.ne_nil_of_mem hn)
          exact ⟨_, by rw [group?, hsource n hmem, Option.bind_eq_bind, Option.bind_some, hcopies]⟩
        simp [absorbed, h, hgroup n hmem group h, Nat.ne_of_lt hlt]
      rw [List.filter_cons_of_neg (by simp [hfirst]), List.tail_cons, List.filter_eq_self]
      exact hrest

/-- One copy stays of each value. -/
theorem eq_of_not_absorbed {n m : Node} (hn : n ∈ g.nodes) (hm : m ∈ g.nodes) {v : ValueRef}
    (hnv : copySource? n = some v) (hmv : copySource? m = some v) (hn' : g.absorbed n = false)
    (hm' : g.absorbed m = false) : n = m := by
  have hmem : ∀ n ∈ g.nodes, copySource? n = some v → n ∈ g.copiesOf v := by
    intro n hn hv
    exact List.mem_filter.mpr ⟨hn, beq_iff_eq.mpr hv⟩
  have hfilter := filter_absorbed_copiesOf g v
  cases hcopies : g.copiesOf v with
  | nil => simpa [hcopies] using hmem n hn hnv
  | cons first rest =>
      rw [hcopies, List.tail_cons] at hfilter
      have hfirst : ∀ n ∈ g.nodes, copySource? n = some v → g.absorbed n = false → n = first := by
        intro n hn hv hstays
        rcases List.mem_cons.mp (hcopies ▸ hmem n hn hv) with heq | hrest
        · exact heq
        · rw [← hfilter, List.mem_filter, hstays] at hrest
          cases hrest.2
      rw [hfirst n hn hnv hn', hfirst m hm hmv hm']

/-- Copies are counted value by value. -/
theorem Valid.length_eq_sum (h : g.Valid) {copies : List Node}
    (hcopies : ∀ n ∈ copies, n ∈ g.nodes ∧ n.op.isCopy = true) :
    copies.length = ∑ v ∈ g.copiedValues, copies.countP (copySource? · == some v) := by
  have hsource : ∀ n ∈ copies, ∃ v ∈ g.copiedValues, copySource? n = some v := by
    intro n hn
    obtain ⟨hn, hop⟩ := hcopies n hn
    obtain ⟨v, hv⟩ := h.exists_copySource? hn hop
    exact ⟨v, h.mem_copiedValues.mpr ⟨n, hn, hv⟩, hv⟩
  have hlength : (copies.filterMap copySource?).length = copies.length := by
    rw [List.length_filterMap_eq_countP, List.countP_eq_length]
    intro n hn
    obtain ⟨v, -, hv⟩ := hsource n hn
    rw [hv]
    rfl
  have hmem : ∀ v ∈ (copies.filterMap copySource? : Multiset ValueRef), v ∈ g.copiedValues := by
    intro v hv
    obtain ⟨n, hn, hv⟩ := List.mem_filterMap.mp (Multiset.mem_coe.mp hv)
    obtain ⟨w, hw, hw'⟩ := hsource n hn
    rw [hv, Option.some.injEq] at hw'
    exact hw' ▸ hw
  rw [← hlength, ← Multiset.coe_card, ← Multiset.sum_count_eq_card hmem]
  refine Finset.sum_congr rfl fun v _ => ?_
  rw [Multiset.coe_count, List.count_filterMap]

/-- The number of nodes that go, value by value. -/
theorem Valid.length_absorbed (h : g.Valid) :
    (g.nodes.filter g.absorbed).length = ∑ v ∈ g.copiedValues, (g.copyReaders v - 1) := by
  rw [h.length_eq_sum fun n hn => ?_]
  · refine Finset.sum_congr rfl fun v _ => ?_
    rw [h.copyReaders_eq, ← List.length_tail, ← filter_absorbed_copiesOf,
      List.countP_eq_length_filter, copiesOf, List.filter_filter, List.filter_filter]
    congr 1
    exact List.filter_congr fun n _ => Bool.and_comm _ _
  · obtain ⟨hn, habsorbed⟩ := List.mem_filter.mp hn
    unfold absorbed at habsorbed
    split at habsorbed
    · next group hgroup =>
        obtain ⟨v, -, -, hv, -⟩ := group?_eq_some hgroup
        exact ⟨hn, (copySource?_eq_some.mp hv).1⟩
    · cases habsorbed

theorem nodeCount_coalesceCopies (g : Graph) :
    g.coalesceCopies.2 + g.coalesceCopies.1.nodeCount = g.nodeCount := by
  have hkept : (g.nodes.filter fun n =>
      !((g.nodes.filter g.absorbed).map (·.id)).contains n.id).length =
      (g.nodes.filter (!g.absorbed ·)).length := by
    congr 1
    refine List.filter_congr fun n hn => ?_
    rw [Bool.eq_iff_iff, keep_iff hn, Bool.not_eq_true']
  show ((g.nodes.filter g.absorbed).map (·.id)).length + ((g.nodes.filter _).map _).length = _
  rw [List.length_map, List.length_map, hkept]
  exact (List.length_eq_length_filter_add g.absorbed).symm

/-! ## What joining keeps -/

/-- Joining the copies of a checked graph leaves a checked graph. The copy that stays of each
group is there, so nothing that is looked for is missing. As many nodes are gone as is said,
which is one less than there were copies, value by value. No node but a copy is gone, what
stays is where it was, and what it reads now is where the value was that it read before; the
same holds of the output. -/
theorem coalesceCopies_keeps {g : Graph} (h : g.validate = .ok ()) :
    (∀ n ∈ g.nodes, ∀ group, g.group? n = some group → g.coalesceCopies.1.Has group.keeper) ∧
    g.coalesceCopies.1.validate = .ok () ∧
    g.coalesceCopies.2 + g.coalesceCopies.1.nodeCount = g.nodeCount ∧
    g.coalesceCopies.2 = ∑ v ∈ g.copiedValues, (g.copyReaders v - 1) ∧
    (∀ n ∈ g.nodes, n.op.isCopy = false → ∃ n' ∈ g.coalesceCopies.1.nodes,
      n'.id = n.id ∧ n'.op = n.op) ∧
    (∀ n' ∈ g.coalesceCopies.1.nodes, ∃ n ∈ g.nodes, n.id = n'.id ∧
      g.coalesceCopies.1.placement n'.id = g.placement n.id ∧
      List.Forall₂ (SamePlace g g.coalesceCopies.1) n.inputs n'.inputs) ∧
    ∃ v v', g.output? = some v ∧ g.coalesceCopies.1.output? = some v' ∧
      SamePlace g g.coalesceCopies.1 v v' := by
  have hvalid := validate_eq_ok.mp h
  refine ⟨fun n hn group hgroup => ?_, validate_eq_ok.mpr hvalid.joined,
    nodeCount_coalesceCopies g, ?_, fun n hn hop => ?_, fun n' hn' => ?_, ?_⟩
  · exact standIn_of_group hn hgroup ▸ has_standIn hn
  · show ((g.nodes.filter g.absorbed).map (·.id)).length = _
    rw [List.length_map, hvalid.length_absorbed]
  · have hgroup : g.group? n = none := group?_of_not_copy hop
    have hstays : g.absorbed n = false := by simp [absorbed, hgroup]
    exact ⟨_, mem_nodes_coalesceCopies.mpr ⟨n, hn, hstays, rfl⟩, rfl, by simp [joinedOp, hgroup]⟩
  · obtain ⟨n, hn, hstays, rfl⟩ := mem_nodes_coalesceCopies.mp hn'
    obtain ⟨p, hnode⟩ := hvalid.nodes n hn
    have hplace := placement_coalesceCopies hn hstays
    refine ⟨n, hn, rfl, hplace, ?_⟩
    rw [List.forall₂_map_right_iff, List.forall₂_same]
    exact fun v hv => .of_redirect (hnode.near v hv)
  · obtain ⟨v, p, hv, hp⟩ := hvalid.output
    exact ⟨v, g.redirect v, hv, congrArg (·.map g.redirect) hv, .of_redirect hp⟩

/-- Tokens copied twice, to partition 1 and to partitions 2 and 1, and copies of both copies
on partition 1. The last of these is the output. -/
def chained : Graph :=
  let g := (Graph.empty ⟨2, [⟨0, 0, 2, 1, 2⟩]⟩ 3).addNode .input [] 0
  let g := (g.addNode (.copy [1]) [.of 0] 0).addNode (.copy [2, 1]) [.of 0] 0
  let g := (g.addNode (.gather 0) [⟨2, 1⟩] 1).addNode (.copy [0]) [.of 1] 1
  let g := (g.addNode (.copy [0]) [⟨2, 1⟩] 1).addNode (.copy [2]) [.of 1] 1
  (g.placeWeight (.embeddingSlice 0) 1).setOutput (.of 5)

/-- Two copies go, one of the tokens and one of a copy, and the copies of both copies then read
the same slot. -/
theorem coalesceCopies_keeps_chained :
    chained.validate = .ok () ∧ chained.coalesceCopies.2 = 2 ∧
    chained.coalesceCopies.1.nodes =
      [⟨0, .input, []⟩, ⟨1, .copy [1, 2], [⟨0, 0⟩]⟩, ⟨3, .gather 0, [⟨1, 0⟩]⟩,
        ⟨4, .copy [0, 2], [⟨1, 0⟩]⟩, ⟨5, .copy [0], [⟨1, 0⟩]⟩] ∧
    chained.coalesceCopies.1.validate = .ok () ∧
    chained.coalesceCopies.2 = ∑ v ∈ chained.copiedValues, (chained.copyReaders v - 1) ∧
    ∃ v v', chained.output? = some v ∧ chained.coalesceCopies.1.output? = some v' ∧
      SamePlace chained chained.coalesceCopies.1 v v' := by
  have hvalidate : chained.validate = .ok () := by cbv
  have hnodes : chained.coalesceCopies.1.nodes =
      [⟨0, .input, []⟩, ⟨1, .copy [1, 2], [⟨0, 0⟩]⟩, ⟨3, .gather 0, [⟨1, 0⟩]⟩,
        ⟨4, .copy [0, 2], [⟨1, 0⟩]⟩, ⟨5, .copy [0], [⟨1, 0⟩]⟩] := by
    cbv
  obtain ⟨-, hjoined, -, hcount, -, -, houtput⟩ := coalesceCopies_keeps hvalidate
  exact ⟨hvalidate, rfl, hnodes, hjoined, hcount, houtput⟩

end Graph

end ShardedModel
