import Mathlib.Algebra.BigOperators.Group.Finset.Basic
import ShardedModel.Proofs.Dataflow
import ShardedModel.Proofs.JoinedGraph

/-!
# How many nodes a built graph has

Only the number of candidates can keep the graph of a plan from being built, and how many
nodes of each kind it has does not depend on that number. A shard has three nodes. There
is a copy for each input that lives elsewhere, and if copies are joined, one for each value
that is read elsewhere.
-/

namespace ShardedModel.Graph

variable {g : Graph}

/-! ## Copies that are inserted -/

/-- Whether a node on partition `p` gets a value from elsewhere. -/
def isFar (g : Graph) (p : PartitionId) (v : ValueRef) : Bool :=
  match g.valuePartition v with
  | .ok q => q != p
  | .error _ => false

theorem isFar_of_ok {v : ValueRef} {q : PartitionId} (h : g.valuePartition v = .ok q)
    (p : PartitionId) : g.isFar p v = (q != p) := by
  rw [isFar, h]

theorem values_of_crossingsOf {n : Node} {p : PartitionId} {found : List Crossing}
    (hplace : g.placement n.id = some p) (h : g.crossingsOf n = .ok found) :
    found.map (·.value) = n.inputs.filter (g.isFar p) := by
  rw [crossingsOf, partitionOf_eq_ok.mpr hplace, Outcome.ok_bind] at h
  obtain ⟨inputs, hinputs, h⟩ := Outcome.bind_eq_ok.mp h
  rw [Except.ok.injEq] at h
  subst h
  have hforall : List.Forall₂ (fun v c => c.value = v ∧
      decide (c.source ≠ c.destination) = g.isFar p v) (n.inputs.zipIdx.map (·.1)) inputs := by
    rw [List.forall₂_map_left_iff]
    refine (Outcome.mapM_eq_ok.mp hinputs).imp fun e c hc => ?_
    obtain ⟨q, hq, hc⟩ := Outcome.bind_eq_ok.mp hc
    cases hc
    simp [isFar, hq, Bool.beq_eq_decide_eq, bne]
  rw [List.zipIdx_map_fst] at hforall
  have hvalues : inputs.map (·.value) = n.inputs := by
    rw [← List.forall₂_eq_eq_eq, List.forall₂_map_left_iff]
    exact (hforall.imp fun _ _ hc => hc.1).flip
  have hfar : ∀ c ∈ inputs, decide (c.source ≠ c.destination) = g.isFar p c.value := by
    intro c hc
    obtain ⟨v, -, rfl, hfar⟩ := Outcome.exists_of_forall₂ hforall.flip hc
    exact hfar
  rw [← hvalues, List.filter_map, List.filter_congr hfar]
  rfl

/-- The values that get copies, in the order of their copies. -/
theorem values_of_crossings {found : List Crossing} (h : g.crossings = .ok found) :
    found.map (·.value) = (g.nodes.filter (!·.op.isCopy)).flatMap fun n =>
      n.inputs.filter (g.isFar ((g.placement n.id).getD 0)) := by
  obtain ⟨lists, hlists, heq⟩ := Outcome.bind_eq_ok.mp h
  rw [Except.ok.injEq] at heq
  subst heq
  have hforall := Outcome.mapM_eq_ok.mp hlists
  clear h hlists
  generalize g.nodes.filter (!·.op.isCopy) = nodes at hforall
  induction hforall with
  | nil => rfl
  | cons hhead _ ih =>
      obtain ⟨p, hplace, -⟩ := crossingsOf_eq_ok hhead
      rw [List.flatten_cons, List.map_append, List.flatMap_cons, ih, hplace, Option.getD_some,
        values_of_crossingsOf hplace hhead]

theorem isCopy_of_mem_copiesFrom {base : NodeId} {cs : List Crossing} {m : Node}
    (hm : m ∈ copiesFrom base cs) : m.op.isCopy = true := by
  obtain ⟨j, c, -, rfl⟩ := mem_copiesFrom.mp hm
  rfl

section Insert

variable {found : List Crossing} (hfound : g.crossings = .ok found)

include hfound

theorem countP_insertCopies {P : Operation → Bool}
    (hcopy : ∀ destinations, P (.copy destinations) = false) :
    (found.foldl route g).nodes.countP (fun n => P n.op) = g.nodes.countP fun n => P n.op := by
  rw [nodes_foldl_route fun _ => consumer_lt hfound, List.countP_append, List.countP_map]
  have hzero : (copiesFrom g.nextId found).countP (fun n => P n.op) = 0 := by
    rw [List.countP_eq_zero]
    intro m hm
    obtain ⟨j, c, -, rfl⟩ := mem_copiesFrom.mp hm
    simp [hcopy]
  rw [hzero]
  rfl

theorem copyCount_insertCopies (hnone : ∀ n ∈ g.nodes, n.op.isCopy = false) :
    (found.foldl route g).copyCount = found.length := by
  rw [copyCount, nodes_foldl_route fun _ => consumer_lt hfound, List.countP_append,
    List.countP_map, List.countP_eq_length.mpr fun m hm => isCopy_of_mem_copiesFrom hm,
    length_copiesFrom, List.countP_eq_zero.mpr fun n hn => by simp [hnone n hn], Nat.zero_add]

theorem copiedValues_insertCopies (hnone : ∀ n ∈ g.nodes, n.op.isCopy = false) :
    (found.foldl route g).copiedValues = (found.map (·.value)).toFinset := by
  ext v
  simp only [copiedValues, List.mem_toFinset, List.mem_flatMap, List.mem_filter, List.mem_map]
  rw [nodes_foldl_route fun _ => consumer_lt hfound]
  constructor
  · rintro ⟨m, ⟨hm, hop⟩, hv⟩
    rcases List.mem_append.mp hm with hm | hm
    · obtain ⟨n, hn, rfl⟩ := List.mem_map.mp hm
      rw [hnone n hn] at hop
      cases hop
    · obtain ⟨j, c, hj, rfl⟩ := mem_copiesFrom.mp hm
      exact ⟨c, List.mem_of_getElem? hj, (List.mem_singleton.mp hv).symm⟩
  · rintro ⟨c, hc, rfl⟩
    obtain ⟨j, hj⟩ := List.getElem?_of_mem hc
    have hm : (⟨g.nextId + j, .copy [c.destination], [c.value]⟩ : Node) ∈
        copiesFrom g.nextId found :=
      mem_copiesFrom.mpr ⟨j, c, hj, rfl⟩
    exact ⟨_, ⟨List.mem_append_right _ hm, rfl⟩, List.mem_singleton_self _⟩

end Insert

/-! ## Copies that are joined -/

theorem Valid.sum_copyReaders (h : g.Valid) :
    ∑ v ∈ g.copiedValues, g.copyReaders v = g.copyCount := by
  rw [copyCount, List.countP_eq_length_filter, h.length_eq_sum fun n hn => List.mem_filter.mp hn]
  refine Finset.sum_congr rfl fun v _ => ?_
  rw [h.copyReaders_eq, copiesOf, ← List.countP_eq_length_filter, List.countP_filter]
  refine List.countP_congr fun n _ => ?_
  simp only [Bool.and_eq_true, beq_iff_eq, iff_self_and]
  exact fun hsource => (copySource?_eq_some.mp hsource).1

/-- One copy stays of each value that is copied. -/
theorem Valid.copyCount_coalesceCopies (h : g.Valid) :
    g.coalesceCopies.1.copyCount = g.copiedValues.card := by
  have hreaders : ∀ v ∈ g.copiedValues, g.copyReaders v = g.copyReaders v - 1 + 1 := by
    intro v hv
    obtain ⟨n, hn, hsource⟩ := h.mem_copiedValues.mp hv
    have hpos : 0 < g.copyReaders v := by
      rw [h.copyReaders_eq]
      exact List.length_pos_of_mem (List.mem_filter.mpr ⟨hn, beq_iff_eq.mpr hsource⟩)
    omega
  have hsum : g.copyCount = g.coalesceCopies.2 + g.copiedValues.card := by
    show _ = ((g.nodes.filter g.absorbed).map (·.id)).length + _
    rw [← h.sum_copyReaders, Finset.sum_congr rfl hreaders, Finset.sum_add_distrib,
      List.length_map, h.length_absorbed, Finset.card_eq_sum_ones]
  have hrest : g.coalesceCopies.1.nodes.countP (fun n => !n.op.isCopy) =
      g.nodes.countP fun n => !n.op.isCopy :=
    countP_coalesceCopies g (P := fun op => !op.isCopy) fun _ => rfl
  have hall := nodeCount_coalesceCopies g
  have hlength : ∀ g : Graph, g.nodeCount = g.copyCount + g.nodes.countP fun n => !n.op.isCopy :=
    fun g => by
      simpa [nodeCount, copyCount] using
        List.length_eq_countP_add_countP (fun n : Node => n.op.isCopy)
  rw [hlength, hlength g, hrest] at hall
  omega

/-! ## The values that cross in the dataflow -/

/-- The values that are read elsewhere in the dataflow of `m + 1` shards, once for each
reader. -/
def crossingValues (m : Nat) : List ValueRef :=
  List.replicate m (.of 0) ++ (List.range m).map (fun i => .of (1 + i)) ++
    [.of (m + 2), .of (m + 3)] ++ List.replicate (m + 1) (.of (m + 4)) ++
    (List.range m).map fun i => .of (m + 1 + 4 + 2 * i + 1)

theorem length_crossingValues (m : Nat) : (crossingValues m).length = 4 * m + 3 := by
  simp [crossingValues]
  omega

/-- The nodes whose values these are, each once. -/
def crossingIds (m : Nat) : List NodeId :=
  (if m = 0 then [] else [0]) ++ (List.range m).map (1 + ·) ++ [m + 2, m + 3, m + 4] ++
    (List.range m).map fun i => m + 1 + 4 + 2 * i + 1

theorem nodup_crossingIds (m : Nat) : (crossingIds m).Nodup := by
  have hinner : ((List.range m).map (1 + ·)).Nodup :=
    List.nodup_range.map fun i j hij => Nat.add_left_cancel hij
  have houter : ((List.range m).map fun i => m + 1 + 4 + 2 * i + 1).Nodup :=
    List.nodup_range.map fun i j hij => by
      change m + 1 + 4 + 2 * i + 1 = m + 1 + 4 + 2 * j + 1 at hij
      omega
  unfold crossingIds
  split
  · next hm => simp [hm]
  · simp [List.nodup_append, hinner, houter]
    grind

theorem mem_crossingValues {m : Nat} {v : ValueRef} :
    v ∈ crossingValues m ↔ v ∈ (crossingIds m).map ValueRef.of := by
  unfold crossingIds
  split <;> simp [crossingValues, *]

theorem card_crossingValues (m : Nat) :
    (crossingValues m).toFinset.card = if m = 0 then 3 else 2 * m + 4 := by
  have hnodup : ((crossingIds m).map ValueRef.of).Nodup :=
    (nodup_crossingIds m).map fun i j hij => congrArg ValueRef.node hij
  have hvalues : (crossingValues m).toFinset = ((crossingIds m).map ValueRef.of).toFinset := by
    ext v
    rw [List.mem_toFinset, List.mem_toFinset, mem_crossingValues]
  rw [hvalues, List.toFinset_card_of_nodup hnodup, List.length_map, crossingIds]
  split
  · next hm => simp [hm]
  · simp
    omega

namespace Flow

variable {d : Graph} {m k : Nat}

/-- A barrier on the partition of the last shard gets all but one of its inputs from
elsewhere. -/
theorem filter_isFar_barrier {id : Nat → NodeId}
    (hfar : ∀ i < m + 1, ∀ p, d.isFar p (.of (id i)) = (i != p)) :
    ((List.range (m + 1)).map fun i => ValueRef.of (id i)).filter (d.isFar m) =
      (List.range m).map fun i => .of (id i) := by
  have hnear : d.isFar m (.of (id m)) = false := by simp [hfar m (Nat.lt_succ_self m)]
  rw [List.range_succ, List.map_append, List.filter_append, List.map_singleton,
    List.filter_singleton, hnear, List.filter_eq_self.mpr]
  · simp
  · intro v hv
    obtain ⟨i, hi, rfl⟩ := List.mem_map.mp hv
    have hi := List.mem_range.mp hi
    simp [hfar i (by omega), Nat.ne_of_lt hi]

theorem values_of_crossings (h : Flow d (m + 1) k)
    (hnodes : d.nodes = (flowNodes (m + 1) k).map (·.1)) {found : List Crossing}
    (hfound : d.crossings = .ok found) : found.map (·.value) = crossingValues m := by
  have hfar : ∀ {u q}, FlowNode (m + 1) k u q → ∀ p, d.isFar p (.of u.id) = (q != p) :=
    fun hu p => isFar_of_ok (h.valuePartition hu) p
  have hnone : d.nodes.filter (!·.op.isCopy) = d.nodes := by
    rw [List.filter_eq_self]
    intro n hn
    rw [h.isCopy_eq_false hn]
    rfl
  have hplaced : (flowNodes (m + 1) k).flatMap (fun e =>
      e.1.inputs.filter (d.isFar ((d.placement e.1.id).getD 0))) =
      (flowNodes (m + 1) k).flatMap fun e => e.1.inputs.filter (d.isFar e.2) := by
    refine List.flatMap_congr fun e he => ?_
    rw [h.placement e.1 e.2 (mem_flowNodes.mp he), Option.getD_some]
  have hconst : ∀ (j : Nat) (v : ValueRef), (List.range j).flatMap (fun _ => [v]) =
      List.replicate j v := by
    intro j v
    rw [← List.map_eq_flatMap, List.map_const', List.length_range]
  have hgather : (List.range (m + 1)).flatMap (fun i => [ValueRef.of 0].filter (d.isFar i)) =
      List.replicate m (.of 0) := by
    have hinput : ∀ p, d.isFar p (.of 0) = (0 != p) := hfar .input
    rw [← hconst]
    simp [List.range_succ_eq_map, List.flatMap_map, List.filter_singleton, hinput]
  have haccumulate : ((List.range (m + 1)).map fun i => ValueRef.of (1 + i)).filter (d.isFar m) =
      (List.range m).map fun i => .of (1 + i) :=
    filter_isFar_barrier fun i hi => hfar (.gather hi)
  have hlogits : (List.range (m + 1)).flatMap (fun i =>
      [ValueRef.of (m + 4)].filter (d.isFar i) ++
        [ValueRef.of (m + 1 + 4 + 2 * i)].filter (d.isFar i)) =
      List.replicate (m + 1) (.of (m + 4)) := by
    rw [← hconst]
    refine List.flatMap_congr fun i hi => ?_
    have hi := List.mem_range.mp hi
    have hfarB : d.isFar i (.of (m + 4)) = (m + 2 != i) := hfar .stageB i
    have hnear : d.isFar i (.of (m + 1 + 4 + 2 * i)) = (i != i) := hfar (.shardLogits hi) i
    have hne : m + 2 ≠ i := by omega
    simp [hfarB, hnear, hne]
  have hmerge : ((List.range (m + 1)).map fun i =>
      ValueRef.of (m + 1 + 4 + 2 * i + 1)).filter (d.isFar m) =
      (List.range m).map fun i => .of (m + 1 + 4 + 2 * i + 1) :=
    filter_isFar_barrier fun i hi => hfar (.localTopK hi)
  have hstageA : d.isFar (m + 1) (.of (m + 2)) = true := by
    have hfarA : d.isFar (m + 1) (.of (m + 2)) = (m != m + 1) := hfar .accumulate (m + 1)
    simp [hfarA]
  have hstageB : d.isFar (m + 2) (.of (m + 3)) = true := by
    have hfarB : d.isFar (m + 2) (.of (m + 3)) = (m + 1 != m + 2) := hfar .stageA (m + 2)
    simp [hfarB]
  rw [Graph.values_of_crossings hfound, hnone, hnodes, List.flatMap_map, hplaced, flowNodes]
  simp only [List.flatMap_append, List.flatMap_cons, List.flatMap_nil, List.flatMap_assoc,
    List.append_nil, List.filter_nil, List.nil_append, rankingNodes]
  rw [hgather, Nat.add_sub_cancel, haccumulate, hlogits, hmerge, List.filter_singleton,
    List.filter_singleton, hstageA, hstageB, crossingValues]
  simp

end Flow

/-! ## Building -/

section Build

variable {plan : Plan} {v n k : Nat} {coalesce : Bool}

/-- How many copies the graph of `n` shards has. -/
def builtCopies (n : Nat) (coalesce : Bool) : Nat :=
  if coalesce then if n = 1 then 3 else 2 * n + 2 else 4 * n - 1

theorem countP_shard_flowNodes (n k : Nat) :
    ((flowNodes n k).map (·.1)).countP (·.op.shard?.isSome) = 3 * n := by
  simp [flowNodes, rankingNodes, List.countP_append, List.countP_map, List.countP_flatMap,
    Function.comp_def, Operation.shard?]
  omega

/-- A graph that was built is the dataflow with copies inserted, and with copies joined if that
was asked for. -/
theorem exists_crossings_of_build (hbuild : build plan ⟨k, coalesce⟩ = .ok g) :
    ∃ found, (dataflow plan k).crossings = .ok found ∧
      g = if coalesce then (found.foldl route (dataflow plan k)).coalesceCopies.1
        else found.foldl route (dataflow plan k) := by
  obtain ⟨_, -, hwidths⟩ := Outcome.bind_eq_ok.mp hbuild
  obtain ⟨_, -, hcount⟩ := Outcome.bind_eq_ok.mp hwidths
  obtain ⟨_, -, hinsert⟩ := Outcome.bind_eq_ok.mp hcount
  obtain ⟨⟨g', count⟩, hinserted, hvalidate⟩ := Outcome.bind_eq_ok.mp hinsert
  obtain ⟨found, hfound, hrouted⟩ := Outcome.bind_eq_ok.mp hinserted
  obtain ⟨_, -, hg⟩ := Outcome.bind_eq_ok.mp hvalidate
  cases hrouted
  exact ⟨found, hfound, (Except.ok.inj hg).symm⟩

/-- Each shard has a lookup, scores and candidates. -/
theorem shardTaskCount_of_build (h : plan.CutOf v n) (hbuild : build plan ⟨k, coalesce⟩ = .ok g) :
    g.shardTaskCount = 3 * n := by
  obtain ⟨found, hfound, rfl⟩ := exists_crossings_of_build hbuild
  have hinserted : (found.foldl route (dataflow plan k)).shardTaskCount = 3 * n := by
    refine (countP_insertCopies hfound (P := (·.shard?.isSome)) fun _ => rfl).trans ?_
    rw [dataflow_nodes, h.shardCount, countP_shard_flowNodes]
  split
  · exact (countP_coalesceCopies _ (P := (·.shard?.isSome)) fun _ => rfl).trans hinserted
  · exact hinserted

theorem copyCount_of_build (h : plan.CutOf v n) (hbuild : build plan ⟨k, coalesce⟩ = .ok g) :
    g.copyCount = builtCopies n coalesce := by
  obtain ⟨found, hfound, rfl⟩ := exists_crossings_of_build hbuild
  obtain ⟨hflow, hplan⟩ := dataflow_flow plan k
  have hnodes := dataflow_nodes plan k
  have hcount : (dataflow plan k).plan.shardCount = n := by rw [hplan, h.shardCount]
  rw [h.shardCount] at hflow hnodes
  have hnone : ∀ n ∈ (dataflow plan k).nodes, n.op.isCopy = false :=
    fun n hn => hflow.isCopy_eq_false hn
  have hinsert : (dataflow plan k).insertCopies =
      .ok (found.foldl route (dataflow plan k), found.length) :=
    Outcome.bind_eq_ok.mpr ⟨found, hfound, rfl⟩
  have hvalid := hflow.valid h.pos hcount (insertCopies_routes hinsert)
  obtain ⟨m, rfl⟩ : ∃ m, n = m + 1 := ⟨n - 1, (Nat.sub_add_cancel h.pos).symm⟩
  have hvalues := hflow.values_of_crossings hnodes hfound
  cases coalesce with
  | true =>
      rw [if_pos rfl, hvalid.copyCount_coalesceCopies, copiedValues_insertCopies hfound hnone,
        hvalues, card_crossingValues, builtCopies, if_pos rfl]
      split
      · next hm => rw [hm, if_pos rfl]
      · rw [if_neg (by omega)]
        omega
  | false =>
      rw [if_neg (by decide), copyCount_insertCopies hfound hnone, builtCopies,
        if_neg (by decide), ← List.length_map (·.value), hvalues, length_crossingValues]
      omega

theorem narrowest_of_le {s : Shard × Nat} {rest : List (Shard × Nat)}
    (h : ∀ e ∈ rest, s.2 ≤ e.2) : narrowest (s :: rest) = some s := by
  rw [narrowest]
  congr 1
  induction rest with
  | nil => rfl
  | cons e rest ih =>
      obtain ⟨he, hrest⟩ := List.forall_mem_cons.mp h
      rw [List.foldl_cons, if_neg (Nat.not_lt.mpr he), ih hrest]

/-- No graph is built for no candidates. -/
theorem build_of_zero (plan : Plan) (coalesce : Bool) :
    build plan ⟨0, coalesce⟩ = .error (.config .zeroTopK) := rfl

/-- Nor for more candidates than a shard has ids. The first shard is among the narrowest. -/
theorem build_of_lt (h : plan.CutOf v n) (hk : v / n < k) (coalesce : Bool) :
    build plan ⟨k, coalesce⟩ = .error (.emptyShard 0 (v / n) k) := by
  obtain ⟨m, rfl⟩ : ∃ m, n = m + 1 := ⟨n - 1, (Nat.sub_add_cancel h.pos).symm⟩
  have hfirst : Plan.bound v (m + 1) 1 - Plan.bound v (m + 1) 0 = v / (m + 1) := by
    rw [Plan.bound_zero h.pos, Plan.bound, Nat.sub_zero]
    split
    · next hone => rw [← hone, Nat.div_one]
    · rw [Nat.one_mul]
  have hnarrowest : narrowest ((List.range (m + 1)).map fun i => (Plan.shardAt v (m + 1) i,
      Plan.bound v (m + 1) (i + 1) - Plan.bound v (m + 1) i)) =
      some (Plan.shardAt v (m + 1) 0, v / (m + 1)) := by
    rw [List.range_succ_eq_map, List.map_cons, Nat.zero_add, hfirst]
    refine narrowest_of_le fun e he => ?_
    obtain ⟨j, hj, rfl⟩ := List.mem_map.mp he
    obtain ⟨i, hi, rfl⟩ := List.mem_map.mp hj
    have hle : Plan.bound v (m + 1) (i + 1) + v / (m + 1) ≤ Plan.bound v (m + 1) (i + 1 + 1) :=
      Plan.bound_add_le (Nat.succ_lt_succ (List.mem_range.mp hi))
    exact Nat.le_sub_of_add_le' hle
  have hwidths : checkWidths plan k = .error (.emptyShard 0 (v / (m + 1)) k) := by
    rw [checkWidths, widths_of_cut h, Outcome.ok_bind, hnarrowest]
    exact ensure_of_not (Nat.not_le.mpr hk)
  have hpos : k ≠ 0 := Nat.ne_of_gt (Nat.lt_of_le_of_lt (Nat.zero_le _) hk)
  rw [build, ensure_of hpos, Outcome.ok_bind, hwidths]
  rfl

/-- A graph is built for the numbers of candidates that every shard can give. -/
theorem exists_build_iff (h : plan.CutOf v n) (coalesce : Bool) :
    (∃ g, build plan ⟨k, coalesce⟩ = .ok g) ↔ 1 ≤ k ∧ k ≤ v / n := by
  constructor
  · intro hbuilt
    obtain ⟨g, hg⟩ := hbuilt
    by_cases hk : k = 0
    · rw [hk, build_of_zero] at hg
      cases hg
    · by_cases hle : k ≤ v / n
      · omega
      · rw [build_of_lt h (Nat.not_le.mp hle) coalesce] at hg
        cases hg
  · intro hk
    obtain ⟨g, hg, -⟩ := exists_build h hk.1 hk.2 coalesce
    exact ⟨g, hg⟩

end Build

end ShardedModel.Graph
