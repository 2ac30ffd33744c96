import ShardedModel.Proofs.CopiedValues

/-!
# The inference graph as a table

What the graph of a plan computes is a table with one line for each operation: where it
runs, and whose values it reads, in order. The table says nothing of ids and copies. The
nodes of a built graph that are no copies are the lines of the table, one for one, if
copies are followed back, and the number of candidates alone decides whether there is a
graph at all.

The copies are counted, and described by what they are for: without joining each has one
destination, and after joining there is one for each value that is read on other
partitions, with these for its destinations.
-/

namespace ShardedModel.Graph

variable {g : Graph}

/-! ## The table -/

/-- A line of the table: an operation, where it runs, and whose values it reads. -/
structure Step where
  op : Operation
  place : PartitionId
  reads : List Operation
deriving DecidableEq, Repr

/-- The operations for `n` shards and `k` candidates, in the order of their nodes. -/
def steps (n k : Nat) : List Step :=
  ([⟨.input, 0, []⟩] ++ (List.range n).flatMap (fun i => [⟨.gather i, i, [.input]⟩]) ++
    [⟨.accumulate, n - 1, (List.range n).map .gather⟩]) ++
  ([⟨.stageA, n, [.accumulate]⟩, ⟨.stageB, n + 1, [.stageA]⟩] ++
  ((List.range n).flatMap (fun i =>
      [⟨.shardLogits i, i, [.stageB]⟩, ⟨.localTopK i k, i, [.shardLogits i]⟩]) ++
    [⟨.merge k, n - 1, (List.range n).map (.localTopK · k)⟩]))

/-- The node does what the line says, if the values it reads are followed back to where they
come from. -/
structure Performs (g : Graph) (m : Node) (s : Step) : Prop where
  op : m.op = s.op
  place : g.placement m.id = some s.place
  reads : List.Forall₂ (fun w op => ∃ u ∈ g.nodes, u.op = op ∧ g.ComesFrom w (.of u.id))
    m.inputs s.reads

/-- The nodes that are no copies are the lines of the table, and the output is the merge. -/
structure Computes (g : Graph) (n k : Nat) : Prop where
  partitions : g.partitions = n + 2
  nodes : List.Forall₂ g.Performs (g.nodes.filter (!·.op.isCopy)) (steps n k)
  output : ∃ u ∈ g.nodes, u.op = .merge k ∧ g.output? = some (.of u.id)

/-! ## The dataflow -/

/-- The value of a node of the dataflow with this operation. -/
def FlowValue (n k : Nat) (v : ValueRef) (op : Operation) : Prop :=
  ∃ u p, FlowNode n k u p ∧ u.op = op ∧ v = .of u.id

theorem FlowNode.value {n k : Nat} {u : Node} {p : PartitionId} (h : FlowNode n k u p) :
    FlowValue n k (.of u.id) u.op :=
  ⟨u, p, h, rfl, rfl⟩

/-- One value from each shard. -/
theorem forall₂_flowValue {n k : Nat} {id : Nat → NodeId} {op : Nat → Operation}
    (h : ∀ i < n, FlowValue n k (.of (id i)) (op i)) :
    List.Forall₂ (FlowValue n k) ((List.range n).map fun i => .of (id i))
      ((List.range n).map op) := by
  rw [List.forall₂_map_left_iff, List.forall₂_map_right_iff, List.forall₂_same]
  intro i hi
  exact h i (List.mem_range.mp hi)

/-- The lines of the table, in terms of the nodes of the dataflow. -/
theorem forall₂_flowNodes (n k : Nat) : List.Forall₂ (fun e s => e.1.op = s.op ∧ e.2 = s.place ∧
    List.Forall₂ (FlowValue n k) e.1.inputs s.reads) (flowNodes n k) (steps n k) := by
  have hshards : List.Forall₂ (fun i j => i = j ∧ i < n) (List.range n) (List.range n) :=
    List.forall₂_same.mpr fun i hi => ⟨rfl, List.mem_range.mp hi⟩
  refine List.rel_append (List.rel_append (List.rel_append ?_ ?_) ?_) (List.rel_append ?_
    (List.rel_append ?_ ?_))
  · exact .cons ⟨rfl, rfl, .nil⟩ .nil
  · refine List.rel_flatMap hshards fun i j hij => ?_
    obtain ⟨rfl, hi⟩ := hij
    exact .cons ⟨rfl, rfl, .cons FlowNode.input.value .nil⟩ .nil
  · exact .cons ⟨rfl, rfl, forall₂_flowValue fun i hi => (FlowNode.gather hi).value⟩ .nil
  · exact .cons ⟨rfl, rfl, .cons FlowNode.accumulate.value .nil⟩
      (.cons ⟨rfl, rfl, .cons FlowNode.stageA.value .nil⟩ .nil)
  · refine List.rel_flatMap hshards fun i j hij => ?_
    obtain ⟨rfl, hi⟩ := hij
    exact .cons ⟨rfl, rfl, .cons FlowNode.stageB.value .nil⟩
      (.cons ⟨rfl, rfl, .cons (FlowNode.shardLogits hi).value .nil⟩ .nil)
  · exact .cons ⟨rfl, rfl, forall₂_flowValue fun i hi => (FlowNode.localTopK hi).value⟩ .nil

theorem forall₂_comp {α β γ : Type} {R : α → β → Prop} {S : β → γ → Prop} {T : α → γ → Prop}
    (hcomp : ∀ a b c, R a b → S b c → T a c) {as : List α} {bs : List β} {cs : List γ}
    (h : List.Forall₂ R as bs) (h' : List.Forall₂ S bs cs) : List.Forall₂ T as cs := by
  induction h generalizing cs with
  | nil =>
      cases h'
      exact .nil
  | cons hab _ ih =>
      cases h' with
      | cons hbc h' => exact .cons (hcomp _ _ _ hab hbc) (ih h')

/-- However its values are routed, the dataflow computes the table. -/
theorem Flow.computes {d : Graph} {n k : Nat} (hflow : Flow d n k)
    (hnodes : d.nodes = (flowNodes n k).map (·.1)) (hroutes : Routes d g) : g.Computes n k := by
  have hd : ∀ m ∈ d.nodes, m.op.isCopy = false := fun m hm => hflow.isCopy_eq_false hm
  have hvalue : ∀ w v op, g.ComesFrom w v → FlowValue n k v op →
      ∃ u ∈ g.nodes, u.op = op ∧ g.ComesFrom w (.of u.id) := by
    intro w v op hfrom hv
    obtain ⟨u, p, hu, rfl, rfl⟩ := hv
    obtain ⟨u', hu', hid, hop, -⟩ := hroutes.kept u (hflow.mem hu)
    exact ⟨u', hu', hop, hid ▸ hfrom⟩
  refine ⟨hroutes.partitions.trans hflow.partitions, ?_, ?_⟩
  · have hkept := hroutes.forall₂_nodes hd
    rw [hnodes, List.forall₂_map_right_iff] at hkept
    have hplaced : List.Forall₂ (fun e s => FlowNode n k e.1 e.2 ∧ e.1.op = s.op ∧
        e.2 = s.place ∧ List.Forall₂ (FlowValue n k) e.1.inputs s.reads)
        (flowNodes n k) (steps n k) := by
      obtain ⟨hlength, hzip⟩ := List.forall₂_iff_zip.mp (forall₂_flowNodes n k)
      exact List.forall₂_iff_zip.mpr ⟨hlength, fun {e s} hin =>
        ⟨mem_flowNodes.mp (List.of_mem_zip hin).1, hzip hin⟩⟩
    refine forall₂_comp (fun m e s hm he => ?_) hkept hplaced
    obtain ⟨hop, hplace, hinputs⟩ := hm
    obtain ⟨hnode, hop', hplace', hreads⟩ := he
    exact ⟨hop.trans hop', by rw [hplace, hflow.placement e.1 e.2 hnode, hplace'],
      forall₂_comp hvalue hinputs hreads⟩
  · obtain ⟨u, hu, hid, hop, -⟩ := hroutes.kept _ (hflow.mem .merge)
    exact ⟨u, hu, hop, by rw [hid, hroutes.output, hflow.output]⟩

/-! ## Ids -/

theorem nextId_dataflow (plan : Plan) (k : Nat) :
    (dataflow plan k).nextId = 3 * plan.shardCount + 5 := by
  have hframe := placeWeights_frame (.empty plan (plan.shardCount + 2)) plan.shardCount
  refine (grows_flowNodes hframe.2.1 plan.shardCount k).nextId.trans ?_
  rw [hframe.2.1]
  show 0 + (flowNodes plan.shardCount k).length = _
  simp [flowNodes, rankingNodes]
  omega

section Build

variable {plan : Plan} {v n k : Nat} {coalesce : Bool}

/-- A copy takes an id even if it goes again, so the ids do not depend on joining. -/
theorem nextId_of_build (h : plan.CutOf v n) (hbuild : build plan ⟨k, coalesce⟩ = .ok g) :
    g.nextId = 7 * n + 4 := by
  obtain ⟨found, hfound, rfl⟩ := exists_crossings_of_build hbuild
  obtain ⟨hflow, -⟩ := dataflow_flow plan k
  have hnodes := dataflow_nodes plan k
  have hnext := nextId_dataflow plan k
  rw [h.shardCount] at hflow hnodes hnext
  obtain ⟨m, rfl⟩ : ∃ m, n = m + 1 := ⟨n - 1, (Nat.sub_add_cancel h.pos).symm⟩
  have hlength : found.length = 4 * m + 3 := by
    rw [← List.length_map (·.value), hflow.values_of_crossings hnodes hfound,
      length_crossingValues]
  have hrouted : (found.foldl route (dataflow plan k)).nextId = 7 * (m + 1) + 4 := by
    rw [nextId_foldl_route, hnext, hlength]
    show 3 * (m + 1) + 5 + (4 * m + 3) = _
    omega
  cases coalesce with
  | true => exact hrouted
  | false => exact hrouted

/-! ## Building -/

/-- What the graph of a cut plan is, and when there is one. It is built exactly for the numbers
of candidates that every shard can give. It passes the check and computes the table, and its
ids are words if the shards have room. Without joining there is a copy for each value that a node
gets from elsewhere; with joining there is one for each value that is read elsewhere, and it
delivers it to where it is read. -/
theorem build_outcomes {v n : Nat} (hn : 1 ≤ n) (hle : n ≤ v) (hv : v < Word.limit) :
    ∃ plan : Plan, Plan.cut v n = (Storage.reserve Plan.shardBytes n >>= fun _ => .ok plan) ∧
      ∀ (k : Nat) (coalesce : Bool),
        ((∃ g, build plan ⟨k, coalesce⟩ = .ok g) ↔ 1 ≤ k ∧ k ≤ v / n) ∧
        (k = 0 → build plan ⟨k, coalesce⟩ = .error (.config .zeroTopK)) ∧
        (v / n < k → build plan ⟨k, coalesce⟩ = .error (.emptyShard 0 (v / n) k)) ∧
        ∀ g, build plan ⟨k, coalesce⟩ = .ok g →
          g.validate = .ok () ∧ g.Computes n k ∧ g.nextId = 7 * n + 4 ∧
          (Plan.shardBytes * n < Word.signedLimit → g.nextId < Word.limit) ∧
          (coalesce = false → g.copyCount = 4 * n - 1 ∧
            ∀ m ∈ g.nodes, m.op.isCopy = true → ∃ p, m.op = .copy [p]) ∧
          (coalesce = true →
            g.copyCount = (if n = 1 then 3 else 2 * n + 2) ∧ g.CopiesJoined) := by
  obtain ⟨plan, hplan, hcut⟩ := Plan.exists_cut hn hle hv
  refine ⟨plan, hplan, fun k coalesce => ?_⟩
  have hzero : k = 0 → build plan ⟨k, coalesce⟩ = .error (.config .zeroTopK) := by
    intro hk
    rw [hk]
    exact build_of_zero plan coalesce
  have hiff := exists_build_iff (k := k) hcut coalesce
  refine ⟨hiff, hzero, fun hk => build_of_lt hcut hk coalesce, fun g hg => ?_⟩
  obtain ⟨hpos, hk⟩ := hiff.mp ⟨g, hg⟩
  obtain ⟨g', hg', hroutes, hvalid⟩ := exists_build hcut hpos hk coalesce
  rw [hg, Except.ok.injEq] at hg'
  subst hg'
  obtain ⟨hflow, -⟩ := dataflow_flow plan k
  have hnodes := dataflow_nodes plan k
  rw [hcut.shardCount] at hflow hnodes
  have hd : ∀ m ∈ (dataflow plan k).nodes, m.op.isCopy = false :=
    fun m hm => hflow.isCopy_eq_false hm
  obtain ⟨found, hfound, heq⟩ := exists_crossings_of_build hg
  have hcopies := copyCount_of_build hcut hg
  have hnext := nextId_of_build hcut hg
  refine ⟨validate_eq_ok.mpr hvalid, hflow.computes hnodes hroutes, hnext, fun hroom => ?_,
    fun hc => ?_, fun hc => ?_⟩
  · have hlimit : 7 * n + 4 < Word.limit := by
      simp only [Plan.shardBytes, Storage.wordBytes, Word.signedLimit, Word.limit] at hroom ⊢
      omega
    rw [hnext]
    exact hlimit
  · subst hc
    refine ⟨hcopies, fun m hm hop => ?_⟩
    rw [heq] at hm
    obtain ⟨j, c, -, rfl⟩ := (mem_copies_foldl_route hfound hd).mp ⟨hm, hop⟩
    exact ⟨c.destination, rfl⟩
  · subst hc
    refine ⟨hcopies, ?_⟩
    rw [heq]
    exact copiesJoined_coalesceCopies hfound hd fun w hw => (hflow.output_has hw).2

/-- Five ids in two shards, with as many candidates as the narrower one has ids. -/
theorem build_outcomes_uneven :
    ∃ plan g, Plan.cut 5 2 = .ok plan ∧
      build plan ⟨3, true⟩ = .error (.emptyShard 0 2 3) ∧ build plan ⟨2, true⟩ = .ok g ∧
      g.Computes 2 2 ∧ g.copyCount = 6 ∧ g.CopiesJoined := by
  obtain ⟨plan, hplan, houtcomes⟩ := build_outcomes (v := 5) (n := 2) (by decide) (by decide)
    (by decide)
  rw [Storage.reserve, ensure_of (by decide)] at hplan
  obtain ⟨-, -, hlarge, -⟩ := houtcomes 3 true
  obtain ⟨hiff, -, -, hbuilt⟩ := houtcomes 2 true
  obtain ⟨g, hg⟩ := hiff.mpr (by decide)
  obtain ⟨-, hcomputes, -, -, -, hjoined⟩ := hbuilt g hg
  exact ⟨plan, g, hplan, hlarge (by decide), hg, hcomputes, hjoined rfl⟩

end Build

end ShardedModel.Graph
