import Mathlib.Data.Set.Card
import ShardedModel.Proofs.ComponentFailures
import ShardedModel.Proofs.Copies

/-!
# Inserting copies repairs what is read from afar

The pass that inserts copies refuses a graph in which some node has no place or reads a value
that does not resolve. Of any other graph it repairs the far reads, the inputs that live on
another partition than the node that reads them, and nothing else: each gets a copy of its own,
and afterwards there are none.

The pass finds all crossings before it adds the first copy. `insertCopiesInPlace` is the same pass
on a graph that is changed step by step and keeps the changes of the steps before a failure. That
it leaves a refused graph as it was, and that no step after the search can fail, is
`run_insertCopiesInPlace`: the ids and positions of the crossings still hold when it is their
turn, however many copies were added before.
-/

namespace ShardedModel.Graph

open Outcome

variable {g : Graph}

/-! ## What can be refused -/

/-- Each node that is no copy has a place, and all that it reads resolves. -/
def Resolved (g : Graph) : Prop :=
  ∀ n ∈ g.nodes, n.op.isCopy = false → (∃ p, g.placement n.id = some p) ∧
    ∀ v ∈ n.inputs, ∃ q, g.valuePartition v = .ok q

/-- The failures of a graph whose placement is wrong. -/
def OfPlacement (e : Failure) : Prop := ∃ cause, e = .placement cause

theorem partitionOf_fails (g : Graph) (id : NodeId) :
    (g.partitionOf id).FailsWithin OfPlacement := by
  unfold partitionOf
  split
  · exact .ok _
  · exact .error ⟨_, rfl⟩

theorem valuePartition_fails (g : Graph) (v : ValueRef) :
    (g.valuePartition v).FailsWithin OfPlacement := by
  refine .bind ?_ fun n _ => ?_
  · unfold node
    split
    · exact .ok _
    · exact .error ⟨_, rfl⟩
  · split
    · split
      · exact .ok _
      · exact .error ⟨_, rfl⟩
    · split
      · exact g.partitionOf_fails v.node
      · exact .error ⟨_, rfl⟩

theorem crossings_fails (g : Graph) : g.crossings.FailsWithin OfPlacement := by
  refine .bind (.mapM fun n _ => ?_) fun _ _ => .ok _
  refine .bind (g.partitionOf_fails n.id) fun _ _ => .bind (.mapM fun e _ => ?_) fun _ _ => .ok _
  exact .bind (g.valuePartition_fails e.1) fun _ _ => .ok _

/-- A graph that is refused is refused for its placement. -/
theorem crossings_of_not_resolved (h : ¬ g.Resolved) :
    ∃ cause, g.crossings = .error (.placement cause) := by
  cases hfound : g.crossings with
  | ok found => exact absurd (crossings_eq_ok hfound).1 h
  | error e =>
      obtain ⟨cause, rfl⟩ := g.crossings_fails e hfound
      exact ⟨cause, rfl⟩

/-! ## Far reads -/

/-- Input `i` of the node `id`, which is no copy, lives on another partition than the node. -/
def FarRead (g : Graph) (id : NodeId) (i : Nat) : Prop :=
  ∃ n ∈ g.nodes, n.id = id ∧ n.op.isCopy = false ∧ ∃ v p q, n.inputs[i]? = some v ∧
    g.placement id = some p ∧ g.valuePartition v = .ok q ∧ q ≠ p

/-- The far reads of a graph, each with its node and its position. -/
def farReads (g : Graph) : Set (NodeId × Nat) := {r | g.FarRead r.1 r.2}

theorem farRead_of_mem {n : Node} (hn : n ∈ g.nodes) {i : Nat} :
    g.FarRead n.id i ↔ n.op.isCopy = false ∧ ∃ v p q, n.inputs[i]? = some v ∧
      g.placement n.id = some p ∧ g.valuePartition v = .ok q ∧ q ≠ p := by
  constructor
  · rintro ⟨m, hm, hid, hfar⟩
    obtain rfl : m = n := eq_of_key_eq g.ordered hm hn hid
    exact hfar
  · intro hfar
    exact ⟨n, hn, rfl, hfar⟩

section Crossings

variable {found : List Crossing}

theorem farRead_iff (hfound : g.crossings = .ok found) {id : NodeId} {i : Nat} :
    g.FarRead id i ↔ ∃ c ∈ found, c.consumer = id ∧ c.position = i := by
  have hcrossing := (crossings_eq_ok hfound).2
  constructor
  · rintro ⟨n, hn, rfl, hop, v, p, q, hv, hplace, hvalue, hne⟩
    exact ⟨⟨n.id, i, v, q, p⟩, (hcrossing _).mpr ⟨n, hn, hop, rfl, hv, hplace, hvalue, hne⟩,
      rfl, rfl⟩
  · rintro ⟨c, hc, rfl, rfl⟩
    obtain ⟨n, hn, hop, hconsumer, hv, hplace, hvalue, hne⟩ := (hcrossing c).mp hc
    exact ⟨n, hn, hconsumer.symm, hop, c.value, c.destination, c.source, hv,
      hconsumer ▸ hplace, hvalue, hne⟩

/-- The crossings of one node are found from its first input to its last. -/
theorem pairwise_crossingsOf {n : Node} (h : g.crossingsOf n = .ok found) :
    found.Pairwise (fun a b => a.position < b.position) := by
  obtain ⟨destination, -, h⟩ := Outcome.bind_eq_ok.mp h
  obtain ⟨inputs, hinputs, h⟩ := Outcome.bind_eq_ok.mp h
  rw [Except.ok.injEq] at h
  subst h
  refine List.Pairwise.filter _ ?_
  have hpositions : inputs.map (·.position) = n.inputs.zipIdx.map (·.2) := by
    rw [← List.forall₂_eq_eq_eq, List.forall₂_map_left_iff, List.forall₂_map_right_iff]
    refine (Outcome.mapM_eq_ok.mp hinputs).flip.imp fun c e hc => ?_
    obtain ⟨source, -, hc⟩ := Outcome.bind_eq_ok.mp hc
    cases hc
    rfl
  rw [← List.pairwise_map (f := Crossing.position), hpositions, List.zipIdx_map_snd]
  exact List.pairwise_lt_range'

/-- No input is found to cross twice. -/
theorem nodup_crossings (hfound : g.crossings = .ok found) :
    (found.map fun c => (c.consumer, c.position)).Nodup := by
  obtain ⟨lists, hlists, h⟩ := Outcome.bind_eq_ok.mp hfound
  rw [Except.ok.injEq] at h
  subst h
  have hforall := Outcome.mapM_eq_ok.mp hlists
  clear hfound hlists
  have hordered := g.ordered.filter (fun n => !n.op.isCopy)
  generalize g.nodes.filter (fun n => !n.op.isCopy) = nodes at hforall hordered
  rw [List.Nodup, List.pairwise_map]
  induction hforall with
  | nil => exact .nil
  | @cons n found nodes lists hn hforall ih =>
      obtain ⟨hfirst, hordered⟩ := List.pairwise_cons.mp hordered
      obtain ⟨_, -, -, hmem⟩ := crossingsOf_eq_ok hn
      -- Within a node the positions differ, and between two nodes their ids.
      refine List.pairwise_append.mpr ⟨?_, ih hordered, fun a ha b hb => ?_⟩
      · refine (pairwise_crossingsOf hn).imp fun hlt heq => ?_
        exact Nat.ne_of_lt hlt (Prod.mk.inj heq).2
      · obtain ⟨found', hfound', hb⟩ := List.mem_flatten.mp hb
        obtain ⟨m, hm, hcrossings⟩ := Outcome.exists_of_forall₂ hforall.flip hfound'
        obtain ⟨_, -, -, hmem'⟩ := crossingsOf_eq_ok hcrossings
        have hlt := hfirst m hm
        rw [← ((hmem a).mp ha).2.2.1, ← ((hmem' b).mp hb).2.2.1] at hlt
        exact fun heq => Nat.ne_of_lt hlt (Prod.mk.inj heq).1

theorem encard_farReads (hfound : g.crossings = .ok found) : g.farReads.encard = found.length := by
  have hreads : g.farReads = ((found.map fun c => (c.consumer, c.position)).toFinset : Set _) := by
    ext ⟨id, i⟩
    rw [Finset.mem_coe, List.mem_toFinset, List.mem_map]
    refine (farRead_iff hfound).trans ?_
    simp only [Prod.mk.injEq]
  rw [hreads, Set.encard_coe_eq_coe_finsetCard,
    List.toFinset_card_of_nodup (nodup_crossings hfound), List.length_map]

theorem insertCopies_eq (hfound : g.crossings = .ok found) :
    g.insertCopies = .ok (found.foldl route g, found.length) := by
  rw [insertCopies, hfound]
  rfl

end Crossings

/-! ## The pass on a graph that is changed as it goes -/

/-- Sends a crossing through a copy: adds the copy, then looks for the node that reads it and
writes the input. -/
def routeInPlace (c : Crossing) : ExceptT Failure (StateM Graph) Unit := do
  let g ← get
  set (g.addNode (.copy [c.destination]) [c.value] c.source)
  let grown ← get
  let n ← liftExcept (grown.node c.consumer)
  liftExcept (ensure (c.position < n.inputs.length) .fault)
  set (grown.setInput c.consumer c.position (.of g.nextId))

/-- Gives each crossing a copy, and says how many there were. A failure leaves what has been
changed by then. -/
def insertCopiesInPlace : ExceptT Failure (StateM Graph) Nat := do
  let g ← get
  let found ← liftExcept g.crossings
  found.forM routeInPlace
  return found.length

/-- The crossing is at an input that the graph has. -/
def IsInput (g : Graph) (c : Crossing) : Prop :=
  ∃ n ∈ g.nodes, n.id = c.consumer ∧ c.position < n.inputs.length

theorem run_routeInPlace {c : Crossing} (h : g.IsInput c) :
    (routeInPlace c).run.run g = (.ok (), g.route c) := by
  obtain ⟨n, hn, hid, hposition⟩ := h
  have hgrown : n ∈ (g.addNode (.copy [c.destination]) [c.value] c.source).nodes :=
    List.mem_append_left _ hn
  rw [routeInPlace, run_bind_of_ok _ (run_get g), run_bind_of_ok _ (run_set g _),
    run_bind_of_ok _ (run_get _),
    run_bind_of_ok _ ((run_liftExcept _ _).trans (by rw [← hid, node_of_mem _ hgrown])),
    run_bind_of_ok _ ((run_liftExcept _ _).trans (by rw [ensure_of hposition]))]
  exact run_set _ _

/-- Routing one crossing keeps the inputs of all others where they are. -/
theorem IsInput.route {c : Crossing} (h : g.IsInput c) (c' : Crossing) :
    (g.route c').IsInput c := by
  obtain ⟨n, hn, hid, hposition⟩ := h
  have hgrown : n ∈ (g.addNode (.copy [c'.destination]) [c'.value] c'.source).nodes :=
    List.mem_append_left _ hn
  refine ⟨_, List.mem_map.mpr ⟨n, hgrown, rfl⟩, hid, ?_⟩
  dsimp only
  split
  · rwa [List.length_set]
  · exact hposition

theorem run_forM_routeInPlace {cs : List Crossing} (h : ∀ c ∈ cs, g.IsInput c) :
    (cs.forM routeInPlace).run.run g = (.ok (), cs.foldl route g) := by
  induction cs generalizing g with
  | nil => rfl
  | cons c cs ih =>
      obtain ⟨hc, hcs⟩ := List.forall_mem_cons.mp h
      show (routeInPlace c >>= fun _ => cs.forM routeInPlace).run.run g = _
      rw [run_bind_of_ok _ (run_routeInPlace hc), List.foldl_cons]
      -- The graph has changed, but the crossings that are left are inputs of it too.
      exact ih fun c' hc' => (hcs c' hc').route c

theorem isInput_of_crossings {found : List Crossing} (hfound : g.crossings = .ok found)
    {c : Crossing} (hc : c ∈ found) : g.IsInput c := by
  obtain ⟨n, hn, -, hconsumer, hv, -⟩ := ((crossings_eq_ok hfound).2 c).mp hc
  exact ⟨n, hn, hconsumer.symm, (List.getElem?_eq_some_iff.mp hv).1⟩

/-- The pass changes the graph into what it gives, and leaves it as it was if it fails. -/
theorem run_insertCopiesInPlace (g : Graph) :
    insertCopiesInPlace.run.run g =
      (g.insertCopies.map (·.2), (g.insertCopies.toOption.map (·.1)).getD g) := by
  rw [insertCopiesInPlace, run_bind_of_ok _ (run_get g)]
  cases hfound : g.crossings with
  | error e =>
      rw [run_bind_of_error _ (run_liftExcept _ _), insertCopies, hfound]
      rfl
  | ok found =>
      rw [run_bind_of_ok _ (run_liftExcept _ _), insertCopies_eq hfound,
        run_bind_of_ok _ (run_forM_routeInPlace fun _ => isInput_of_crossings hfound)]
      rfl

/-! ## Repaired graphs -/

/-- `g'` is `g` with a copy for each far read, and without far reads. -/
structure Repairs (g g' : Graph) : Prop where
  plan : g'.plan = g.plan
  partitions : g'.partitions = g.partitions
  weights : g'.weights = g.weights
  output : g'.output? = g.output?
  near : ∀ n ∈ g'.nodes, n.op.isCopy = false →
    ∃ p, g'.placement n.id = some p ∧ ∀ v ∈ n.inputs, g'.valuePartition v = .ok p
  fresh : ∀ m ∈ g'.nodes, ¬ g.Has m.id → ∃ v destination source, m.op = .copy [destination] ∧
    m.inputs = [v] ∧ g'.valuePartition v = .ok source ∧ g'.placement m.id = some source
  kept : ∀ n ∈ g.nodes, ∃ n' ∈ g'.nodes, n'.id = n.id ∧ n'.op = n.op ∧
    g'.placement n.id = g.placement n.id ∧ n'.inputs.length = n.inputs.length ∧
    ∀ i v, n.inputs[i]? = some v →
      (¬ g.FarRead n.id i → n'.inputs[i]? = some v) ∧
      (g.FarRead n.id i → ∃ m ∈ g'.nodes, ¬ g.Has m.id ∧ m.inputs = [v] ∧
        n'.inputs[i]? = some (.of m.id))

/-- A far read goes to a copy, and any other read stays as it was. -/
theorem Via.farRead {g' : Graph} {n : Node} (hn : n ∈ g.nodes) {i : Nat} {v w : ValueRef}
    (hv : n.inputs[i]? = some v) (hvia : Via g g' n v w) :
    (¬ g.FarRead n.id i ∧ w = v) ∨ (g.FarRead n.id i ∧ ∃ p, Delivers g g' v p w) := by
  rw [farRead_of_mem hn]
  cases hvia with
  | copy hop => exact .inl ⟨by simp [hop], rfl⟩
  | near hop hplace hvalue =>
      refine .inl ⟨?_, rfl⟩
      rintro ⟨-, v', p, q, hv', hplace', hvalue', hne⟩
      rw [hv, Option.some.injEq] at hv'
      rw [hplace, Option.some.injEq] at hplace'
      rw [← hv', hvalue, Except.ok.injEq] at hvalue'
      exact hne (hvalue'.symm.trans hplace')
  | far hop hplace hvalue hne hdelivers =>
      exact .inr ⟨⟨hop, v, _, _, hv, hplace, hvalue, hne⟩, _, hdelivers⟩

section Repaired

variable {found : List Crossing} (hfound : g.crossings = .ok found)

include hfound

/-- The new nodes are the copies of the crossings. -/
theorem exists_crossing {m : Node} (hm : m ∈ (found.foldl route g).nodes) (hid : ¬ g.Has m.id) :
    ∃ j c, found[j]? = some c ∧ m = ⟨g.nextId + j, .copy [c.destination], [c.value]⟩ := by
  rw [nodes_foldl_route fun _ => consumer_lt hfound] at hm
  rcases List.mem_append.mp hm with hm | hm
  · obtain ⟨n, hn, rfl⟩ := List.mem_map.mp hm
    exact absurd ⟨n, hn, rfl⟩ hid
  · exact mem_copiesFrom.mp hm

/-- A new copy has one destination, so what it delivers is its first slot. -/
theorem exists_copy_of_delivers {v w : ValueRef} {p : PartitionId}
    (h : Delivers g (found.foldl route g) v p w) :
    ∃ m ∈ (found.foldl route g).nodes, ¬ g.Has m.id ∧ m.inputs = [v] ∧ w = .of m.id := by
  obtain ⟨m, hm, hid, hnew, hreads, destinations, hop, hslot⟩ := h
  refine ⟨m, hm, hnew, hreads, ?_⟩
  obtain ⟨j, c, -, rfl⟩ := exists_crossing hfound hm hnew
  obtain rfl := Operation.copy.inj hop
  obtain ⟨hlt, -⟩ := List.getElem?_eq_some_iff.mp hslot
  have hzero : w.slot = 0 := Nat.lt_one_iff.mp hlt
  cases w
  cases hid
  cases hzero
  rfl

theorem repairs_of_crossings : Repairs g (found.foldl route g) := by
  have hroutes : Routes g (found.foldl route g) := insertCopies_routes (insertCopies_eq hfound)
  obtain ⟨hresolved, hcrossing⟩ := crossings_eq_ok hfound
  refine ⟨hroutes.plan, hroutes.partitions, hroutes.weights, hroutes.output, fun n' hn' hop => ?_,
    fun m hm hid => ?_, fun n hn => ?_⟩
  · -- Only an old node can be no copy, and what it reads now is near or was delivered.
    rcases hroutes.fresh n' hn' with hid | ⟨v, hv⟩
    · obtain ⟨n, hn, hid, hop', hplace', hinputs⟩ := hroutes.image hn' hid
      rw [hop'] at hop
      obtain ⟨⟨p, hplace⟩, -⟩ := hresolved n hn hop
      refine ⟨p, hplace'.trans hplace, fun w hw => ?_⟩
      obtain ⟨v, -, hvia⟩ := Outcome.exists_of_forall₂ hinputs.flip hw
      refine hroutes.valuePartition_of_via hplace hvia fun hcopy => ?_
      rw [hop] at hcopy
      cases hcopy
    · obtain ⟨destinations, -, hcopy⟩ := hv.delivers
      rw [hcopy] at hop
      cases hop
  · obtain ⟨j, c, hj, rfl⟩ := exists_crossing hfound hm hid
    obtain ⟨n, -, -, -, -, -, hvalue, -⟩ := (hcrossing c).mp (List.mem_of_getElem? hj)
    exact ⟨c.value, c.destination, c.source, rfl, rfl, hroutes.valuePartition hvalue,
      placement_foldl_route_copy hj⟩
  · obtain ⟨n', hn', hid, hop, hplace, hinputs⟩ := hroutes.kept n hn
    refine ⟨n', hn', hid, hop, hplace, hinputs.length_eq.symm, fun i v hv => ?_⟩
    obtain ⟨hi, heq⟩ := List.getElem?_eq_some_iff.mp hv
    have hi' : i < n'.inputs.length := hinputs.length_eq ▸ hi
    have hvia : Via g _ n n.inputs[i] n'.inputs[i] := hinputs.get hi hi'
    rw [heq] at hvia
    rw [List.getElem?_eq_getElem hi']
    rcases hvia.farRead hn hv with ⟨hnear, hsame⟩ | ⟨hfar, p, hdelivers⟩
    · exact ⟨fun _ => congrArg some hsame, fun hfar => absurd hfar hnear⟩
    · refine ⟨fun hnear => absurd hfar hnear, fun _ => ?_⟩
      obtain ⟨m, hm, hnew, hreads, hsent⟩ := exists_copy_of_delivers hfound hdelivers
      exact ⟨m, hm, hnew, hreads, congrArg some hsent⟩

end Repaired

/-- Where nothing is far, nothing is inserted. -/
theorem insertCopies_of_near (h : ∀ n ∈ g.nodes, n.op.isCopy = false →
    ∃ p, g.placement n.id = some p ∧ ∀ v ∈ n.inputs, g.valuePartition v = .ok p) :
    g.insertCopies = .ok (g, 0) := by
  obtain ⟨found, hfound⟩ := crossings_of_resolved (g := g) fun n hn hop => by
    obtain ⟨p, hplace, hnear⟩ := h n hn hop
    exact ⟨⟨p, hplace⟩, fun v hv => ⟨p, hnear v hv⟩⟩
  have hnone : found = [] := by
    rw [List.eq_nil_iff_forall_not_mem]
    intro c hc
    obtain ⟨n, hn, hop, -, hv, hplace, hvalue, hne⟩ := ((crossings_eq_ok hfound).2 c).mp hc
    obtain ⟨p, hplace', hnear⟩ := h n hn hop
    rw [hnear _ (List.mem_of_getElem? hv), Except.ok.injEq] at hvalue
    rw [hplace', Option.some.injEq] at hplace
    exact hne (hvalue.symm.trans hplace)
  rw [insertCopies_eq hfound, hnone]
  rfl

/-! ## Graphs that are valid but for far reads -/

/-- What a check of one node finds out if a node that is no copy may read from anywhere. -/
structure RepairableNode (g : Graph) (n : Node) (p : PartitionId) : Prop where
  placed : g.placement n.id = some p
  lt : p < g.partitions
  arity : n.inputs.length = n.op.arity g.plan.shardCount
  weight : g.checkWeight n.op p = .ok ()
  delivers : n.op ≠ .copy []
  resolves : ∀ v ∈ n.inputs, ∃ q, g.valuePartition v = .ok q
  near : n.op.isCopy = true → ∀ v ∈ n.inputs, g.valuePartition v = .ok p

/-- What a check of a whole graph finds out if a node that is no copy may read from anywhere. -/
structure Repairable (g : Graph) : Prop where
  input : g.nodes.countP (·.op == .input) = 1
  nodes : ∀ n ∈ g.nodes, ∃ p, g.RepairableNode n p
  output : ∃ v p, g.output? = some v ∧ g.valuePartition v = .ok p
  waves : ∃ ws, g.waves = .ok ws

/-- Far reads are all that can be wrong with a repairable graph. -/
theorem valid_iff_repairable : g.Valid ↔ g.Repairable ∧ g.farReads = ∅ := by
  rw [Set.eq_empty_iff_forall_notMem, Prod.forall]
  constructor
  · intro h
    refine ⟨⟨h.input, fun n hn => ?_, h.output, h.waves⟩, fun id i hfar => ?_⟩
    · obtain ⟨p, hp⟩ := h.nodes n hn
      exact ⟨p, hp.placed, hp.lt, hp.arity, hp.weight, hp.delivers,
        fun v hv => ⟨p, hp.near v hv⟩, fun _ => hp.near⟩
    · obtain ⟨n, hn, rfl, -, v, p, q, hv, hplace, hvalue, hne⟩ := hfar
      obtain ⟨p', hp'⟩ := h.nodes n hn
      rw [hp'.near v (List.mem_of_getElem? hv), Except.ok.injEq] at hvalue
      rw [hp'.placed, Option.some.injEq] at hplace
      exact hne (hvalue.symm.trans hplace)
  · rintro ⟨h, hnear⟩
    refine ⟨h.input, fun n hn => ?_, h.output, h.waves⟩
    obtain ⟨p, hp⟩ := h.nodes n hn
    refine ⟨p, hp.placed, hp.lt, hp.arity, hp.weight, hp.delivers, fun v hv => ?_⟩
    cases hop : n.op.isCopy with
    | true => exact hp.near hop v hv
    | false =>
        obtain ⟨q, hvalue⟩ := hp.resolves v hv
        obtain ⟨i, hi⟩ := List.getElem?_of_mem hv
        by_cases heq : q = p
        · exact heq ▸ hvalue
        · exact absurd ⟨n, hn, rfl, hop, v, p, q, hi, hp.placed, hvalue, heq⟩ (hnear n.id i)

/-- All copies deliver to partitions that exist. -/
def DeliversWithin (g : Graph) : Prop :=
  ∀ n ∈ g.nodes, ∀ destinations, n.op = .copy destinations → ∀ p ∈ destinations, p < g.partitions

theorem Repairable.valuePartition_lt (h : g.Repairable) (hwithin : g.DeliversWithin) {v : ValueRef}
    {p : PartitionId} (hv : g.valuePartition v = .ok p) : p < g.partitions := by
  obtain ⟨n, hn, hid, ⟨destinations, hop, hslot⟩ | ⟨-, -, hplace⟩⟩ := valuePartition_eq_ok.mp hv
  · exact hwithin n hn destinations hop p (List.mem_of_getElem? hslot)
  · obtain ⟨q, hq⟩ := h.nodes n hn
    rw [← hid, hq.placed, Option.some.injEq] at hplace
    exact hplace ▸ hq.lt

theorem Repairable.valid_of_routes {g' : Graph} (h : g.Repairable) (hwithin : g.DeliversWithin)
    (hroutes : Routes g g') : g'.Valid := by
  refine hroutes.valid h.input (fun n hn => ?_) (fun v p => h.valuePartition_lt hwithin) h.output
    h.waves
  obtain ⟨p, hp⟩ := h.nodes n hn
  exact ⟨p, hp.placed, hp.lt, hp.arity, hp.weight, hp.delivers, hp.near⟩

/-- Inserting copies refuses a graph that is not resolved and leaves it as it was. Of any other
graph it repairs the far reads and says how many there were, and a second time it does nothing. If
they were all that was wrong, and copies deliver to partitions that exist, the graph then passes the
check. -/
theorem insertCopies_repairs (g : Graph) :
    (¬ g.Resolved → ∃ cause, g.insertCopies = .error (.placement cause) ∧
      insertCopiesInPlace.run.run g = (.error (.placement cause), g)) ∧
    (g.Resolved → ∃ g' count, g.insertCopies = .ok (g', count) ∧
      insertCopiesInPlace.run.run g = (.ok count, g') ∧
      g.farReads.encard = count ∧ g'.nodeCount = g.nodeCount + count ∧ Repairs g g' ∧
      g'.insertCopies = .ok (g', 0) ∧
      (g.Repairable → g.DeliversWithin → g'.validate = .ok ())) ∧
    (g.validate = .ok () ↔ g.Repairable ∧ g.farReads = ∅) := by
  rw [run_insertCopiesInPlace]
  refine ⟨?_, ?_, validate_eq_ok.trans valid_iff_repairable⟩
  · intro h
    obtain ⟨cause, hcause⟩ := crossings_of_not_resolved h
    refine ⟨cause, ?_⟩
    rw [insertCopies, hcause]
    exact ⟨rfl, rfl⟩
  · intro h
    obtain ⟨found, hfound⟩ := crossings_of_resolved h
    have hinsert := insertCopies_eq hfound
    have hrepairs := repairs_of_crossings hfound
    refine ⟨_, _, hinsert, by rw [hinsert]; rfl, encard_farReads hfound, ?_, hrepairs,
      insertCopies_of_near hrepairs.near, fun hrepairable hwithin => ?_⟩
    · rw [nodeCount, nodes_foldl_route fun _ => consumer_lt hfound, List.length_append,
        List.length_map, length_copiesFrom]
      rfl
    · exact validate_eq_ok.mpr (hrepairable.valid_of_routes hwithin (insertCopies_routes hinsert))

/-- The tokens have a copy already, which one input of the sum reads while the other reads them
from afar. The last node reads the sum twice, from another partition. -/
def scattered : Graph :=
  let g := (Graph.empty ⟨2, [⟨0, 0, 1, 2, 2⟩, ⟨1, 1, 2, 2, 2⟩]⟩ 2).addNode .input [] 0
  let g := (g.addNode (.copy [1]) [.of 0] 0).addNode .accumulate [.of 0, .of 1] 1
  (g.addNode (.merge 1) [.of 2, .of 2] 0).setOutput (.of 3)

theorem nodes_scattered : scattered.nodes = [⟨0, .input, []⟩, ⟨1, .copy [1], [.of 0]⟩,
    ⟨2, .accumulate, [.of 0, .of 1]⟩, ⟨3, .merge 1, [.of 2, .of 2]⟩] := rfl

theorem crossings_scattered : scattered.crossings =
    .ok [⟨2, 0, .of 0, 0, 1⟩, ⟨3, 0, .of 2, 1, 0⟩, ⟨3, 1, .of 2, 1, 0⟩] := by cbv

theorem repairable_scattered : scattered.Repairable := by
  refine ⟨rfl, ?_, ⟨.of 3, 0, rfl, rfl⟩, [[0], [1], [2], [3]], by cbv⟩
  have htokens : scattered.valuePartition (.of 0) = .ok 0 := rfl
  have hcopy : scattered.valuePartition (.of 1) = .ok 1 := rfl
  have hsum : scattered.valuePartition (.of 2) = .ok 1 := rfl
  rw [nodes_scattered]
  simp only [List.forall_mem_cons]
  refine ⟨⟨0, rfl, by decide, rfl, rfl, by decide, by simp, by simp⟩,
    ⟨0, rfl, by decide, rfl, rfl, by decide, by simp [htokens], by simp [htokens]⟩,
    ⟨1, rfl, by decide, rfl, rfl, by decide, by simp [htokens, hcopy], by simp [Operation.isCopy]⟩,
    ⟨0, rfl, by decide, rfl, rfl, by decide, by simp [hsum], by simp [Operation.isCopy]⟩, by simp⟩

theorem insertCopies_repairs_scattered :
    (∃ g', scattered.insertCopies = .ok (g', 3) ∧ scattered.farReads.encard = 3 ∧
      Repairs scattered g' ∧ g'.insertCopies = .ok (g', 0) ∧ g'.validate = .ok ()) ∧
    ∃ cause, (scattered.setPlace 2 none).insertCopies = .error (.placement cause) ∧
      insertCopiesInPlace.run.run (scattered.setPlace 2 none) =
        (.error (.placement cause), scattered.setPlace 2 none) := by
  have hwithin : scattered.DeliversWithin := by
    rw [DeliversWithin, nodes_scattered]
    simp [scattered, setOutput, addNode, empty]
  have hrefused : ¬ (scattered.setPlace 2 none).Resolved := by
    intro h
    obtain ⟨⟨p, hp⟩, -⟩ := h ⟨2, .accumulate, [.of 0, .of 1]⟩ (by decide) rfl
    cases hp
  obtain ⟨g', count, hinsert, -, hreads, -, hrepairs, hagain, hvalid⟩ :=
    (insertCopies_repairs scattered).2.1 (crossings_eq_ok crossings_scattered).1
  obtain rfl : count = 3 := by
    rw [insertCopies_eq crossings_scattered] at hinsert
    cases hinsert
    rfl
  exact ⟨⟨g', hinsert, hreads, hrepairs, hagain, hvalid repairable_scattered hwithin⟩,
    (insertCopies_repairs (scattered.setPlace 2 none)).1 hrefused⟩

end ShardedModel.Graph
