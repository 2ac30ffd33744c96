import ShardedModel.Graph.Copies
import ShardedModel.Proofs.Placement

/-!
# What inserting copies does to a graph

Inserting copies leaves each node where it is and changes some of its inputs: an input
that lives elsewhere is replaced by a new copy of it. `Routes` says this of two graphs
without the order in which crossings were found, and all that a run needs follows from
it: that there is a schedule, and that the graph obeys the rules of placement.
-/

namespace ShardedModel.Graph

/-! ## Crossings -/

variable {g : Graph}

theorem crossingsOf_eq_ok {n : Node} {found : List Crossing} (h : g.crossingsOf n = .ok found) :
    ∃ destination, g.placement n.id = some destination ∧
      (∀ v ∈ n.inputs, ∃ source, g.valuePartition v = .ok source) ∧
      ∀ c, c ∈ found ↔ n.inputs[c.position]? = some c.value ∧
        g.valuePartition c.value = .ok c.source ∧ c.consumer = n.id ∧
        c.destination = destination ∧ c.source ≠ c.destination := by
  obtain ⟨destination, hplace, h⟩ := Outcome.bind_eq_ok.mp h
  obtain ⟨inputs, hinputs, h⟩ := Outcome.bind_eq_ok.mp h
  rw [Except.ok.injEq] at h
  subst h
  have hforall : List.Forall₂ (fun e c => g.valuePartition e.1 = .ok c.source ∧ c.value = e.1 ∧
      c.position = e.2 ∧ c.consumer = n.id ∧ c.destination = destination)
      n.inputs.zipIdx inputs := by
    refine (Outcome.mapM_eq_ok.mp hinputs).imp fun ⟨v, i⟩ c hc => ?_
    obtain ⟨source, hsource, hc⟩ := Outcome.bind_eq_ok.mp hc
    cases hc
    exact ⟨hsource, rfl, rfl, rfl, rfl⟩
  refine ⟨destination, partitionOf_eq_ok.mp hplace, fun v hv => ?_, fun c => ?_⟩
  · obtain ⟨i, hi⟩ := List.getElem?_of_mem hv
    have hin : (v, i) ∈ n.inputs.zipIdx := List.mem_zipIdx_iff_getElem?.mpr hi
    obtain ⟨c, -, hsource, -⟩ := Outcome.exists_of_forall₂ hforall hin
    exact ⟨c.source, hsource⟩
  · rw [List.mem_filter, decide_eq_true_iff]
    constructor
    · rintro ⟨hc, hne⟩
      obtain ⟨⟨v, i⟩, hin, hsource, hvalue, hposition, hconsumer, hdestination⟩ :=
        Outcome.exists_of_forall₂ hforall.flip hc
      have hv : n.inputs[i]? = some v := List.mem_zipIdx_iff_getElem?.mp hin
      rw [hvalue, hposition]
      exact ⟨hv, hsource, hconsumer, hdestination, hne⟩
    · rintro ⟨hv, hsource, hconsumer, hdestination, hne⟩
      have hin : (c.value, c.position) ∈ n.inputs.zipIdx := List.mem_zipIdx_iff_getElem?.mpr hv
      obtain ⟨c', hc', hsource', hvalue, hposition, hconsumer', hdestination'⟩ :=
        Outcome.exists_of_forall₂ hforall hin
      rw [hsource, Except.ok.injEq] at hsource'
      have heq : c = c' := by
        cases c
        cases c'
        simp_all
      exact ⟨heq ▸ hc', hne⟩

theorem crossingsOf_of_resolved {n : Node} {p : PartitionId} (hplace : g.placement n.id = some p)
    (hinputs : ∀ v ∈ n.inputs, ∃ source, g.valuePartition v = .ok source) :
    ∃ found, g.crossingsOf n = .ok found := by
  rw [crossingsOf, partitionOf_eq_ok.mpr hplace, Outcome.ok_bind]
  have hfound : ∀ e ∈ n.inputs.zipIdx, ∃ c : Crossing, (do
      let source ← g.valuePartition e.1
      Except.ok (⟨n.id, e.2, e.1, source, p⟩ : Crossing)) = .ok c := by
    rintro ⟨v, i⟩ hin
    have hv : n.inputs[i]? = some v := List.mem_zipIdx_iff_getElem?.mp hin
    obtain ⟨source, hsource⟩ := hinputs v (List.mem_of_getElem? hv)
    exact ⟨⟨n.id, i, v, source, p⟩, by rw [hsource]; rfl⟩
  obtain ⟨inputs, hinputs⟩ := Outcome.mapM_of_forall hfound
  exact ⟨_, Outcome.bind_eq_ok.mpr ⟨inputs, hinputs, rfl⟩⟩

theorem crossings_of_resolved (h : ∀ n ∈ g.nodes, n.op.isCopy = false →
    (∃ p, g.placement n.id = some p) ∧ ∀ v ∈ n.inputs, ∃ source, g.valuePartition v = .ok source) :
    ∃ found, g.crossings = .ok found := by
  have hnodes : ∀ n ∈ g.nodes.filter (!·.op.isCopy), ∃ found, g.crossingsOf n = .ok found := by
    intro n hn
    obtain ⟨hn, hop⟩ := List.mem_filter.mp hn
    rw [Bool.not_eq_true'] at hop
    obtain ⟨⟨p, hplace⟩, hinputs⟩ := h n hn hop
    exact crossingsOf_of_resolved hplace hinputs
  obtain ⟨lists, hlists⟩ := Outcome.mapM_of_forall hnodes
  exact ⟨_, Outcome.bind_eq_ok.mpr ⟨lists, hlists, rfl⟩⟩

/-- The crossings of a graph, when all inputs resolve. -/
theorem crossings_eq_ok {found : List Crossing} (h : g.crossings = .ok found) :
    (∀ n ∈ g.nodes, n.op.isCopy = false → (∃ p, g.placement n.id = some p) ∧
      ∀ v ∈ n.inputs, ∃ source, g.valuePartition v = .ok source) ∧
    ∀ c, c ∈ found ↔ ∃ n ∈ g.nodes, n.op.isCopy = false ∧ c.consumer = n.id ∧
      n.inputs[c.position]? = some c.value ∧ g.placement n.id = some c.destination ∧
      g.valuePartition c.value = .ok c.source ∧ c.source ≠ c.destination := by
  obtain ⟨lists, hlists, h⟩ := Outcome.bind_eq_ok.mp h
  rw [Except.ok.injEq] at h
  subst h
  have hforall := Outcome.mapM_eq_ok.mp hlists
  have hfilter : ∀ n, n ∈ g.nodes.filter (!·.op.isCopy) ↔ n ∈ g.nodes ∧ n.op.isCopy = false := by
    intro n
    rw [List.mem_filter, Bool.not_eq_true']
  constructor
  · intro n hn hop
    obtain ⟨found, -, hfound⟩ := Outcome.exists_of_forall₂ hforall ((hfilter n).mpr ⟨hn, hop⟩)
    obtain ⟨p, hplace, hinputs, -⟩ := crossingsOf_eq_ok hfound
    exact ⟨⟨p, hplace⟩, hinputs⟩
  · intro c
    rw [List.mem_flatten]
    constructor
    · rintro ⟨found, hin, hc⟩
      obtain ⟨n, hn, hfound⟩ := Outcome.exists_of_forall₂ hforall.flip hin
      obtain ⟨hn, hop⟩ := (hfilter n).mp hn
      obtain ⟨p, hplace, -, hiff⟩ := crossingsOf_eq_ok hfound
      obtain ⟨hv, hsource, hconsumer, rfl, hne⟩ := (hiff c).mp hc
      exact ⟨n, hn, hop, hconsumer, hv, hplace, hsource, hne⟩
    · rintro ⟨n, hn, hop, hconsumer, hv, hplace, hsource, hne⟩
      obtain ⟨found, hin, hfound⟩ :=
        Outcome.exists_of_forall₂ hforall ((hfilter n).mpr ⟨hn, hop⟩)
      obtain ⟨p, hplace', -, hiff⟩ := crossingsOf_eq_ok hfound
      rw [hplace, Option.some.injEq] at hplace'
      exact ⟨found, hin, (hiff c).mpr ⟨hv, hsource, hconsumer, hplace', hne⟩⟩

/-! ## Routing crossings -/

/-- The copies of crossings, numbered from `base`. -/
def copiesFrom : NodeId → List Crossing → List Node
  | _, [] => []
  | base, c :: cs => ⟨base, .copy [c.destination], [c.value]⟩ :: copiesFrom (base + 1) cs

/-- The inputs of a node when the crossings among them are replaced by their copies. -/
def rewired (id : NodeId) : NodeId → List Crossing → List ValueRef → List ValueRef
  | _, [], inputs => inputs
  | base, c :: cs, inputs =>
      rewired id (base + 1) cs
        (if id = c.consumer then inputs.set c.position (.of base) else inputs)

theorem rewired_of_ne {id : NodeId} {cs : List Crossing} (h : ∀ c ∈ cs, c.consumer ≠ id)
    (base : NodeId) (inputs : List ValueRef) : rewired id base cs inputs = inputs := by
  induction cs generalizing base with
  | nil => rfl
  | cons c cs ih =>
      obtain ⟨hc, hcs⟩ := List.forall_mem_cons.mp h
      rw [rewired, if_neg (Ne.symm hc)]
      exact ih hcs (base + 1)

theorem length_rewired (id base : NodeId) (cs : List Crossing) (inputs : List ValueRef) :
    (rewired id base cs inputs).length = inputs.length := by
  induction cs generalizing base inputs with
  | nil => rfl
  | cons c cs ih =>
      rw [rewired, ih]
      split
      · rw [List.length_set]
      · rfl

/-- Each input is the old one where nothing crosses, and else the copy of a crossing. -/
theorem getElem?_rewired {id base : NodeId} {cs : List Crossing} {inputs : List ValueRef}
    {i : Nat} {v : ValueRef} (h : (rewired id base cs inputs)[i]? = some v) :
    (inputs[i]? = some v ∧ ∀ c ∈ cs, c.consumer = id → c.position ≠ i) ∨
      ∃ j c, cs[j]? = some c ∧ c.consumer = id ∧ c.position = i ∧ v = .of (base + j) := by
  induction cs generalizing base inputs with
  | nil => exact .inl ⟨h, by simp⟩
  | cons c cs ih =>
      rw [rewired] at h
      rcases ih h with ⟨hv, hnone⟩ | ⟨j, c', hj, hconsumer, hposition, hv⟩
      · by_cases hc : id = c.consumer ∧ c.position = i
        · obtain ⟨hconsumer, hposition⟩ := hc
          rw [if_pos hconsumer, hposition, List.getElem?_set_self'] at hv
          obtain ⟨w, -, rfl⟩ := Option.map_eq_some_iff.mp hv
          exact .inr ⟨0, c, rfl, hconsumer.symm, hposition, rfl⟩
        · refine .inl ⟨?_, ?_⟩
          · split at hv
            · next hconsumer =>
                rwa [List.getElem?_set_ne fun hposition => hc ⟨hconsumer, hposition⟩] at hv
            · exact hv
          · intro c' hc' hconsumer hposition
            rcases List.mem_cons.mp hc' with rfl | hc'
            · exact hc ⟨hconsumer.symm, hposition⟩
            · exact hnone c' hc' hconsumer hposition
      · refine .inr ⟨j + 1, c', by simpa using hj, hconsumer, hposition, ?_⟩
        rw [hv, Nat.add_assoc, Nat.add_comm 1 j]

theorem mem_copiesFrom {base : NodeId} {cs : List Crossing} {m : Node} :
    m ∈ copiesFrom base cs ↔ ∃ j c, cs[j]? = some c ∧
      m = ⟨base + j, .copy [c.destination], [c.value]⟩ := by
  induction cs generalizing base with
  | nil => simp [copiesFrom]
  | cons c cs ih =>
      rw [copiesFrom, List.mem_cons, ih]
      constructor
      · rintro (rfl | ⟨j, c', hj, rfl⟩)
        · exact ⟨0, c, rfl, rfl⟩
        · exact ⟨j + 1, c', by simpa using hj, by rw [Nat.add_assoc, Nat.add_comm 1 j]⟩
      · rintro ⟨j, c', hj, rfl⟩
        cases j with
        | zero =>
            rw [List.getElem?_cons_zero, Option.some.injEq] at hj
            exact .inl (by rw [hj, Nat.add_zero])
        | succ j =>
            rw [List.getElem?_cons_succ] at hj
            exact .inr ⟨j, c', hj, by rw [Nat.add_assoc, Nat.add_comm 1 j]⟩

theorem length_copiesFrom (base : NodeId) (cs : List Crossing) :
    (copiesFrom base cs).length = cs.length := by
  induction cs generalizing base with
  | nil => rfl
  | cons c cs ih => rw [copiesFrom, List.length_cons, ih, List.length_cons]

/-- The nodes after crossings were routed: the old ones, rewired, and the copies. -/
theorem nodes_foldl_route {cs : List Crossing} (h : ∀ c ∈ cs, c.consumer < g.nextId) :
    (cs.foldl route g).nodes =
      g.nodes.map (fun n => ⟨n.id, n.op, rewired n.id g.nextId cs n.inputs⟩) ++
        copiesFrom g.nextId cs := by
  induction cs generalizing g with
  | nil => simp [rewired, copiesFrom]
  | cons c cs ih =>
      obtain ⟨hc, hcs⟩ := List.forall_mem_cons.mp h
      have hnodes : (g.route c).nodes = g.nodes.map (fun n => ⟨n.id, n.op,
          if n.id = c.consumer then n.inputs.set c.position (.of g.nextId) else n.inputs⟩) ++
          [⟨g.nextId, .copy [c.destination], [c.value]⟩] := by
        show List.map _ (g.nodes ++ [_]) = _
        rw [List.map_append, List.map_singleton]
        dsimp only
        rw [if_neg (Nat.ne_of_gt hc)]
      have hnext : (g.route c).nextId = g.nextId + 1 := rfl
      rw [List.foldl_cons, ih fun c' hc' => by rw [hnext]; exact Nat.lt_succ_of_lt (hcs c' hc'),
        hnodes, hnext, List.map_append, List.map_map, List.map_singleton,
        rewired_of_ne (fun c' hc' => Nat.ne_of_lt (hcs c' hc')), List.append_assoc]
      rfl

theorem frame_foldl_route (g : Graph) (cs : List Crossing) :
    (cs.foldl route g).plan = g.plan ∧ (cs.foldl route g).partitions = g.partitions ∧
      (cs.foldl route g).weights = g.weights ∧ (cs.foldl route g).output? = g.output? := by
  induction cs generalizing g with
  | nil => exact ⟨rfl, rfl, rfl, rfl⟩
  | cons c cs ih => exact ih (g.route c)

theorem nextId_foldl_route (g : Graph) (cs : List Crossing) :
    (cs.foldl route g).nextId = g.nextId + cs.length := by
  induction cs generalizing g with
  | nil => rfl
  | cons c cs ih =>
      rw [List.foldl_cons, ih, List.length_cons]
      show g.nextId + 1 + cs.length = g.nextId + (cs.length + 1)
      rw [Nat.add_assoc, Nat.add_comm 1]

theorem placement_foldl_route {cs : List Crossing} {id : NodeId} (h : id < g.nextId) :
    (cs.foldl route g).placement id = g.placement id := by
  induction cs generalizing g with
  | nil => rfl
  | cons c cs ih =>
      rw [List.foldl_cons, ih (g := g.route c) (Nat.lt_succ_of_lt h)]
      exact if_neg (Nat.ne_of_lt h)

theorem placement_foldl_route_copy {cs : List Crossing} {j : Nat} {c : Crossing}
    (h : cs[j]? = some c) : (cs.foldl route g).placement (g.nextId + j) = some c.source := by
  induction cs generalizing g j with
  | nil => cases h
  | cons c' cs ih =>
      rw [List.foldl_cons]
      cases j with
      | zero =>
          rw [List.getElem?_cons_zero, Option.some.injEq] at h
          subst h
          rw [Nat.add_zero, placement_foldl_route (g := g.route c') (Nat.lt_succ_self _)]
          exact if_pos rfl
      | succ j =>
          rw [List.getElem?_cons_succ] at h
          have hnext : (g.route c').nextId = g.nextId + 1 := rfl
          have hplace := ih (g := g.route c') h
          rwa [hnext, Nat.add_assoc, Nat.add_comm 1 j] at hplace

/-! ## Graphs with values sent through copies -/

/-- `w` is a slot on partition `p` of a copy of `v` that `d` does not have. -/
def Delivers (d g : Graph) (v : ValueRef) (p : PartitionId) (w : ValueRef) : Prop :=
  ∃ c ∈ g.nodes, c.id = w.node ∧ ¬ d.Has c.id ∧ c.inputs = [v] ∧
    ∃ destinations, c.op = .copy destinations ∧ destinations[w.slot]? = some p

/-- What a node of `d` reads in `g` in the place of `v`: the value itself if it is a copy or on
the partition of `v`, and else a copy that was delivered there. -/
inductive Via (d g : Graph) (n : Node) (v : ValueRef) : ValueRef → Prop
  | copy (hop : n.op.isCopy = true) : Via d g n v v
  | near {p : PartitionId} (hop : n.op.isCopy = false) (hplace : d.placement n.id = some p)
      (hvalue : d.valuePartition v = .ok p) : Via d g n v v
  | far {p q : PartitionId} {w : ValueRef} (hop : n.op.isCopy = false)
      (hplace : d.placement n.id = some p) (hvalue : d.valuePartition v = .ok q) (hne : q ≠ p)
      (hdelivers : Delivers d g v p w) : Via d g n v w

/-- A copy that `d` does not have, on the partition of what it copies. -/
structure FreshCopy (d g : Graph) (m : Node) (v : ValueRef) : Prop where
  fresh : d.nextId ≤ m.id
  inputs : m.inputs = [v]
  delivers : ∃ destinations, destinations ≠ [] ∧ m.op = .copy destinations
  near : ∃ p, d.valuePartition v = .ok p ∧ g.placement m.id = some p

/-- `g` is `d` with values sent through copies to where they are read. -/
structure Routes (d g : Graph) : Prop where
  plan : g.plan = d.plan
  partitions : g.partitions = d.partitions
  weights : g.weights = d.weights
  output : g.output? = d.output?
  inputs : g.nodes.countP (·.op == .input) = d.nodes.countP (·.op == .input)
  kept : ∀ n ∈ d.nodes, ∃ n' ∈ g.nodes, n'.id = n.id ∧ n'.op = n.op ∧
    g.placement n.id = d.placement n.id ∧ List.Forall₂ (Via d g n) n.inputs n'.inputs
  fresh : ∀ m ∈ g.nodes, d.Has m.id ∨ ∃ v, FreshCopy d g m v

theorem not_has_of_le {d : Graph} {id : NodeId} (h : d.nextId ≤ id) : ¬ d.Has id := by
  rintro ⟨n, hn, rfl⟩
  exact absurd (d.fresh n hn) (Nat.not_lt.mpr h)

section Insert

variable {found : List Crossing} (hfound : g.crossings = .ok found)

include hfound

theorem consumer_lt {c : Crossing} (hc : c ∈ found) : c.consumer < g.nextId := by
  obtain ⟨n, hn, -, hconsumer, -⟩ := ((crossings_eq_ok hfound).2 c).mp hc
  exact hconsumer ▸ g.fresh n hn

theorem delivers_of_crossing {j : Nat} {c : Crossing} (hj : found[j]? = some c) :
    Delivers g (found.foldl route g) c.value c.destination (.of (g.nextId + j)) := by
  have hcopy : (⟨g.nextId + j, .copy [c.destination], [c.value]⟩ : Node) ∈
      (found.foldl route g).nodes := by
    rw [nodes_foldl_route fun _ => consumer_lt hfound]
    exact List.mem_append_right _ (mem_copiesFrom.mpr ⟨j, c, hj, rfl⟩)
  exact ⟨_, hcopy, rfl, not_has_of_le (Nat.le_add_right ..), rfl, [c.destination], rfl, rfl⟩

/-- An input that was rewired reads a copy, and one that was not is on the spot. -/
theorem via_rewired {n : Node} (hn : n ∈ g.nodes) {i : Nat} {v w : ValueRef}
    (hv : n.inputs[i]? = some v) (hw : (rewired n.id g.nextId found n.inputs)[i]? = some w) :
    Via g (found.foldl route g) n v w := by
  obtain ⟨hresolve, hcrossing⟩ := crossings_eq_ok hfound
  rcases getElem?_rewired hw with ⟨hold, hnone⟩ | ⟨j, c, hj, hconsumer, hposition, rfl⟩
  · rw [hv, Option.some.injEq] at hold
    subst hold
    cases hop : n.op.isCopy with
    | true => exact .copy hop
    | false =>
        obtain ⟨⟨p, hplace⟩, hvalues⟩ := hresolve n hn hop
        obtain ⟨q, hvalue⟩ := hvalues v (List.mem_of_getElem? hv)
        by_cases heq : q = p
        · exact .near hop hplace (heq ▸ hvalue)
        · have hc := (hcrossing ⟨n.id, i, v, q, p⟩).mpr
            ⟨n, hn, hop, rfl, hv, hplace, hvalue, heq⟩
          exact absurd rfl (hnone _ hc rfl)
  · obtain ⟨m, hm, hop, hconsumer', hinput, hplace, hvalue, hne⟩ :=
      (hcrossing c).mp (List.mem_of_getElem? hj)
    obtain rfl : m = n := eq_of_key_eq g.ordered hm hn (hconsumer'.symm.trans hconsumer)
    rw [hposition, hv, Option.some.injEq] at hinput
    subst hinput
    exact .far hop hplace hvalue hne (delivers_of_crossing hfound hj)

end Insert

/-- Inserting copies sends exactly the crossings through copies. -/
theorem insertCopies_routes {g' : Graph} {count : Nat} (h : g.insertCopies = .ok (g', count)) :
    Routes g g' := by
  obtain ⟨found, hfound, h⟩ := Outcome.bind_eq_ok.mp h
  rw [Except.ok.injEq, Prod.mk.injEq] at h
  obtain ⟨rfl, -⟩ := h
  have hnodes := nodes_foldl_route fun c (hc : c ∈ found) => consumer_lt hfound hc
  obtain ⟨hplan, hpartitions, hweights, houtput⟩ := frame_foldl_route g found
  refine ⟨hplan, hpartitions, hweights, houtput, ?_, fun n hn => ?_, fun m hm => ?_⟩
  · have hnone : (copiesFrom g.nextId found).countP (·.op == .input) = 0 := by
      rw [List.countP_eq_zero]
      intro m hm
      obtain ⟨j, c, -, rfl⟩ := mem_copiesFrom.mp hm
      simp
    rw [hnodes, List.countP_append, List.countP_map, hnone, Nat.add_zero]
    rfl
  · refine ⟨⟨n.id, n.op, rewired n.id g.nextId found n.inputs⟩, ?_, rfl, rfl,
      placement_foldl_route (g.fresh n hn), List.forall₂_iff_get.mpr ⟨?_, fun i hi hi' => ?_⟩⟩
    · rw [hnodes]
      exact List.mem_append_left _ (List.mem_map.mpr ⟨n, hn, rfl⟩)
    · exact (length_rewired ..).symm
    · exact via_rewired hfound hn (List.getElem?_eq_getElem hi) (List.getElem?_eq_getElem hi')
  · rw [hnodes] at hm
    rcases List.mem_append.mp hm with hm | hm
    · obtain ⟨n, hn, rfl⟩ := List.mem_map.mp hm
      exact .inl ⟨n, hn, rfl⟩
    · obtain ⟨j, c, hj, rfl⟩ := mem_copiesFrom.mp hm
      obtain ⟨n, -, -, -, -, -, hsource, -⟩ :=
        ((crossings_eq_ok hfound).2 c).mp (List.mem_of_getElem? hj)
      exact .inr ⟨c.value, Nat.le_add_right _ _, rfl, ⟨_, List.cons_ne_nil _ _, rfl⟩,
        c.source, hsource, placement_foldl_route_copy hj⟩

/-- The ids of the new copies are the next ones to be given out. -/
theorem nextId_insertCopies {g' : Graph} {count : Nat} (h : g.insertCopies = .ok (g', count)) :
    g'.nextId = g.nextId + count := by
  obtain ⟨found, -, h⟩ := Outcome.bind_eq_ok.mp h
  rw [Except.ok.injEq, Prod.mk.injEq] at h
  obtain ⟨rfl, rfl⟩ := h
  exact nextId_foldl_route g found

theorem Depths.of_single {depth : NodeId → Nat} (h : g.Depths depth) {n : Node}
    (hn : n ∈ g.nodes) {v : ValueRef} (hinputs : n.inputs = [v]) :
    depth n.id = depth v.node + 1 := by
  have hlt := h.lt n hn v (by simp [hinputs])
  rcases h.tight n hn with hzero | ⟨w, hw, heq⟩
  · omega
  · rw [hinputs, List.mem_singleton] at hw
    rw [← heq, hw]

namespace Routes

variable {d : Graph}

theorem has (h : Routes d g) {id : NodeId} (hid : d.Has id) : g.Has id := by
  obtain ⟨n, hn, rfl⟩ := hid
  obtain ⟨n', hn', hid, -⟩ := h.kept n hn
  exact ⟨n', hn', hid⟩

/-- A node of `g` that `d` has too is a node of `d` with its inputs sent on. -/
theorem image (h : Routes d g) {n' : Node} (hn' : n' ∈ g.nodes) (hid : d.Has n'.id) :
    ∃ n ∈ d.nodes, n'.id = n.id ∧ n'.op = n.op ∧ g.placement n'.id = d.placement n.id ∧
      List.Forall₂ (Via d g n) n.inputs n'.inputs := by
  obtain ⟨n, hn, hid⟩ := hid
  obtain ⟨m, hm, hmid, hop, hplace, hinputs⟩ := h.kept n hn
  obtain rfl : m = n' := eq_of_key_eq g.ordered hm hn' (hmid.trans hid)
  exact ⟨n, hn, hmid, hop, hmid ▸ hplace, hinputs⟩

theorem delivered (h : Routes d g) {v w : ValueRef} {p : PartitionId}
    (hdelivers : Delivers d g v p w) : ∃ c ∈ g.nodes, c.id = w.node ∧ FreshCopy d g c v := by
  obtain ⟨c, hc, hid, hnot, hinputs, -⟩ := hdelivers
  obtain ⟨u, hu⟩ := (h.fresh c hc).resolve_left hnot
  rw [hu.inputs, List.cons.injEq] at hinputs
  exact ⟨c, hc, hid, hinputs.1 ▸ hu⟩

/-- A function on the nodes of `d` extends to `g`, with a second function giving what a new
copy has from its source. -/
theorem extend {β : Type} (g d : Graph) (old source : NodeId → β) :
    ∃ f : NodeId → β, (∀ id, d.Has id → f id = old id) ∧
      ∀ m ∈ g.nodes, ∀ v, FreshCopy d g m v → f m.id = source v.node := by
  classical
  refine ⟨fun id => if d.Has id then old id else
    (((g.node? id).bind (·.inputs.head?)).map fun v => source v.node).getD (old id),
    fun id hid => if_pos hid, fun m hm v hv => ?_⟩
  dsimp only
  rw [if_neg (not_has_of_le hv.fresh), g.node?_of_mem hm, Option.bind_some, hv.inputs]
  rfl

/-- What a new copy has from its source, a reader of the copy has from the source. -/
theorem eq_of_via {β : Type} {f : NodeId → β} (h : Routes d g)
    (hcopies : ∀ m ∈ g.nodes, ∀ v, FreshCopy d g m v → f m.id = f v.node) {n : Node}
    {v w : ValueRef} (hvia : Via d g n v w) : f w.node = f v.node := by
  cases hvia with
  | copy => rfl
  | near => rfl
  | far _ _ _ _ hdelivers =>
      obtain ⟨c, hc, hid, hcopy⟩ := h.delivered hdelivers
      rw [← hid, hcopies c hc v hcopy]

/-- Old nodes take the even ranks and new copies the odd ones between them. -/
theorem ranks (h : Routes d g) {depth : NodeId → Nat} (hdepths : d.Depths depth) :
    ∃ rank, g.Ranks rank := by
  obtain ⟨rank, hold, hfresh⟩ := extend g d (fun id => 2 * depth id) (fun id => 2 * depth id + 1)
  refine ⟨rank, ⟨fun n' hn' w hw => ?_, fun n' hn' w hw => ?_⟩⟩
  all_goals rcases h.fresh n' hn' with hid | ⟨v, hv⟩
  · obtain ⟨n, hn, -, -, -, hinputs⟩ := h.image hn' hid
    obtain ⟨v, hv, hvia⟩ := Outcome.exists_of_forall₂ hinputs.flip hw
    cases hvia with
    | copy => exact h.has (hdepths.has n hn _ hv)
    | near => exact h.has (hdepths.has n hn _ hv)
    | far _ _ _ _ hdelivers =>
        obtain ⟨c, hc, hcid, -⟩ := h.delivered hdelivers
        exact ⟨c, hc, hcid⟩
  · rw [hv.inputs, List.mem_singleton] at hw
    obtain ⟨p, hp, -⟩ := hv.near
    exact h.has (hw ▸ has_of_valuePartition hp)
  · obtain ⟨n, hn, hnid, -, -, hinputs⟩ := h.image hn' hid
    obtain ⟨v, hv, hvia⟩ := Outcome.exists_of_forall₂ hinputs.flip hw
    have hlt := hdepths.lt n hn v hv
    rw [hnid, hold n.id ⟨n, hn, rfl⟩]
    cases hvia with
    | copy => rw [hold _ (hdepths.has n hn _ hv)]; omega
    | near => rw [hold _ (hdepths.has n hn _ hv)]; omega
    | far _ _ _ _ hdelivers =>
        obtain ⟨c, hc, hcid, hcopy⟩ := h.delivered hdelivers
        rw [← hcid, hfresh c hc v hcopy]
        omega
  · rw [hv.inputs, List.mem_singleton] at hw
    obtain ⟨p, hp, -⟩ := hv.near
    rw [hfresh n' hn' v hv, hw, hold _ (has_of_valuePartition hp)]
    omega

theorem waves (h : Routes d g) {ws : List (List NodeId)} (hws : d.waves = .ok ws) :
    ∃ ws', g.waves = .ok ws' := by
  obtain ⟨depth, hdepths⟩ := exists_depths hws
  obtain ⟨rank, hranks⟩ := h.ranks hdepths
  exact waves_of_ranks hranks

/-- Values of old nodes stay where they were. -/
theorem valuePartition (h : Routes d g) {v : ValueRef} {p : PartitionId}
    (hv : d.valuePartition v = .ok p) : g.valuePartition v = .ok p := by
  obtain ⟨n, hn, hid, hwhere⟩ := valuePartition_eq_ok.mp hv
  obtain ⟨n', hn', hid', hop, hplace, -⟩ := h.kept n hn
  refine valuePartition_eq_ok.mpr ⟨n', hn', hid'.trans hid, ?_⟩
  rw [hop, ← hid, hplace, hid]
  exact hwhere

/-- What is read in the place of a value is on the partition of its reader. -/
theorem valuePartition_of_via (h : Routes d g) {n : Node} {p : PartitionId}
    (hplace : d.placement n.id = some p) {v w : ValueRef} (hvia : Via d g n v w)
    (hcopy : n.op.isCopy = true → d.valuePartition v = .ok p) : g.valuePartition w = .ok p := by
  cases hvia with
  | copy hop => exact h.valuePartition (hcopy hop)
  | near _ hplace' hvalue =>
      rw [hplace, Option.some.injEq] at hplace'
      exact hplace' ▸ h.valuePartition hvalue
  | far _ hplace' _ _ hdelivers =>
      rw [hplace, Option.some.injEq] at hplace'
      subst hplace'
      obtain ⟨c, hc, hid, -, -, destinations, hop, hslot⟩ := hdelivers
      exact valuePartition_eq_ok.mpr ⟨c, hc, hid, .inl ⟨destinations, hop, hslot⟩⟩

theorem checkWeight_eq (h : Routes d g) (op : Operation) (p : PartitionId) :
    g.checkWeight op p = d.checkWeight op p := by
  simp only [checkWeight, weightHome?, h.weights]

/-- A graph passes the check after it was routed if it does before but for the rule that
nodes read only what is on their own partition, to which its copies keep. -/
theorem valid (h : Routes d g) (hinput : d.nodes.countP (·.op == .input) = 1)
    (hnodes : ∀ n ∈ d.nodes, ∃ p, d.placement n.id = some p ∧ p < d.partitions ∧
      n.inputs.length = n.op.arity d.plan.shardCount ∧ d.checkWeight n.op p = .ok () ∧
      n.op ≠ .copy [] ∧ (n.op.isCopy = true → ∀ v ∈ n.inputs, d.valuePartition v = .ok p))
    (hhomes : ∀ v p, d.valuePartition v = .ok p → p < d.partitions)
    (houtput : ∃ v p, d.output? = some v ∧ d.valuePartition v = .ok p)
    (hwaves : ∃ ws, d.waves = .ok ws) : g.Valid := by
  obtain ⟨v, p, hv, hp⟩ := houtput
  obtain ⟨ws, hws⟩ := hwaves
  refine ⟨h.inputs.trans hinput, fun n' hn' => ?_, ⟨v, p, h.output.trans hv, h.valuePartition hp⟩,
    h.waves hws⟩
  rcases h.fresh n' hn' with hid | ⟨v, hv⟩
  · obtain ⟨n, hn, hid, hop, hplace', hinputs⟩ := h.image hn' hid
    obtain ⟨p, hplace, hlt, harity, hweight, hdelivers, hcopies⟩ := hnodes n hn
    refine ⟨p, hplace'.trans hplace, h.partitions ▸ hlt, ?_, ?_, hop ▸ hdelivers, fun w hw => ?_⟩
    · rw [← hinputs.length_eq, harity, hop, h.plan]
    · rw [h.checkWeight_eq, hop, hweight]
    · obtain ⟨v, hv, hvia⟩ := Outcome.exists_of_forall₂ hinputs.flip hw
      exact h.valuePartition_of_via hplace hvia fun hcopy => hcopies hcopy v hv
  · obtain ⟨p, hp, hplace⟩ := hv.near
    obtain ⟨destinations, hne, hop⟩ := hv.delivers
    refine ⟨p, hplace, h.partitions ▸ hhomes v p hp, ?_, ?_, ?_, fun w hw => ?_⟩
    · rw [hv.inputs, hop]
      rfl
    · rw [hop]
      rfl
    · rw [hop]
      exact fun heq => hne (Operation.copy.inj heq)
    · rw [hv.inputs, List.mem_singleton] at hw
      exact hw ▸ h.valuePartition hp

/-- Reading through a copy takes one more wave. -/
theorem depth_of_via (h : Routes d g) {depth : NodeId → Nat} (hdepths : g.Depths depth)
    {n : Node} {v w : ValueRef} (hvia : Via d g n v w) :
    depth w.node = depth v.node ∨ depth w.node = depth v.node + 1 := by
  cases hvia with
  | copy => exact .inl rfl
  | near => exact .inl rfl
  | far _ _ _ _ hdelivers =>
      obtain ⟨c, hc, hid, hcopy⟩ := h.delivered hdelivers
      exact .inr (hid ▸ hdepths.of_single hc hcopy.inputs)

theorem depth_lt (h : Routes d g) {depth : NodeId → Nat} (hdepths : g.Depths depth) {n : Node}
    (hn : n ∈ d.nodes) {v : ValueRef} (hv : v ∈ n.inputs) : depth v.node < depth n.id := by
  obtain ⟨n', hn', hid, -, -, hinputs⟩ := h.kept n hn
  obtain ⟨w, hw, hvia⟩ := Outcome.exists_of_forall₂ hinputs hv
  have hlt := hdepths.lt n' hn' w hw
  rw [hid] at hlt
  rcases h.depth_of_via hdepths hvia with heq | heq <;> omega

/-- The depth of a node that reads one value: directly above it where it is near, and with a
copy in between where it is far. -/
theorem depth_of_single (h : Routes d g) {depth : NodeId → Nat} (hdepths : g.Depths depth)
    {n : Node} (hn : n ∈ d.nodes) {v : ValueRef} (hinputs : n.inputs = [v])
    (hop : n.op.isCopy = false) {p q : PartitionId} (hplace : d.placement n.id = some p)
    (hvalue : d.valuePartition v = .ok q) :
    depth n.id = depth v.node + if q = p then 1 else 2 := by
  obtain ⟨n', hn', hid, -, -, hforall⟩ := h.kept n hn
  rw [hinputs] at hforall
  obtain ⟨w, ws, hvia, hnil, hinputs'⟩ := List.forall₂_cons_left_iff.mp hforall
  rw [List.forall₂_nil_left_iff] at hnil
  rw [hnil] at hinputs'
  have hdepth := hdepths.of_single hn' hinputs'
  rw [hid] at hdepth
  cases hvia with
  | copy hcopy =>
      rw [hop] at hcopy
      cases hcopy
  | near _ hplace' hvalue' =>
      rw [hplace, Option.some.injEq] at hplace'
      rw [hvalue, Except.ok.injEq] at hvalue'
      rw [hdepth, if_pos (hvalue'.trans hplace'.symm)]
  | far _ hplace' hvalue' hne hdelivers =>
      rw [hplace, Option.some.injEq] at hplace'
      rw [hvalue, Except.ok.injEq] at hvalue'
      obtain ⟨c, hc, hcid, hcopy⟩ := h.delivered hdelivers
      have hcdepth := hdepths.of_single hc hcopy.inputs
      rw [hcid] at hcdepth
      rw [hdepth, hcdepth, if_neg (by rw [hvalue', hplace']; exact hne)]

end Routes

end ShardedModel.Graph
