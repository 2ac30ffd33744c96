import Mathlib.Data.List.Sort
import ShardedModel.Proofs.BuiltGraph

/-!
# Where values come from, and where they are read

A copy hands on what it reads, so which value a node reads is found by following copies
back. In a graph that was routed through copies this leads to the value that was read
before, for each input of each node, and so the routed graph can be described without
mentioning its copies.

What the copies do is said the other way round. A value is read on some partitions, and
after joining there is one copy of it, whose destinations are those partitions without
the one where the value is.
-/

namespace ShardedModel.Graph

variable {g d : Graph}

/-! ## Following copies back -/

/-- Following copies back from a value ends at the value of a node that is no copy. -/
inductive ComesFrom (g : Graph) : ValueRef → ValueRef → Prop
  | self {v : ValueRef} {n : Node} (hn : n ∈ g.nodes) (hid : n.id = v.node)
      (hop : n.op.isCopy = false) : ComesFrom g v v
  | copied {v u w : ValueRef} {c : Node} (hc : c ∈ g.nodes) (hid : c.id = v.node)
      (hop : c.op.isCopy = true) (hinputs : c.inputs = [u]) (h : ComesFrom g u w) :
      ComesFrom g v w

theorem ComesFrom.unique {v w w' : ValueRef} (h : g.ComesFrom v w) (h' : g.ComesFrom v w') :
    w = w' := by
  induction h with
  | self hn hid hop =>
      cases h' with
      | self => rfl
      | copied hc hid' hop' =>
          rw [eq_of_key_eq g.ordered hc hn (hid'.trans hid.symm), hop] at hop'
          cases hop'
  | copied hc hid hop hinputs _ ih =>
      cases h' with
      | self hn hid' hop' =>
          rw [eq_of_key_eq g.ordered hn hc (hid'.trans hid.symm), hop] at hop'
          cases hop'
      | copied hc' hid' _ hinputs' h' =>
          rw [eq_of_key_eq g.ordered hc' hc (hid'.trans hid.symm), hinputs,
            List.cons.injEq] at hinputs'
          exact ih (hinputs'.1 ▸ h')

/-- A node on partition `p` that is no copy reads `v`, itself or through copies. -/
def ReadOn (g : Graph) (v : ValueRef) (p : PartitionId) : Prop :=
  ∃ n ∈ g.nodes, n.op.isCopy = false ∧ g.placement n.id = some p ∧
    ∃ w ∈ n.inputs, g.ComesFrom w v

namespace Routes

variable (h : Routes d g) (hd : ∀ n ∈ d.nodes, n.op.isCopy = false)

include h hd

/-- Every copy is a new one. -/
theorem exists_fresh {m : Node} (hm : m ∈ g.nodes) (hop : m.op.isCopy = true) :
    ∃ v, FreshCopy d g m v := by
  rcases h.fresh m hm with hid | hfresh
  · obtain ⟨n, hn, -, hop', -⟩ := h.image hm hid
    rw [hop', hd n hn] at hop
    cases hop
  · exact hfresh

theorem isCopy_eq_false_iff {m : Node} (hm : m ∈ g.nodes) : m.op.isCopy = false ↔ d.Has m.id := by
  constructor
  · intro hop
    rcases h.fresh m hm with hid | ⟨v, hv⟩
    · exact hid
    · obtain ⟨destinations, -, hcopy⟩ := hv.delivers
      rw [hcopy] at hop
      cases hop
  · intro hid
    obtain ⟨n, hn, -, hop, -⟩ := h.image hm hid
    rw [hop, hd n hn]

theorem comesFrom_of_has {v : ValueRef} (hv : d.Has v.node) : g.ComesFrom v v := by
  obtain ⟨n, hn, hid⟩ := hv
  obtain ⟨n', hn', hid', hop, -⟩ := h.kept n hn
  exact .self hn' (hid'.trans hid) (hop ▸ hd n hn)

/-- What is read in the place of a value comes from that value. -/
theorem comesFrom_of_via {n : Node} (hn : n ∈ d.nodes) {v w : ValueRef} (hvia : Via d g n v w) :
    g.ComesFrom w v := by
  cases hvia with
  | copy hop =>
      rw [hd n hn] at hop
      cases hop
  | near _ _ hvalue => exact h.comesFrom_of_has hd (has_of_valuePartition hvalue)
  | far _ _ hvalue _ hdelivers =>
      obtain ⟨c, hc, hid, -, hinputs, destinations, hop, -⟩ := hdelivers
      exact .copied hc hid (by rw [hop]; rfl) hinputs
        (h.comesFrom_of_has hd (has_of_valuePartition hvalue))

/-- The nodes that are no copies are the old ones in their order, and read what they read. -/
theorem forall₂_nodes : List.Forall₂ (fun n' n => n'.op = n.op ∧
      g.placement n'.id = d.placement n.id ∧ List.Forall₂ g.ComesFrom n'.inputs n.inputs)
    (g.nodes.filter (!·.op.isCopy)) d.nodes := by
  have hids : (g.nodes.filter (!·.op.isCopy)).map (·.id) = d.nodes.map (·.id) := by
    refine List.Pairwise.eq_of_mem_iff (r := (· < ·))
      (List.pairwise_map.mpr (g.ordered.filter _)) (List.pairwise_map.mpr d.ordered) fun id => ?_
    simp only [List.mem_map, List.mem_filter, Bool.not_eq_true']
    constructor
    · rintro ⟨m, ⟨hm, hop⟩, rfl⟩
      exact (h.isCopy_eq_false_iff hd hm).mp hop
    · intro hid
      obtain ⟨m, hm, rfl⟩ := h.has hid
      exact ⟨m, ⟨hm, (h.isCopy_eq_false_iff hd hm).mpr hid⟩, rfl⟩
  have hsame : List.Forall₂ (fun n' n : Node => n'.id = n.id)
      (g.nodes.filter (!·.op.isCopy)) d.nodes := by
    rw [← List.forall₂_eq_eq_eq, List.forall₂_map_left_iff, List.forall₂_map_right_iff] at hids
    exact hids
  obtain ⟨hlength, hzip⟩ := List.forall₂_iff_zip.mp hsame
  refine List.forall₂_iff_zip.mpr ⟨hlength, fun {n' n} hin => ?_⟩
  obtain ⟨hn', hn⟩ := List.of_mem_zip hin
  obtain ⟨m, hm, hid, hop, hplace, hinputs⟩ := h.kept n hn
  obtain rfl : m = n' :=
    eq_of_key_eq g.ordered hm (List.mem_filter.mp hn').1 (hid.trans (hzip hin).symm)
  exact ⟨hop, hid ▸ hplace, (hinputs.imp fun _ _ hvia => h.comesFrom_of_via hd hn hvia).flip⟩

/-- Routing does not change where a value is read. -/
theorem readOn_iff {v : ValueRef} {p : PartitionId} :
    g.ReadOn v p ↔ ∃ n ∈ d.nodes, d.placement n.id = some p ∧ v ∈ n.inputs := by
  constructor
  · rintro ⟨n', hn', hop, hplace, w, hw, hfrom⟩
    obtain ⟨n, hn, -, -, hplace', hinputs⟩ := h.image hn' ((h.isCopy_eq_false_iff hd hn').mp hop)
    obtain ⟨u, hu, hvia⟩ := Outcome.exists_of_forall₂ hinputs.flip hw
    refine ⟨n, hn, hplace' ▸ hplace, ?_⟩
    rw [hfrom.unique (h.comesFrom_of_via hd hn hvia)]
    exact hu
  · rintro ⟨n, hn, hplace, hv⟩
    obtain ⟨n', hn', hid, hop, hplace', hinputs⟩ := h.kept n hn
    obtain ⟨w, hw, hvia⟩ := Outcome.exists_of_forall₂ hinputs hv
    exact ⟨n', hn', hop ▸ hd n hn, by rw [hid, hplace', hplace], w, hw,
      h.comesFrom_of_via hd hn hvia⟩

end Routes

/-! ## Joined copies -/

theorem pairwise_eraseDups {xs : List Nat} (h : xs.Pairwise (· ≤ ·)) :
    xs.eraseDups.Pairwise (· < ·) := by
  match xs with
  | [] => simp
  | x :: xs =>
      obtain ⟨hhead, htail⟩ := List.pairwise_cons.mp h
      rw [List.eraseDups_cons, List.pairwise_cons]
      refine ⟨fun y hy => ?_, pairwise_eraseDups (htail.filter _)⟩
      obtain ⟨hy, hne⟩ := List.mem_filter.mp (List.mem_eraseDups.mp hy)
      have hle := hhead y hy
      have hne : y ≠ x := by simpa using hne
      omega
termination_by xs.length
decreasing_by exact Nat.lt_succ_of_le (List.length_filter_le _ _)

/-- Destinations that were in order before joining are so afterwards. -/
theorem pairwise_destinations_joinedOp {n : Node} {destinations : List PartitionId}
    (hop : g.joinedOp n = .copy destinations)
    (halone : ∀ destinations, n.op = .copy destinations → destinations.Pairwise (· < ·)) :
    destinations.Pairwise (· < ·) := by
  cases hgroup : g.group? n with
  | none =>
      rw [joinedOp, hgroup] at hop
      exact halone destinations hop
  | some group =>
      obtain ⟨source, first, rest, -, -, -, hdestinations⟩ := group?_eq_some hgroup
      rw [joinedOp, hgroup] at hop
      rw [← Operation.copy.inj hop, hdestinations]
      have hsorted : (((first :: rest).flatMap (destinationsOf ·.op)).mergeSort
          fun a b => decide (a ≤ b)).Pairwise fun a b => decide (a ≤ b) = true :=
        List.pairwise_mergeSort
          (fun a b c hab hbc => by simp only [decide_eq_true_eq] at *; exact Nat.le_trans hab hbc)
          (fun a b => by simp [Nat.le_total]) _
      exact pairwise_eraseDups (hsorted.imp fun hle => of_decide_eq_true hle)

/-- The copy that stays delivers to wherever a copy of the value did. -/
theorem mem_destinationsOf_joinedOp {n : Node} (hn : n ∈ g.nodes) {v : ValueRef}
    (hv : copySource? n = some v) {p : PartitionId} :
    p ∈ destinationsOf (g.joinedOp n) ↔
      ∃ m ∈ g.nodes, copySource? m = some v ∧ p ∈ destinationsOf m.op := by
  have hcopies : ∀ m, m ∈ g.copiesOf v ↔ m ∈ g.nodes ∧ copySource? m = some v := by
    intro m
    rw [copiesOf, List.mem_filter, beq_iff_eq]
  cases hgroup : g.group? n with
  | some group =>
      obtain ⟨source, first, rest, hsource, hall, -, hdestinations⟩ := group?_eq_some hgroup
      rw [hv, Option.some.injEq] at hsource
      subst hsource
      have hjoined : g.joinedOp n = .copy group.destinations := by simp [joinedOp, hgroup]
      rw [hjoined]
      show p ∈ group.destinations ↔ _
      rw [hdestinations, List.mem_eraseDups, List.mem_mergeSort, List.mem_flatMap, ← hall]
      simp only [hcopies, and_assoc]
  | none =>
      have hjoined : g.joinedOp n = n.op := by simp [joinedOp, hgroup]
      rw [hjoined]
      constructor
      · intro hp
        exact ⟨n, hn, hv, hp⟩
      · rintro ⟨m, hm, hmv, hp⟩
        have hstays : ∀ m, copySource? m = some v → g.absorbed m = false := by
          intro m hmv
          have hgroup' : g.group? m = none := (group?_congr (hmv.trans hv.symm)).trans hgroup
          simp [absorbed, hgroup']
        rw [eq_of_not_absorbed hn hm hv hmv (hstays n hv) (hstays m hmv)]
        exact hp

/-- Each value has at most one copy, and it delivers to the partitions on which the value is
read and does not live, in order. -/
structure CopiesJoined (g : Graph) : Prop where
  unique : ∀ m ∈ g.nodes, ∀ m' ∈ g.nodes, m.op.isCopy = true → m'.op.isCopy = true →
    ∀ v ∈ m.inputs, v ∈ m'.inputs → m = m'
  destinations : ∀ m ∈ g.nodes, ∀ destinations, m.op = .copy destinations →
    destinations.Pairwise (· < ·) ∧ ∃ v home, m.inputs = [v] ∧ g.valuePartition v = .ok home ∧
      ∀ p, p ∈ destinations ↔ home ≠ p ∧ g.ReadOn v p

section Insert

variable {found : List Crossing} (hfound : d.crossings = .ok found)
  (hd : ∀ n ∈ d.nodes, n.op.isCopy = false)

include hfound hd

/-- The copies that are inserted, each for one crossing. -/
theorem mem_copies_foldl_route {m : Node} :
    m ∈ (found.foldl route d).nodes ∧ m.op.isCopy = true ↔
      ∃ j c, found[j]? = some c ∧ m = ⟨d.nextId + j, .copy [c.destination], [c.value]⟩ := by
  rw [nodes_foldl_route fun _ => consumer_lt hfound, List.mem_append, ← mem_copiesFrom]
  constructor
  · rintro ⟨hm | hm, hop⟩
    · obtain ⟨n, hn, rfl⟩ := List.mem_map.mp hm
      rw [hd n hn] at hop
      cases hop
    · exact hm
  · intro hm
    exact ⟨.inr hm, isCopy_of_mem_copiesFrom hm⟩

/-- Copies are inserted for exactly the partitions on which a value is read and does not
live. -/
theorem exists_copy_iff_read {v : ValueRef} {p : PartitionId} :
    (∃ m ∈ (found.foldl route d).nodes, copySource? m = some v ∧ p ∈ destinationsOf m.op) ↔
      (∃ home, d.valuePartition v = .ok home ∧ home ≠ p) ∧
        ∃ n ∈ d.nodes, d.placement n.id = some p ∧ v ∈ n.inputs := by
  have hcrossing := (crossings_eq_ok hfound).2
  constructor
  · rintro ⟨m, hm, hsource, hp⟩
    obtain ⟨hop, hhead⟩ := copySource?_eq_some.mp hsource
    obtain ⟨j, c, hj, rfl⟩ := (mem_copies_foldl_route hfound hd).mp ⟨hm, hop⟩
    obtain ⟨n, hn, -, -, hv, hplace, hvalue, hne⟩ := (hcrossing c).mp (List.mem_of_getElem? hj)
    obtain rfl : c.value = v := by simpa using hhead
    obtain rfl : p = c.destination := by simpa [destinationsOf] using hp
    exact ⟨⟨c.source, hvalue, hne⟩, n, hn, hplace, List.mem_of_getElem? hv⟩
  · rintro ⟨⟨home, hvalue, hne⟩, n, hn, hplace, hv⟩
    obtain ⟨i, hi⟩ := List.getElem?_of_mem hv
    have hc : (⟨n.id, i, v, home, p⟩ : Crossing) ∈ found :=
      (hcrossing _).mpr ⟨n, hn, hd n hn, rfl, hi, hplace, hvalue, hne⟩
    obtain ⟨j, hj⟩ := List.getElem?_of_mem hc
    obtain ⟨hm, hop⟩ := (mem_copies_foldl_route hfound hd).mpr ⟨j, _, hj, rfl⟩
    exact ⟨_, hm, copySource?_eq_some.mpr ⟨hop, rfl⟩, List.mem_singleton_self p⟩

/-- Joining the copies that were inserted into a graph without copies leaves each value one
copy, for where it is read. -/
theorem copiesJoined_coalesceCopies (houtput : ∀ v, d.output? = some v → d.Has v.node) :
    (found.foldl route d).coalesceCopies.1.CopiesJoined := by
  have hroutes : Routes d (found.foldl route d) :=
    insertCopies_routes (Outcome.bind_eq_ok.mpr ⟨found, hfound, rfl⟩)
  have hjoined := hroutes.coalesceCopies hd houtput
  generalize hg : found.foldl route d = g at hroutes hjoined
  -- A copy that is there was there before, with the same source.
  have hcopy : ∀ m ∈ g.coalesceCopies.1.nodes, m.op.isCopy = true → ∃ n ∈ g.nodes, ∃ v,
      g.absorbed n = false ∧ m = ⟨n.id, g.joinedOp n, n.inputs.map g.redirect⟩ ∧
      copySource? n = some v ∧ m.inputs = [v] := by
    intro m hm hop
    obtain ⟨n, hn, hstays, rfl⟩ := mem_nodes_coalesceCopies.mp hm
    have hop' : n.op.isCopy = true := by
      rcases isCopy_joinedOp g n with heq | ⟨-, hop'⟩
      · exact heq ▸ hop
      · exact hop'
    obtain ⟨v, hv⟩ := hroutes.exists_fresh hd hn hop'
    exact ⟨n, hn, v, hstays, rfl, copySource?_eq_some.mpr ⟨hop', by rw [hv.inputs]; rfl⟩,
      (hroutes.fresh_joined hd hn hstays hv).inputs⟩
  constructor
  · intro m hm m' hm' hop hop' v hv hv'
    obtain ⟨n, hn, u, hstays, rfl, hsource, hinputs⟩ := hcopy m hm hop
    obtain ⟨n', hn', u', hstays', rfl, hsource', hinputs'⟩ := hcopy m' hm' hop'
    rw [hinputs, List.mem_singleton] at hv
    rw [hinputs', List.mem_singleton] at hv'
    subst hv hv'
    rw [eq_of_not_absorbed hn hn' hsource hsource' hstays hstays']
  · intro m hm destinations hop
    obtain ⟨n, hn, v, hstays, rfl, hsource, hinputs⟩ := hcopy m hm (by rw [hop]; rfl)
    change g.joinedOp n = .copy destinations at hop
    obtain ⟨home, hhome, -⟩ := (hroutes.fresh_of_copySource? hd hn hsource).near
    refine ⟨?_, v, home, hinputs, hjoined.valuePartition hhome, fun p => ?_⟩
    · refine pairwise_destinations_joinedOp hop fun alone halone => ?_
      obtain ⟨j, c, -, rfl⟩ := (mem_copies_foldl_route hfound hd).mp
        ⟨hg ▸ hn, (copySource?_eq_some.mp hsource).1⟩
      rw [← Operation.copy.inj halone]
      exact List.pairwise_singleton ..
    · have hmem := mem_destinationsOf_joinedOp hn hsource (p := p)
      rw [hop, ← hg, exists_copy_iff_read hfound hd, hhome] at hmem
      rw [hjoined.readOn_iff hd]
      simpa [destinationsOf] using hmem

end Insert

end ShardedModel.Graph
