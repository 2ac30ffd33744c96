import ShardedModel.Graph.Schedule
import ShardedModel.Proofs.Outcome

/-!
# What a schedule is

A graph has a schedule exactly when its nodes can be ranked so that each reads from
lower ranks only. One direction needs no particular ranking: as long as nodes wait,
the lowest of them reads only what has run. The other gives a particular one, the
depth, in which a node stands directly above one of its inputs; the wave in which a
node runs is its depth.

Statements about a run can therefore speak of nodes and their depths and need not
mention how the waves were found.
-/

namespace ShardedModel

/-- In a list in the order of keys, a member is known by its key. -/
theorem eq_of_key_eq {β : Type} {key : β → Nat} {xs : List β}
    (hordered : xs.Pairwise (fun a b => key a < key b)) {n m : β} (hn : n ∈ xs) (hm : m ∈ xs)
    (hid : key n = key m) : n = m := by
  induction hordered with
  | nil => cases hn
  | cons hfirst _ ih =>
      rcases List.mem_cons.mp hn with rfl | hn'
      · rcases List.mem_cons.mp hm with rfl | hm'
        · rfl
        · exact absurd hid (Nat.ne_of_lt (hfirst m hm'))
      · rcases List.mem_cons.mp hm with rfl | hm'
        · exact absurd hid.symm (Nat.ne_of_lt (hfirst n hn'))
        · exact ih hn' hm'

theorem Node.ready_iff {done : List NodeId} {n : Node} :
    n.ready done = true ↔ ∀ v ∈ n.inputs, v.node ∈ done := by
  rw [Node.ready, List.all_eq_true]
  simp only [List.contains_iff_mem]

namespace Graph

theorem mem_readyNodes {done : List NodeId} {pending : List Node} {n : Node} :
    n ∈ readyNodes done pending ↔ n ∈ pending ∧ ∀ v ∈ n.inputs, v.node ∈ done := by
  rw [readyNodes, List.mem_filter, Node.ready_iff]

theorem mem_waitingNodes {done : List NodeId} {pending : List Node} {n : Node} :
    n ∈ waitingNodes done pending ↔ n ∈ pending ∧ ∃ v ∈ n.inputs, v.node ∉ done := by
  rw [waitingNodes, List.mem_filter, Bool.not_eq_true', ← Bool.not_eq_true, Node.ready_iff]
  simp only [not_forall, exists_prop]

/-- The graph has a node with this id. -/
def Has (g : Graph) (id : NodeId) : Prop := ∃ n ∈ g.nodes, n.id = id

theorem node?_of_mem (g : Graph) {n : Node} (hn : n ∈ g.nodes) : g.node? n.id = some n := by
  rw [node?, List.find?_eq_some_iff_append]
  obtain ⟨before, after, hsplit⟩ := List.append_of_mem hn
  refine ⟨by simp, before, after, hsplit, ?_⟩
  intro m hm
  have hlt := (List.pairwise_append.mp (hsplit ▸ g.ordered)).2.2 m hm n List.mem_cons_self
  simpa using Nat.ne_of_lt hlt

theorem node_of_mem (g : Graph) {n : Node} (hn : n ∈ g.nodes) : g.node n.id = .ok n := by
  rw [node, g.node?_of_mem hn]

theorem mem_of_node? {g : Graph} {id : NodeId} {n : Node} (h : g.node? id = some n) :
    n ∈ g.nodes ∧ n.id = id :=
  ⟨List.mem_of_find?_eq_some h, by simpa using List.find?_some h⟩

theorem mem_of_node {g : Graph} {id : NodeId} {n : Node} (h : g.node id = .ok n) :
    n ∈ g.nodes ∧ n.id = id := by
  unfold node at h
  split at h
  · next m hm =>
      rw [Except.ok.injEq] at h
      exact h ▸ mem_of_node? hm
  · cases h

/-! ## Ranks -/

/-- Each input of each node exists and has a lower rank than the node. -/
structure Ranks (g : Graph) (rank : NodeId → Nat) : Prop where
  has : ∀ n ∈ g.nodes, ∀ v ∈ n.inputs, g.Has v.node
  lt : ∀ n ∈ g.nodes, ∀ v ∈ n.inputs, rank v.node < rank n.id

/-- As long as each waiting node reads what has run or what waits at a lower rank, the
waves come to an end. -/
theorem wavesFrom_of_rank (rank : NodeId → Nat) {done : List NodeId} {pending : List Node}
    (h : ∀ n ∈ pending, ∀ v ∈ n.inputs,
      v.node ∈ done ∨ ∃ m ∈ pending, m.id = v.node ∧ rank m.id < rank n.id) :
    ∃ ws, wavesFrom done pending = .ok ws := by
  fun_induction wavesFrom done pending with
  | case1 done => exact ⟨[], rfl⟩
  | case2 done pending hpending hready =>
      -- No node is ready, so each has one below it that waits, and ranks would descend
      -- for ever.
      have hdescent : ∀ r, ∀ n ∈ pending, rank n.id = r → False := by
        intro r
        induction r using Nat.strongRecOn with
        | ind r ih =>
            intro n hn hr
            have hwaits : ∃ v ∈ n.inputs, v.node ∉ done := by
              by_contra hall
              push Not at hall
              exact List.not_mem_nil (hready ▸ mem_readyNodes.mpr ⟨hn, hall⟩)
            obtain ⟨v, hv, hnot⟩ := hwaits
            rcases h n hn v hv with hdone | ⟨m, hm, -, hlt⟩
            · exact hnot hdone
            · exact ih (rank m.id) (hr ▸ hlt) m hm rfl
      obtain ⟨n, hn⟩ := List.exists_mem_of_ne_nil pending hpending
      exact (hdescent (rank n.id) n hn rfl).elim
  | case3 done pending hpending hready wave ih =>
      obtain ⟨later, hlater⟩ := ih (by
        intro n hn v hv
        obtain ⟨hn, -⟩ := mem_waitingNodes.mp hn
        rcases h n hn v hv with hdone | ⟨m, hm, hid, hlt⟩
        · exact .inl (List.mem_append_left _ hdone)
        · by_cases hmready : ∀ u ∈ m.inputs, u.node ∈ done
          · refine .inl (List.mem_append_right _ ?_)
            exact hid ▸ List.mem_map_of_mem (mem_readyNodes.mpr ⟨hm, hmready⟩)
          · push Not at hmready
            exact .inr ⟨m, mem_waitingNodes.mpr ⟨hm, hmready⟩, hid, hlt⟩)
      exact ⟨wave :: later, by rw [hlater]; rfl⟩

theorem waves_of_ranks {g : Graph} {rank : NodeId → Nat} (h : g.Ranks rank) :
    ∃ ws, g.waves = .ok ws := by
  refine wavesFrom_of_rank rank fun n hn v hv => .inr ?_
  obtain ⟨m, hm, hid⟩ := h.has n hn v hv
  exact ⟨m, hm, hid, hid ▸ h.lt n hn v hv⟩

/-! ## Depths -/

/-- A ranking in which a node stands as low as its inputs let it: at zero, or directly
above one of them. -/
structure Depths (g : Graph) (depth : NodeId → Nat) : Prop extends g.Ranks depth where
  tight : ∀ n ∈ g.nodes, depth n.id = 0 ∨ ∃ v ∈ n.inputs, depth v.node + 1 = depth n.id

/-- What the waves of waiting nodes say about depths, when those that have run have
depths below `i` and each waiting node waits for something or reads from the wave before. -/
theorem exists_depth_from {done : List NodeId} {pending : List Node} {ws : List (List NodeId)}
    (hws : wavesFrom done pending = .ok ws)
    (hordered : pending.Pairwise (fun a b => a.id < b.id)) (before : NodeId → Nat) (i : Nat)
    (hnew : ∀ n ∈ pending, n.id ∉ done) (hbefore : ∀ id ∈ done, before id < i)
    (htight : ∀ n ∈ pending, i = 0 ∨ ∃ v ∈ n.inputs, v.node ∉ done ∨ before v.node + 1 = i) :
    ∃ depth : NodeId → Nat, (∀ id ∈ done, depth id = before id) ∧ ∀ n ∈ pending,
      (∀ v ∈ n.inputs, (v.node ∈ done ∨ ∃ m ∈ pending, m.id = v.node) ∧
        depth v.node < depth n.id) ∧
      i ≤ depth n.id ∧ (depth n.id = 0 ∨ ∃ v ∈ n.inputs, depth v.node + 1 = depth n.id) := by
  fun_induction wavesFrom done pending generalizing ws before i with
  | case1 done => exact ⟨before, fun _ _ => rfl, by simp⟩
  | case2 => cases hws
  | case3 done pending hpending hready wave =>
      rename_i ih
      obtain ⟨later, hlater, -⟩ := Outcome.bind_eq_ok.mp hws
      have hwave : ∀ id, id ∈ wave ↔ ∃ n ∈ readyNodes done pending, n.id = id :=
        fun id => List.mem_map
      have hapart : ∀ id ∈ done, id ∉ wave := by
        intro id hid hin
        obtain ⟨n, hn, rfl⟩ := (hwave id).mp hin
        exact hnew n (mem_readyNodes.mp hn).1 hid
      -- The nodes of this wave get depth `i`, and the rest of the waves starts above them.
      let after : NodeId → Nat := fun id => if id ∈ wave then i else before id
      have hin : ∀ id ∈ wave, after id = i := fun id hid => if_pos hid
      have hout : ∀ id, id ∉ wave → after id = before id := fun id hid => if_neg hid
      have hnew' : ∀ n ∈ waitingNodes done pending, n.id ∉ done ++ wave := by
        intro n hn hin
        obtain ⟨hn, v, hv, hnot⟩ := mem_waitingNodes.mp hn
        rcases List.mem_append.mp hin with hin | hin
        · exact hnew n hn hin
        · obtain ⟨m, hm, hid⟩ := (hwave n.id).mp hin
          obtain ⟨hm, hreads⟩ := mem_readyNodes.mp hm
          exact hnot (hreads v (eq_of_key_eq hordered hm hn hid ▸ hv))
      have hbefore' : ∀ id ∈ done ++ wave, after id < i + 1 := by
        intro id hid
        by_cases hnow : id ∈ wave
        · rw [hin id hnow]
          exact Nat.lt_succ_self i
        · rw [hout id hnow]
          exact Nat.lt_succ_of_lt (hbefore id ((List.mem_append.mp hid).resolve_right hnow))
      have htight' : ∀ n ∈ waitingNodes done pending,
          i + 1 = 0 ∨ ∃ v ∈ n.inputs, v.node ∉ done ++ wave ∨ after v.node + 1 = i + 1 := by
        intro n hn
        obtain ⟨hn, v, hv, hnot⟩ := mem_waitingNodes.mp hn
        refine .inr ⟨v, hv, ?_⟩
        by_cases hnow : v.node ∈ wave
        · exact .inr (by rw [hin _ hnow])
        · exact .inl fun h => (List.mem_append.mp h).elim hnot hnow
      obtain ⟨depth, hdepth, hwaiting⟩ :=
        ih hlater (hordered.filter _) after (i + 1) hnew' hbefore' htight'
      have hdone : ∀ id ∈ done, depth id = before id := by
        intro id hid
        rw [hdepth id (List.mem_append_left _ hid), hout id (hapart id hid)]
      have hnow : ∀ id ∈ wave, depth id = i := by
        intro id hid
        rw [hdepth id (List.mem_append_right _ hid), hin id hid]
      refine ⟨depth, hdone, fun n hn => ?_⟩
      by_cases hreads : ∀ v ∈ n.inputs, v.node ∈ done
      · have hn' : depth n.id = i :=
          hnow _ ((hwave _).mpr ⟨n, mem_readyNodes.mpr ⟨hn, hreads⟩, rfl⟩)
        refine ⟨fun v hv => ⟨.inl (hreads v hv), ?_⟩, Nat.le_of_eq hn'.symm, ?_⟩
        · rw [hn', hdone _ (hreads v hv)]
          exact hbefore _ (hreads v hv)
        · rcases htight n hn with hzero | ⟨v, hv, hnot | hlast⟩
          · exact .inl (hn'.trans hzero)
          · exact absurd (hreads v hv) hnot
          · exact .inr ⟨v, hv, by rw [hn', hdone _ (hreads v hv), hlast]⟩
      · push Not at hreads
        obtain ⟨hinputs, hle, hlow⟩ := hwaiting n (mem_waitingNodes.mpr ⟨hn, hreads⟩)
        refine ⟨fun v hv => ⟨?_, (hinputs v hv).2⟩, Nat.le_of_succ_le hle, hlow⟩
        rcases (hinputs v hv).1 with hin | ⟨m, hm, hid⟩
        · rcases List.mem_append.mp hin with hin | hin
          · exact .inl hin
          · obtain ⟨m, hm, hid⟩ := (hwave _).mp hin
            exact .inr ⟨m, (mem_readyNodes.mp hm).1, hid⟩
        · exact .inr ⟨m, (mem_waitingNodes.mp hm).1, hid⟩

theorem exists_depths {g : Graph} {ws : List (List NodeId)} (h : g.waves = .ok ws) :
    ∃ depth, g.Depths depth := by
  obtain ⟨depth, -, hdepth⟩ := exists_depth_from h g.ordered (fun _ => 0) 0 (by simp)
    (by simp) (fun _ _ => .inl rfl)
  refine ⟨depth, ⟨fun n hn v hv => ?_, fun n hn v hv => ((hdepth n hn).1 v hv).2⟩,
    fun n hn => (hdepth n hn).2.2⟩
  exact ((hdepth n hn).1 v hv).1.resolve_left List.not_mem_nil

/-! ## Waves are layers of equal depth -/

/-- The nodes of one depth, in the order of their ids. -/
def layer (g : Graph) (depth : NodeId → Nat) (i : Nat) : List Node :=
  g.nodes.filter fun n => depth n.id = i

theorem mem_layer {g : Graph} {depth : NodeId → Nat} {i : Nat} {n : Node} :
    n ∈ g.layer depth i ↔ n ∈ g.nodes ∧ depth n.id = i := by
  rw [layer, List.mem_filter, decide_eq_true_iff]

theorem ordered_layer (g : Graph) (depth : NodeId → Nat) (i : Nat) :
    (g.layer depth i).Pairwise (fun a b => a.id < b.id) :=
  g.ordered.filter _

namespace Depths

variable {g : Graph} {depth : NodeId → Nat}

/-- Below a node there are nodes of every smaller depth. -/
theorem exists_at (h : g.Depths depth) {n : Node} (hn : n ∈ g.nodes) {i : Nat}
    (hi : i ≤ depth n.id) : ∃ m ∈ g.nodes, depth m.id = i := by
  generalize hd : depth n.id = d at hi
  induction d generalizing n with
  | zero => exact ⟨n, hn, by omega⟩
  | succ d ih =>
      by_cases heq : i = d + 1
      · exact ⟨n, hn, hd.trans heq.symm⟩
      · rcases h.tight n hn with hzero | ⟨v, hv, hbelow⟩
        · omega
        · obtain ⟨m, hm, hid⟩ := h.has n hn v hv
          exact ih hm (by rw [hid]; omega) (by omega)

/-- With the nodes below depth `i` done, the ready nodes are those at depth `i`. -/
theorem ready_iff (h : g.Depths depth) {i : Nat} {done : List NodeId}
    (hdone : ∀ id, id ∈ done ↔ g.Has id ∧ depth id < i) {n : Node} (hn : n ∈ g.nodes) :
    n.ready done = true ↔ depth n.id ≤ i := by
  rw [Node.ready_iff]
  constructor
  · intro hreads
    rcases h.tight n hn with hzero | ⟨v, hv, hbelow⟩
    · omega
    · have := ((hdone _).mp (hreads v hv)).2
      omega
  · intro hle v hv
    have := h.lt n hn v hv
    exact (hdone _).mpr ⟨h.has n hn v hv, by omega⟩

theorem readyNodes_eq (h : g.Depths depth) {i : Nat} {done : List NodeId}
    (hdone : ∀ id, id ∈ done ↔ g.Has id ∧ depth id < i) :
    readyNodes done (g.nodes.filter fun n => i ≤ depth n.id) = g.layer depth i := by
  rw [readyNodes, layer, List.filter_filter]
  refine List.filter_congr fun n hn => ?_
  rw [Bool.eq_iff_iff, Bool.and_eq_true, h.ready_iff hdone hn, decide_eq_true_iff,
    decide_eq_true_iff]
  omega

theorem waitingNodes_eq (h : g.Depths depth) {i : Nat} {done : List NodeId}
    (hdone : ∀ id, id ∈ done ↔ g.Has id ∧ depth id < i) :
    waitingNodes done (g.nodes.filter fun n => i ≤ depth n.id) =
      g.nodes.filter fun n => i + 1 ≤ depth n.id := by
  rw [waitingNodes, List.filter_filter]
  refine List.filter_congr fun n hn => ?_
  rw [Bool.eq_iff_iff, Bool.and_eq_true, Bool.not_eq_true', ← Bool.not_eq_true,
    h.ready_iff hdone hn, decide_eq_true_iff, decide_eq_true_iff]
  omega

theorem exists_height (depth : NodeId → Nat) (nodes : List Node) :
    ∃ height, ∀ n ∈ nodes, depth n.id < height := by
  induction nodes with
  | nil => exact ⟨0, by simp⟩
  | cons m rest ih =>
      obtain ⟨height, hheight⟩ := ih
      refine ⟨max height (depth m.id + 1), fun n hn => ?_⟩
      rcases List.mem_cons.mp hn with rfl | hn'
      · omega
      · have := hheight n hn'
        omega

theorem wavesFrom_eq (h : g.Depths depth) {height : Nat}
    (hheight : ∀ n ∈ g.nodes, depth n.id < height) (left i : Nat) (hleft : height ≤ i + left)
    (done : List NodeId) (hdone : ∀ id, id ∈ done ↔ g.Has id ∧ depth id < i) :
    ∃ count, wavesFrom done (g.nodes.filter fun n => i ≤ depth n.id) =
        .ok ((List.range' i count).map fun i => (g.layer depth i).map (·.id)) ∧
      ∀ n ∈ g.nodes, depth n.id < i + count := by
  by_cases hpending : (g.nodes.filter fun n => i ≤ depth n.id) = []
  · refine ⟨0, by rw [hpending, wavesFrom]; rfl, fun n hn => ?_⟩
    have := List.filter_eq_nil_iff.mp hpending n hn
    simp only [decide_eq_true_iff] at this
    omega
  · obtain ⟨n, hn⟩ := List.exists_mem_of_ne_nil _ hpending
    obtain ⟨hn, hle⟩ := List.mem_filter.mp hn
    obtain ⟨m, hm, hmi⟩ := h.exists_at hn (of_decide_eq_true hle)
    have hready := h.readyNodes_eq hdone
    have hne : g.layer depth i ≠ [] := List.ne_nil_of_mem (mem_layer.mpr ⟨hm, hmi⟩)
    match left with
    | 0 => exact absurd (hheight m hm) (by omega)
    | left + 1 =>
        obtain ⟨count, hlater, hbound⟩ := h.wavesFrom_eq hheight left (i + 1) (by omega)
          (done ++ (g.layer depth i).map (·.id)) (by
            intro id
            rw [List.mem_append, hdone, List.mem_map]
            constructor
            · rintro (⟨hhas, hlt⟩ | ⟨n, hn, rfl⟩)
              · exact ⟨hhas, by omega⟩
              · obtain ⟨hn, hni⟩ := mem_layer.mp hn
                exact ⟨⟨n, hn, rfl⟩, by omega⟩
            · rintro ⟨⟨n, hn, rfl⟩, hlt⟩
              by_cases hni : depth n.id = i
              · exact .inr ⟨n, mem_layer.mpr ⟨hn, hni⟩, rfl⟩
              · exact .inl ⟨⟨n, hn, rfl⟩, by omega⟩)
        refine ⟨count + 1, ?_, fun n hn => by have := hbound n hn; omega⟩
        rw [wavesFrom, if_neg hpending, hready, if_neg hne, h.waitingNodes_eq hdone]
        dsimp only
        rw [hlater]
        rfl

/-- The waves of a graph with depths: its layers from the lowest on, all of them. -/
theorem waves_eq (h : g.Depths depth) :
    ∃ count, g.waves = .ok ((List.range count).map fun i => (g.layer depth i).map (·.id)) ∧
      ∀ n ∈ g.nodes, depth n.id < count := by
  obtain ⟨height, hheight⟩ := exists_height depth g.nodes
  obtain ⟨count, hwaves, hbound⟩ := h.wavesFrom_eq hheight _ 0 (Nat.le_add_left _ _)
    [] (by simp)
  refine ⟨count, ?_, fun n hn => by have := hbound n hn; omega⟩
  rw [List.range_eq_range', waves, ← hwaves]
  congr 1
  exact (List.filter_eq_self.mpr (by simp)).symm

end Depths

end Graph

end ShardedModel
