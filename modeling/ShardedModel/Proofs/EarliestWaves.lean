import Mathlib.Data.Fintype.Card
import Mathlib.Data.Set.Finite.List
import Mathlib.Logic.Relation
import ShardedModel.Proofs.Schedule

/-!
# Waves are early, and the nodes left over are stuck

What a node waits for is found by going from a node to those it reads. If that leads to a
node that is not there or round in a circle, the node is stuck, and no order of the nodes
can help. All other nodes run, and the wave of a node is the length of the longest way
down from it: shorter would be too early for some input, and longer would be idle.

A graph of which some nodes are stuck has no schedule. The waves of the other nodes are
found all the same before that shows, so what is left when no node is ready any more, and
what the failure lists, is the stuck nodes and no others.
-/

namespace ShardedModel.Graph

variable {g : Graph}

/-! ## Ways down -/

/-- Node `a` reads node `b`, whether or not the graph has `b`. -/
def Reads (g : Graph) (a b : NodeId) : Prop :=
  ∃ n ∈ g.nodes, n.id = a ∧ ∃ v ∈ n.inputs, v.node = b

/-- A way of so many steps leads down from a node, each to a node that is read. -/
inductive Descends (g : Graph) : NodeId → Nat → Prop
  | stay (id : NodeId) : Descends g id 0
  | step {a b : NodeId} {k : Nat} (hreads : g.Reads a b) (h : Descends g b k) :
      Descends g a (k + 1)

/-- Some way down leads to a node that is not there, or to one that comes round to itself. -/
def Stuck (g : Graph) (id : NodeId) : Prop :=
  ∃ c, Relation.ReflTransGen g.Reads id c ∧ (¬ g.Has c ∨ Relation.TransGen g.Reads c c)

theorem reads_of_mem {n : Node} (hn : n ∈ g.nodes) {b : NodeId} :
    g.Reads n.id b ↔ ∃ v ∈ n.inputs, v.node = b := by
  constructor
  · intro ⟨m, hm, hid, hv⟩
    exact eq_of_key_eq g.ordered hm hn hid ▸ hv
  · intro hv
    exact ⟨n, hn, rfl, hv⟩

theorem stuck_of_not_has {id : NodeId} (h : ¬ g.Has id) : g.Stuck id :=
  ⟨id, .refl, .inl h⟩

theorem Stuck.of_reads {a b : NodeId} (hreads : g.Reads a b) (h : g.Stuck b) : g.Stuck a := by
  obtain ⟨c, hway, hend⟩ := h
  exact ⟨c, .head hreads hway, hend⟩

/-- A node is stuck only if it reads one that is. -/
theorem Stuck.exists_reads {n : Node} (hn : n ∈ g.nodes) (h : g.Stuck n.id) :
    ∃ v ∈ n.inputs, g.Stuck v.node := by
  obtain ⟨c, hway, hend⟩ := h
  have hnext : ∃ b, g.Reads n.id b ∧ g.Stuck b := by
    rcases Relation.ReflTransGen.cases_head hway with heq | ⟨b, hreads, hrest⟩
    · -- The node itself comes round, and so does the first node on the way.
      subst heq
      have hround := hend.resolve_left (not_not.mpr ⟨n, hn, rfl⟩)
      obtain ⟨b, hreads, hrest⟩ := Relation.TransGen.head'_iff.mp hround
      exact ⟨b, hreads, n.id, hrest, .inr hround⟩
    · exact ⟨b, hreads, c, hrest, hend⟩
  obtain ⟨b, hreads, hstuck⟩ := hnext
  obtain ⟨v, hv, rfl⟩ := (reads_of_mem hn).mp hreads
  exact ⟨v, hv, hstuck⟩

/-- Among the nodes that are not stuck no way down goes on for ever: there are finitely many of
them and none comes round to itself. -/
theorem wellFounded_reads (g : Graph) :
    WellFounded fun b a : { id // g.Has id ∧ ¬ g.Stuck id } => g.Reads a b := by
  have hfinite : Finite { id // g.Has id ∧ ¬ g.Stuck id } := by
    refine Set.Finite.subset (List.finite_toSet (g.nodes.map (·.id))) fun id hid => ?_
    obtain ⟨n, hn, rfl⟩ := hid.1
    exact List.mem_map.mpr ⟨n, hn, rfl⟩
  let below (b a : { id // g.Has id ∧ ¬ g.Stuck id }) : Prop := Relation.TransGen g.Reads a b
  have htrans : IsTrans _ below := ⟨fun a b c hab hbc => hbc.trans hab⟩
  have hirrefl : Std.Irrefl below := ⟨fun a hround => a.2.2 ⟨a, .refl, .inr hround⟩⟩
  exact Subrelation.wf (fun hreads => Relation.TransGen.single hreads)
    (Finite.wellFounded_of_trans_of_irrefl below)

/-! ## What is left over -/

/-- Some nodes have run, none of them stuck, and all others wait in their order. -/
structure Progress (g : Graph) (done : List NodeId) (pending : List Node) : Prop where
  sublist : pending.Sublist g.nodes
  waits : ∀ n ∈ g.nodes, n.id ∈ done ∨ n ∈ pending
  done : ∀ id ∈ done, ¬ g.Stuck id

theorem progress_start (g : Graph) : g.Progress [] g.nodes :=
  ⟨List.Sublist.refl _, fun _ hn => .inr hn, by simp⟩

theorem Progress.wave {done : List NodeId} {pending : List Node} (h : g.Progress done pending) :
    g.Progress (done ++ (readyNodes done pending).map (·.id)) (waitingNodes done pending) := by
  refine ⟨List.filter_sublist.trans h.sublist, fun n hn => ?_, fun id hid => ?_⟩
  · rcases h.waits n hn with hdone | hpending
    · exact .inl (List.mem_append_left _ hdone)
    · by_cases hready : ∀ v ∈ n.inputs, v.node ∈ done
      · have hin := mem_readyNodes.mpr ⟨hpending, hready⟩
        exact .inl (List.mem_append_right _ (List.mem_map.mpr ⟨n, hin, rfl⟩))
      · push Not at hready
        exact .inr (mem_waitingNodes.mpr ⟨hpending, hready⟩)
  · rcases List.mem_append.mp hid with hdone | hwave
    · exact h.done id hdone
    · obtain ⟨n, hn, rfl⟩ := List.mem_map.mp hwave
      obtain ⟨hpending, hreads⟩ := mem_readyNodes.mp hn
      intro hstuck
      obtain ⟨v, hv, hstuck⟩ := hstuck.exists_reads (h.sublist.subset hpending)
      exact h.done v.node (hreads v hv) hstuck

/-- When no node is ready, all that wait are stuck: each of them waits for another, and among
nodes that are not stuck that would have to end. -/
theorem Progress.stuck {done : List NodeId} {pending : List Node} (h : g.Progress done pending)
    (hready : readyNodes done pending = []) {n : Node} (hn : n ∈ pending) : g.Stuck n.id := by
  have hwaits : ∀ m ∈ pending, ∃ v ∈ m.inputs, v.node ∉ done := by
    intro m hm
    by_contra hall
    push Not at hall
    exact List.not_mem_nil (hready ▸ mem_readyNodes.mpr ⟨hm, hall⟩)
  have hfree : ∀ id : { id // g.Has id ∧ ¬ g.Stuck id }, ∀ m ∈ pending, m.id ≠ id := by
    intro id
    induction id using (wellFounded_reads g).induction with
    | _ id ih =>
        intro m hm heq
        obtain ⟨v, hv, hnot⟩ := hwaits m hm
        have hreads : g.Reads id v.node :=
          heq ▸ (reads_of_mem (h.sublist.subset hm)).mpr ⟨v, hv, rfl⟩
        have hfree : ¬ g.Stuck v.node := fun hstuck => id.2.2 (hstuck.of_reads hreads)
        have hhas : g.Has v.node := by
          by_contra hmissing
          exact hfree (stuck_of_not_has hmissing)
        obtain ⟨k, hk, hid⟩ := hhas
        have hpending : k ∈ pending := (h.waits k hk).resolve_left (hid ▸ hnot)
        exact ih ⟨v.node, ⟨k, hk, hid⟩, hfree⟩ hreads k hpending hid
  by_contra hnot
  exact hfree ⟨n.id, ⟨n, h.sublist.subset hn, rfl⟩, hnot⟩ n hn rfl

theorem Progress.error {done : List NodeId} {pending : List Node} (h : g.Progress done pending)
    {e : Failure} (herror : wavesFrom done pending = .error e) :
    ∃ ids, e = .placement (.unschedulable ids) ∧ ids ≠ [] ∧ ids.Pairwise (· < ·) ∧
      ∀ id, id ∈ ids ↔ g.Has id ∧ g.Stuck id := by
  fun_induction wavesFrom done pending with
  | case1 done => cases herror
  | case2 done pending hpending hready =>
      refine ⟨pending.map (·.id), (Except.error.inj herror).symm, by simpa using hpending,
        List.pairwise_map.mpr (g.ordered.sublist h.sublist), fun id => ⟨fun hid => ?_, ?_⟩⟩
      · obtain ⟨n, hn, rfl⟩ := List.mem_map.mp hid
        exact ⟨⟨n, h.sublist.subset hn, rfl⟩, h.stuck hready hn⟩
      · intro hid
        obtain ⟨⟨n, hn, hid⟩, hstuck⟩ := hid
        have hleft := (h.waits n hn).resolve_left fun hdone => h.done n.id hdone (hid ▸ hstuck)
        exact List.mem_map.mpr ⟨n, hleft, hid⟩
  | case3 done pending hpending hready wave ih =>
      exact ih h.wave (Outcome.bind_pure_eq_error.mp herror)

/-! ## Depths are longest ways down -/

namespace Depths

variable {depth : NodeId → Nat}

theorem reads_lt (h : g.Depths depth) {a b : NodeId} (hreads : g.Reads a b) :
    depth b < depth a := by
  obtain ⟨n, hn, rfl, v, hv, rfl⟩ := hreads
  exact h.lt n hn v hv

theorem transGen_lt (h : g.Depths depth) {a b : NodeId}
    (hway : Relation.TransGen g.Reads a b) : depth b < depth a := by
  induction hway with
  | single hreads => exact h.reads_lt hreads
  | tail _ hreads ih => exact Nat.lt_trans (h.reads_lt hreads) ih

theorem le_of_descends (h : g.Depths depth) {id : NodeId} {k : Nat} (hway : g.Descends id k) :
    k ≤ depth id := by
  induction hway with
  | stay id => exact Nat.zero_le _
  | step hreads _ ih =>
      have hlt := h.reads_lt hreads
      omega

theorem descends (h : g.Depths depth) {n : Node} (hn : n ∈ g.nodes) :
    g.Descends n.id (depth n.id) := by
  generalize hd : depth n.id = d
  induction d generalizing n with
  | zero => exact .stay n.id
  | succ d ih =>
      obtain ⟨v, hv, hbelow⟩ := (h.tight n hn).resolve_left (by omega)
      obtain ⟨m, hm, hid⟩ := h.has n hn v hv
      exact .step ((reads_of_mem hn).mpr ⟨v, hv, hid.symm⟩) (ih hm (by rw [hid]; omega))

end Depths

/-- A wave is made of nodes that are ready, and there are some. -/
theorem ne_nil_of_mem_wavesFrom {done : List NodeId} {pending : List Node}
    {ws : List (List NodeId)} (h : wavesFrom done pending = .ok ws) {w : List NodeId}
    (hw : w ∈ ws) : w ≠ [] := by
  fun_induction wavesFrom done pending generalizing ws with
  | case1 done =>
      cases h
      cases hw
  | case2 => cases h
  | case3 done pending hpending hready wave =>
      rename_i ih
      obtain ⟨later, hlater, heq⟩ := Outcome.bind_eq_ok.mp h
      cases heq
      rcases List.mem_cons.mp hw with hfirst | hrest
      · rw [hfirst]
        simpa [wave] using hready
      · exact ih hlater hrest

/-! ## The schedule -/

/-- Node `id` runs in wave `i`. -/
def RunsIn (ws : List (List NodeId)) (id : NodeId) (i : Nat) : Prop :=
  ∃ w, ws[i]? = some w ∧ id ∈ w

/-- The waves hold each node once, as early as its inputs let it run. -/
structure Earliest (g : Graph) (ws : List (List NodeId)) : Prop where
  once : ∀ id, g.Has id → ∃! i, RunsIn ws id i
  nodes : ∀ id i, RunsIn ws id i → g.Has id
  nonempty : ∀ w ∈ ws, w ≠ []
  increasing : ∀ w ∈ ws, w.Pairwise (· < ·)
  longest : ∀ id i, RunsIn ws id i → g.Descends id i ∧ ∀ k, g.Descends id k → k ≤ i
  /-- What a node reads has run before. -/
  after : ∀ n ∈ g.nodes, ∀ i, RunsIn ws n.id i → ∀ v ∈ n.inputs, ∃ j < i, RunsIn ws v.node j
  /-- Something that a node reads has run only just before. -/
  prompt : ∀ n ∈ g.nodes, ∀ i, RunsIn ws n.id (i + 1) → ∃ v ∈ n.inputs, RunsIn ws v.node i

theorem earliest_of_waves {ws : List (List NodeId)} (hws : g.waves = .ok ws) : g.Earliest ws := by
  obtain ⟨depth, h⟩ := exists_depths hws
  obtain ⟨count, hlayers, hcount⟩ := h.waves_eq
  obtain rfl := Except.ok.inj (hws.symm.trans hlayers)
  have hruns : ∀ {id i}, RunsIn ((List.range count).map fun i => (g.layer depth i).map (·.id))
      id i ↔ g.Has id ∧ depth id = i := by
    intro id i
    constructor
    · intro ⟨w, hw, hid⟩
      obtain ⟨-, rfl⟩ := Outcome.getElem?_map_range.mp hw
      obtain ⟨n, hn, rfl⟩ := List.mem_map.mp hid
      obtain ⟨hn, hi⟩ := mem_layer.mp hn
      exact ⟨⟨n, hn, rfl⟩, hi⟩
    · intro ⟨⟨n, hn, hid⟩, hi⟩
      subst hid hi
      exact ⟨_, Outcome.getElem?_map_range.mpr ⟨hcount n hn, rfl⟩,
        List.mem_map.mpr ⟨n, mem_layer.mpr ⟨hn, rfl⟩, rfl⟩⟩
  refine ⟨fun id hid => ⟨depth id, hruns.mpr ⟨hid, rfl⟩, fun i hi => (hruns.mp hi).2.symm⟩,
    fun id i hi => (hruns.mp hi).1, fun w hw => ne_nil_of_mem_wavesFrom hws hw, fun w hw => ?_,
    fun id i hi => ?_, fun n hn i hi v hv => ?_, fun n hn i hi => ?_⟩
  · obtain ⟨i, -, rfl⟩ := List.mem_map.mp hw
    exact List.pairwise_map.mpr (g.ordered_layer depth i)
  · obtain ⟨⟨n, hn, hid⟩, hi⟩ := hruns.mp hi
    subst hid hi
    exact ⟨h.descends hn, fun k hk => h.le_of_descends hk⟩
  · exact ⟨depth v.node, (hruns.mp hi).2 ▸ h.lt n hn v hv, hruns.mpr ⟨h.has n hn v hv, rfl⟩⟩
  · have hdepth := (hruns.mp hi).2
    obtain ⟨v, hv, hbelow⟩ := (h.tight n hn).resolve_left (by omega)
    exact ⟨v, hv, hruns.mpr ⟨h.has n hn v hv, by omega⟩⟩

/-- A graph has a schedule exactly if all that is read is there and no node comes round to
itself. The waves are then as early as they can be, and else the failure lists the nodes that
are stuck. -/
theorem waves_earliest (g : Graph) :
    ((∃ ws, g.waves = .ok ws) ↔
      (∀ a b, g.Reads a b → g.Has b) ∧ ∀ id, ¬ Relation.TransGen g.Reads id id) ∧
    (∀ ws, g.waves = .ok ws → g.Earliest ws) ∧
    ∀ e, g.waves = .error e → ∃ ids, e = .placement (.unschedulable ids) ∧
      ids.Pairwise (· < ·) ∧ ∀ id, id ∈ ids ↔ g.Has id ∧ g.Stuck id := by
  refine ⟨⟨?_, ?_⟩, fun ws hws => earliest_of_waves hws, fun e he => ?_⟩
  · intro ⟨ws, hws⟩
    obtain ⟨depth, h⟩ := exists_depths hws
    refine ⟨fun a b hreads => ?_, fun id hround => Nat.lt_irrefl _ (h.transGen_lt hround)⟩
    obtain ⟨n, hn, -, v, hv, rfl⟩ := hreads
    exact h.has n hn v hv
  · intro ⟨hclosed, hacyclic⟩
    cases hws : g.waves with
    | ok ws => exact ⟨ws, rfl⟩
    | error e =>
        obtain ⟨ids, -, hne, -, hids⟩ := g.progress_start.error hws
        obtain ⟨id, hid⟩ := List.exists_mem_of_ne_nil ids hne
        obtain ⟨hhas, c, hway, hend⟩ := (hids id).mp hid
        have hthere : g.Has c := by
          rcases Relation.ReflTransGen.cases_tail hway with heq | ⟨b, -, hreads⟩
          · exact heq ▸ hhas
          · exact hclosed b c hreads
        exact (hend.elim (absurd hthere) (hacyclic c)).elim
  · obtain ⟨ids, heq, -, hordered, hids⟩ := g.progress_start.error he
    exact ⟨ids, heq, hordered, hids⟩

/-- A graph whose schedule is not the order of its ids. -/
def braided : Graph :=
  let g := (Graph.empty ⟨0, []⟩ 1).addNode .input [] 0
  let g := (g.addNode .stageB [.of 3] 0).addNode .stageA [.of 0] 0
  g.addNode .accumulate [.of 0, .of 2] 0

/-- A node that reads itself, one that reads a node that is not there, two that read each other,
and readers of these beside nodes that are free. -/
def tangled : Graph :=
  let g := (Graph.empty ⟨0, []⟩ 1).addNode .input [] 0
  let g := (g.addNode .accumulate [.of 0] 0).addNode .stageA [.of 2] 0
  let g := (g.addNode .stageB [.of 9] 0).addNode (.merge 1) [.of 1, .of 3] 0
  let g := (g.addNode (.gather 0) [.of 6] 0).addNode (.gather 1) [.of 5] 0
  (g.addNode .accumulate [.of 1, .of 4] 0).addNode .accumulate [.of 1, .of 0] 0

theorem waves_earliest_tangled :
    braided.waves = .ok [[0], [2], [3], [1]] ∧ braided.Earliest [[0], [2], [3], [1]] ∧
    tangled.waves = .error (.placement (.unschedulable [2, 3, 4, 5, 6, 7])) ∧
    tangled.Stuck 7 ∧ ¬ tangled.Stuck 8 := by
  have hbraided : braided.waves = .ok [[0], [2], [3], [1]] := by cbv
  have htangled : tangled.waves = .error (.placement (.unschedulable [2, 3, 4, 5, 6, 7])) := by cbv
  obtain ⟨-, hearliest, -⟩ := waves_earliest braided
  obtain ⟨-, -, hstuck⟩ := waves_earliest tangled
  obtain ⟨ids, heq, -, hids⟩ := hstuck _ htangled
  cases heq
  have hfree : tangled.Has 8 := ⟨⟨8, .accumulate, [.of 1, .of 0]⟩, by decide, rfl⟩
  exact ⟨hbraided, hearliest _ hbraided, htangled, ((hids 7).mp (by decide)).2,
    fun h => absurd ((hids 8).mpr ⟨hfree, h⟩) (by decide)⟩

end ShardedModel.Graph
