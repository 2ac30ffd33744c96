import Mathlib.Algebra.GroupWithZero.Nat
import ShardedModel.Proofs.Execution
import ShardedModel.Proofs.Joining

/-!
# The copy passes keep the meaning of a graph

Whatever explains a graph explains it after copies were inserted, with each new copy
given the value of its source, and after copies were joined. The other way round, an
explanation of the changed graph gives one of the graph before. Since a run finds the
explanation where there is one, the runs before and after succeed together and agree on
the nodes that they share.
-/

namespace ShardedModel

variable {α : Type}

/-! ## The same node in two graphs -/

theorem Task.readInputs_transfer {look look' : NodeId → Option (Value α)} {n n' : Node}
    (hinputs : List.Forall₂ (fun v w : ValueRef => look' w.node = look v.node)
      n.inputs n'.inputs) {xs : List (Value α)} :
    readInputs look n = .ok xs ↔ readInputs look' n' = .ok xs := by
  rw [readInputs_eq_ok, readInputs_eq_ok]
  generalize n.inputs = vs at hinputs
  generalize n'.inputs = ws at hinputs
  induction hinputs generalizing xs with
  | nil => rw [List.forall₂_nil_left_iff, List.forall₂_nil_left_iff]
  | cons hhead _ ih =>
      rw [List.forall₂_cons_left_iff, List.forall₂_cons_left_iff, hhead]
      constructor
      · rintro ⟨x, rest, hx, hrest, rfl⟩
        exact ⟨x, rest, hx, ih.mp hrest, rfl⟩
      · rintro ⟨x, rest, hx, hrest, rfl⟩
        exact ⟨x, rest, hx, ih.mpr hrest, rfl⟩

variable [Zero α] [Add α] [Mul α] [Ord α]
variable {params : Parameters α} {tokens : TokenBatch} {look : NodeId → Option (Value α)}

/-- Nodes that do the same and read the same values compute the same. -/
theorem Node.outcome_transfer {plan : Plan} {look' : NodeId → Option (Value α)} {n n' : Node}
    (hop : n'.op = n.op ∨ n'.op.isCopy = true ∧ n.op.isCopy = true) (hid : n'.id = n.id)
    (hinputs : List.Forall₂ (fun v w : ValueRef => look' w.node = look v.node)
      n.inputs n'.inputs) {x : Value α} :
    n'.outcome plan params tokens look' = .ok x ↔ n.outcome plan params tokens look = .ok x := by
  rw [outcome, outcome, Outcome.bind_eq_ok, Outcome.bind_eq_ok]
  refine exists_congr fun xs => ?_
  rw [Task.readInputs_transfer hinputs, compute_congr hop hid]

namespace Graph

/-! ## Inserting copies -/

namespace Routes

variable {d g : Graph}

/-- A new copy has a value exactly if it is that of its source. -/
theorem outcome_fresh {plan : Plan} {m : Node} {v : ValueRef} (hm : FreshCopy d g m v)
    {x : Value α} : m.outcome plan params tokens look = .ok x ↔ look v.node = some x := by
  obtain ⟨destinations, -, hop⟩ := hm.delivers
  exact Node.outcome_copy hop hm.inputs

theorem explains_of_explains (h : Routes d g) (hlook : g.Explains params tokens look) :
    d.Explains params tokens look := by
  have hcopies : ∀ m ∈ g.nodes, ∀ v, FreshCopy d g m v → look m.id = look v.node := by
    intro m hm v hv
    obtain ⟨x, hx, hout⟩ := hlook m hm
    rw [hx, (outcome_fresh hv).mp hout]
  intro n hn
  obtain ⟨n', hn', hid, hop, -, hinputs⟩ := h.kept n hn
  obtain ⟨x, hx, hout⟩ := hlook n' hn'
  refine ⟨x, hid ▸ hx, ?_⟩
  rw [h.plan] at hout
  exact (Node.outcome_transfer (.inl hop) hid
    (hinputs.imp fun v w hvia => h.eq_of_via hcopies hvia)).mp hout

theorem explains_extend (h : Routes d g) {ws : List (List NodeId)} (hws : d.waves = .ok ws)
    (hlook : d.Explains params tokens look) :
    ∃ look', g.Explains params tokens look' ∧ ∀ id, d.Has id → look' id = look id := by
  obtain ⟨depth, hdepths⟩ := exists_depths hws
  obtain ⟨look', hold, hfresh⟩ := extend g d look look
  have hsource : ∀ m v, FreshCopy d g m v → look' v.node = look v.node := by
    intro m v hv
    obtain ⟨p, hp, -⟩ := hv.near
    exact hold v.node (has_of_valuePartition hp)
  refine ⟨look', fun n' hn' => ?_, hold⟩
  rw [h.plan]
  rcases h.fresh n' hn' with hid | ⟨v, hv⟩
  · obtain ⟨n, hn, hid, hop, -, hinputs⟩ := h.image hn' hid
    obtain ⟨x, hx, hout⟩ := hlook n hn
    have hout' : n.outcome d.plan params tokens look' = .ok x := by
      rw [← hout]
      exact Node.outcome_congr fun v hv => hold v.node (hdepths.has n hn v hv)
    refine ⟨x, by rw [hid, hold n.id ⟨n, hn, rfl⟩, hx], ?_⟩
    exact (Node.outcome_transfer (.inl hop) hid (hinputs.imp fun v w hvia =>
      h.eq_of_via (fun m hm v hv => (hfresh m hm v hv).trans (hsource m v hv).symm) hvia)).mpr hout'
  · obtain ⟨p, hp, -⟩ := hv.near
    obtain ⟨n, hn, hid⟩ := has_of_valuePartition hp
    obtain ⟨x, hx, -⟩ := hlook n hn
    rw [hid] at hx
    exact ⟨x, by rw [hfresh n' hn' v hv, hx], (outcome_fresh hv).mpr ((hsource n' v hv).trans hx)⟩

end Routes

/-! ## Joining copies -/

namespace Valid

variable {g : Graph}

/-- A node that stays, and the same node after copies were joined. -/
theorem outcome_joined (h : g.Valid) {look' : NodeId → Option (Value α)}
    (heq : ∀ id, g.Has id → look' (g.standIn id) = look id) {n : Node} (hn : n ∈ g.nodes)
    {x : Value α} :
    (⟨n.id, g.joinedOp n, n.inputs.map g.redirect⟩ : Node).outcome g.plan params tokens look' =
        .ok x ↔
      n.outcome g.plan params tokens look = .ok x := by
  let n' : Node := ⟨n.id, g.joinedOp n, n.inputs.map g.redirect⟩
  have hid : n'.id = n.id := rfl
  refine Node.outcome_transfer (isCopy_joinedOp g n) hid ?_
  rw [List.forall₂_map_right_iff, List.forall₂_same]
  intro v hv
  obtain ⟨p, hnode⟩ := h.nodes n hn
  rw [redirect_node (hnode.near v hv)]
  exact heq v.node (has_of_valuePartition (hnode.near v hv))

/-- In an explanation, copies of one source have one value. -/
theorem look_standIn (h : g.Valid) (hlook : g.Explains params tokens look) {id : NodeId}
    (hid : g.Has id) : look (g.standIn id) = look id := by
  obtain ⟨n, hn, rfl⟩ := hid
  obtain ⟨m, hm, hmid, -, rfl | ⟨source, hn', hm'⟩⟩ := exists_standIn hn
  · rw [← hmid]
  · have hvalue : ∀ k ∈ g.nodes, copySource? k = some source → look k.id = look source.node := by
      intro k hk hsource
      obtain ⟨x, hx, hout⟩ := hlook k hk
      obtain ⟨_, hop⟩ := op_of_copySource? hsource
      rw [hx, (Node.outcome_copy hop (h.inputs_of_copy hk hsource)).mp hout]
    rw [← hmid, hvalue m hm hm', hvalue n hn hn']

theorem explains_joined (h : g.Valid) (hlook : g.Explains params tokens look) :
    g.coalesceCopies.1.Explains params tokens look := by
  intro n' hn'
  obtain ⟨n, hn, -, rfl⟩ := mem_nodes_coalesceCopies.mp hn'
  obtain ⟨x, hx, hout⟩ := hlook n hn
  exact ⟨x, hx, (h.outcome_joined (fun id hid => h.look_standIn hlook hid) hn).mpr hout⟩

theorem explains_of_joined (h : g.Valid)
    (hlook : g.coalesceCopies.1.Explains params tokens look) :
    g.Explains params tokens (fun id => look (g.standIn id)) := by
  have hstays : ∀ n ∈ g.nodes, g.absorbed n = false → ∃ x, look n.id = some x ∧
      n.outcome g.plan params tokens (fun id => look (g.standIn id)) = .ok x := by
    intro n hn habsorbed
    obtain ⟨x, hx, hout⟩ := hlook _ (mem_nodes_coalesceCopies.mpr ⟨n, hn, habsorbed, rfl⟩)
    exact ⟨x, hx, (h.outcome_joined (fun _ _ => rfl) hn).mp hout⟩
  intro n hn
  obtain ⟨m, hm, hmid, habsorbed, hcase⟩ := exists_standIn hn
  obtain ⟨x, hx, hout⟩ := hstays m hm habsorbed
  refine ⟨x, (congrArg look hmid).symm.trans hx, ?_⟩
  -- A copy that was joined away reads what the one that stands in for it reads.
  rcases hcase with rfl | ⟨source, hn', hm'⟩
  · exact hout
  · obtain ⟨_, hopm⟩ := op_of_copySource? hm'
    obtain ⟨_, hopn⟩ := op_of_copySource? hn'
    rw [Node.outcome_copy hopm (h.inputs_of_copy hm hm')] at hout
    exact (Node.outcome_copy hopn (h.inputs_of_copy hn hn')).mpr hout

end Valid

end Graph

/-! ## Runs -/

/-- Two prepared graphs run through together, and the nodes `kept` then have the same values. -/
structure Prepared.Agree (p p' : Prepared α) (executor : Executor) (tokens : TokenBatch)
    (kept : NodeId → Prop) : Prop where
  succeeds : (∃ values, p.runWaves executor tokens = .ok values) ↔
    ∃ values, p'.runWaves executor tokens = .ok values
  same : ∀ {values values' : Values α}, p.runWaves executor tokens = .ok values →
    p'.runWaves executor tokens = .ok values' → ∀ id, kept id →
      ∃ x, values.lookup id = some x ∧ values'.lookup id = some x

theorem Prepared.agree_of_explains {p p' : Prepared α} {executor : Executor}
    (hrun : executor.starved = false) (hwaves : p.graph.waves = .ok p.waves)
    (hwaves' : p'.graph.waves = .ok p'.waves) {kept : NodeId → Prop}
    (hkept : ∀ id, kept id → p.graph.Has id ∧ p'.graph.Has id)
    (hforth : ∀ look, p.graph.Explains p.params tokens look →
      ∃ look', p'.graph.Explains p'.params tokens look' ∧ ∀ id, kept id → look' id = look id)
    (hback : ∀ look, p'.graph.Explains p'.params tokens look →
      ∃ look', p.graph.Explains p.params tokens look') :
    p.Agree p' executor tokens kept := by
  refine ⟨⟨?_, ?_⟩, ?_⟩
  · rintro ⟨values, hvalues⟩
    obtain ⟨look', hlook', -⟩ := hforth _ (explains_of_runWaves hrun hwaves hvalues).1
    obtain ⟨values', hvalues', -⟩ := runWaves_of_explains hrun hwaves' hlook'
    exact ⟨values', hvalues'⟩
  · rintro ⟨values', hvalues'⟩
    obtain ⟨look, hlook⟩ := hback _ (explains_of_runWaves hrun hwaves' hvalues').1
    obtain ⟨values, hvalues, -⟩ := runWaves_of_explains hrun hwaves hlook
    exact ⟨values, hvalues⟩
  · intro values values' hvalues hvalues' id hid
    obtain ⟨hhas, hhas'⟩ := hkept id hid
    have hlook := (explains_of_runWaves hrun hwaves hvalues).1
    obtain ⟨look', hlook', heq⟩ := hforth _ hlook
    obtain ⟨values'', hvalues'', hlookup⟩ := runWaves_of_explains hrun hwaves' hlook'
    rw [hvalues', Except.ok.injEq] at hvalues''
    subst hvalues''
    obtain ⟨n, hn, rfl⟩ := hhas
    obtain ⟨x, hx, -⟩ := hlook n hn
    exact ⟨x, hx, by rw [hlookup n.id hhas', heq n.id hid]; exact hx⟩

section Passes

variable {executor : Executor} {g g' : Graph} {ws ws' : List (List NodeId)}

theorem Graph.Routes.agree (h : g.Routes g') (hrun : executor.starved = false)
    (hws : g.waves = .ok ws) (hws' : g'.waves = .ok ws') :
    Prepared.Agree ⟨g, params, ws⟩ ⟨g', params, ws'⟩ executor tokens g.Has :=
  Prepared.agree_of_explains hrun hws hws' (fun _ hid => ⟨hid, h.has hid⟩)
    (fun _ hlook => h.explains_extend hws hlook)
    (fun look hlook => ⟨look, h.explains_of_explains hlook⟩)

theorem Graph.Routes.run_of_run (h : g.Routes g') (hrun : executor.starved = false)
    (hws : g.waves = .ok ws) (hws' : g'.waves = .ok ws') {r : Prediction α}
    (hr : Prepared.run ⟨g, params, ws⟩ executor tokens = .ok r) :
    Prepared.run ⟨g', params, ws'⟩ executor tokens = .ok r := by
  obtain ⟨look, hlook, v, x, hv, hid, hx, hr⟩ := (Prepared.run_eq_ok hrun hws).mp hr
  obtain ⟨look', hlook', heq⟩ := h.explains_extend hws hlook
  exact (Prepared.run_eq_ok hrun hws').mpr ⟨look', hlook', v, x, h.output.trans hv,
    h.has hid, (heq v.node hid).trans hx, hr⟩

theorem Graph.Routes.run_of_run_routed (h : g.Routes g') (hrun : executor.starved = false)
    (hws : g.waves = .ok ws) (hws' : g'.waves = .ok ws')
    (hgiven : ∀ v, g.output? = some v → v.node < g.nextId ∨ g'.nextId ≤ v.node)
    {r : Prediction α}
    (hr : Prepared.run ⟨g', params, ws'⟩ executor tokens = .ok r) :
    Prepared.run ⟨g, params, ws⟩ executor tokens = .ok r := by
  obtain ⟨look, hlook, v, x, hv, ⟨n', hn', hid⟩, hx, hr⟩ := (Prepared.run_eq_ok hrun hws').mp hr
  have hv' : g.output? = some v := h.output ▸ hv
  have hhas : g.Has v.node := by
    rcases h.fresh n' hn' with hold | ⟨u, hu⟩
    · exact hid ▸ hold
    · have hold : g.nextId ≤ v.node := hid ▸ hu.fresh
      have hnew : v.node < g'.nextId := hid ▸ g'.fresh n' hn'
      rcases hgiven v hv' with hlt | hle
      · exact absurd hold (Nat.not_le.mpr hlt)
      · exact absurd hnew (Nat.not_lt.mpr hle)
  exact (Prepared.run_eq_ok hrun hws).mpr
    ⟨look, h.explains_of_explains hlook, v, x, hv', hhas, hx, hr⟩

theorem Graph.Valid.agree (h : g.Valid) (hrun : executor.starved = false)
    (hws : g.waves = .ok ws) (hws' : g.coalesceCopies.1.waves = .ok ws') :
    Prepared.Agree ⟨g, params, ws⟩ ⟨g.coalesceCopies.1, params, ws'⟩ executor tokens
      g.coalesceCopies.1.Has := by
  refine Prepared.agree_of_explains hrun hws hws' (fun id hid => ⟨?_, hid⟩)
    (fun look hlook => ⟨look, h.explains_joined hlook, fun _ _ => rfl⟩)
    (fun look hlook => ⟨_, h.explains_of_joined hlook⟩)
  obtain ⟨n', hn', rfl⟩ := hid
  obtain ⟨n, hn, -, rfl⟩ := Graph.mem_nodes_coalesceCopies.mp hn'
  exact ⟨n, hn, rfl⟩

theorem Graph.Valid.run_iff (h : g.Valid) (hrun : executor.starved = false)
    (hws : g.waves = .ok ws) (hws' : g.coalesceCopies.1.waves = .ok ws') {r : Prediction α} :
    Prepared.run ⟨g, params, ws⟩ executor tokens = .ok r ↔
      Prepared.run ⟨g.coalesceCopies.1, params, ws'⟩ executor tokens = .ok r := by
  obtain ⟨v, p, hv, hp⟩ := h.output
  have hv' : g.coalesceCopies.1.output? = some (g.redirect v) := congrArg (·.map g.redirect) hv
  have hhas := Graph.has_of_valuePartition hp
  have hhas' : g.coalesceCopies.1.Has (g.redirect v).node := by
    obtain ⟨n, hn, hid⟩ := hhas
    rw [Graph.redirect_node hp, ← hid]
    exact Graph.has_standIn hn
  rw [Prepared.run_eq_ok hrun hws, Prepared.run_eq_ok hrun hws']
  constructor
  · rintro ⟨look, hlook, u, x, hu, -, hx, hr⟩
    obtain rfl : v = u := Option.some.inj (hv.symm.trans hu)
    refine ⟨look, h.explains_joined hlook, _, x, hv', hhas', ?_, hr⟩
    rw [Graph.redirect_node hp, h.look_standIn hlook hhas, hx]
  · rintro ⟨look, hlook, u, x, hu, -, hx, hr⟩
    obtain rfl : g.redirect v = u := Option.some.inj (hv'.symm.trans hu)
    refine ⟨_, h.explains_of_joined hlook, v, x, hv, hhas, ?_, hr⟩
    rw [← Graph.redirect_node hp]
    exact hx

end Passes

/-- The copy passes keep the meaning of a graph. Inserting copies does so for every graph that
has a schedule, and joining them for every graph that was checked: a run gives a prediction
before exactly if it gives the same one after, and the nodes that stay have the same values.
Only an output that names the id of a copy before the copy is inserted is excepted, in one
direction. -/
theorem copyPasses_agree {executor : Executor} (hrun : executor.starved = false)
    (params : Parameters α) (tokens : TokenBatch) :
    (∀ {g g' : Graph} {ws : List (List NodeId)} {count : Nat}, g.waves = .ok ws →
      g.insertCopies = .ok (g', count) → ∃ ws', g'.waves = .ok ws' ∧
        Prepared.Agree ⟨g, params, ws⟩ ⟨g', params, ws'⟩ executor tokens g.Has ∧
        (∀ r, Prepared.run ⟨g, params, ws⟩ executor tokens = .ok r →
          Prepared.run ⟨g', params, ws'⟩ executor tokens = .ok r) ∧
        ((∀ v, g.output? = some v → v.node < g.nextId ∨ g.nextId + count ≤ v.node) →
          ∀ r, Prepared.run ⟨g', params, ws'⟩ executor tokens = .ok r →
            Prepared.run ⟨g, params, ws⟩ executor tokens = .ok r)) ∧
    (∀ {g : Graph}, g.validate = .ok () → ∃ ws ws', g.waves = .ok ws ∧
      g.coalesceCopies.1.waves = .ok ws' ∧
        Prepared.Agree ⟨g, params, ws⟩ ⟨g.coalesceCopies.1, params, ws'⟩ executor tokens
          g.coalesceCopies.1.Has ∧
        ∀ r, Prepared.run ⟨g, params, ws⟩ executor tokens = .ok r ↔
          Prepared.run ⟨g.coalesceCopies.1, params, ws'⟩ executor tokens = .ok r) := by
  constructor
  · intro g g' ws count hws hinsert
    have hroutes := Graph.insertCopies_routes hinsert
    have hnext := Graph.nextId_insertCopies hinsert
    obtain ⟨ws', hws'⟩ := hroutes.waves hws
    exact ⟨ws', hws', hroutes.agree hrun hws hws', fun r hr => hroutes.run_of_run hrun hws hws' hr,
      fun hgiven r hr => hroutes.run_of_run_routed hrun hws hws' (hnext ▸ hgiven) hr⟩
  · intro g hvalidate
    have hvalid := Graph.validate_eq_ok.mp hvalidate
    obtain ⟨ws, hws⟩ := hvalid.waves
    obtain ⟨depth, hdepths⟩ := Graph.exists_depths hws
    obtain ⟨ws', hws'⟩ := Graph.waves_of_ranks (hvalid.ranks_coalesceCopies hdepths)
    exact ⟨ws, ws', hws, hws', hvalid.agree hrun hws hws',
      fun r => hvalid.run_iff hrun hws hws'⟩

/-- A chain of all operations for one shard of one id. Its parts run in turn on partition 0 and
on `away`, and a second input on partition 1 reads the prediction. -/
def relayed (away : PartitionId) (output : NodeId) : Graph :=
  let g := (Graph.empty ⟨1, [⟨0, 0, 1, 1, 1⟩]⟩ 2).addNode .input [] 0
  let g := (g.addNode (.gather 0) [.of 0] away).addNode .accumulate [.of 1] 0
  let g := (g.addNode .stageA [.of 2] away).addNode .stageB [.of 3] away
  let g := (g.addNode (.shardLogits 0) [.of 4] away).addNode (.localTopK 0 1) [.of 5] away
  let g := (g.addNode (.merge 1) [.of 6] 0).addNode .input [.of 7] 1
  g.setOutput (.of output)

/-- The same chain on partition 1, without a second input but with the tokens copied twice. -/
def forked : Graph :=
  let g := (Graph.empty ⟨1, [⟨0, 0, 1, 1, 1⟩]⟩ 2).addNode .input [] 0
  let g := (g.addNode (.copy [1]) [.of 0] 0).addNode (.copy [1, 1]) [.of 0] 0
  let g := (g.addNode (.gather 0) [⟨2, 1⟩] 1).addNode .accumulate [.of 3] 1
  let g := (g.addNode .stageA [.of 4] 1).addNode .stageB [.of 5] 1
  let g := (g.addNode (.shardLogits 0) [.of 6] 1).addNode (.localTopK 0 1) [.of 7] 1
  let g := (g.addNode (.merge 1) [.of 8] 1).placeWeight (.embeddingSlice 0) 1
  ((g.placeWeight .stageA 1).placeWeight .stageB 1).setOutput (.of 9)

def oneRowParams : Parameters Nat :=
  ⟨[⟨0, ⟨#[3], 1, 1⟩⟩], ⟨⟨#[5], 1, 1⟩, ⟨#[7], 1, 1⟩⟩⟩

/-- Five values of the first chain cross over, and of the copies in the second one is joined. -/
theorem copyPasses_agree_forked :
    (∃ ws g' ws', (relayed 1 7).waves = .ok ws ∧ (relayed 1 7).insertCopies = .ok (g', 5) ∧
      g'.waves = .ok ws' ∧
      Prepared.Agree ⟨relayed 1 7, oneRowParams, ws⟩ ⟨g', oneRowParams, ws'⟩ .standard
        ⟨[0], 1, 1⟩ (relayed 1 7).Has ∧
      Prepared.run ⟨relayed 1 7, oneRowParams, ws⟩ .standard ⟨[0], 1, 1⟩ =
        .ok ⟨[[⟨315, 0⟩]]⟩ ∧
      Prepared.run ⟨g', oneRowParams, ws'⟩ .standard ⟨[0], 1, 1⟩ = .ok ⟨[[⟨315, 0⟩]]⟩) ∧
    forked.validate = .ok () ∧ forked.coalesceCopies.2 = 1 ∧
    ∃ ws ws', forked.waves = .ok ws ∧ forked.coalesceCopies.1.waves = .ok ws' ∧
      Prepared.Agree ⟨forked, oneRowParams, ws⟩ ⟨forked.coalesceCopies.1, oneRowParams, ws'⟩
        .standard ⟨[0], 1, 1⟩ forked.coalesceCopies.1.Has ∧
      ∀ r, Prepared.run ⟨forked, oneRowParams, ws⟩ .standard ⟨[0], 1, 1⟩ = .ok r ↔
        Prepared.run ⟨forked.coalesceCopies.1, oneRowParams, ws'⟩ .standard ⟨[0], 1, 1⟩ =
          .ok r := by
  have hstandard : Executor.standard.starved = false := rfl
  have hvalidate : forked.validate = .ok () := by decide +kernel
  have hwaves : (relayed 1 7).waves = .ok [[0], [1], [2], [3], [4], [5], [6], [7], [8]] := by
    decide +kernel
  have hrun : Prepared.run ⟨relayed 1 7, oneRowParams, [[0], [1], [2], [3], [4], [5], [6], [7],
      [8]]⟩ .standard ⟨[0], 1, 1⟩ = .ok ⟨[[⟨315, 0⟩]]⟩ := by
    decide +kernel
  obtain ⟨g', hinsert⟩ : ∃ g', (relayed 1 7).insertCopies = .ok (g', 5) := ⟨_, rfl⟩
  obtain ⟨hinserted, hjoined⟩ := copyPasses_agree hstandard oneRowParams ⟨[0], 1, 1⟩
  obtain ⟨ws', hws', hagree, hforth, -⟩ := hinserted hwaves hinsert
  exact ⟨⟨_, g', ws', hwaves, hinsert, hws', hagree, hrun, hforth _ hrun⟩, hvalidate, rfl,
    hjoined hvalidate⟩

/-- With everything but the second input on partition 0, one copy is inserted for that input. It
takes the id 9, so a run whose output names that id has no output before and one after. -/
theorem run_of_awaiting_output :
    ∃ ws g' ws', (relayed 0 9).waves = .ok ws ∧ (relayed 0 9).insertCopies = .ok (g', 1) ∧
      g'.waves = .ok ws' ∧
      Prepared.run ⟨relayed 0 9, oneRowParams, ws⟩ .standard ⟨[0], 1, 1⟩ =
        .error (.execution .outputNotProduced) ∧
      Prepared.run ⟨g', oneRowParams, ws'⟩ .standard ⟨[0], 1, 1⟩ = .ok ⟨[[⟨315, 0⟩]]⟩ :=
  ⟨[[0], [1], [2], [3], [4], [5], [6], [7], [8]], _,
    [[0], [1], [2], [3], [4], [5], [6], [7], [9], [8]], by decide +kernel, rfl,
    by decide +kernel, by decide +kernel, by decide +kernel⟩

end ShardedModel
