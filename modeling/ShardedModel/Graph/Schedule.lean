import ShardedModel.Graph.Basic

/-!
# Waves

Nodes run in waves. A node runs in the first wave before which all of its inputs
have run, so a wave holds every node that can run at that point and the nodes of
one wave do not wait for each other. If nodes are left and none of them can run,
they wait for each other in a circle or for a node that is not there, and the graph
has no schedule.
-/

namespace ShardedModel

/-- All inputs of the node have run. -/
def Node.ready (done : List NodeId) (n : Node) : Bool :=
  n.inputs.all fun v => done.contains v.node

namespace Graph

/-- The nodes that can run next. -/
def readyNodes (done : List NodeId) (pending : List Node) : List Node :=
  pending.filter (·.ready done)

/-- The nodes that have to wait. -/
def waitingNodes (done : List NodeId) (pending : List Node) : List Node :=
  pending.filter (!·.ready done)

theorem length_waitingNodes_add (done : List NodeId) (pending : List Node) :
    (waitingNodes done pending).length + (readyNodes done pending).length = pending.length := by
  induction pending with
  | nil => rfl
  | cons n rest ih =>
      simp only [waitingNodes, readyNodes, List.filter_cons] at ih ⊢
      cases n.ready done <;> simp <;> omega

/-- The waves of the nodes that are left, when `done` have run. -/
def wavesFrom (done : List NodeId) (pending : List Node) : Outcome (List (List NodeId)) :=
  if pending = [] then
    .ok []
  else if readyNodes done pending = [] then
    .error (.placement (.unschedulable (pending.map (·.id))))
  else do
    let wave := (readyNodes done pending).map (·.id)
    let later ← wavesFrom (done ++ wave) (waitingNodes done pending)
    .ok (wave :: later)
termination_by pending.length
decreasing_by
  have split := length_waitingNodes_add done pending
  have runs : 0 < (readyNodes done pending).length := List.length_pos_iff.mpr ‹_›
  omega

/-- The schedule of a graph: each wave in the order of ids. -/
def waves (g : Graph) : Outcome (List (List NodeId)) := wavesFrom [] g.nodes

end Graph

end ShardedModel
