import Cgir.Model.Adjacency

/-!
# Topologically numbered graphs

An executable sufficient condition for well-formedness: every edge leads to a
node with a larger index, every node but the entry has a predecessor and every
node but the exit has a successor.
-/

namespace Cgir.Model

open Relation
open Cgir.Library

namespace Heap

/-- A node with the given lists, as `new` makes it otherwise. -/
def linkedNode (deviceUniqueId : DeviceUniqueId)
    (type : CommandGraphNodeType) (predecessors successors : List NodeId) :
    CommandGraphNode :=
  { CommandGraphNode.new deviceUniqueId type with
    predecessors := predecessors
    successors := successors }

/-- A node with the given lists that reads a file. -/
def readNode (deviceUniqueId : DeviceUniqueId)
    (predecessors successors : List NodeId) : CommandGraphNode :=
  { linkedNode deviceUniqueId .command predecessors successors with
    command :=
      some (.fdRead { fd := 3, buffer := 4096, size := 64, offset := 0 }) }

/-- A recorded task body without arguments. -/
def taskProg : CommandProg where
  prototype := .variadic
  launcher := none
  args := none
  nArgs := 0
  argsSize := 0
  argsOwned := false
  source :=
    { type := .llvmir
      raw := none
      owned := false
      symbol := none
      externs := []
      externsOwned := false
      triple := none
      arch := none
      runtimeBc := none
      proto := .unpackedParams
      params := none
      paramsOwned := false }
  launchMode := .taskSpawn
  grid := { x := 1, y := 1, z := 1 }
  block := { x := 1, y := 1, z := 1 }

/-- A node with the given lists that runs a task. -/
def taskNode (deviceUniqueId : DeviceUniqueId)
    (predecessors successors : List NodeId) : CommandGraphNode :=
  { linkedNode deviceUniqueId .command predecessors successors with
    command := some (.prog taskProg) }

/-- A heap of the given nodes and of one graph. -/
def ofNodes (nodes : List CommandGraphNode) (graph : CommandGraph) : Heap where
  nodes := fun id =>
    nodes.getD id (CommandGraphNode.new unspecifiedDeviceUniqueId .empty)
  nodeCount := nodes.length
  graphs := fun _ => graph
  graphCount := 1

/-- The lists of one node of a topologically numbered graph. -/
def NumberedNode (heap : Heap) (graph : CommandGraph) (node : NodeId) : Prop :=
  (heap.successors node).Nodup ∧ (heap.predecessors node).Nodup ∧
    (∀ next ∈ heap.successors node,
      node < next ∧ next < heap.nodeCount ∧
        node ∈ heap.predecessors next) ∧
    (∀ pred ∈ heap.predecessors node,
      pred < heap.nodeCount ∧ node ∈ heap.successors pred) ∧
    (node = graph.entry ∨ heap.predecessors node ≠ []) ∧
    (node = graph.exit ∨ heap.successors node ≠ [])

instance (heap : Heap) (graph : CommandGraph) (node : NodeId) :
    Decidable (heap.NumberedNode graph node) :=
  inferInstanceAs (Decidable (_ ∧ _ ∧ _ ∧ _ ∧ _ ∧ _))

/-- All allocated nodes belong to the graph and are numbered topologically. -/
def Numbered (heap : Heap) (graph : GraphId) : Prop :=
  graph < heap.graphCount ∧ (heap.graphs graph).entry < heap.nodeCount ∧
    ∀ node : Nat, node < heap.nodeCount →
      heap.NumberedNode (heap.graphs graph) node

instance (heap : Heap) (graph : GraphId) : Decidable (heap.Numbered graph) :=
  inferInstanceAs (Decidable (_ ∧ _ ∧ _))

namespace Numbered

variable {heap : Heap} {graph : GraphId}

theorem lt_of_reachable (numbered : heap.Numbered graph) {node : NodeId}
    (reachable : heap.Reachable graph node) : node < heap.nodeCount := by
  induction reachable with
  | refl => exact numbered.2.1
  | tail _ step bound => exact ((numbered.2.2 _ bound).2.2.1 _ step).2.1

theorem reachable (numbered : heap.Numbered graph) :
    ∀ node < heap.nodeCount, heap.Reachable graph node := by
  intro node
  induction node using Nat.strongRecOn with
  | ind node induction =>
      intro bound
      obtain ⟨-, -, -, before, first, -⟩ := numbered.2.2 node bound
      rcases first with isEntry | hasPred
      · exact isEntry ▸ reachable_entry
      · obtain ⟨pred, member⟩ := List.exists_mem_of_ne_nil _ hasPred
        obtain ⟨predBound, edge⟩ := before pred member
        have less := ((numbered.2.2 pred predBound).2.2.1 node edge).1
        exact (induction pred less predBound).tail edge

theorem reaches_exit (numbered : heap.Numbered graph) :
    ∀ node < heap.nodeCount,
      MarkSearch.Reach heap.successors node (heap.graphs graph).exit := by
  intro node bound
  induction gap : heap.nodeCount - node using Nat.strongRecOn
    generalizing node with
  | ind gap' induction =>
      obtain ⟨-, -, after, -, -, last⟩ := numbered.2.2 node bound
      rcases last with isExit | hasSucc
      · exact isExit ▸ ReflTransGen.refl
      · obtain ⟨next, member⟩ := List.exists_mem_of_ne_nil _ hasSucc
        obtain ⟨less, nextBound, -⟩ := after next member
        have smaller : heap.nodeCount - next < gap' := by
          rw [← gap]
          exact Nat.sub_lt_sub_left bound less
        exact
          ReflTransGen.head member (induction _ smaller next nextBound rfl)

/-- A topologically numbered graph is well formed. -/
theorem wellFormed (numbered : heap.Numbered graph) :
    heap.WellFormed graph where
  graph_lt := numbered.1
  allocated := fun node reachable => numbered.lt_of_reachable reachable
  successors_nodup := fun node reachable =>
    (numbered.2.2 node (numbered.lt_of_reachable reachable)).1
  predecessors_nodup := fun node reachable =>
    (numbered.2.2 node (numbered.lt_of_reachable reachable)).2.1
  mem_predecessors := by
    intro node reachable pred
    have bound := numbered.lt_of_reachable reachable
    constructor
    · intro member
      obtain ⟨predBound, edge⟩ := (numbered.2.2 node bound).2.2.2.1 pred member
      exact ⟨numbered.reachable pred predBound, edge⟩
    · rintro ⟨predReachable, edge⟩
      have predBound := numbered.lt_of_reachable predReachable
      exact ((numbered.2.2 pred predBound).2.2.1 node edge).2.2
  acyclic := by
    have increases : ∀ {source target},
        TransGen (heap.Link graph) source target → source < target := by
      intro source target path
      have step : ∀ {upper lower}, heap.Link graph upper lower →
          upper < lower := by
        intro upper lower link
        have bound := numbered.lt_of_reachable link.1
        exact ((numbered.2.2 upper bound).2.2.1 lower link.2).1
      induction path with
      | single link => exact step link
      | tail _ link before => exact before.trans (step link)
    intro node cycle
    exact Nat.lt_irrefl node (increases cycle)
  reaches_exit := fun node reachable =>
    numbered.reaches_exit node (numbered.lt_of_reachable reachable)

/-- The graph has all the nodes that there are. -/
theorem nodeCount_le (numbered : heap.Numbered graph) {bound : Nat}
    (few : heap.NodesAtMost graph bound) : heap.nodeCount ≤ bound := by
  have length := few.length_le List.nodup_range fun node member =>
    numbered.reachable node (List.mem_range.mp member)
  rwa [List.length_range] at length

/-- No allocated node carries the identifier of the next walk. -/
theorem walkReady (numbered : heap.Numbered graph)
    (fresh : ∀ node : Nat, node < heap.nodeCount →
      (heap.nodes node).walkId ≠ (heap.graphs graph).walkId + 1) :
    heap.WalkReady graph := by
  intro node reachable _
  exact fresh node (numbered.lt_of_reachable reachable)

end Numbered

end Heap

end Cgir.Model
