import Cgir.Model.Command
import Mathlib.Logic.Function.Basic

/-!
# Node and graph objects

The objects of `command-graph.hpp` live in a heap.  Nodes and graphs are named
by indices that allocation never reuses; the adjacency lists of a node are
fields of the node, so that an edge is recorded twice, once at each end.

Two projections express what an operation leaves alone: `Heap.unlinked` forgets
the adjacency lists, `Heap.unmarked` forgets the marks and indices that walks
write.
-/

namespace Cgir.Model

/-- `command_graph_walk_id_t`, an `int8_t`. -/
abbrev WalkId := BitVec 8

/-- `command_graph_node_type_t`. -/
inductive CommandGraphNodeType where
  | empty
  | command
  | commandGraph
  | condition
  deriving DecidableEq, Repr

/-- `command_graph_node_t`. -/
structure CommandGraphNode where
  deviceUniqueId : DeviceUniqueId
  predecessors : List NodeId
  successors : List NodeId
  iteratorIndex : Nat
  walkId : WalkId
  type : CommandGraphNodeType
  command : Option Command
  deriving DecidableEq, Repr

namespace CommandGraphNode

/-- The constructor of `command_graph_node_t`. -/
def new (deviceUniqueId : DeviceUniqueId) (type : CommandGraphNodeType) :
    CommandGraphNode where
  deviceUniqueId := deviceUniqueId
  predecessors := []
  successors := []
  iteratorIndex := 0
  walkId := 0
  type := type
  command := none

/-- A node without its adjacency lists. -/
def unlinked (node : CommandGraphNode) : CommandGraphNode :=
  { node with predecessors := [], successors := [] }

/-- A node without what walks write into it. -/
def unmarked (node : CommandGraphNode) : CommandGraphNode :=
  { node with iteratorIndex := 0, walkId := 0 }

end CommandGraphNode

/-- `command_graph_t`, its allocator callbacks apart. -/
structure CommandGraph where
  entry : NodeId
  exit : NodeId
  walkId : WalkId
  isSequence : Bool
  deriving DecidableEq, Repr

/-- All node and graph objects; those below the counts are allocated. -/
structure Heap where
  nodes : NodeId → CommandGraphNode
  nodeCount : Nat
  graphs : GraphId → CommandGraph
  graphCount : Nat

namespace Heap

variable (heap : Heap)

def successors (id : NodeId) : List NodeId :=
  (heap.nodes id).successors

def predecessors (id : NodeId) : List NodeId :=
  (heap.nodes id).predecessors

/-- Change one node. -/
def updateNode (id : NodeId)
    (change : CommandGraphNode → CommandGraphNode) : Heap :=
  { heap with nodes := Function.update heap.nodes id (change (heap.nodes id)) }

/-- Change one graph. -/
def updateGraph (graph : GraphId) (change : CommandGraph → CommandGraph) :
    Heap :=
  { heap with
    graphs := Function.update heap.graphs graph (change (heap.graphs graph)) }

/-! ## Adjacency lists -/

/-- `succs.push_back(succ)` on one node. -/
def pushSuccessor (node succ : NodeId) : Heap :=
  heap.updateNode node fun object =>
    { object with successors := object.successors ++ [succ] }

/-- `preds.push_back(pred)` on one node. -/
def pushPredecessor (node pred : NodeId) : Heap :=
  heap.updateNode node fun object =>
    { object with predecessors := object.predecessors ++ [pred] }

/-- `succs.erase(find(succs, succ))` on one node. -/
def eraseSuccessor (node succ : NodeId) : Heap :=
  heap.updateNode node fun object =>
    { object with successors := object.successors.erase succ }

/-- `preds.erase(find(preds, pred))` on one node. -/
def erasePredecessor (node pred : NodeId) : Heap :=
  heap.updateNode node fun object =>
    { object with predecessors := object.predecessors.erase pred }

/-- Assignment of a whole successor list. -/
def setSuccessors (node : NodeId) (list : List NodeId) : Heap :=
  heap.updateNode node fun object => { object with successors := list }

/-- Assignment of a whole predecessor list. -/
def setPredecessors (node : NodeId) (list : List NodeId) : Heap :=
  heap.updateNode node fun object => { object with predecessors := list }

/-- `node->precedes(succ)`. -/
def precedes (node succ : NodeId) : Heap :=
  (heap.pushSuccessor node succ).pushPredecessor succ node

/-- Erase the edge from `node` to `succ` at both of its ends. -/
def detach (node succ : NodeId) : Heap :=
  (heap.eraseSuccessor node succ).erasePredecessor succ node

/-! ## Allocation -/

/-- The `command_graph_node_new` callback. -/
def commandGraphNodeNew (deviceUniqueId : DeviceUniqueId)
    (type : CommandGraphNodeType) : NodeId × Heap :=
  (heap.nodeCount,
    { heap with
      nodes :=
        Function.update heap.nodes heap.nodeCount
          (CommandGraphNode.new deviceUniqueId type)
      nodeCount := heap.nodeCount + 1 })

/-- Allocate a graph object with the given ends. -/
def allocateGraph (entry exit : NodeId) : GraphId × Heap :=
  (heap.graphCount,
    { heap with
      graphs :=
        Function.update heap.graphs heap.graphCount
          { entry := entry, exit := exit, walkId := 0, isSequence := false }
      graphCount := heap.graphCount + 1 })

/--
The `command_graph_new` callback, which runs `command_graph_t::init`: with both
ends given they are used as they are, otherwise fresh control nodes are linked.
-/
def commandGraphNew (ends : Option (NodeId × NodeId)) : GraphId × Heap :=
  match ends with
  | some (entry, exit) => heap.allocateGraph entry exit
  | none =>
      let (entry, heap) :=
        heap.commandGraphNodeNew unspecifiedDeviceUniqueId .empty
      let (exit, heap) :=
        heap.commandGraphNodeNew unspecifiedDeviceUniqueId .empty
      (heap.precedes entry exit).allocateGraph entry exit

/-- `node->command = command`. -/
def setCommand (node : NodeId) (command : Command) : Heap :=
  heap.updateNode node fun object => { object with command := some command }

/-! ## Projections -/

/-- The heap without adjacency lists. -/
def unlinked : Heap :=
  { heap with nodes := fun id => (heap.nodes id).unlinked }

/-- The heap without what walks write. -/
def unmarked : Heap :=
  { heap with
    nodes := fun id => (heap.nodes id).unmarked
    graphs := fun graph => { heap.graphs graph with walkId := 0 } }

theorem unlinked_unmarked : heap.unlinked.unmarked = heap.unmarked.unlinked :=
  rfl

/-! ## What each operation does -/

section Lemmas

variable {heap}

@[simp]
theorem updateNode_nodes (id other : NodeId)
    (change : CommandGraphNode → CommandGraphNode) :
    (heap.updateNode id change).nodes other =
      if other = id then change (heap.nodes id) else heap.nodes other := by
  simp [updateNode, Function.update_apply]

/-- Changes of nodes may be swapped when they commute at a common node. -/
theorem updateNode_comm {id other : NodeId}
    {change change' : CommandGraphNode → CommandGraphNode}
    (commutes : id = other → ∀ node,
      change' (change node) = change (change' node)) :
    (heap.updateNode id change).updateNode other change' =
      (heap.updateNode other change').updateNode id change := by
  by_cases here : id = other
  · subst here
    simp [updateNode, commutes rfl]
  · simp [updateNode, Function.update_of_ne here,
      Function.update_of_ne (Ne.symm here), Function.update_comm here]

@[simp]
theorem updateNode_nodeCount (id : NodeId)
    (change : CommandGraphNode → CommandGraphNode) :
    (heap.updateNode id change).nodeCount = heap.nodeCount :=
  rfl

@[simp]
theorem updateNode_graphs (id : NodeId)
    (change : CommandGraphNode → CommandGraphNode) :
    (heap.updateNode id change).graphs = heap.graphs :=
  rfl

@[simp]
theorem updateNode_graphCount (id : NodeId)
    (change : CommandGraphNode → CommandGraphNode) :
    (heap.updateNode id change).graphCount = heap.graphCount :=
  rfl

/-- A change of adjacency lists only is invisible without the lists. -/
theorem updateNode_unlinked {id : NodeId}
    {change : CommandGraphNode → CommandGraphNode}
    (lists : ∀ node, (change node).unlinked = node.unlinked) :
    (heap.updateNode id change).unlinked = heap.unlinked := by
  simp only [unlinked, updateNode_nodes, updateNode_nodeCount,
    updateNode_graphs, updateNode_graphCount]
  congr 1
  funext other
  split
  · rename_i equal
    rw [lists, equal]
  · rfl

@[simp]
theorem pushSuccessor_unlinked (node succ : NodeId) :
    (heap.pushSuccessor node succ).unlinked = heap.unlinked :=
  updateNode_unlinked fun _ => rfl

@[simp]
theorem pushPredecessor_unlinked (node pred : NodeId) :
    (heap.pushPredecessor node pred).unlinked = heap.unlinked :=
  updateNode_unlinked fun _ => rfl

@[simp]
theorem eraseSuccessor_unlinked (node succ : NodeId) :
    (heap.eraseSuccessor node succ).unlinked = heap.unlinked :=
  updateNode_unlinked fun _ => rfl

@[simp]
theorem erasePredecessor_unlinked (node pred : NodeId) :
    (heap.erasePredecessor node pred).unlinked = heap.unlinked :=
  updateNode_unlinked fun _ => rfl

@[simp]
theorem setSuccessors_unlinked (node : NodeId) (list : List NodeId) :
    (heap.setSuccessors node list).unlinked = heap.unlinked :=
  updateNode_unlinked fun _ => rfl

@[simp]
theorem setPredecessors_unlinked (node : NodeId) (list : List NodeId) :
    (heap.setPredecessors node list).unlinked = heap.unlinked :=
  updateNode_unlinked fun _ => rfl

@[simp]
theorem precedes_unlinked (node succ : NodeId) :
    (heap.precedes node succ).unlinked = heap.unlinked := by
  simp [precedes]

@[simp]
theorem detach_unlinked (node succ : NodeId) :
    (heap.detach node succ).unlinked = heap.unlinked := by
  simp [detach]

section Lists

@[simp]
theorem pushSuccessor_successors (node succ other : NodeId) :
    (heap.pushSuccessor node succ).successors other =
      if other = node then heap.successors node ++ [succ]
      else heap.successors other := by
  simp only [successors, pushSuccessor, updateNode_nodes]
  split <;> rfl

@[simp]
theorem pushSuccessor_predecessors (node succ other : NodeId) :
    (heap.pushSuccessor node succ).predecessors other =
      heap.predecessors other := by
  simp only [predecessors, pushSuccessor, updateNode_nodes]
  split
  · rename_i equal
    rw [equal]
  · rfl

@[simp]
theorem pushPredecessor_successors (node pred other : NodeId) :
    (heap.pushPredecessor node pred).successors other =
      heap.successors other := by
  simp only [successors, pushPredecessor, updateNode_nodes]
  split
  · rename_i equal
    rw [equal]
  · rfl

@[simp]
theorem pushPredecessor_predecessors (node pred other : NodeId) :
    (heap.pushPredecessor node pred).predecessors other =
      if other = node then heap.predecessors node ++ [pred]
      else heap.predecessors other := by
  simp only [predecessors, pushPredecessor, updateNode_nodes]
  split <;> rfl

@[simp]
theorem eraseSuccessor_successors (node succ other : NodeId) :
    (heap.eraseSuccessor node succ).successors other =
      if other = node then (heap.successors node).erase succ
      else heap.successors other := by
  simp only [successors, eraseSuccessor, updateNode_nodes]
  split <;> rfl

@[simp]
theorem eraseSuccessor_predecessors (node succ other : NodeId) :
    (heap.eraseSuccessor node succ).predecessors other =
      heap.predecessors other := by
  simp only [predecessors, eraseSuccessor, updateNode_nodes]
  split
  · rename_i equal
    rw [equal]
  · rfl

@[simp]
theorem erasePredecessor_successors (node pred other : NodeId) :
    (heap.erasePredecessor node pred).successors other =
      heap.successors other := by
  simp only [successors, erasePredecessor, updateNode_nodes]
  split
  · rename_i equal
    rw [equal]
  · rfl

@[simp]
theorem erasePredecessor_predecessors (node pred other : NodeId) :
    (heap.erasePredecessor node pred).predecessors other =
      if other = node then (heap.predecessors node).erase pred
      else heap.predecessors other := by
  simp only [predecessors, erasePredecessor, updateNode_nodes]
  split <;> rfl

@[simp]
theorem setSuccessors_successors (node other : NodeId)
    (list : List NodeId) :
    (heap.setSuccessors node list).successors other =
      if other = node then list else heap.successors other := by
  simp only [successors, setSuccessors, updateNode_nodes]
  split <;> rfl

@[simp]
theorem setSuccessors_predecessors (node other : NodeId)
    (list : List NodeId) :
    (heap.setSuccessors node list).predecessors other =
      heap.predecessors other := by
  simp only [predecessors, setSuccessors, updateNode_nodes]
  split
  · rename_i equal
    rw [equal]
  · rfl

@[simp]
theorem setPredecessors_successors (node other : NodeId)
    (list : List NodeId) :
    (heap.setPredecessors node list).successors other =
      heap.successors other := by
  simp only [successors, setPredecessors, updateNode_nodes]
  split
  · rename_i equal
    rw [equal]
  · rfl

@[simp]
theorem setPredecessors_predecessors (node other : NodeId)
    (list : List NodeId) :
    (heap.setPredecessors node list).predecessors other =
      if other = node then list else heap.predecessors other := by
  simp only [predecessors, setPredecessors, updateNode_nodes]
  split <;> rfl

@[simp]
theorem precedes_successors (node succ other : NodeId) :
    (heap.precedes node succ).successors other =
      if other = node then heap.successors node ++ [succ]
      else heap.successors other := by
  simp [precedes]

@[simp]
theorem precedes_predecessors (node succ other : NodeId) :
    (heap.precedes node succ).predecessors other =
      if other = succ then heap.predecessors succ ++ [node]
      else heap.predecessors other := by
  simp [precedes]

@[simp]
theorem detach_successors (node succ other : NodeId) :
    (heap.detach node succ).successors other =
      if other = node then (heap.successors node).erase succ
      else heap.successors other := by
  simp [detach]

@[simp]
theorem setCommand_successors (node other : NodeId) (command : Command) :
    (heap.setCommand node command).successors other =
      heap.successors other := by
  simp only [successors, setCommand, updateNode_nodes]
  split
  · rename_i equal
    rw [equal]
  · rfl

@[simp]
theorem setCommand_predecessors (node other : NodeId) (command : Command) :
    (heap.setCommand node command).predecessors other =
      heap.predecessors other := by
  simp only [predecessors, setCommand, updateNode_nodes]
  split
  · rename_i equal
    rw [equal]
  · rfl

@[simp]
theorem detach_predecessors (node succ other : NodeId) :
    (heap.detach node succ).predecessors other =
      if other = succ then (heap.predecessors succ).erase node
      else heap.predecessors other := by
  simp [detach]

end Lists

/-! ## What allocation does -/

section Allocation

@[simp]
theorem commandGraphNodeNew_id (deviceUniqueId : DeviceUniqueId)
    (type : CommandGraphNodeType) :
    (heap.commandGraphNodeNew deviceUniqueId type).1 = heap.nodeCount :=
  rfl

@[simp]
theorem commandGraphNodeNew_nodeCount (deviceUniqueId : DeviceUniqueId)
    (type : CommandGraphNodeType) :
    (heap.commandGraphNodeNew deviceUniqueId type).2.nodeCount =
      heap.nodeCount + 1 :=
  rfl

@[simp]
theorem commandGraphNodeNew_graphs (deviceUniqueId : DeviceUniqueId)
    (type : CommandGraphNodeType) :
    (heap.commandGraphNodeNew deviceUniqueId type).2.graphs = heap.graphs :=
  rfl

@[simp]
theorem commandGraphNodeNew_graphCount (deviceUniqueId : DeviceUniqueId)
    (type : CommandGraphNodeType) :
    (heap.commandGraphNodeNew deviceUniqueId type).2.graphCount =
      heap.graphCount :=
  rfl

@[simp]
theorem commandGraphNodeNew_nodes (deviceUniqueId : DeviceUniqueId)
    (type : CommandGraphNodeType) (other : NodeId) :
    (heap.commandGraphNodeNew deviceUniqueId type).2.nodes other =
      if other = heap.nodeCount then
        CommandGraphNode.new deviceUniqueId type
      else heap.nodes other := by
  simp [commandGraphNodeNew, Function.update_apply]

@[simp]
theorem commandGraphNodeNew_successors (deviceUniqueId : DeviceUniqueId)
    (type : CommandGraphNodeType) (other : NodeId) :
    (heap.commandGraphNodeNew deviceUniqueId type).2.successors other =
      if other = heap.nodeCount then [] else heap.successors other := by
  simp only [successors, commandGraphNodeNew_nodes]
  split <;> rfl

@[simp]
theorem commandGraphNodeNew_predecessors (deviceUniqueId : DeviceUniqueId)
    (type : CommandGraphNodeType) (other : NodeId) :
    (heap.commandGraphNodeNew deviceUniqueId type).2.predecessors other =
      if other = heap.nodeCount then [] else heap.predecessors other := by
  simp only [predecessors, commandGraphNodeNew_nodes]
  split <;> rfl

@[simp]
theorem allocateGraph_id (entry exit : NodeId) :
    (heap.allocateGraph entry exit).1 = heap.graphCount :=
  rfl

@[simp]
theorem allocateGraph_nodes (entry exit : NodeId) :
    (heap.allocateGraph entry exit).2.nodes = heap.nodes :=
  rfl

@[simp]
theorem allocateGraph_nodeCount (entry exit : NodeId) :
    (heap.allocateGraph entry exit).2.nodeCount = heap.nodeCount :=
  rfl

@[simp]
theorem allocateGraph_graphCount (entry exit : NodeId) :
    (heap.allocateGraph entry exit).2.graphCount = heap.graphCount + 1 :=
  rfl

@[simp]
theorem allocateGraph_graphs (entry exit : NodeId) (other : GraphId) :
    (heap.allocateGraph entry exit).2.graphs other =
      if other = heap.graphCount then
        { entry := entry, exit := exit, walkId := 0, isSequence := false }
      else heap.graphs other := by
  simp [allocateGraph, Function.update_apply]

@[simp]
theorem allocateGraph_successors (entry exit : NodeId) :
    (heap.allocateGraph entry exit).2.successors = heap.successors :=
  rfl

@[simp]
theorem allocateGraph_predecessors (entry exit : NodeId) :
    (heap.allocateGraph entry exit).2.predecessors = heap.predecessors :=
  rfl

@[simp]
theorem commandGraphNew_none_id :
    (heap.commandGraphNew none).1 = heap.graphCount :=
  rfl

@[simp]
theorem commandGraphNew_none_nodeCount :
    (heap.commandGraphNew none).2.nodeCount = heap.nodeCount + 2 :=
  rfl

@[simp]
theorem commandGraphNew_none_graphCount :
    (heap.commandGraphNew none).2.graphCount = heap.graphCount + 1 :=
  rfl

theorem commandGraphNew_none_graphs (other : GraphId) :
    (heap.commandGraphNew none).2.graphs other =
      if other = heap.graphCount then
        { entry := heap.nodeCount
          exit := heap.nodeCount + 1
          walkId := 0
          isSequence := false }
      else
        heap.graphs other := by
  simp only [commandGraphNew]
  rw [allocateGraph_graphs]
  rfl

/-- The fresh ends of a graph are linked to each other. -/
theorem commandGraphNew_none_nodes (node : NodeId) :
    (heap.commandGraphNew none).2.nodes node =
      if node = heap.nodeCount then
        { CommandGraphNode.new unspecifiedDeviceUniqueId .empty with
          successors := [heap.nodeCount + 1] }
      else if node = heap.nodeCount + 1 then
        { CommandGraphNode.new unspecifiedDeviceUniqueId .empty with
          predecessors := [heap.nodeCount] }
      else
        heap.nodes node := by
  have apart : heap.nodeCount ≠ heap.nodeCount + 1 := by omega
  by_cases first : node = heap.nodeCount
  · subst first
    simp [commandGraphNew, precedes, pushSuccessor, pushPredecessor,
      CommandGraphNode.new]
  · by_cases second : node = heap.nodeCount + 1
    · subst second
      simp [commandGraphNew, precedes, pushSuccessor, pushPredecessor,
        CommandGraphNode.new]
    · simp [commandGraphNew, precedes, pushSuccessor, pushPredecessor, first,
        second]

end Allocation

/-! ## Reading the projections -/

section Projections

variable {heap' : Heap}

theorem unlinked_nodes (same : heap'.unlinked = heap.unlinked)
    (id : NodeId) :
    (heap'.nodes id).unlinked = (heap.nodes id).unlinked :=
  congrFun (congrArg Heap.nodes same) id

theorem unlinked_deviceUniqueId (same : heap'.unlinked = heap.unlinked)
    (id : NodeId) :
    (heap'.nodes id).deviceUniqueId = (heap.nodes id).deviceUniqueId :=
  (congrArg CommandGraphNode.deviceUniqueId (unlinked_nodes same id) :)

theorem unlinked_type (same : heap'.unlinked = heap.unlinked)
    (id : NodeId) :
    (heap'.nodes id).type = (heap.nodes id).type :=
  (congrArg CommandGraphNode.type (unlinked_nodes same id) :)

theorem unlinked_command (same : heap'.unlinked = heap.unlinked)
    (id : NodeId) :
    (heap'.nodes id).command = (heap.nodes id).command :=
  (congrArg CommandGraphNode.command (unlinked_nodes same id) :)

theorem unlinked_walkId (same : heap'.unlinked = heap.unlinked)
    (id : NodeId) :
    (heap'.nodes id).walkId = (heap.nodes id).walkId :=
  (congrArg CommandGraphNode.walkId (unlinked_nodes same id) :)

theorem unlinked_iteratorIndex (same : heap'.unlinked = heap.unlinked)
    (id : NodeId) :
    (heap'.nodes id).iteratorIndex = (heap.nodes id).iteratorIndex :=
  (congrArg CommandGraphNode.iteratorIndex (unlinked_nodes same id) :)

theorem unlinked_nodeCount (same : heap'.unlinked = heap.unlinked) :
    heap'.nodeCount = heap.nodeCount :=
  (congrArg Heap.nodeCount same :)

theorem unlinked_graphs (same : heap'.unlinked = heap.unlinked) :
    heap'.graphs = heap.graphs :=
  (congrArg Heap.graphs same :)

theorem unlinked_graphCount (same : heap'.unlinked = heap.unlinked) :
    heap'.graphCount = heap.graphCount :=
  (congrArg Heap.graphCount same :)

theorem unmarked_nodes (same : heap'.unmarked = heap.unmarked)
    (id : NodeId) :
    (heap'.nodes id).unmarked = (heap.nodes id).unmarked :=
  congrFun (congrArg Heap.nodes same) id

theorem unmarked_successors (same : heap'.unmarked = heap.unmarked) :
    heap'.successors = heap.successors :=
  funext fun id =>
    (congrArg CommandGraphNode.successors (unmarked_nodes same id) :)

theorem unmarked_predecessors (same : heap'.unmarked = heap.unmarked) :
    heap'.predecessors = heap.predecessors :=
  funext fun id =>
    (congrArg CommandGraphNode.predecessors (unmarked_nodes same id) :)

theorem unmarked_deviceUniqueId (same : heap'.unmarked = heap.unmarked)
    (id : NodeId) :
    (heap'.nodes id).deviceUniqueId = (heap.nodes id).deviceUniqueId :=
  (congrArg CommandGraphNode.deviceUniqueId (unmarked_nodes same id) :)

theorem unmarked_type (same : heap'.unmarked = heap.unmarked)
    (id : NodeId) :
    (heap'.nodes id).type = (heap.nodes id).type :=
  (congrArg CommandGraphNode.type (unmarked_nodes same id) :)

theorem unmarked_command (same : heap'.unmarked = heap.unmarked)
    (id : NodeId) :
    (heap'.nodes id).command = (heap.nodes id).command :=
  (congrArg CommandGraphNode.command (unmarked_nodes same id) :)

theorem unmarked_nodeCount (same : heap'.unmarked = heap.unmarked) :
    heap'.nodeCount = heap.nodeCount :=
  (congrArg Heap.nodeCount same :)

theorem unmarked_graphCount (same : heap'.unmarked = heap.unmarked) :
    heap'.graphCount = heap.graphCount :=
  (congrArg Heap.graphCount same :)

theorem unmarked_graphs (same : heap'.unmarked = heap.unmarked)
    (graph : GraphId) :
    (heap'.graphs graph).entry = (heap.graphs graph).entry ∧
      (heap'.graphs graph).exit = (heap.graphs graph).exit ∧
        (heap'.graphs graph).isSequence = (heap.graphs graph).isSequence := by
  have equal := congrFun (congrArg Heap.graphs same) graph
  exact
    ⟨(congrArg CommandGraph.entry equal :),
      (congrArg CommandGraph.exit equal :),
      (congrArg CommandGraph.isSequence equal :)⟩

end Projections

end Lemmas

end Heap

end Cgir.Model
