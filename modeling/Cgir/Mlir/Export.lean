import Cgir.Library.Loop
import Cgir.Mlir.Cg
import Cgir.Model.Heap

/-!
# Export to a command graph

`export_command_graph` resolves a node for every op of the block, clears the
adjacency lists of these nodes and rebuilds them from the token operands.  An
op with a source node writes back into it; an op without one allocates, and a
`cg.batch` allocates a whole sub-graph.
-/

namespace Cgir.Mlir

open Cgir.Library
open Cgir.Model

/-! ## The source functions -/

/-- What `update_node_from_op` makes of a node. -/
def Op.updateNode (op : Op) (node : CommandGraphNode) :
    Option CommandGraphNode :=
  let node := { node with deviceUniqueId := op.getDuid }
  match op.kind, node.command with
  | .copy1D attrs, some _ =>
      attrs.command.map fun command => { node with command := some command }
  | .copy2D attrs, some _ =>
      attrs.command.map fun command => { node with command := some command }
  | _, _ => some node

/-- `update_node_from_op`. -/
def updateNodeFromOp (heap : Heap) (node : NodeId) (op : Op) : Option Heap :=
  (op.updateNode (heap.nodes node)).map fun object =>
    heap.updateNode node fun _ => object

/-- `node->predecessors.clear()` and `node->successors.clear()`. -/
def clearLists (heap : Heap) (node : NodeId) : Heap :=
  heap.updateNode node CommandGraphNode.unlinked

/-- A fresh command node that holds a fresh command. -/
def newCommandNode (heap : Heap) (duid : DeviceUniqueId)
    (command : Command) : NodeId × Heap :=
  let (node, heap) := heap.commandGraphNodeNew duid .command
  (node, heap.setCommand node command)

/-- The edges into one op, from its token operands. -/
def relinkOp (ops : OpId → Op) (out : OpId → Option NodeId) (heap : Heap)
    (op : OpId) : Option Heap := do
  let node ← out op
  (ops op).operands.foldlM
    (fun heap pred => do
      let pnode ← out pred
      return heap.precedes pnode node) heap

/-- The nodes made so far for the members of a batch. -/
structure SubState where
  heap : Heap
  subNodes : OpId → Option NodeId

/--
The sub-node of a member: it reuses the command of the source node of the
member; `create` is `create_pod_node_from_op`.
-/
def subNode (create : Heap → Op → Option (NodeId × Heap)) (heap : Heap)
    (member : Op) : Option (NodeId × Heap) :=
  match member.srcNode with
  | none => create heap member
  | some source =>
      match (heap.nodes source).type, (heap.nodes source).command with
      | .command, some command =>
          let (node, heap) := newCommandNode heap member.getDuid command
          (updateNodeFromOp heap node member).map fun heap => (node, heap)
      | .empty, _ => some (heap.commandGraphNodeNew member.getDuid .empty)
      | _, _ => create heap member

/-- One iteration of the loop that creates the sub-nodes. -/
def resolveMember (ops : OpId → Op)
    (create : Heap → Op → Option (NodeId × Heap)) (state : SubState)
    (member : OpId) : Option SubState := do
  let (node, heap) ← subNode create state.heap (ops member)
  return {
    heap := clearLists heap node
    subNodes := Function.update state.subNodes member (some node) }

/-- Connect a source of the sub-graph to its entry, a sink to its exit. -/
def connectMember (subEntry subExit : NodeId)
    (subNodes : OpId → Option NodeId) (heap : Heap) (member : OpId) :
    Option Heap := do
  let node ← subNodes member
  let heap :=
    if heap.predecessors node = [] then heap.precedes subEntry node else heap
  return (
    if heap.successors node = [] then heap.precedes node subExit else heap)

/-- `build_batch_node` of a batch with the given device and region. -/
def buildBatchNode (ops : OpId → Op)
    (create : Heap → Op → Option (NodeId × Heap)) (heap : Heap)
    (duid : DeviceUniqueId) (region : List OpId) : Option (NodeId × Heap) := do
  let (sub, heap) := heap.commandGraphNew none
  let subEntry := (heap.graphs sub).entry
  let subExit := (heap.graphs sub).exit
  let heap := (heap.setSuccessors subEntry []).setPredecessors subExit []
  let state ←
    region.foldlM (resolveMember ops create)
      { heap := heap, subNodes := fun _ => none }
  let heap ← region.foldlM (relinkOp ops state.subNodes) state.heap
  let heap ←
    region.foldlM (connectMember subEntry subExit state.subNodes) heap
  return newCommandNode heap duid (.batch sub)

/--
`create_pod_node_from_op`.  The recursion follows the nesting of regions, which
the first argument bounds.
-/
def createPodNodeFromOp (ops : OpId → Op) :
    Nat → Heap → Op → Option (NodeId × Heap)
  | depth, heap, op =>
      match op.kind with
      | .empty _ _ => some (heap.commandGraphNodeNew op.getDuid .empty)
      | .copy1D attrs => attrs.command.map (newCommandNode heap op.getDuid)
      | .copy2D attrs => attrs.command.map (newCommandNode heap op.getDuid)
      | .generic _ blob => some (newCommandNode heap op.getDuid blob)
      | .batch region =>
          match depth with
          | 0 => none
          | depth + 1 =>
              buildBatchNode ops (createPodNodeFromOp ops depth) heap
                op.getDuid region

/-- The state of pass 1 of the export. -/
structure ExportState where
  heap : Heap
  out : OpId → Option NodeId
  entryNode : Option NodeId
  exitNode : Option NodeId

/-- The node of an op: its source node when it has one, else a fresh one. -/
def resolveNode (cg : Graph) (heap : Heap) (op : Op) :
    Option (NodeId × Heap) :=
  match op.srcNode with
  | some node =>
      (updateNodeFromOp heap node op).map fun heap => (node, heap)
  | none => createPodNodeFromOp cg.ops cg.opCount heap op

/-- Pass 1 on one op. -/
def resolveOp (cg : Graph) (state : ExportState) (id : OpId) :
    Option ExportState := do
  let op := cg.ops id
  let (node, heap) ← resolveNode cg state.heap op
  return {
    heap := clearLists heap node
    out := Function.update state.out id (some node)
    entryNode := if op.isEntry then some node else state.entryNode
    exitNode := if op.isExit then some node else state.exitNode }

/--
`export_command_graph`, which fails where the source asserts: without an entry
or an exit, or when an end of the graph has edges beyond it.
-/
def exportCommandGraph (cg : Graph) (heap : Heap) (graph : GraphId) :
    Option Heap := do
  let state ←
    cg.body.foldlM (resolveOp cg)
      { heap := heap
        out := fun _ => none
        entryNode := none
        exitNode := none }
  let heap ← cg.body.foldlM (relinkOp cg.ops state.out) state.heap
  let entry ← state.entryNode
  let exit ← state.exitNode
  if heap.predecessors entry = [] ∧ heap.successors exit = [] then
    return heap.updateGraph graph fun object =>
      { object with entry := entry, exit := exit }
  else
    none

end Cgir.Mlir
