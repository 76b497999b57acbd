import Mathlib.Algebra.Ring.Nat
import Cgir.Model.Iterators

/-!
# The sequence pass

`command_graph_t::pass_sequence`: scan the nodes in depth-first pre-order, walk
the chain of same-device task nodes that starts at a node, and contract a chain
with two or more commands into a batch node whose sub-graph has the head and the
tail of the chain as its entry and exit.
-/

namespace Cgir.Pass.Sequence

open Cgir.Model

/-! ## Candidates -/

/-- `NODE_IS_SEQABLE`. -/
def nodeIsSeqable (heap : Heap) (x : NodeId) : Bool :=
  (heap.nodes x).type = .empty ||
    ((heap.nodes x).type = .command &&
      match (heap.nodes x).command with
      | some (.prog prog) => prog.launchMode = .taskSpawn
      | _ => false)

/-- `is_cand`. -/
def isCand (heap : Heap) (graph : GraphId) (x : NodeId) : Bool :=
  x ≠ (heap.graphs graph).entry && x ≠ (heap.graphs graph).exit &&
    nodeIsSeqable heap x

/-- The chain continues from `cur` to its successor `nxt`. -/
def continues (heap : Heap) (graph : GraphId) (cur nxt : NodeId) : Bool :=
  isCand heap graph nxt &&
    (heap.nodes nxt).deviceUniqueId = (heap.nodes cur).deviceUniqueId &&
      (heap.predecessors nxt).length = 1

/-! ## Moving the boundary of a chain -/

/-- One predecessor of the head now precedes the batch node. -/
def moveSuccessor (batch head : NodeId) (heap : Heap) (p : NodeId) : Heap :=
  if batch ∈ heap.successors p then
    heap.eraseSuccessor p head
  else
    heap.setSuccessors p ((heap.successors p).replace head batch)

/-- One successor of the tail now succeeds the batch node. -/
def movePredecessor (batch tail : NodeId) (heap : Heap) (s : NodeId) : Heap :=
  if batch ∈ heap.predecessors s then
    heap.erasePredecessor s tail
  else
    heap.setPredecessors s ((heap.predecessors s).replace tail batch)

/-- The predecessors of the head become those of the batch node. -/
def detachHead (batch head : NodeId) (heap : Heap) : Heap :=
  let moved :=
    (heap.predecessors head).foldl (moveSuccessor batch head) heap
  (moved.setPredecessors batch (heap.predecessors head)).setPredecessors
    head []

/-- The successors of the tail become those of the batch node. -/
def detachTail (batch tail : NodeId) (heap : Heap) : Heap :=
  let moved :=
    (heap.successors tail).foldl (movePredecessor batch tail) heap
  (moved.setSuccessors batch (heap.successors tail)).setSuccessors tail []

/-- `command_graph_pass_sequence_detach_boundary`. -/
def detachBoundary (batch head tail : NodeId) (heap : Heap) : Heap :=
  detachTail batch tail (detachHead batch head heap)

/-! ## The scan -/

/-- The state of the walk along a chain. -/
structure ChainWalk where
  contracted : Nat → Bool
  ncmd : Nat
  tail : NodeId

/-- Count a node when it is a command. -/
def commandCount (heap : Heap) (x : NodeId) : Nat :=
  if (heap.nodes x).type = .command then 1 else 0

/-- The `while` loop that walks the chain from its head. -/
def walkChain (iterators : Iterators) (heap : Heap) :
    Nat → ChainWalk → Option ChainWalk
  | 0, _ => none
  | fuel + 1, state =>
      match heap.successors state.tail with
      | [nxt] =>
          if continues heap iterators.graph state.tail nxt then
            walkChain iterators heap fuel
              { contracted :=
                  Function.update state.contracted (iterators.index nxt) true
                ncmd := state.ncmd + commandCount heap nxt
                tail := nxt }
          else
            some state
      | _ => some state

/-- The heap, and `nodes[i].data.contracted`. -/
structure Scan where
  heap : Heap
  contracted : Nat → Bool

/-- Contract the chain from `u` to `tail` into a fresh batch node. -/
def contract (u tail : NodeId) (heap : Heap) : Heap :=
  let (batch, heap) :=
    heap.commandGraphNodeNew (heap.nodes u).deviceUniqueId .command
  let heap := detachBoundary batch u tail heap
  let (sub, heap) := heap.commandGraphNew (some (u, tail))
  (heap.setCommand batch (.batch sub)).updateGraph sub fun object =>
    { object with isSequence := true }

/-- One node of the scan: it may be the head of a chain. -/
def scanNode (iterators : Iterators) (state : Scan) (i : Nat) :
    Option Scan :=
  let u := iterators.node i
  if state.contracted i || !isCand state.heap iterators.graph u then
    some state
  else
    match state.heap.successors u with
    | [v] =>
        if !continues state.heap iterators.graph u v then
          some state
        else do
          let walk ← walkChain iterators state.heap (iterators.count + 1)
            { contracted :=
                Function.update state.contracted (iterators.index u) true
              ncmd := commandCount state.heap u
              tail := u }
          if walk.ncmd < 2 then
            return { state with contracted := walk.contracted }
          else
            return {
              heap := contract u walk.tail state.heap
              contracted := walk.contracted }
    | _ => some state

/-- `command_graph_t::pass_sequence`. -/
def passSequence (heap : Heap) (graph : GraphId) : Option Heap := do
  let (heap, nodes) ← heap.createNodeIterators graph true
  let iterators : Iterators := { heap := heap, graph := graph, nodes := nodes }
  if nodes.length ≤ 2 then
    return heap
  else
    let state ← (List.range iterators.count).foldlM (scanNode iterators)
      { heap := heap, contracted := fun _ => false }
    return state.heap

end Cgir.Pass.Sequence
