import Cgir.Model.Walk

/-!
# Vectors of node iterators

A pass works on the vector of node iterators that `create_node_iterators`
returns.  A valid vector lists the nodes of the graph once, and every node
stores its own position.
-/

namespace Cgir.Model

/-- The vector of node iterators of a pass, over the heap it was made from. -/
structure Iterators where
  heap : Heap
  graph : GraphId
  nodes : List NodeId

namespace Iterators

variable (iterators : Iterators)

/-- `n`. -/
def count : Nat :=
  iterators.nodes.length

/-- `nodes[i].node`. -/
def node (i : Nat) : NodeId :=
  iterators.nodes.getD i 0

/-- `s->iterator_index`. -/
def index (s : NodeId) : Nat :=
  (iterators.heap.nodes s).iteratorIndex

def device (s : NodeId) : DeviceUniqueId :=
  (iterators.heap.nodes s).deviceUniqueId

/-- A vector of all nodes of a graph, each at its own index. -/
structure Valid : Prop where
  nodup : iterators.nodes.Nodup
  index_eq : ∀ node ∈ iterators.nodes,
    iterators.nodes[iterators.index node]? = some node
  mem_iff : ∀ node, node ∈ iterators.nodes ↔
    iterators.heap.Reachable iterators.graph node

variable {iterators}

theorem node_eq {i : Nat} (bound : i < iterators.count) :
    iterators.nodes[i]? = some (iterators.node i) := by
  rw [Iterators.node, List.getD_eq_getElem?_getD,
    List.getElem?_eq_getElem bound]
  rfl

theorem node_mem {i : Nat} (bound : i < iterators.count) :
    iterators.node i ∈ iterators.nodes :=
  List.mem_of_getElem? (node_eq bound)

namespace Valid

variable (valid : iterators.Valid)

include valid

theorem index_lt {node : NodeId} (member : node ∈ iterators.nodes) :
    iterators.index node < iterators.count :=
  (List.getElem?_eq_some_iff.mp (valid.index_eq node member)).1

theorem node_index {node : NodeId} (member : node ∈ iterators.nodes) :
    iterators.node (iterators.index node) = node := by
  rw [Iterators.node, List.getD_eq_getElem?_getD, valid.index_eq node member]
  rfl

theorem index_node {i : Nat} (bound : i < iterators.count) :
    iterators.index (iterators.node i) = i := by
  have position := valid.index_eq _ (Iterators.node_mem bound)
  rw [← node_eq bound] at position
  exact
    ((List.getElem?_inj bound valid.nodup).mp position.symm).symm

theorem closed {node : NodeId} (member : node ∈ iterators.nodes)
    {s : NodeId} (edge : s ∈ iterators.heap.successors node) :
    s ∈ iterators.nodes := by
  rw [valid.mem_iff] at member ⊢
  exact member.tail edge

end Valid

/-- The vector of all nodes of a well-formed graph is valid. -/
theorem valid_of_iterated {heap : Heap}
    (iterated : heap.Iterated iterators.graph true iterators.heap
      iterators.nodes) :
    iterators.Valid where
  nodup := iterated.nodup
  index_eq := iterated.index_eq
  mem_iff := by
    intro node
    rw [iterated.mem_iff, Heap.reachable_congr iterated.unmarked_eq]
    simp

end Iterators

end Cgir.Model
