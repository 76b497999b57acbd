import Cgir.Model.Adjacency

/-!
# Reversed graphs

The heap with predecessors and successors exchanged.  An operation on the one
kind of lists is the same operation on the other kind in the reversed heap, so
that the two halves of a symmetric operation need one proof.
-/

namespace Cgir.Model

open Cgir.Library

/-- A node with its lists exchanged. -/
def CommandGraphNode.reverse (node : CommandGraphNode) : CommandGraphNode :=
  { node with
    predecessors := node.successors
    successors := node.predecessors }

namespace Heap

/-- The heap with the lists of every node exchanged. -/
def reverse (heap : Heap) : Heap :=
  { heap with nodes := fun id => (heap.nodes id).reverse }

section Reverse

variable (heap : Heap)

@[simp]
theorem reverse_reverse : heap.reverse.reverse = heap :=
  rfl

@[simp]
theorem reverse_successors (id : NodeId) :
    heap.reverse.successors id = heap.predecessors id :=
  rfl

@[simp]
theorem reverse_predecessors (id : NodeId) :
    heap.reverse.predecessors id = heap.successors id :=
  rfl

@[simp]
theorem reverse_unlinked : heap.reverse.unlinked = heap.unlinked :=
  rfl

/-- A change of a node is a change of the reversed node. -/
theorem updateNode_reverse {id : NodeId}
    {change change' : CommandGraphNode → CommandGraphNode}
    (same : ∀ node, (change node).reverse = change' node.reverse) :
    (heap.updateNode id change).reverse = heap.reverse.updateNode id change' := by
  simp only [reverse, updateNode]
  congr 1
  funext other
  by_cases here : other = id
  · subst here
    simp [same]
  · simp [here]

theorem eraseSuccessor_reverse (node succ : NodeId) :
    (heap.eraseSuccessor node succ).reverse =
      heap.reverse.erasePredecessor node succ :=
  updateNode_reverse heap fun _ => rfl

theorem setPredecessors_reverse (node : NodeId) (list : List NodeId) :
    (heap.setPredecessors node list).reverse =
      heap.reverse.setSuccessors node list :=
  updateNode_reverse heap fun _ => rfl

theorem setSuccessors_reverse (node : NodeId) (list : List NodeId) :
    (heap.setSuccessors node list).reverse =
      heap.reverse.setPredecessors node list :=
  updateNode_reverse heap fun _ => rfl

/-- The two ends of an edge may be written in either order. -/
theorem pushSuccessor_pushPredecessor (node succ : NodeId) :
    (heap.pushSuccessor node succ).pushPredecessor succ node =
      (heap.pushPredecessor succ node).pushSuccessor node succ := by
  simp only [pushSuccessor, pushPredecessor, updateNode]
  congr 1
  funext other
  by_cases isSource : other = node <;> by_cases isTarget : other = succ <;>
    simp [isSource, isTarget, Function.update_apply] <;>
    split <;> simp_all

theorem precedes_reverse (node succ : NodeId) :
    (heap.precedes node succ).reverse = heap.reverse.precedes succ node := by
  have push : ∀ heap : Heap, (heap.pushPredecessor succ node).reverse =
      heap.reverse.pushSuccessor succ node :=
    fun heap => updateNode_reverse heap fun _ => rfl
  have push' : ∀ heap : Heap, (heap.pushSuccessor node succ).reverse =
      heap.reverse.pushPredecessor node succ :=
    fun heap => updateNode_reverse heap fun _ => rfl
  rw [precedes, push, push', precedes, pushSuccessor_pushPredecessor]

/-- The edges of the reversed heap lead the other way. -/
theorem Represents.reverse {live : NodeId → Prop}
    {edge : NodeId → NodeId → Prop} {heap : Heap}
    (represents : heap.Represents live edge) :
    heap.reverse.Represents live fun source target => edge target source where
  successors_nodup := represents.predecessors_nodup
  predecessors_nodup := represents.successors_nodup
  mem_successors := represents.mem_predecessors
  mem_predecessors := represents.mem_successors
  inside source target step := (represents.inside target source step).symm

/-! ## Loops over neighbours -/

/-- `node->foreach_predecessor(f)`, which asserts that the graph has no loops. -/
def foreachPredecessor (node : NodeId) (f : Heap → NodeId → Option Heap) :
    Option Heap :=
  (heap.predecessors node).foldlM
    (fun heap pred => if pred ≠ node then f heap pred else none) heap

/-- `node->foreach_successor(f)`. -/
def foreachSuccessor (node : NodeId) (f : Heap → NodeId → Option Heap) :
    Option Heap :=
  (heap.successors node).foldlM
    (fun heap succ => if succ ≠ node then f heap succ else none) heap

variable {heap}

/-- The assertion of the loops holds at every node but the one they start at. -/
theorem foldlM_guarded {node : NodeId} (f : Heap → NodeId → Option Heap)
    {list : List NodeId} (noLoop : node ∉ list) (state : Heap) :
    list.foldlM
        (fun heap next => if next ≠ node then f heap next else none) state =
      list.foldlM f state := by
  induction list generalizing state with
  | nil => rfl
  | cons first rest induction =>
      rw [List.mem_cons, not_or] at noLoop
      rw [List.foldlM_cons, List.foldlM_cons, if_pos (Ne.symm noLoop.1)]
      exact congrArg _ (funext (induction noLoop.2))

theorem foreachPredecessor_eq {node : NodeId}
    {f : Heap → NodeId → Option Heap} (noLoop : node ∉ heap.predecessors node) :
    heap.foreachPredecessor node f = (heap.predecessors node).foldlM f heap :=
  foldlM_guarded f noLoop heap

theorem foreachSuccessor_eq {node : NodeId}
    {f : Heap → NodeId → Option Heap} (noLoop : node ∉ heap.successors node) :
    heap.foreachSuccessor node f = (heap.successors node).foldlM f heap :=
  foldlM_guarded f noLoop heap

/-- A loop over predecessors, seen from the reversed heap. -/
theorem foreachPredecessor_reverse {node : NodeId}
    {f f' : Heap → NodeId → Option Heap}
    (same : ∀ heap n, f heap n = (f' heap.reverse n).map reverse) :
    heap.foreachPredecessor node f =
      (heap.reverse.foreachSuccessor node f').map reverse := by
  have each : ∀ (list : List NodeId) (state : Heap),
      list.foldlM (fun heap pred => if pred ≠ node then f heap pred else none)
          state =
        (list.foldlM
          (fun heap succ => if succ ≠ node then f' heap succ else none)
          state.reverse).map reverse := by
    intro list
    induction list with
    | nil => exact fun _ => rfl
    | cons first rest induction =>
        intro state
        rw [List.foldlM_cons, List.foldlM_cons]
        by_cases loop : first ≠ node
        · rw [if_pos loop, if_pos loop, same]
          cases f' state.reverse first with
          | none => rfl
          | some after => exact induction after.reverse
        · rw [if_neg loop, if_neg loop]
          rfl
  exact each _ heap

theorem foreachSuccessor_reverse {node : NodeId}
    {f f' : Heap → NodeId → Option Heap}
    (same : ∀ heap n, f heap n = (f' heap.reverse n).map reverse) :
    heap.foreachSuccessor node f =
      (heap.reverse.foreachPredecessor node f').map reverse := by
  have back : ∀ heap n, f' heap n = (f heap.reverse n).map reverse := by
    intro heap n
    rw [same, reverse_reverse, Option.map_map]
    exact Option.map_id'.symm
  rw [foreachPredecessor_reverse back, reverse_reverse, Option.map_map]
  exact Option.map_id'.symm

end Reverse

end Heap

end Cgir.Model
