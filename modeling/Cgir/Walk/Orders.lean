import Cgir.Model.Numbered

/-!
# The orders of walks

Depth-first pre-order, depth-first post-order and breadth-first search from one
node give the same nodes to the callback, each once.  Post-order lists a node
after its successors, and pre-order lists it after one of its predecessors.
-/

namespace Cgir.Walk.Orders

open Relation
open Cgir.Library
open Cgir.Model

/-- The first node is listed before the second. -/
def ListedBefore (visited : List NodeId) (first second : NodeId) : Prop :=
  ∃ earlier later, visited = earlier ++ second :: later ∧ first ∈ earlier

/-- The callback runs once on each node that is reachable from the start. -/
structure Covers (heap : Heap) (start : NodeId) (visited : List NodeId) :
    Prop where
  nodup : visited.Nodup
  mem_iff : ∀ node, node ∈ visited ↔
    MarkSearch.Reach heap.successors start node

/-- The nodes are listed after all of their successors. -/
def AfterSuccessors (heap : Heap) (visited : List NodeId) : Prop :=
  ∀ node ∈ visited, ∀ succ ∈ heap.successors node,
    ListedBefore visited succ node

/--
The nodes are listed after their predecessor when they have one only, and the
start is no successor of a node that is listed.
-/
structure AfterPredecessor (heap : Heap) (start : NodeId)
    (visited : List NodeId) : Prop where
  only : ∀ node ∈ visited, node ≠ start → ∀ pred,
    (∀ other ∈ visited, node ∈ heap.successors other → other = pred) →
      ListedBefore visited pred node
  start_first : ∀ pred ∈ visited, start ∉ heap.successors pred

section Walks

variable {heap : Heap} {graph : GraphId} {start : NodeId}
  {visited : List NodeId}

/-- A list that is sorted after successors, when no successor is excused. -/
theorem afterSuccessors_of_postSorted (covers : Covers heap start visited)
    {excused : NodeId → Prop}
    (sorted : MarkSearch.PostSorted heap.successors excused visited)
    (none : ∀ node, MarkSearch.Reach heap.successors start node →
      ¬ excused node) : AfterSuccessors heap visited := by
  intro node member succ edge
  obtain ⟨earlier, later, split⟩ := List.append_of_mem member
  have reached := (covers.mem_iff node).mp member
  rcases sorted earlier node later split succ edge with listed | skipped
  · exact ⟨earlier, later, split, listed⟩
  · exact (none succ (reached.tail edge) skipped).elim

/-- A node that is listed after some predecessor is listed after its only one. -/
theorem afterPredecessor_of_preSorted (covers : Covers heap start visited)
    (sorted : MarkSearch.PreSorted heap.successors start visited)
    (acyclic : ∀ node, MarkSearch.Reach heap.successors start node →
      ¬ TransGen (MarkSearch.Edge heap.successors) node node) :
    AfterPredecessor heap start visited where
  only := by
    intro node member notStart pred only
    obtain ⟨earlier, later, split⟩ := List.append_of_mem member
    rcases sorted earlier node later split with isStart |
      ⟨other, listed, edge⟩
    · exact (notStart isStart).elim
    · have inVisited : other ∈ visited := by
        rw [split]
        exact List.mem_append_left _ listed
      rw [← only other inVisited edge]
      exact ⟨earlier, later, split, listed⟩
  start_first := by
    intro pred member edge
    have reached := (covers.mem_iff pred).mp member
    exact acyclic start ReflTransGen.refl (TransGen.tail' reached edge)

end Walks

/--
From a node whose reachable nodes carry no stale mark, all searches return and
cover what is reachable.  On an acyclic graph post-order follows successors and
pre-order follows a sole predecessor.
-/
theorem walkFrom_orders (heap : Heap) (graph : GraphId) (start : NodeId)
    (allocated : ∀ node, MarkSearch.Reach heap.successors start node →
      node < heap.nodeCount)
    (fresh : ∀ node, MarkSearch.Reach heap.successors start node →
      node ≠ start →
        (heap.nodes node).walkId ≠ (heap.graphs graph).walkId + 1) :
    ∃ visited : MarkSearch.Kind → List NodeId,
      (∀ kind, (∃ walked, heap.walkFrom graph kind start =
          some (walked, visited kind)) ∧
        Covers heap start (visited kind)) ∧
      ((∀ node, MarkSearch.Reach heap.successors start node →
          ¬ TransGen (MarkSearch.Edge heap.successors) node node) →
        AfterSuccessors heap (visited (.dfs .post)) ∧
          AfterPredecessor heap start (visited (.dfs .pre))) := by
  have each : ∀ kind, ∃ result : MarkSearch.State NodeId WalkId,
      MarkSearch.walk heap.successors ((heap.graphs graph).walkId + 1) kind
          (heap.nodeCount + 1) (fun node => (heap.nodes node).walkId) start =
        some result ∧
      (∃ walked, heap.walkFrom graph kind start =
        some (walked, result.visited)) ∧
        Covers heap start result.visited := by
    intro kind
    obtain ⟨result, ran, sweep⟩ :=
      Heap.walkFrom_returns graph allocated kind
    have searched := ran
    simp only [Heap.walkFrom, Option.bind_eq_bind, Option.bind_eq_some_iff]
      at searched
    obtain ⟨other, searched, same⟩ := searched
    rw [Option.pure_def, Option.some.injEq, Prod.mk.injEq] at same
    refine ⟨other, searched, ⟨_, same.2 ▸ ran⟩, ?_⟩
    rw [same.2]
    exact ⟨sweep.nodup, sweep.complete_iff.mpr fresh⟩
  choose result searched ran covers using each
  refine
    ⟨fun kind => (result kind).visited, fun kind => ⟨ran kind, covers kind⟩,
      fun acyclic => ⟨?_, ?_⟩⟩
  · apply afterSuccessors_of_postSorted (covers (.dfs .post))
      (MarkSearch.walk_postSorted acyclic (searched (.dfs .post)))
    rintro node reached ⟨marked, notStart⟩
    exact fresh node reached notStart marked
  · exact
      afterPredecessor_of_preSorted (covers (.dfs .pre))
        (MarkSearch.walk_preSorted (searched (.dfs .pre))) acyclic

/-- A node whose two successors share one successor. -/
def diamond : Heap :=
  Heap.ofNodes
    [Heap.linkedNode unspecifiedDeviceUniqueId .empty [] [1, 2],
      Heap.linkedNode unspecifiedDeviceUniqueId .empty [0] [3],
      Heap.linkedNode unspecifiedDeviceUniqueId .empty [0] [3],
      Heap.linkedNode unspecifiedDeviceUniqueId .empty [1, 2] []]
    { entry := 0, exit := 3, walkId := 0, isSequence := false }

theorem walkFrom_orders_diamond :
    ∃ visited : MarkSearch.Kind → List NodeId,
      (∀ kind, (∃ walked, diamond.walkFrom 0 kind 0 =
          some (walked, visited kind)) ∧
        Covers diamond 0 (visited kind)) ∧
      ((∀ node, MarkSearch.Reach diamond.successors 0 node →
          ¬ TransGen (MarkSearch.Edge diamond.successors) node node) →
        AfterSuccessors diamond (visited (.dfs .post)) ∧
          AfterPredecessor diamond 0 (visited (.dfs .pre))) := by
  have numbered : diamond.Numbered 0 := by decide
  exact
    walkFrom_orders diamond 0 0
      (fun node reached => numbered.lt_of_reachable reached)
      (numbered.walkReady (by decide))

end Cgir.Walk.Orders
