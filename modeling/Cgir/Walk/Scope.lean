import Cgir.Model.Walk

/-!
# Walks of several graphs

A walk writes marks on the nodes of its own graph only.  Graphs without common
nodes therefore do not disturb each other: in every interleaving of their walks,
all walks of a graph are complete if and only if the graph was without stale
marks before the first one (`complete_iff_ready`).
-/

namespace Cgir.Walk.Scope

open Relation
open Cgir.Library
open Cgir.Model

/-- A walk of a graph from its entry, and what it visited. -/
structure Visit where
  graph : GraphId
  visited : List NodeId

/-- Any interleaving of walks of the graphs in scope. -/
inductive Walks (scope : GraphId → Prop) (start : Heap) :
    Heap → List Visit → Prop where
  | none :
      Walks scope start start []
  | walk {heap visits} {graph : GraphId} {after : Heap}
      {visited : List NodeId} (kind : MarkSearch.Kind)
      (earlier : Walks scope start heap visits) (inScope : scope graph)
      (ran : heap.walk graph kind = some (after, visited)) :
      Walks scope start after (visits ++ [⟨graph, visited⟩])

/-- The graphs in scope have allocated nodes, and none in common. -/
structure Apart (heap : Heap) (scope : GraphId → Prop) : Prop where
  allocated : ∀ graph node, scope graph → heap.Reachable graph node →
    node < heap.nodeCount
  disjoint : ∀ first second node, scope first → scope second →
    heap.Reachable first node → heap.Reachable second node → first = second

/-- The callback ran exactly once on every node of the graph and on no other. -/
def Complete (heap : Heap) (visit : Visit) : Prop :=
  visit.visited.Nodup ∧
    ∀ node, node ∈ visit.visited ↔ heap.Reachable visit.graph node

section Interleaving

variable {scope : GraphId → Prop} {start heap : Heap} {graph : GraphId}

/-- What a walk leaves alone, whether or not it is complete. -/
private theorem walk_frame {kind : MarkSearch.Kind} {after : Heap}
    {visited : List NodeId}
    (allocated : ∀ node, heap.Reachable graph node → node < heap.nodeCount)
    (ran : heap.walk graph kind = some (after, visited)) :
    after.unmarked = heap.unmarked ∧
      (∀ other, other ≠ graph → after.graphs other = heap.graphs other) ∧
      ∀ node, ¬ heap.Reachable graph node →
        (after.nodes node).walkId = (heap.nodes node).walkId := by
  obtain ⟨result, returned, sweep⟩ :=
    Heap.walkFrom_returns graph allocated kind
  rw [Heap.walk, returned, Option.some.injEq, Prod.mk.injEq] at ran
  obtain ⟨rfl, rfl⟩ := ran
  refine ⟨Heap.writeMarks_unmarked _ _, ?_, ?_⟩
  · intro other different
    simp [Heap.writeMarks, different]
  · intro node unreachable
    have unvisited : node ∉ result.visited :=
      fun member => unreachable (sweep.sound node member)
    simp [Heap.writeMarks, sweep.mark_eq, unvisited]

/-- Walks change nothing but marks and walk identifiers. -/
theorem Walks.unmarked_eq {visits : List Visit} (apart : Apart start scope)
    (walks : Walks scope start heap visits) :
    heap.unmarked = start.unmarked := by
  induction walks with
  | none => rfl
  | walk kind _ inScope ran induction =>
      refine (walk_frame (fun node reachable => ?_) ran).1.trans induction
      rw [Heap.reachable_congr induction] at reachable
      rw [Heap.unmarked_nodeCount induction]
      exact apart.allocated _ node inScope reachable

/-- After any walks, the nodes of the graphs in scope are allocated. -/
private theorem Walks.allocated {visits : List Visit}
    (apart : Apart start scope) (walks : Walks scope start heap visits)
    (inScope : scope graph) (node : NodeId)
    (reachable : heap.Reachable graph node) : node < heap.nodeCount := by
  have same := walks.unmarked_eq apart
  rw [Heap.reachable_congr same] at reachable
  rw [Heap.unmarked_nodeCount same]
  exact apart.allocated graph node inScope reachable

/-- Walks of the graphs in scope leave no stale marks on one that had none. -/
theorem Walks.ready {visits : List Visit} (apart : Apart start scope)
    (inScope : scope graph) (ready : start.WalkReady graph)
    (walks : Walks scope start heap visits) : heap.WalkReady graph := by
  induction walks with
  | none => exact ready
  | @walk heap visits other after visited kind earlier otherScope ran
      induction =>
      have allocated := earlier.allocated apart otherScope
      by_cases same : other = graph
      · subst same
        obtain ⟨walked, all, ran', done⟩ :=
          Heap.walk_spec allocated induction kind
        rw [ran, Option.some.injEq, Prod.mk.injEq] at ran'
        obtain ⟨rfl, rfl⟩ := ran'
        exact done.ready
      · obtain ⟨unmarked, graphs, marks⟩ := walk_frame allocated ran
        intro node reachable notEntry
        rw [Heap.reachable_congr unmarked] at reachable
        rw [graphs graph (Ne.symm same)] at notEntry ⊢
        have foreign : ¬ heap.Reachable other node := by
          intro shared
          have original := earlier.unmarked_eq apart
          rw [Heap.reachable_congr original] at reachable shared
          exact
            same
              (apart.disjoint other graph node otherScope inScope shared
                reachable)
        rw [marks node foreign]
        exact induction node reachable notEntry

/-- Every walk of a graph in scope returns. -/
theorem Walks.returns {visits : List Visit} (apart : Apart start scope)
    (inScope : scope graph) (walks : Walks scope start heap visits)
    (kind : MarkSearch.Kind) :
    ∃ after visited, heap.walk graph kind = some (after, visited) := by
  obtain ⟨result, returned, -⟩ :=
    Heap.walkFrom_returns graph (walks.allocated apart inScope) kind
  exact ⟨_, _, returned⟩

/-- The walks of a graph without stale marks are complete. -/
private theorem Walks.complete {visits : List Visit}
    (apart : Apart start scope) (inScope : scope graph)
    (ready : start.WalkReady graph)
    (walks : Walks scope start heap visits) (visit : Visit)
    (member : visit ∈ visits) (ofGraph : visit.graph = graph) :
    Complete start visit := by
  subst ofGraph
  induction walks with
  | none => exact (List.not_mem_nil member).elim
  | @walk heap visits other after visited kind earlier otherScope ran
      induction =>
      rcases List.mem_append.mp member with before | isLast
      · exact induction before
      · rw [List.mem_singleton] at isLast
        subst isLast
        obtain ⟨walked, all, ran', done⟩ :=
          Heap.walk_spec (earlier.allocated apart otherScope)
            (earlier.ready apart inScope ready) kind
        rw [ran, Option.some.injEq, Prod.mk.injEq] at ran'
        obtain ⟨rfl, rfl⟩ := ran'
        refine ⟨done.nodup, fun node => ?_⟩
        rw [done.mem_iff, Heap.reachable_congr (earlier.unmarked_eq apart)]

/--
In every interleaving of walks, the walks of a graph are complete if and only if
the graph was without stale marks before.
-/
theorem complete_iff_ready (apart : Apart start scope)
    (inScope : scope graph) :
    (∀ heap visits, Walks scope start heap visits →
        ∀ visit ∈ visits, visit.graph = graph → Complete start visit) ↔
      start.WalkReady graph := by
  constructor
  · intro complete
    have allocated := fun node => apart.allocated graph node inScope
    obtain ⟨result, returned, sweep⟩ :=
      Heap.walkFrom_returns graph allocated (.dfs .pre)
    have first : Complete start ⟨graph, result.visited⟩ :=
      complete _ _ (Walks.walk (.dfs .pre) .none inScope returned) _
        (by simp) rfl
    exact sweep.complete_iff.mp first.2
  · intro ready heap visits walks visit member ofGraph
    exact walks.complete apart inScope ready visit member ofGraph

end Interleaving

end Cgir.Walk.Scope
