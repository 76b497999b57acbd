import Cgir.Optimizer.MlirIsolation

/-!
# Optimization leaves the rest of the heap alone

Graphs share one heap.  Whatever passes are run on a graph, in whatever order and
with whichever optimizer, they write its nodes and those that they allocate
(`optimizeSteps_isolated`).
-/

namespace Cgir.Optimizer

open Cgir.Library
open Cgir.Mlir
open Cgir.Model
open Cgir.Model.Heap

/-- What optimizing a graph does to the heap around it. -/
structure Isolated (graph : GraphId) (heap after : Heap) : Prop where
  nodes_eq : ∀ n < heap.nodeCount, ¬ heap.Reachable graph n →
    after.nodes n = heap.nodes n
  graphs_eq : ∀ other < heap.graphCount, other ≠ graph →
    after.graphs other = heap.graphs other
  nodeCount_le : heap.nodeCount ≤ after.nodeCount
  graphCount_le : heap.graphCount ≤ after.graphCount
  reachable : ∀ n, after.Reachable graph n →
    heap.Reachable graph n ∨
      heap.nodeCount ≤ n ∧ n < after.nodeCount

section Isolation

variable {tools : Toolchain} {inside : NodeId → Prop} {graph : GraphId}
  {start base heap after : Heap}

theorem isolated_of_confined
    (confined : Confined (heap.Reachable graph) graph heap base after) :
    Isolated graph heap after where
  nodes_eq := confined.nodes_eq
  graphs_eq := confined.graphs_eq
  nodeCount_le := confined.nodeCount_le
  graphCount_le := confined.graphCount_le
  reachable := fun _ path => confined.owned_of_reach confined.entry path

/-- A graph that shares no node with the optimized one is as it was. -/
theorem Isolated.other (isolated : Isolated graph heap after)
    {other : GraphId} (formed : heap.WellFormed other)
    (apart : ∀ n, heap.Reachable other n → ¬ heap.Reachable graph n)
    (different : other ≠ graph) :
    SameGraph other after heap ∧
      ∀ n, heap.Reachable other n → after.nodes n = heap.nodes n := by
  have kept : ∀ n, heap.Reachable other n →
      after.nodes n = heap.nodes n := fun n reachable =>
    isolated.nodes_eq n (formed.allocated n reachable) (apart n reachable)
  have successorsEq : ∀ n, heap.Reachable other n →
      after.successors n = heap.successors n := fun n reachable =>
    congrArg CommandGraphNode.successors (kept n reachable)
  have object := isolated.graphs_eq other formed.graph_lt different
  have reachableIff : ∀ n,
      after.Reachable other n ↔ heap.Reachable other n := by
    intro n
    constructor
    · intro path
      unfold Heap.Reachable at path
      rw [object] at path
      induction path with
      | refl => exact reachable_entry
      | @tail middle last _ step before =>
          refine before.tail ?_
          rw [MarkSearch.Edge, ← successorsEq middle before]
          exact step
    · intro path
      unfold Heap.Reachable
      rw [object]
      induction path with
      | refl => exact .refl
      | @tail middle last before step induction =>
          refine induction.tail ?_
          rw [MarkSearch.Edge, successorsEq middle before]
          exact step
  refine ⟨?_, kept⟩
  exact {
    reachable_iff := reachableIff
    successors_perm := by
      intro n reachable
      rw [Heap.successors, kept n ((reachableIff n).mp reachable)]
      exact List.Perm.refl _
    predecessors_perm := by
      intro n reachable
      rw [Heap.predecessors, kept n ((reachableIff n).mp reachable)]
      exact List.Perm.refl _
    entry_eq := by rw [object]
    exit_eq := by rw [object]
    object_eq := by
      intro n reachable
      rw [kept n ((reachableIff n).mp reachable)]
      exact ⟨rfl, rfl, rfl⟩ }

/-- One call; a batch of the legacy optimizer needs a complete walk. -/
theorem commandGraphOptimize_stays
    (confined : Confined inside graph start base heap)
    (graphOld : graph < start.graphCount) {kind : Kind}
    {pass : CommandGraphPass}
    (complete : (kind, pass) = (.legacy, .batch) →
      (∀ n, heap.Reachable graph n → n < heap.nodeCount) ∧
        heap.WalkReady graph)
    (ran : commandGraphOptimize tools kind heap graph pass = some after) :
    Stays inside graph start heap after := by
  have legacy : ∀ pass, ((Kind.legacy, pass) = (Kind.legacy, .batch) →
      (∀ n, heap.Reachable graph n → n < heap.nodeCount) ∧
        heap.WalkReady graph) →
      optimizeLegacy tools heap graph pass = some after →
        Stays inside graph start heap after := by
    intro pass complete ran
    cases pass with
    | copyNormalize => exact passCopyNormalize_stays confined ran
    | copyFuse => exact passCopyFuse_stays confined ran
    | reduceNode => exact passReduceNode_stays confined ran
    | reduceEdge => exact passReduceEdge_stays confined ran
    | progFuse =>
        obtain ⟨⟨result, fused⟩, fuses, rfl⟩ := Option.map_eq_some_iff.mp ran
        exact passProgFuse_stays confined tools.fuse fuses
    | jit => exact passJit_stays confined tools.jit ran
    | sequence => exact passSequence_stays confined graphOld ran
    | batch =>
        obtain ⟨allocated, ready⟩ := complete rfl
        exact
          passBatch_stays confined tools.matOrder_perm graphOld allocated
            ready ran
  cases kind with
  | legacy => exact legacy pass complete ran
  | mlir =>
      cases pass with
      | copyNormalize => exact dialect_stays confined graphOld copyNormalize_sourced ran
      | copyFuse => exact dialect_stays confined graphOld copyFuse_sourced ran
      | reduceNode => exact dialect_stays confined graphOld reduceNode_sourced ran
      | reduceEdge => exact dialect_stays confined graphOld reduceEdge_sourced ran
      | progFuse =>
          obtain ⟨⟨result, fused⟩, fuses, rfl⟩ :=
            Option.map_eq_some_iff.mp ran
          exact optimizeProgFuse_stays confined graphOld tools.fuse fuses
      | batch => exact dialect_stays confined graphOld batchPass_sourced ran
      | jit => exact legacy .jit (by simp) ran
      | sequence => exact legacy .sequence (by simp) ran

/-- A run of calls; a batch of the legacy optimizer needs counted marks. -/
theorem optimizeSteps_confined {now : Heap}
    (steps : List (Kind × CommandGraphPass))
    (confined : Confined inside graph start base now)
    (graphOld : graph < start.graphCount)
    (old : ∀ n, inside n → n < start.nodeCount)
    (complete : (.legacy, .batch) ∈ steps →
      (∀ n, Owned inside start now n → MarksUpTo graph now n) ∧
        (now.graphs graph).walkId.toNat + 2 * steps.length < 2 ^ 8)
    (ran : optimizeSteps tools graph steps now = some after) :
    ∃ base, Confined inside graph start base after := by
  induction steps generalizing base now with
  | nil =>
      cases ran
      exact ⟨base, confined⟩
  | cons step rest induction =>
      obtain ⟨kind, pass⟩ := step
      obtain ⟨next, ranStep, ranRest⟩ := Option.bind_eq_some_iff.mp ran
      have allocated : ∀ {heap base : Heap} {n},
          Confined inside graph start base heap →
            Owned inside start heap n → n < heap.nodeCount := by
        intro heap base n kept owned
        rcases owned with member | ⟨-, below⟩
        · exact (old n member).trans_le kept.nodeCount_le
        · exact below
      have reached : ∀ n, now.Reachable graph n →
          Owned inside start now n :=
        fun n path => confined.owned_of_reach confined.entry path
      obtain ⟨walked, walks, -, counts, few, kept⟩ :=
        commandGraphOptimize_stays confined graphOld (by
          intro isBatch
          obtain ⟨marks, bound⟩ := complete (by simp [isBatch])
          rw [List.length_cons] at bound
          exact
            ⟨fun n path => allocated confined (reached n path),
              MarksUpTo.ready (fun n path => marks n (reached n path))
                (by omega)⟩) ranStep
      refine induction kept ?_ ranRest
      intro later
      obtain ⟨marks, bound⟩ := complete (List.mem_cons_of_mem _ later)
      rw [List.length_cons] at bound
      have walkedOld : graph < walked.graphCount := by
        rw [counts.graphCount_eq]
        exact graphOld.trans_le confined.graphCount_le
      have counted := counts.walkId_eq (by omega)
      constructor
      · intro n owned
        refine
          MarksUpTo.steady kept.steady walkedOld (allocated kept owned) ?_
        intro below
        refine counts.marks (by omega) n (marks n ?_)
        rw [counts.nodeCount_eq] at below
        exact owned.imp_right fun ⟨fresh, _⟩ => ⟨fresh, below⟩
      · rw [kept.steady.walkId_eq graph walkedOld, counted]
        omega

/-- A run of calls on a graph, as seen from the rest of the heap. -/
theorem optimizeSteps_around (formed : heap.WellFormed graph)
    (steps : List (Kind × CommandGraphPass))
    (complete : (.legacy, .batch) ∈ steps →
      (∀ n, heap.Reachable graph n → MarksUpTo graph heap n) ∧
        (heap.graphs graph).walkId.toNat + 2 * steps.length < 2 ^ 8)
    (ran : optimizeSteps tools graph steps heap = some after) :
    Isolated graph heap after := by
  obtain ⟨base, confined⟩ :=
    optimizeSteps_confined steps formed.confined formed.graph_lt
      formed.allocated (by
        intro batched
        obtain ⟨marks, bound⟩ := complete batched
        refine ⟨?_, bound⟩
        rintro n (reachable | ⟨fresh, below⟩)
        · exact marks n reachable
        · exact (Nat.not_lt.mpr fresh below).elim) ran
  exact isolated_of_confined confined

end Isolation

end Cgir.Optimizer
