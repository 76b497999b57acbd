import Cgir.Pass.BatchLossless
import Cgir.Pass.SequenceLossless
import Cgir.Walk.Scope

/-!
# Walks of the sub-graphs that a pass creates

The members of a sub-graph keep the marks of the walk that the pass made over
the parent, and the sub-graph starts its own count at 0.  The first walk of the
sub-graph therefore uses identifier 1, and meets stale marks exactly when the
parent had not been walked before the pass, up to a multiple of 256 walks
(`subGraphs_traversable_iff`).
-/

namespace Cgir.Pass.SubWalks

open Relation
open Cgir.Library
open Cgir.Model
open Cgir.Walk.Scope

/-- The graph that the pass ran on, and the sub-graphs that it created. -/
def Scope (before : Heap) (graph : GraphId) (after : Heap)
    (other : GraphId) : Prop :=
  other = graph ∨ Heap.Created before after other

/-- The nodes moved into a sub-graph, its entry and its exit. -/
def Moved (before : Heap) (graph : GraphId) (after : Heap) (sub : GraphId)
    (node : NodeId) : Prop :=
  (before.Reachable graph node ∧ after.Reachable sub node) ∨
    node = (after.graphs sub).entry ∨ node = (after.graphs sub).exit

/--
Whatever walks of the parent and of the sub-graphs were made since the pass, a
walk of the sub-graph returns, and it visited exactly once every node moved into
the sub-graph, its entry and its exit, and no other node.
-/
def FullyTraversable (before : Heap) (graph : GraphId) (after : Heap)
    (sub : GraphId) : Prop :=
  ∀ heap visits, Walks (Scope before graph after) after heap visits →
    (∀ kind, ∃ result, heap.walk sub kind = some result) ∧
      ∀ visited, ⟨sub, visited⟩ ∈ visits →
        visited.Nodup ∧
          ∀ node, node ∈ visited ↔ Moved before graph after sub node

/-- The marks on the nodes of a sub-graph when the pass returns. -/
structure Marked (before : Heap) (graph : GraphId) (after : Heap)
    (sub : GraphId) : Prop where
  nodes_iff : ∀ node,
    after.Reachable sub node ↔ Moved before graph after sub node
  walkId_zero : (after.graphs sub).walkId = 0
  mark_member : ∀ node, before.Reachable graph node →
    after.Reachable sub node →
      (after.nodes node).walkId = (before.graphs graph).walkId + 1
  mark_end : ∀ node, ¬ before.Reachable graph node →
    after.Reachable sub node → (after.nodes node).walkId = 0
  inner : ∃ node, before.Reachable graph node ∧ after.Reachable sub node ∧
    node ≠ (after.graphs sub).entry

section Traversal

variable {before after : Heap} {graph sub : GraphId}

/-- The next walk of the sub-graph meets the marks of the walk of the pass. -/
theorem Marked.ready_iff (marked : Marked before graph after sub) :
    after.WalkReady sub ↔ (before.graphs graph).walkId ≠ 0 := by
  have member_iff : ∀ node, before.Reachable graph node →
      after.Reachable sub node →
        ((after.nodes node).walkId ≠ (after.graphs sub).walkId + 1 ↔
          (before.graphs graph).walkId ≠ 0) := by
    intro node reachable inside
    rw [marked.mark_member node reachable inside, marked.walkId_zero]
    exact not_congr (by simp)
  constructor
  · intro ready
    obtain ⟨node, reachable, inside, notEntry⟩ := marked.inner
    exact (member_iff node reachable inside).mp (ready node inside notEntry)
  · intro walked node inside _
    by_cases reachable : before.Reachable graph node
    · exact (member_iff node reachable inside).mpr walked
    · rw [marked.mark_end node reachable inside, marked.walkId_zero]
      decide

theorem Marked.traversable_iff (marked : Marked before graph after sub)
    (apart : Apart after (Scope before graph after))
    (created : Heap.Created before after sub) :
    FullyTraversable before graph after sub ↔
      (before.graphs graph).walkId ≠ 0 := by
  have inScope : Scope before graph after sub := Or.inr created
  rw [← marked.ready_iff, ← complete_iff_ready apart inScope]
  constructor
  · rintro traversable heap visits walks ⟨_, visited⟩ member rfl
    obtain ⟨nodup, memIff⟩ := (traversable heap visits walks).2 visited member
    exact
      ⟨nodup, fun node => (memIff node).trans (marked.nodes_iff node).symm⟩
  · intro complete heap visits walks
    constructor
    · intro kind
      obtain ⟨after, visited, ran⟩ := walks.returns apart inScope kind
      exact ⟨_, ran⟩
    · intro visited member
      obtain ⟨nodup, memIff⟩ := complete heap visits walks _ member rfl
      exact ⟨nodup, fun node => (memIff node).trans (marked.nodes_iff node)⟩

end Traversal

/-! ## The sub-graphs of the batch pass -/

section Batch

open Cgir.Pass.Batch

variable {heap after : Heap} {iterators : Iterators} {islands : Islands}
  {plan : List Nat} {state : Materialized} {p : Nat}
  (batched : Batched heap after iterators islands plan state)
  (formed : heap.WellFormed iterators.graph)

include batched formed

private theorem batch_apart :
    Apart after (Scope heap iterators.graph after) := by
  have live_lt : ∀ node, Live iterators plan node → node < after.nodeCount := by
    intro node alive
    rw [batched.nodeCount_eq, ← batched.heap_nodeCount]
    rcases alive with reachable | ⟨-, bound⟩
    · have member := (batched.valid.mem_iff node).mpr reachable
      exact Nat.lt_add_right _ (batched.lt_of_mem formed member)
    · exact bound
  -- A node of the top level is in no sub-graph.
  have top_sub : ∀ q node, q < plan.length →
      after.Reachable iterators.graph node →
        ¬ after.Reachable (subAt iterators.heap q) node := by
    intro q node bound top inside
    obtain ⟨original, reachable, equal⟩ :=
      (batched.top_reachable_iff formed).mp top
    have inNodes := batched.mem_nodes_iff.mpr reachable
    rcases batched.materializes.block_cases inNodes with
      ⟨r, inBatch⟩ | ⟨outside, self⟩
    · rw [batched.materializes.block_batch inNodes inBatch] at equal
      rcases (batched.sub_reachable_iff formed bound).mp inside with
        isEntry | member | isExit
      · exact entryAt_ne_batchAt (isEntry.symm.trans equal.symm)
      · have old := batched.inBatch_lt formed member
        exact Nat.not_lt.mpr batchAt_ge (equal ▸ old)
      · exact exitAt_ne_batchAt (isExit.symm.trans equal.symm)
    · rw [self] at equal
      subst equal
      exact
        outside q ((batched.sub_original_iff formed bound reachable).mp inside)
  refine ⟨?_, ?_⟩
  · rintro graph node (rfl | created) reachable
    · obtain ⟨original, reachable', rfl⟩ :=
        (batched.top_reachable_iff formed).mp reachable
      exact
        live_lt _
          (batched.materializes.block_live batched.valid
            (batched.mem_nodes_iff.mpr reachable'))
    · obtain ⟨q, bound, rfl⟩ := (batched.created_iff graph).mp created
      rcases (batched.sub_reachable_iff formed bound).mp reachable with
        rfl | member | rfl
      · exact live_lt _ (live_entryAt bound)
      · have inNodes := batched.inBatch_mem member
        exact live_lt _ (Or.inl ((batched.valid.mem_iff node).mp inNodes))
      · exact live_lt _ (live_exitAt bound)
  · rintro first second node (rfl | created) (rfl | created') inFirst inSecond
    · rfl
    · obtain ⟨q, bound, rfl⟩ := (batched.created_iff second).mp created'
      exact (top_sub q node bound inFirst inSecond).elim
    · obtain ⟨q, bound, rfl⟩ := (batched.created_iff first).mp created
      exact (top_sub q node bound inSecond inFirst).elim
    · obtain ⟨q, bound, rfl⟩ := (batched.created_iff first).mp created
      obtain ⟨r, bound', rfl⟩ := (batched.created_iff second).mp created'
      refine congrArg (subAt iterators.heap) ?_
      rcases (batched.sub_reachable_iff formed bound).mp inFirst with
        isEntry | member | isExit
      · rcases (batched.sub_reachable_iff formed bound').mp inSecond with
          isEntry' | member | isExit
        · exact entryAt_inj.mp (isEntry.symm.trans isEntry')
        · have old := batched.inBatch_lt formed member
          exact (Nat.not_lt.mpr entryAt_ge (isEntry ▸ old)).elim
        · exact (entryAt_ne_exitAt (isEntry.symm.trans isExit)).elim
      · have old := batched.inBatch_lt formed member
        rcases (batched.sub_reachable_iff formed bound').mp inSecond with
          isEntry | member' | isExit
        · exact (Nat.not_lt.mpr entryAt_ge (isEntry ▸ old)).elim
        · exact batched.inBatch_unique formed member member'
        · exact (Nat.not_lt.mpr exitAt_ge (isExit ▸ old)).elim
      · rcases (batched.sub_reachable_iff formed bound').mp inSecond with
          isEntry | member | isExit'
        · exact (entryAt_ne_exitAt (isEntry.symm.trans isExit)).elim
        · have old := batched.inBatch_lt formed member
          exact (Nat.not_lt.mpr exitAt_ge (isExit ▸ old)).elim
        · exact exitAt_inj.mp (isExit.symm.trans isExit')

private theorem batch_marked (bound : p < plan.length) :
    Marked heap iterators.graph after (subAt iterators.heap p) := by
  have nodes_iff : ∀ node,
      after.Reachable (subAt iterators.heap p) node ↔
        Moved heap iterators.graph after (subAt iterators.heap p) node := by
    intro node
    rw [Moved, batched.graphs_sub bound]
    constructor
    · intro inside
      rcases (batched.sub_reachable_iff formed bound).mp inside with
        isEntry | member | isExit
      · exact Or.inr (Or.inl isEntry)
      · have inNodes := batched.inBatch_mem member
        exact Or.inl ⟨batched.mem_nodes_iff.mp inNodes, inside⟩
      · exact Or.inr (Or.inr isExit)
    · rw [batched.sub_reachable_iff formed bound]
      rintro (⟨-, inside⟩ | isEntry | isExit)
      · exact inside
      · exact Or.inl isEntry
      · exact Or.inr (Or.inr isExit)
  refine
    { nodes_iff := nodes_iff
      walkId_zero := by rw [batched.graphs_sub bound]
      mark_member := ?_
      mark_end := ?_
      inner := ?_ }
  · intro node reachable _
    have old : node < iterators.heap.nodeCount := by
      rw [batched.heap_nodeCount]
      exact formed.allocated node reachable
    rw [Heap.unlinked_walkId batched.unlinked_eq,
      batched.materializes.nodes_old node old]
    exact batched.iterated.mark_reachable node reachable
  · intro node foreign inside
    rw [Heap.unlinked_walkId batched.unlinked_eq]
    rcases (batched.sub_reachable_iff formed bound).mp inside with
      rfl | member | rfl
    · rw [(batched.materializes.nodes_end p bound).1]
      rfl
    · exact
        (foreign (batched.mem_nodes_iff.mp (batched.inBatch_mem member))).elim
    · rw [(batched.materializes.nodes_end p bound).2]
      rfl
  · obtain ⟨node, member⟩ := batched.exists_member bound
    refine ⟨node, batched.mem_nodes_iff.mp (batched.inBatch_mem member), ?_, ?_⟩
    · exact
        (batched.sub_reachable_iff formed bound).mpr (Or.inr (Or.inl member))
    · rw [batched.graphs_sub bound]
      rintro rfl
      exact Nat.not_lt.mpr entryAt_ge (batched.inBatch_lt formed member)

/-- When the sub-graphs that the batch pass creates are fully traversable. -/
theorem batch_traversable_iff {sub : GraphId}
    (created : Heap.Created heap after sub) :
    FullyTraversable heap iterators.graph after sub ↔
      (heap.graphs iterators.graph).walkId ≠ 0 := by
  obtain ⟨p, bound, rfl⟩ := (batched.created_iff sub).mp created
  exact
    (batch_marked batched formed bound).traversable_iff
      (batch_apart batched formed) created

end Batch

/-! ## The sub-graphs of the sequence pass -/

section Sequence

open Cgir.Pass.Sequence

variable {heap : Heap} {iterators : Iterators} {chains : List Chain}
  {block : NodeId → NodeId} {state : Scan} {p : Nat} {chain : Chain}
  (outcome : Outcome heap iterators chains block state)

include outcome

private theorem sequence_apart :
    Apart state.heap (Scope heap iterators.graph state.heap) := by
  -- A node of the top level is in no sub-graph.
  have top_sub : ∀ sub node, Heap.Created heap state.heap sub →
      state.heap.Reachable iterators.graph node →
        ¬ state.heap.Reachable sub node := by
    intro sub node created top inside
    obtain ⟨q, other, position, rfl⟩ := (outcome.created_iff sub).mp created
    have member := (outcome.sub_reachable_iff position).mp inside
    have reachable :=
      outcome.inChain_reachable ⟨other, position, member⟩
    rcases outcome.placed reachable with ⟨-, nowhere⟩ | ⟨notTop, -⟩
    · exact nowhere _ created inside
    · exact notTop top
  refine ⟨?_, ?_⟩
  · rintro graph node (rfl | created) reachable
    · exact outcome.top_formed.allocated node reachable
    · obtain ⟨q, other, position, rfl⟩ := (outcome.created_iff graph).mp created
      exact (outcome.sub_formed position).allocated node reachable
  · rintro first second node (rfl | created) (rfl | created') inFirst inSecond
    · rfl
    · exact (top_sub second node created' inFirst inSecond).elim
    · exact (top_sub first node created inSecond inFirst).elim
    · obtain ⟨q, other, position, rfl⟩ := (outcome.created_iff first).mp created
      obtain ⟨r, other', position', rfl⟩ :=
        (outcome.created_iff second).mp created'
      rw [outcome.sub_reachable_iff position] at inFirst
      rw [outcome.sub_reachable_iff position'] at inSecond
      have same :=
        outcome.inChain_unique ⟨other, position, inFirst⟩
          ⟨other', position', inSecond⟩
      rw [same]

private theorem sequence_marked (position : chains[p]? = some chain) :
    Marked heap iterators.graph state.heap (subAt iterators.heap p) := by
  have straight := outcome.straight p chain position
  have reachable : ∀ {node},
      state.heap.Reachable (subAt iterators.heap p) node →
        heap.Reachable iterators.graph node := by
    intro node inside
    rw [outcome.sub_reachable_iff position] at inside
    exact outcome.inChain_reachable ⟨chain, position, inside⟩
  refine
    { nodes_iff := ?_
      walkId_zero := by rw [outcome.graphs_sub p chain position]
      mark_member := ?_
      mark_end := fun node foreign inside => (foreign (reachable inside)).elim
      inner := ?_ }
  · intro node
    rw [Moved, outcome.graphs_sub p chain position]
    constructor
    · exact fun inside => Or.inl ⟨reachable inside, inside⟩
    · rw [outcome.sub_reachable_iff position]
      rintro (⟨-, inside⟩ | rfl | rfl)
      · exact inside
      · exact straight.first_mem
      · exact straight.last_mem
  · intro node original _
    have old := outcome.lt_of_reachable original
    have mark :=
      (congrArg CommandGraphNode.walkId (outcome.node_old node old) :)
    exact mark.trans (outcome.iterated.mark_reachable node original)
  · have inside := (outcome.sub_reachable_iff position).mpr straight.last_mem
    refine ⟨chain.tail, reachable inside, inside, ?_⟩
    rw [outcome.graphs_sub p chain position]
    exact (outcome.ends_ne p chain position).symm

/-- When the sub-graphs that the sequence pass creates are fully traversable. -/
theorem sequence_traversable_iff {sub : GraphId}
    (created : Heap.Created heap state.heap sub) :
    FullyTraversable heap iterators.graph state.heap sub ↔
      (heap.graphs iterators.graph).walkId ≠ 0 := by
  obtain ⟨p, chain, position, rfl⟩ := (outcome.created_iff sub).mp created
  exact
    (sequence_marked outcome position).traversable_iff
      (sequence_apart outcome) created

end Sequence

/--
Each sub-graph that the batch pass or the sequence pass creates is fully
traversable if and only if the walk count of the parent was not 0 before the
pass.
-/
theorem subGraphs_traversable_iff (heap : Heap) (graph : GraphId)
    (formed : heap.WellFormed graph) (ready : heap.WalkReady graph)
    (islandOrder : List Nat → List Nat)
    (islandPerm : ∀ list, (islandOrder list).Perm list)
    (matOrder :
      List (Nat × Batch.IslandMat) → List (Nat × Batch.IslandMat))
    (matPerm : ∀ list, (matOrder list).Perm list) :
    (∃ after,
      Batch.passBatch islandOrder matOrder heap graph = some after ∧
        ∀ sub, Heap.Created heap after sub →
          (FullyTraversable heap graph after sub ↔
            (heap.graphs graph).walkId ≠ 0)) ∧
    ∃ after, Sequence.passSequence heap graph = some after ∧
      ∀ sub, Heap.Created heap after sub →
        (FullyTraversable heap graph after sub ↔
          (heap.graphs graph).walkId ≠ 0) := by
  constructor
  · obtain ⟨after, iterators, islands, plan, state, ran, rfl, batched⟩ :=
      Batch.passBatch_batched formed ready islandPerm matPerm
    exact
      ⟨after, ran, fun _ created =>
        batch_traversable_iff batched formed created⟩
  · obtain ⟨iterators, chains, block, state, -, ran, rfl, -, iterated,
        sequenced, -⟩ :=
      Sequence.passSequence_sequenced formed ready
    have outcome : Sequence.Outcome heap iterators chains block state :=
      { sequenced with iterated := iterated, formed := formed }
    exact
      ⟨state.heap, ran, fun _ created =>
        sequence_traversable_iff outcome created⟩

theorem subGraphs_traversable_iff_taskRow :
    (∃ after, Batch.passBatch id id Sequence.taskRow 0 = some after ∧
      Heap.Created Sequence.taskRow after 1 ∧
        ∀ sub, Heap.Created Sequence.taskRow after sub →
          (FullyTraversable Sequence.taskRow 0 after sub ↔
            (Sequence.taskRow.graphs 0).walkId ≠ 0)) ∧
    ∃ after, Sequence.passSequence Sequence.taskRow 0 = some after ∧
      Heap.Created Sequence.taskRow after 1 ∧
        ∀ sub, Heap.Created Sequence.taskRow after sub →
          (FullyTraversable Sequence.taskRow 0 after sub ↔
            (Sequence.taskRow.graphs 0).walkId ≠ 0) := by
  have numbered : Sequence.taskRow.Numbered 0 := by decide
  obtain ⟨⟨batched, ranBatch, batches⟩, sequenced, ranSequence, chains⟩ :=
    subGraphs_traversable_iff Sequence.taskRow 0 numbered.wellFormed
      (numbered.walkReady (by decide)) id (fun _ => .refl _) id
      (fun _ => .refl _)
  have oneBatch : (Batch.passBatch id id Sequence.taskRow 0).map
      Heap.graphCount = some 2 := by
    decide +kernel
  have oneChain : (Sequence.passSequence Sequence.taskRow 0).map
      Heap.graphCount = some 2 := by
    decide +kernel
  rw [ranBatch, Option.map_some, Option.some.injEq] at oneBatch
  rw [ranSequence, Option.map_some, Option.some.injEq] at oneChain
  refine
    ⟨⟨batched, ranBatch, ?_, batches⟩, sequenced, ranSequence, ?_, chains⟩
  · rw [Heap.Created, oneBatch]
    decide
  · rw [Heap.Created, oneChain]
    decide

/--
The first walk of a sub-graph of a parent that was never walked stops at the
entry, although two members were moved into the sub-graph.
-/
theorem subGraph_not_traversable :
    Batch.siblings.WellFormed 0 ∧ Batch.siblings.WalkReady 0 ∧
      ∃ after, Batch.passBatch id id Batch.siblings 0 = some after ∧
        Heap.Created Batch.siblings after 1 ∧
          ¬ FullyTraversable Batch.siblings 0 after 1 := by
  have numbered : Batch.siblings.Numbered 0 := by decide
  refine ⟨numbered.wellFormed, numbered.walkReady (by decide), ?_⟩
  have computed :
      (Batch.passBatch id id Batch.siblings 0).map (fun heap =>
          (heap.graphCount, (heap.graphs 1).exit,
            (heap.walk 1 (.dfs .pre)).map Prod.snd)) =
        some (2, 5, some [4]) := by
    decide +kernel
  obtain ⟨after, ran, values⟩ := Option.map_eq_some_iff.mp computed
  simp only [Prod.mk.injEq] at values
  obtain ⟨count, exit, walk⟩ := values
  have created : Heap.Created Batch.siblings after 1 := by
    rw [Heap.Created, count]
    decide
  refine ⟨after, ran, created, fun traversable => ?_⟩
  obtain ⟨⟨walked, visited⟩, walk, onlyEntry⟩ :=
    Option.map_eq_some_iff.mp walk
  obtain ⟨-, memIff⟩ :=
    (traversable _ _
      (.walk (.dfs .pre) .none (Or.inr created) walk)).2 visited (by simp)
  have exitVisited := (memIff 5).mpr (Or.inr (Or.inr exit.symm))
  simp only at onlyEntry
  rw [onlyEntry] at exitVisited
  exact absurd exitVisited (by decide)

end Cgir.Pass.SubWalks
