import Cgir.Library.TwinCollapse
import Cgir.Pass.BatchOrder

/-!
# The batch pass is idempotent

The top level after the pass is the scene with the batched islands collapsed
(`Batched.collapses`), so its islands are the islands that were left: each has
less than two commands (`Batched.unbatched_after`), and a second run builds
nothing (`build_nothing`).
-/

namespace Cgir.Pass.Batch

open Relation
open Cgir.Library
open Cgir.Model

/-! ## Nothing to build -/

/-- Without a batched island the pass changes nothing. -/
theorem build_nothing {iterators : Iterators} (valid : iterators.Valid)
    {islands : Islands} (islandOrder : List Nat → List Nat)
    {matOrder : List (Nat × IslandMat) → List (Nat × IslandMat)}
    (matPerm : ∀ list, (matOrder list).Perm list)
    (none : ∀ key, ¬ isBatched iterators islands.members key) :
    build islandOrder matOrder iterators islands = iterators.heap := by
  have few : ∀ (state : Materialized) (key : Nat),
      materialize iterators islands.members state key = state := by
    intro state key
    have small := none key
    rw [isBatched_iff, Nat.not_le] at small
    exact if_pos small
  -- every representative is the node itself
  have kept : ∀ list : List (NodeId × NodeId),
      (∀ edge ∈ list, edge.1 ∈ iterators.nodes ∧ edge.2 ∈ iterators.nodes) →
        list.foldl (rewireEdge iterators iterators.node) iterators.heap =
          iterators.heap := by
    intro list inside
    refine
      Loop.foldl_invariant (rewireEdge iterators iterators.node)
        (fun _ heap => heap = iterators.heap) list iterators.heap ?_ rfl
    rintro done edge rest heap split same
    obtain ⟨sourceIn, targetIn⟩ := inside edge (by simp [split])
    rw [rewireEdge, valid.node_index sourceIn, valid.node_index targetIn]
    simp [same]
  have inside : ∀ edge ∈ edges iterators.heap iterators.nodes,
      edge.1 ∈ iterators.nodes ∧ edge.2 ∈ iterators.nodes := by
    rintro ⟨u, v⟩ member
    rw [edges, List.mem_flatMap] at member
    obtain ⟨u', sourceIn, member⟩ := member
    obtain ⟨v', step, same⟩ := List.mem_map.mp member
    obtain ⟨rfl, rfl⟩ := Prod.mk.inj same
    have reachable := (valid.mem_iff u').mp sourceIn
    exact
      ⟨sourceIn, (valid.mem_iff v').mpr
        (Heap.Link.reachable ⟨reachable, step⟩)⟩
  simp only [build]
  rw [List.foldl_fixed' (few _)]
  simp only [(matPerm []).eq_nil, List.foldl_nil]
  exact kept _ inside

namespace Batched

variable {heap after : Heap} {iterators : Iterators} {islands : Islands}
  {plan : List Nat} {state : Materialized} {node : NodeId} {p : Nat}
  (batched : Batched heap after iterators islands plan state)

include batched

/-! ## The collapsed scene -/

theorem detected_before : Detected heap iterators.graph islands :=
  batched.detected.congr (scene_congr batched.iterated.unmarked_eq)

/-- A node that does not stand for itself is in a batch. -/
theorem inBatch_of_moved (moved : block iterators state node ≠ node) :
    ∃ p, InBatch islands.members plan p node ∧
      block iterators state node = batchAt iterators.heap p := by
  by_cases member : node ∈ iterators.nodes
  · rcases batched.materializes.block_cases member with
      ⟨p, inBatch⟩ | ⟨-, self⟩
    · exact ⟨p, inBatch, batched.materializes.block_batch member inBatch⟩
    · exact (moved self).elim
  · exact (moved (if_neg member)).elim

variable (formed : heap.WellFormed iterators.graph)

include formed

/-- A batched node does not stand for itself. -/
theorem moved_of_inBatch (inBatch : InBatch islands.members plan p node) :
    block iterators state node ≠ node := by
  intro self
  have member := batched.inBatch_mem inBatch
  have old := batched.lt_of_mem formed member
  rw [← self, batched.materializes.block_batch member inBatch] at old
  exact Nat.not_lt.mpr batchAt_ge old

/-- A batch node is not reachable before the pass. -/
theorem not_reachable_batchAt (p : Nat) :
    ¬ heap.Reachable iterators.graph (batchAt iterators.heap p) := by
  intro reachable
  have old := formed.allocated _ reachable
  rw [← batched.heap_nodeCount] at old
  exact Nat.not_lt.mpr batchAt_ge old

/-- Original nodes are boundaries as before. -/
theorem boundary_kept (reachable : heap.Reachable iterators.graph node) :
    boundary after iterators.graph node =
      boundary heap iterators.graph node := by
  obtain ⟨entry, exit⟩ := batched.graphs_old formed.graph_lt
  obtain ⟨-, type, command⟩ :=
    batched.node_kept (formed.allocated node reachable)
  rw [boundary, boundary, entry, exit, type, command]

theorem candidate_after_iff (node : NodeId) :
    (scene after iterators.graph).candidate node ↔
      (scene heap iterators.graph).candidate node ∧
        block iterators state node = node := by
  constructor
  · rintro ⟨top, inner⟩
    obtain ⟨original, reachable, rfl⟩ :=
      (batched.top_reachable_iff formed).mp top
    have member := batched.mem_nodes_iff.mpr reachable
    rcases batched.materializes.block_cases member with
      ⟨p, inBatch⟩ | ⟨-, self⟩
    · rw [batched.materializes.block_batch member inBatch] at inner
      obtain ⟨-, type, command⟩ :=
        Heap.createdSub_eq_some_iff.mp (batched.createdSub_batch inBatch.lt)
      simp [boundary, type, command, Command.isBatch] at inner
    · rw [self] at inner ⊢
      rw [batched.boundary_kept formed reachable] at inner
      exact ⟨⟨reachable, inner⟩, self⟩
  · rintro ⟨⟨reachable, inner⟩, self⟩
    refine ⟨(batched.top_reachable_iff formed).mpr ⟨node, reachable, self⟩, ?_⟩
    rw [batched.boundary_kept formed reachable]
    exact inner

/-- The pass collapses the batched islands. -/
theorem collapses {result : Setoid NodeId}
    (folds : (scene heap iterators.graph).Folds
      (scene heap iterators.graph).regions result)
    (settled : (scene heap iterators.graph).Settled result) :
    TwinFold.Collapses (scene heap iterators.graph)
      (scene after iterators.graph) result (block iterators state) where
  edge_iff := by
    intro source target
    refine (batched.top_link_iff formed source target).trans ?_
    rw [Outside, batched.link_eq]
    rfl
  candidate_iff := batched.candidate_after_iff formed
  color_eq := by
    intro vertex candidate
    have old :=
      formed.allocated vertex
        ((batched.candidate_after_iff formed vertex).mp candidate).1.1
    exact (batched.node_kept old).1
  moved_iff := by
    intro first second moved
    obtain ⟨p, ⟨key, position, known⟩, isBatch⟩ :=
      batched.inBatch_of_moved moved
    have onIsland :
        second ∈ islands.members key ↔ result first second := by
      rw [batched.detected_before.mem_iff known,
        TwinFold.Scene.island_iff folds settled]
      refine and_iff_right_of_imp fun related => ?_
      rcases folds.uniform related with rfl | ⟨-, candidate, -⟩
      · exact batched.detected_before.candidate known
      · exact candidate
    rw [← onIsland, isBatch]
    constructor
    · intro known'
      have inBatch : InBatch islands.members plan p second :=
        ⟨key, position, known'⟩
      exact
        ⟨batched.moved_of_inBatch formed inBatch,
          batched.materializes.block_batch (batched.inBatch_mem inBatch)
            inBatch⟩
    · rintro ⟨moved', same⟩
      obtain ⟨q, ⟨key', position', known'⟩, isBatch'⟩ :=
        batched.inBatch_of_moved moved'
      rw [isBatch', batchAt_inj] at same
      rw [same, position, Option.some.injEq] at position'
      rwa [position']
  fresh := by
    intro vertex moved
    obtain ⟨p, -, isBatch⟩ := batched.inBatch_of_moved moved
    rw [isBatch]
    have outside := batched.not_reachable_batchAt formed p
    exact
      ⟨fun candidate => outside candidate.1, fun other =>
        ⟨fun link => outside link.reachable, fun link => outside link.1⟩⟩

/-! ## A second run -/

/-- No island of the result has two commands. -/
theorem unbatched_after {again : Iterators} {left : Islands}
    (same : again.heap.unmarked = after.unmarked)
    (detected : Detected again.heap iterators.graph left) (key : Nat) :
    ¬ isBatched again left.members key := by
  intro large
  rw [isBatched_iff, two_le_countP_iff (detected.members_nodup key)] at large
  obtain ⟨first, second, apart, ⟨known, isCmd⟩, ⟨known', isCmd'⟩⟩ := large
  obtain ⟨result, folds, settled⟩ := exists_settled batched.valid
  rw [scene_congr batched.iterated.unmarked_eq] at folds settled
  have collapses := batched.collapses formed folds settled
  have detected' := detected.congr (scene_congr same)
  -- both commands were on one island that stays
  obtain ⟨candidate, stays⟩ :=
    (collapses.candidate_iff first).mp (detected'.candidate known)
  obtain ⟨candidate', -⟩ :=
    (collapses.candidate_iff second).mp (detected'.candidate known')
  have together := ((detected'.mem_iff known second).mp known').2
  rw [collapses.island_iff folds settled] at together
  obtain ⟨related, -⟩ := together.resolve_left apart
  have wasCommand : ∀ {n}, heap.Reachable iterators.graph n →
      isCommand again.heap n → isCommand heap n := by
    intro n reachable command
    rw [isCommand_congr same, isCommand,
      (batched.node_kept (formed.allocated n reachable)).2.1] at command
    exact command
  have island := TwinFold.Scene.island_iff folds settled first
  have grouped : Grouped heap iterators.graph first :=
    ⟨first, second, apart,
      ⟨⟨candidate, candidate, (island first).mpr (result.refl first)⟩,
        wasCommand candidate.1 isCmd⟩,
      ⟨⟨candidate, candidate', (island second).mpr related⟩,
        wasCommand candidate'.1 isCmd'⟩⟩
  rw [← grouped_congr batched.iterated.unmarked_eq] at grouped
  obtain ⟨p, inBatch⟩ := batched.grouped_iff.mp grouped
  exact batched.moved_of_inBatch formed inBatch stays

theorem allocated_after (node : NodeId)
    (top : after.Reachable iterators.graph node) : node < after.nodeCount := by
  obtain ⟨original, reachable, rfl⟩ :=
    (batched.top_reachable_iff formed).mp top
  have member := batched.mem_nodes_iff.mpr reachable
  rw [batched.nodeCount_eq, ← batched.heap_nodeCount]
  rcases batched.materializes.block_live batched.valid member with
    old | ⟨-, bound⟩
  · rw [← batched.valid.mem_iff] at old
    exact Nat.lt_add_right _ (batched.lt_of_mem formed old)
  · exact bound

/-- The next walk meets no stale mark, unless its identifier wraps around. -/
theorem ready_after
    (noWrap : (heap.graphs iterators.graph).walkId + 2 ≠ 0) :
    after.WalkReady iterators.graph := by
  have old : iterators.graph < iterators.heap.graphCount := by
    rw [Heap.unmarked_graphCount batched.iterated.unmarked_eq]
    exact formed.graph_lt
  have walkId : (after.graphs iterators.graph).walkId + 1 =
      (heap.graphs iterators.graph).walkId + 2 := by
    rw [Heap.unlinked_graphs batched.unlinked_eq,
      batched.materializes.graphs_old _ old, batched.iterated.walkId_eq,
      BitVec.add_assoc]
    rfl
  rw [Heap.WalkReady, walkId]
  intro n top _
  obtain ⟨original, reachable, rfl⟩ :=
    (batched.top_reachable_iff formed).mp top
  have member := batched.mem_nodes_iff.mpr reachable
  rw [Heap.unlinked_walkId batched.unlinked_eq]
  rcases batched.materializes.block_cases member with
    ⟨p, inBatch⟩ | ⟨-, self⟩
  · obtain ⟨key, position, -⟩ := id inBatch
    rw [batched.materializes.block_batch member inBatch,
      batched.materializes.nodes_batch p key position]
    exact noWrap.symm
  · rw [self, batched.materializes.nodes_old _
      (batched.lt_of_mem formed member),
      batched.iterated.mark_reachable original reachable]
    intro equal
    have different : (1 : WalkId) ≠ 2 := by decide
    exact different ((BitVec.add_right_inj _).mp equal)

/-- A second run changes nothing but the marks. -/
theorem passBatch_again (ready : after.WalkReady iterators.graph)
    (islandOrder : List Nat → List Nat)
    {matOrder : List (Nat × IslandMat) → List (Nat × IslandMat)}
    (matPerm : ∀ list, (matOrder list).Perm list) :
    ∃ again, passBatch islandOrder matOrder after iterators.graph =
        some again ∧
      again.unmarked = after.unmarked := by
  obtain ⟨indexed, nodes, made, iterated⟩ :=
    Heap.createNodeIterators_spec (batched.allocated_after formed) ready true
  let again : Iterators :=
    { heap := indexed, graph := iterators.graph, nodes := nodes }
  have valid : again.Valid := Iterators.valid_of_iterated iterated
  refine ⟨indexed, ?_, iterated.unmarked_eq⟩
  simp only [passBatch, made, Option.bind_eq_bind, Option.bind_some]
  split
  · rfl
  · obtain ⟨left, found, detected⟩ := detect_spec valid
    rw [show detect _ = some left from found, Option.bind_some]
    have none :=
      batched.unbatched_after formed iterated.unmarked_eq detected
    exact congrArg some (build_nothing valid islandOrder matPerm none)

end Batched

/--
A second run of the batch pass, if no stale mark stops its walk, changes nothing
but the marks.
-/
theorem passBatch_idempotent (heap : Heap) (graph : GraphId)
    (formed : heap.WellFormed graph) (ready : heap.WalkReady graph)
    (islandOrder : List Nat → List Nat)
    (islandPerm : ∀ list, (islandOrder list).Perm list)
    (matOrder : List (Nat × IslandMat) → List (Nat × IslandMat))
    (matPerm : ∀ list, (matOrder list).Perm list) :
    ∃ after, passBatch islandOrder matOrder heap graph = some after ∧
      ((heap.graphs graph).walkId + 2 ≠ 0 → after.WalkReady graph) ∧
      (after.WalkReady graph →
        ∀ (islandOrder' : List Nat → List Nat)
          (matOrder' : List (Nat × IslandMat) → List (Nat × IslandMat)),
          (∀ list, (islandOrder' list).Perm list) →
          (∀ list, (matOrder' list).Perm list) →
            ∃ again, passBatch islandOrder' matOrder' after graph =
                some again ∧
              again.unmarked = after.unmarked) := by
  obtain ⟨after, iterators, islands, plan, state, ran, rfl, batched⟩ :=
    passBatch_batched formed ready islandPerm matPerm
  exact
    ⟨after, ran, batched.ready_after formed,
      fun ready' islandOrder' _ _ matPerm' =>
        batched.passBatch_again formed ready' islandOrder' matPerm'⟩

theorem passBatch_idempotent_siblings :
    ∃ after, passBatch id id siblings 0 = some after ∧
      ((siblings.graphs 0).walkId + 2 ≠ 0 → after.WalkReady 0) ∧
      (after.WalkReady 0 →
        ∀ (islandOrder' : List Nat → List Nat)
          (matOrder' : List (Nat × IslandMat) → List (Nat × IslandMat)),
          (∀ list, (islandOrder' list).Perm list) →
          (∀ list, (matOrder' list).Perm list) →
            ∃ again, passBatch islandOrder' matOrder' after 0 =
                some again ∧
              again.unmarked = after.unmarked) := by
  have numbered : siblings.Numbered 0 := by decide
  exact
    passBatch_idempotent siblings 0 numbered.wellFormed
      (numbered.walkReady (by decide)) id (fun _ => .refl _) id
      (fun _ => .refl _)

end Cgir.Pass.Batch
