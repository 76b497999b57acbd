import Mathlib.Data.Finset.Card
import Cgir.Pass.BatchLossless

/-!
# When batching creates a cycle

An island is a set of nodes, connected or twins, but not a convex one: a path
may leave it through another device and come back.  The top level after the
pass is acyclic exactly when no island that is batched depends on itself through
nodes outside of it, directly or through other batched islands
(`passBatch_acyclic_iff`).
-/

namespace Cgir.Pass.Batch

open Relation
open Cgir.Library
open Cgir.Model

/-- Two candidates are on one island. -/
def SameIsland (heap : Heap) (graph : GraphId) (first second : NodeId) :
    Prop :=
  (scene heap graph).candidate first ∧ (scene heap graph).candidate second ∧
    (scene heap graph).Island first second

/-- The island of the node has two commands. -/
def Grouped (heap : Heap) (graph : GraphId) (node : NodeId) : Prop :=
  ∃ first second, first ≠ second ∧
    (SameIsland heap graph node first ∧ isCommand heap first) ∧
      (SameIsland heap graph node second ∧ isCommand heap second)

/--
A path leaves the island of `source` and ends in the island of `target`, and
both islands have two commands.  The two islands may be the same.
-/
def IslandDepends (heap : Heap) (graph : GraphId) (source target : NodeId) :
    Prop :=
  Grouped heap graph source ∧ Grouped heap graph target ∧
    ∃ from' outside to', SameIsland heap graph source from' ∧
      TransGen (heap.Link graph) from' outside ∧
      ¬ SameIsland heap graph source outside ∧
      ReflTransGen (heap.Link graph) outside to' ∧
      SameIsland heap graph target to'

section Congruence

variable {heap heap' : Heap} {graph : GraphId}

/-- What walks write does not matter for the islands. -/
theorem scene_congr (same : heap'.unmarked = heap.unmarked) :
    scene heap' graph = scene heap graph := by
  have boundaries : boundary heap' graph = boundary heap graph := by
    funext node
    simp only [boundary, (Heap.unmarked_graphs same graph).1,
      (Heap.unmarked_graphs same graph).2.1, Heap.unmarked_type same,
      Heap.unmarked_command same]
  simp only [scene, boundaries, Heap.link_congr same,
    Heap.reachable_congr same, Heap.unmarked_deviceUniqueId same]

theorem isCommand_congr (same : heap'.unmarked = heap.unmarked) :
    isCommand heap' = isCommand heap := by
  funext node
  rw [isCommand, isCommand, Heap.unmarked_type same]

theorem islandDepends_congr (same : heap'.unmarked = heap.unmarked) :
    IslandDepends heap' graph = IslandDepends heap graph := by
  unfold IslandDepends Grouped SameIsland
  rw [scene_congr same, isCommand_congr same, Heap.link_congr same]

theorem grouped_congr (same : heap'.unmarked = heap.unmarked) :
    Grouped heap' graph = Grouped heap graph := by
  unfold Grouped SameIsland
  rw [scene_congr same, isCommand_congr same]

end Congruence

/-- A list without duplicates has two elements when it has different ones. -/
theorem two_le_countP_iff {list : List NodeId} (nodup : list.Nodup)
    (holds : NodeId → Bool) :
    2 ≤ list.countP holds ↔
      ∃ first second, first ≠ second ∧
        (first ∈ list ∧ holds first) ∧ (second ∈ list ∧ holds second) := by
  have card : list.countP holds = (list.filter holds).toFinset.card := by
    rw [List.toFinset_card_of_nodup (nodup.filter _),
      List.countP_eq_length_filter]
  rw [card, Nat.succ_le_iff, Finset.one_lt_card]
  simp only [List.mem_toFinset, List.mem_filter]
  constructor
  · rintro ⟨first, firstMem, second, secondMem, apart⟩
    exact ⟨first, second, apart, firstMem, secondMem⟩
  · rintro ⟨first, second, apart, firstMem, secondMem⟩
    exact ⟨first, firstMem, second, secondMem, apart⟩

namespace Batched

variable {heap after : Heap} {iterators : Iterators} {islands : Islands}
  {plan : List Nat} {state : Materialized} {node : NodeId} {p : Nat}
  (batched : Batched heap after iterators islands plan state)

include batched

/-- Being on one island is being in one batch. -/
theorem sameIsland_iff (member : InBatch islands.members plan p node)
    (other : NodeId) :
    SameIsland iterators.heap iterators.graph node other ↔
      InBatch islands.members plan p other := by
  obtain ⟨key, position, known⟩ := member
  have onIsland := batched.detected.mem_iff known other
  constructor
  · rintro ⟨-, candidate, island⟩
    exact ⟨key, position, onIsland.mpr ⟨candidate, island⟩⟩
  · rintro ⟨key', position', known'⟩
    rw [position, Option.some.injEq] at position'
    subst position'
    exact ⟨batched.detected.candidate known, onIsland.mp known'⟩

/-- The islands with two commands are the batches. -/
theorem grouped_iff :
    Grouped iterators.heap iterators.graph node ↔
      ∃ p, InBatch islands.members plan p node := by
  have inPlan : ∀ key, (∃ p : Nat, plan[p]? = some key) ↔
      ∃ first second, first ≠ second ∧
        (first ∈ islands.members key ∧ isCommand iterators.heap first) ∧
        (second ∈ islands.members key ∧
          isCommand iterators.heap second) := by
    intro key
    rw [← two_le_countP_iff (batched.detected.members_nodup key),
      ← List.mem_iff_getElem?, batched.mem_plan_iff, isBatched_iff]
  constructor
  · rintro ⟨first, second, apart, ⟨same, isCmd⟩, ⟨same', isCmd'⟩⟩
    obtain ⟨key, known⟩ := batched.detected.covered same.1
    have onIsland := batched.detected.mem_iff known
    obtain ⟨p, position⟩ :=
      (inPlan key).mpr
        ⟨first, second, apart, ⟨(onIsland first).mpr same.2, isCmd⟩,
          ⟨(onIsland second).mpr same'.2, isCmd'⟩⟩
    exact ⟨p, key, position, known⟩
  · rintro ⟨p, key, position, known⟩
    obtain ⟨first, second, apart, ⟨mem, isCmd⟩, ⟨mem', isCmd'⟩⟩ :=
      (inPlan key).mp ⟨p, position⟩
    have same := batched.sameIsland_iff ⟨key, position, known⟩
    exact
      ⟨first, second, apart,
        ⟨(same first).mpr ⟨key, position, mem⟩, isCmd⟩,
        ⟨(same second).mpr ⟨key, position, mem'⟩, isCmd'⟩⟩

variable (formed : heap.WellFormed iterators.graph)

include formed

omit formed in
/-- A representative that stands for two nodes is a batch node. -/
private theorem shared_block
    (shared : Digraph.Shared (block iterators state) node) :
    ∃ p < plan.length,
      block iterators state node = batchAt iterators.heap p := by
  have cases : ∀ node, (∃ p < plan.length,
      block iterators state node = batchAt iterators.heap p) ∨
        block iterators state node = node := by
    intro node
    by_cases member : node ∈ iterators.nodes
    · rcases batched.materializes.block_cases member with
        ⟨p, inBatch⟩ | ⟨-, self⟩
      · exact
          Or.inl
            ⟨p, inBatch.lt,
              batched.materializes.block_batch member inBatch⟩
      · exact Or.inr self
    · exact Or.inr (if_neg member)
  obtain ⟨other, apart, same⟩ := shared
  rcases cases node with found | self
  · exact found
  · rcases cases other with ⟨p, bound, isBatch⟩ | self'
    · exact ⟨p, bound, same ▸ isBatch⟩
    · rw [self, self'] at same
      exact (apart same).elim

/-- Dependence between batches is dependence between their members. -/
private theorem islandDepends_of_shared {source target : NodeId}
    (depends : Digraph.SharedDepends
      (iterators.heap.Link iterators.graph) (block iterators state)
      source target) :
    ∃ p q, p < plan.length ∧ q < plan.length ∧
      block iterators state source = batchAt iterators.heap p ∧
      block iterators state target = batchAt iterators.heap q ∧
      ∀ first second, InBatch islands.members plan p first →
        InBatch islands.members plan q second →
          IslandDepends iterators.heap iterators.graph first second := by
  obtain ⟨sourceShared, targetShared, from', outside, to', fromSame, out,
    leaves, back, toSame⟩ := depends
  obtain ⟨p, pBound, sourceBatch⟩ := batched.shared_block sourceShared
  obtain ⟨q, qBound, targetBatch⟩ := batched.shared_block targetShared
  refine ⟨p, q, pBound, qBound, sourceBatch, targetBatch, ?_⟩
  intro first second firstIn secondIn
  obtain ⟨next, leave, -⟩ := TransGen.head'_iff.mp out
  obtain ⟨last, -, arrive⟩ := TransGen.tail'_iff.mp out
  have fromMember := (batched.link_mem leave).1
  have outMember := (batched.link_mem arrive).2
  have toMember : to' ∈ iterators.nodes := by
    rcases ReflTransGen.cases_tail back with equal | ⟨before, -, step⟩
    · exact equal ▸ outMember
    · exact (batched.link_mem step).2
  rw [sourceBatch] at fromSame leaves
  rw [targetBatch] at toSame
  refine
    ⟨batched.grouped_iff.mpr ⟨p, firstIn⟩,
      batched.grouped_iff.mpr ⟨q, secondIn⟩, from', outside, to', ?_, out,
      ?_, back, ?_⟩
  · rw [batched.sameIsland_iff firstIn, batched.inBatch_iff formed fromMember]
    exact fromSame
  · rw [batched.sameIsland_iff firstIn, batched.inBatch_iff formed outMember]
    exact leaves
  · rw [batched.sameIsland_iff secondIn, batched.inBatch_iff formed toMember]
    exact toSame

omit formed in
private theorem shared_of_inBatch
    (member : InBatch islands.members plan p node) :
    Digraph.Shared (block iterators state) node := by
  obtain ⟨first, second, apart, ⟨same, -⟩, ⟨same', -⟩⟩ :=
    batched.grouped_iff.mpr ⟨p, member⟩
  rw [batched.sameIsland_iff member] at same same'
  have equal : ∀ {other}, InBatch islands.members plan p other →
      block iterators state other = block iterators state node := by
    intro other otherIn
    rw [batched.materializes.block_batch (batched.inBatch_mem otherIn) otherIn,
      batched.materializes.block_batch (batched.inBatch_mem member) member]
  by_cases isFirst : first = node
  · subst isFirst
    exact ⟨second, apart.symm, equal same'⟩
  · exact ⟨first, isFirst, equal same⟩

private theorem shared_of_islandDepends {source target : NodeId}
    (depends :
      IslandDepends iterators.heap iterators.graph source target) :
    Digraph.SharedDepends (iterators.heap.Link iterators.graph)
      (block iterators state) source target := by
  obtain ⟨sourceGrouped, targetGrouped, from', outside, to', fromSame, out,
    leaves, back, toSame⟩ := depends
  obtain ⟨p, sourceIn⟩ := batched.grouped_iff.mp sourceGrouped
  obtain ⟨q, targetIn⟩ := batched.grouped_iff.mp targetGrouped
  rw [batched.sameIsland_iff sourceIn] at fromSame leaves
  rw [batched.sameIsland_iff targetIn] at toSame
  have blockEq : ∀ {p node}, InBatch islands.members plan p node →
      block iterators state node = batchAt iterators.heap p :=
    fun member =>
      batched.materializes.block_batch (batched.inBatch_mem member) member
  obtain ⟨last, -, arrive⟩ := TransGen.tail'_iff.mp out
  refine
    ⟨batched.shared_of_inBatch sourceIn,
      batched.shared_of_inBatch targetIn, from', outside, to', ?_, out,
      ?_, back, ?_⟩
  · rw [blockEq fromSame, blockEq sourceIn]
  · rw [blockEq sourceIn,
      Ne, ← batched.inBatch_iff formed (batched.link_mem arrive).2]
    exact leaves
  · rw [blockEq toSame, blockEq targetIn]

/-- The batches depend on each other acyclically when the islands do. -/
theorem acyclic_shared_iff :
    Digraph.Acyclic
        (Digraph.SharedDepends (iterators.heap.Link iterators.graph)
          (block iterators state)) ↔
      Digraph.Acyclic (IslandDepends iterators.heap iterators.graph) := by
  constructor
  · intro acyclic
    exact
      acyclic.mono fun _ _ depends =>
        batched.shared_of_islandDepends formed depends
  · intro acyclic node cycle
    have chain : ∀ {source target},
        TransGen
            (Digraph.SharedDepends (iterators.heap.Link iterators.graph)
              (block iterators state)) source target →
          ∃ p q, p < plan.length ∧ q < plan.length ∧
            block iterators state source = batchAt iterators.heap p ∧
            block iterators state target = batchAt iterators.heap q ∧
            ∀ first second, InBatch islands.members plan p first →
              InBatch islands.members plan q second →
                TransGen (IslandDepends iterators.heap iterators.graph)
                  first second := by
      intro source target path
      induction path with
      | single depends =>
          obtain ⟨p, q, pBound, qBound, sourceEq, targetEq, all⟩ :=
            batched.islandDepends_of_shared formed depends
          exact
            ⟨p, q, pBound, qBound, sourceEq, targetEq,
              fun first second firstIn secondIn =>
                TransGen.single (all first second firstIn secondIn)⟩
      | tail _ depends induction =>
          obtain ⟨p, q, pBound, qBound, sourceEq, middleEq, all⟩ := induction
          obtain ⟨q', r, -, rBound, middleEq', targetEq, all'⟩ :=
            batched.islandDepends_of_shared formed depends
          rw [middleEq, batchAt_inj] at middleEq'
          subst middleEq'
          obtain ⟨middle, middleIn⟩ := batched.exists_member qBound
          exact
            ⟨p, r, pBound, rBound, sourceEq, targetEq,
              fun first second firstIn secondIn =>
                (all first middle firstIn middleIn).tail
                  (all' middle second middleIn secondIn)⟩
    obtain ⟨p, q, pBound, -, sourceEq, targetEq, all⟩ := chain cycle
    rw [sourceEq, batchAt_inj] at targetEq
    subst targetEq
    obtain ⟨member, memberIn⟩ := batched.exists_member pBound
    exact acyclic member (all member member memberIn memberIn)

theorem acyclic_iff :
    Digraph.Acyclic (after.Link iterators.graph) ↔
      Digraph.Acyclic (IslandDepends heap iterators.graph) := by
  have top : after.Link iterators.graph = Outside iterators state := by
    funext upper lower
    exact propext (batched.top_link_iff formed upper lower)
  rw [top, Outside,
    Digraph.acyclic_contract_iff (batched.indexed_acyclic formed),
    batched.acyclic_shared_iff formed,
    islandDepends_congr batched.iterated.unmarked_eq]

end Batched

/--
The top level after the batch pass is acyclic exactly when no batched island
depends on itself through nodes outside of it.
-/
theorem passBatch_acyclic_iff (heap : Heap) (graph : GraphId)
    (formed : heap.WellFormed graph) (ready : heap.WalkReady graph)
    (islandOrder : List Nat → List Nat)
    (islandPerm : ∀ list, (islandOrder list).Perm list)
    (matOrder : List (Nat × IslandMat) → List (Nat × IslandMat))
    (matPerm : ∀ list, (matOrder list).Perm list) :
    ∃ after, passBatch islandOrder matOrder heap graph = some after ∧
      (Digraph.Acyclic (after.Link graph) ↔
        Digraph.Acyclic (IslandDepends heap graph)) := by
  obtain ⟨after, iterators, islands, plan, state, ran, rfl, batched⟩ :=
    passBatch_batched formed ready islandPerm matPerm
  exact ⟨after, ran, batched.acyclic_iff formed⟩

/--
Three reads in a row with a shortcut, the middle one on another device: the
outer two are one island.
-/
def detour : Heap :=
  Heap.ofNodes
    [Heap.linkedNode unspecifiedDeviceUniqueId .empty [] [1],
      Heap.readNode 1 [0] [2, 3],
      Heap.readNode 2 [1] [3],
      Heap.readNode 1 [1, 2] [4],
      Heap.linkedNode unspecifiedDeviceUniqueId .empty [3] []]
    { entry := 0, exit := 4, walkId := 0, isSequence := false }

theorem passBatch_acyclic_iff_detour :
    ∃ after, passBatch id id detour 0 = some after ∧
      (Digraph.Acyclic (after.Link 0) ↔
        Digraph.Acyclic (IslandDepends detour 0)) := by
  have numbered : detour.Numbered 0 := by decide
  exact
    passBatch_acyclic_iff detour 0 numbered.wellFormed
      (numbered.walkReady (by decide)) id (fun _ => .refl _) id
      (fun _ => .refl _)

/-- The batch node 7 of the outer reads and the middle read form a cycle. -/
theorem passBatch_detour_cyclic :
    detour.WellFormed 0 ∧ detour.WalkReady 0 ∧
      ∃ after, passBatch id id detour 0 = some after ∧
        ¬ Digraph.Acyclic (after.Link 0) := by
  have numbered : detour.Numbered 0 := by decide
  refine ⟨numbered.wellFormed, numbered.walkReady (by decide), ?_⟩
  have computed :
      (passBatch id id detour 0).map (fun heap =>
          ((heap.graphs 0).entry, heap.successors 0, heap.successors 7,
            heap.successors 2)) =
        some (0, [7], [2, 4], [7]) := by
    decide +kernel
  obtain ⟨after, ran, lists⟩ := Option.map_eq_some_iff.mp computed
  simp only [Prod.mk.injEq] at lists
  obtain ⟨entry, fromEntry, fromBatch, fromMiddle⟩ := lists
  refine ⟨after, ran, fun acyclic => ?_⟩
  have batchReachable : after.Reachable 0 7 := by
    refine ReflTransGen.single ?_
    change 7 ∈ after.successors (after.graphs 0).entry
    rw [entry, fromEntry]
    simp
  have forth : after.Link 0 7 2 := ⟨batchReachable, by simp [fromBatch]⟩
  have back : after.Link 0 2 7 := ⟨forth.reachable, by simp [fromMiddle]⟩
  exact acyclic 7 (TransGen.tail (TransGen.single forth) back)

end Cgir.Pass.Batch
