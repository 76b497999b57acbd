import Cgir.Pass.BatchCycle

/-!
# The order of the adjacency lists

The islands of a graph do not depend on the order of its adjacency lists.  What
the detection returns is the settled grouping of the scene of the graph
(`exists_settled`), and the scene is made of links, candidates and devices only.
-/

namespace Cgir.Pass.Batch

open Relation
open Cgir.Library
open Cgir.Model

/-! ## Reordered graphs -/

/-- The same nodes with adjacency lists in another order. -/
structure Reordered (heap heap' : Heap) : Prop where
  unlinked_eq : heap'.unlinked = heap.unlinked
  successors_perm : ∀ n, (heap'.successors n).Perm (heap.successors n)
  predecessors_perm : ∀ n, (heap'.predecessors n).Perm (heap.predecessors n)

namespace Reordered

variable {heap heap' : Heap} {graph : GraphId}

theorem edge_eq (reordered : Reordered heap heap') :
    MarkSearch.Edge heap'.successors = MarkSearch.Edge heap.successors := by
  funext source target
  exact propext (reordered.successors_perm source).mem_iff

theorem reachable_eq (reordered : Reordered heap heap') :
    heap'.Reachable graph = heap.Reachable graph := by
  unfold Heap.Reachable MarkSearch.Reach
  rw [reordered.edge_eq, Heap.unlinked_graphs reordered.unlinked_eq]

theorem link_eq (reordered : Reordered heap heap') :
    heap'.Link graph = heap.Link graph := by
  funext source target
  unfold Heap.Link
  rw [reordered.reachable_eq, (reordered.successors_perm source).mem_iff]

theorem wellFormed (reordered : Reordered heap heap')
    (formed : heap.WellFormed graph) : heap'.WellFormed graph where
  graph_lt := by
    rw [Heap.unlinked_graphCount reordered.unlinked_eq]
    exact formed.graph_lt
  allocated := by
    rw [reordered.reachable_eq,
      Heap.unlinked_nodeCount reordered.unlinked_eq]
    exact formed.allocated
  successors_nodup := by
    intro node reachable
    rw [reordered.reachable_eq] at reachable
    rw [(reordered.successors_perm node).nodup_iff]
    exact formed.successors_nodup node reachable
  predecessors_nodup := by
    intro node reachable
    rw [reordered.reachable_eq] at reachable
    rw [(reordered.predecessors_perm node).nodup_iff]
    exact formed.predecessors_nodup node reachable
  mem_predecessors := by
    intro node reachable pred
    rw [reordered.reachable_eq] at reachable
    rw [(reordered.predecessors_perm node).mem_iff, reordered.link_eq]
    exact formed.mem_predecessors node reachable pred
  acyclic := by
    rw [reordered.link_eq]
    exact formed.acyclic
  reaches_exit := by
    intro node reachable
    rw [reordered.reachable_eq] at reachable
    unfold MarkSearch.Reach
    rw [reordered.edge_eq, Heap.unlinked_graphs reordered.unlinked_eq]
    exact formed.reaches_exit node reachable

theorem walkReady (reordered : Reordered heap heap')
    (ready : heap.WalkReady graph) : heap'.WalkReady graph := by
  intro node reachable notEntry
  rw [reordered.reachable_eq] at reachable
  rw [Heap.unlinked_graphs reordered.unlinked_eq] at notEntry ⊢
  rw [Heap.unlinked_walkId reordered.unlinked_eq]
  exact ready node reachable notEntry

/-- The scene is a matter of links, candidates and devices. -/
theorem scene_eq (reordered : Reordered heap heap') :
    scene heap' graph = scene heap graph := by
  have same := reordered.unlinked_eq
  have boundaryEq : boundary heap' graph = boundary heap graph := by
    funext u
    unfold boundary
    rw [Heap.unlinked_graphs same, Heap.unlinked_type same,
      Heap.unlinked_command same]
  unfold scene
  congr 1
  · exact reordered.link_eq
  · rw [reordered.reachable_eq, boundaryEq]
  · funext u
    exact Heap.unlinked_deviceUniqueId same u

end Reordered

/-! ## Islands as sets of nodes -/

section Islands

variable (heap : Heap) (graph : GraphId) (islands : Islands)

/-- The island of a node; a node outside all islands is one by itself. -/
def islandOf (u : NodeId) : Set NodeId :=
  { v | v = u ∨ ∃ key, u ∈ islands.members key ∧ v ∈ islands.members key }

/-- The other islands with an edge into the island of a node. -/
def predecessorIslands (u : NodeId) : Set (Set NodeId) :=
  { island | ∃ u' ∈ islandOf islands u, ∃ p, p ∉ islandOf islands u ∧
    heap.Link graph p u' ∧ island = islandOf islands p }

/-- The other islands with an edge from the island of a node. -/
def successorIslands (u : NodeId) : Set (Set NodeId) :=
  { island | ∃ u' ∈ islandOf islands u, ∃ s, s ∉ islandOf islands u ∧
    heap.Link graph u' s ∧ island = islandOf islands s }

/-- What the islands are a partition of, and when two nodes share one. -/
structure IslandPartition : Prop where
  covered : ∀ u, (scene heap graph).candidate u ↔
    ∃ key, u ∈ islands.members key
  internal : ∀ u v, (scene heap graph).candidate u →
    (scene heap graph).candidate v → heap.Link graph u v →
      (heap.nodes u).deviceUniqueId = (heap.nodes v).deviceUniqueId →
        islandOf islands u = islandOf islands v
  single_device : ∀ u, ∀ v ∈ islandOf islands u,
    (heap.nodes v).deviceUniqueId = (heap.nodes u).deviceUniqueId
  no_twins : ∀ u v, (scene heap graph).candidate u →
    (scene heap graph).candidate v →
      (heap.nodes u).deviceUniqueId = (heap.nodes v).deviceUniqueId →
        predecessorIslands heap graph islands u =
            predecessorIslands heap graph islands v →
          successorIslands heap graph islands u =
              successorIslands heap graph islands v →
            islandOf islands u = islandOf islands v

end Islands

section Settled

variable {heap : Heap} {graph : GraphId} {islands : Islands}
  {result : Setoid NodeId}

/-- The twin loop ends with a settled grouping of the scene. -/
theorem exists_settled {iterators : Iterators} (valid : iterators.Valid) :
    ∃ result,
      (scene iterators.heap iterators.graph).Folds
          (scene iterators.heap iterators.graph).regions result ∧
        (scene iterators.heap iterators.graph).Settled result := by
  obtain ⟨flooded, -, floodForest, regions⟩ := flood_spec valid
  obtain ⟨final, -, -, folds, settled⟩ :=
    foldAllTwins_spec valid (iterators.count + 1) floodForest
      (regions ▸ .refl _)
      (Nat.lt_succ_of_le
        ((Finset.card_filter_le _ _).trans (Finset.card_range _).le))
  exact ⟨groups iterators final, folds, settled⟩

variable (detected : Detected heap graph islands)
  (folds : (scene heap graph).Folds (scene heap graph).regions result)
  (settled : (scene heap graph).Settled result)

include detected folds settled

/-- The detected islands are the groups of the settled grouping. -/
theorem mem_islandOf_iff (u v : NodeId) :
    v ∈ islandOf islands u ↔ result u v := by
  constructor
  · rintro (rfl | ⟨key, uMember, vMember⟩)
    · exact result.refl v
    · exact
        (TwinFold.Scene.island_iff folds settled u v).mp
          ((detected.mem_iff uMember v).mp vMember).2
  · intro related
    rcases folds.uniform related with rfl | ⟨uCandidate, vCandidate, -⟩
    · exact .inl rfl
    · obtain ⟨key, member⟩ := detected.covered uCandidate
      refine .inr ⟨key, member, (detected.mem_iff member v).mpr ⟨?_, ?_⟩⟩
      · exact vCandidate
      · exact (TwinFold.Scene.island_iff folds settled u v).mpr related

theorem islandOf_eq_iff (u v : NodeId) :
    islandOf islands u = islandOf islands v ↔ result u v := by
  have memIff := mem_islandOf_iff detected folds settled
  constructor
  · intro same
    rw [← memIff, same]
    exact .inl rfl
  · intro related
    ext w
    rw [memIff, memIff]
    exact ⟨result.trans (result.symm related), result.trans related⟩

/-- The successor islands are the groups after the group of the node. -/
theorem mem_successorIslands_iff (u other : NodeId) :
    islandOf islands other ∈ successorIslands heap graph islands u ↔
      (scene heap graph).After result u other := by
  have memIff := mem_islandOf_iff detected folds settled
  have eqIff := islandOf_eq_iff detected folds settled
  constructor
  · rintro ⟨u', inside, s, outside, link, same⟩
    rw [memIff] at inside outside
    rw [eqIff] at same
    exact
      ⟨fun related => outside (result.trans related same), u', s, inside,
        same, link⟩
  · rintro ⟨apart, u', s, inside, same, link⟩
    refine ⟨u', (memIff u u').mpr inside, s, ?_, link, ?_⟩
    · rw [memIff]
      exact fun related => apart (result.trans related (result.symm same))
    · exact (eqIff other s).mpr same

theorem mem_predecessorIslands_iff (u other : NodeId) :
    islandOf islands other ∈ predecessorIslands heap graph islands u ↔
      (scene heap graph).reverse.After result u other := by
  have memIff := mem_islandOf_iff detected folds settled
  have eqIff := islandOf_eq_iff detected folds settled
  constructor
  · rintro ⟨u', inside, p, outside, link, same⟩
    rw [memIff] at inside outside
    rw [eqIff] at same
    exact
      ⟨fun related => outside (result.trans related same), u', p, inside,
        same, link⟩
  · rintro ⟨apart, u', p, inside, same, link⟩
    refine ⟨u', (memIff u u').mpr inside, p, ?_, link, ?_⟩
    · rw [memIff]
      exact fun related => apart (result.trans related (result.symm same))
    · exact (eqIff other p).mpr same

theorem islandPartition : IslandPartition heap graph islands where
  covered := fun u =>
    ⟨detected.covered, fun ⟨_, member⟩ => detected.candidate member⟩
  internal := by
    intro u v uCandidate vCandidate link device
    rw [islandOf_eq_iff detected folds settled]
    exact folds.le (EqvGen.rel _ _ ⟨uCandidate, vCandidate, device, link⟩)
  single_device := by
    rintro u v (rfl | ⟨key, uMember, vMember⟩)
    · rfl
    · exact detected.color_eq vMember uMember
  no_twins := by
    intro u v uCandidate vCandidate device preds succs
    rw [islandOf_eq_iff detected folds settled]
    apply settled
    exact {
      left_candidate := uCandidate
      right_candidate := vCandidate
      color_eq := device
      successors := by
        intro other
        rw [← mem_successorIslands_iff detected folds settled, succs,
          mem_successorIslands_iff detected folds settled]
      predecessors := by
        intro other
        rw [← mem_predecessorIslands_iff detected folds settled, preds,
          mem_predecessorIslands_iff detected folds settled] }

end Settled

/-! ## Order independence -/

section Order

variable {heap : Heap} {graph : GraphId}

/-- Equal scenes have the same islands. -/
theorem Detected.congr {heap' : Heap} {islands : Islands}
    (detected : Detected heap' graph islands)
    (same : scene heap' graph = scene heap graph) :
    Detected heap graph islands := by
  have linkEq : heap'.Link graph = heap.Link graph :=
    congrArg TwinFold.Scene.edge same
  have deviceEq : ∀ n, (heap'.nodes n).deviceUniqueId =
      (heap.nodes n).deviceUniqueId :=
    congrFun (congrArg TwinFold.Scene.color same)
  exact {
    keys_nodup := detected.keys_nodup
    members_nodup := detected.members_nodup
    key_of_mem := detected.key_of_mem
    candidate := by
      rw [← same]
      exact detected.candidate
    covered := by
      rw [← same]
      exact detected.covered
    unique := detected.unique
    color_eq := by
      intro key node node'
      rw [← deviceEq, ← deviceEq]
      exact detected.color_eq
    connected := by
      intro key node node'
      rw [← same, ← linkEq, ← deviceEq, ← deviceEq]
      exact detected.connected
    mem_iff := by
      rw [← same]
      exact detected.mem_iff }

/-- The detection on a graph whose scene is known. -/
theorem detect_scene {heap' : Heap} (formed : heap'.WellFormed graph)
    (ready : heap'.WalkReady graph)
    (same : scene heap' graph = scene heap graph) :
    ∃ (iterators : Iterators) (islands : Islands) (result : Setoid NodeId),
      iterators.graph = graph ∧
        heap'.createNodeIterators graph true =
          some (iterators.heap, iterators.nodes) ∧
        detect iterators = some islands ∧ Detected heap graph islands ∧
          (scene heap graph).Folds (scene heap graph).regions result ∧
            (scene heap graph).Settled result := by
  obtain ⟨indexed, nodes, made, iterated⟩ :=
    Heap.createNodeIterators_spec formed.allocated ready true
  let iterators : Iterators :=
    { heap := indexed, graph := graph, nodes := nodes }
  have valid : iterators.Valid := Iterators.valid_of_iterated iterated
  have sceneEq : scene iterators.heap iterators.graph = scene heap graph :=
    (scene_congr iterated.unmarked_eq).trans same
  obtain ⟨islands, found, detected⟩ := detect_spec valid
  obtain ⟨result, folds, settled⟩ := exists_settled valid
  rw [sceneEq] at folds settled
  exact
    ⟨iterators, islands, result, rfl, made, found, detected.congr sceneEq,
      folds, settled⟩

/--
On two orders of the adjacency lists of a well-formed graph the detection returns
the same partition of the candidates, without same-device edges or twins between
its islands.
-/
theorem detect_order_independent (formed : heap.WellFormed graph)
    (ready : heap.WalkReady graph) {first second : Heap}
    (firstOrder : Reordered heap first)
    (secondOrder : Reordered heap second) :
    ∃ (iterators iterators' : Iterators) (islands islands' : Islands),
      (iterators.graph = graph ∧
        first.createNodeIterators graph true =
          some (iterators.heap, iterators.nodes) ∧
        detect iterators = some islands) ∧
      (iterators'.graph = graph ∧
        second.createNodeIterators graph true =
          some (iterators'.heap, iterators'.nodes) ∧
        detect iterators' = some islands') ∧
      (∀ u, islandOf islands u = islandOf islands' u) ∧
        IslandPartition heap graph islands := by
  obtain ⟨iterators, islands, result, graphEq, made, found, detected, folds,
      settled⟩ :=
    detect_scene (firstOrder.wellFormed formed) (firstOrder.walkReady ready)
      firstOrder.scene_eq
  obtain ⟨iterators', islands', result', graphEq', made', found', detected',
      folds', settled'⟩ :=
    detect_scene (secondOrder.wellFormed formed)
      (secondOrder.walkReady ready) secondOrder.scene_eq
  refine
    ⟨iterators, iterators', islands, islands', ⟨graphEq, made, found⟩,
      ⟨graphEq', made', found'⟩, ?_,
      islandPartition detected folds settled⟩
  intro u
  ext v
  rw [mem_islandOf_iff detected folds settled,
    mem_islandOf_iff detected' folds' settled',
    ← TwinFold.Scene.island_iff folds settled,
    TwinFold.Scene.island_iff folds' settled']

end Order

/-- The two reads of `siblings`, found from the other side. -/
def siblingsSwapped : Heap :=
  (siblings.setSuccessors 0 [2, 1]).setPredecessors 3 [2, 1]

theorem siblings_reordered : Reordered siblings siblingsSwapped where
  unlinked_eq := by
    rw [siblingsSwapped, Heap.setPredecessors_unlinked,
      Heap.setSuccessors_unlinked]
  successors_perm := by
    intro n
    rw [siblingsSwapped, Heap.setPredecessors_successors,
      Heap.setSuccessors_successors]
    split
    · rename_i first
      rw [first]
      exact .swap 1 2 []
    · exact .refl _
  predecessors_perm := by
    intro n
    rw [siblingsSwapped, Heap.setPredecessors_predecessors,
      Heap.setSuccessors_predecessors]
    split
    · rename_i last
      rw [last]
      exact .swap 1 2 []
    · exact .refl _

theorem detect_order_independent_siblings :
    ∃ (iterators iterators' : Iterators) (islands islands' : Islands),
      (iterators.graph = 0 ∧
        siblings.createNodeIterators 0 true =
          some (iterators.heap, iterators.nodes) ∧
        detect iterators = some islands) ∧
      (iterators'.graph = 0 ∧
        siblingsSwapped.createNodeIterators 0 true =
          some (iterators'.heap, iterators'.nodes) ∧
        detect iterators' = some islands') ∧
      (∀ u, islandOf islands u = islandOf islands' u) ∧
        IslandPartition siblings 0 islands := by
  have numbered : siblings.Numbered 0 := by decide
  have same : Reordered siblings siblings :=
    ⟨rfl, fun _ => .refl _, fun _ => .refl _⟩
  exact
    detect_order_independent numbered.wellFormed
      (numbered.walkReady (by decide)) same siblings_reordered

end Cgir.Pass.Batch
