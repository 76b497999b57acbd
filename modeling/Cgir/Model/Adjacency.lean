import Cgir.Model.Walk

/-!
# Adjacency lists as an edge relation

`Represents` says that the adjacency lists of a set of live nodes record an
edge relation: no duplicates, and both ends of every edge agree.  Each
operation on lists acts on the relation; a well-formed graph is one whose lists
represent its links.
-/

namespace Cgir.Model

open Relation
open Cgir.Library

namespace Heap

/-- The lists of the live nodes record exactly the edges of a relation. -/
structure Represents (heap : Heap) (live : NodeId → Prop)
    (edge : NodeId → NodeId → Prop) : Prop where
  successors_nodup : ∀ node, live node → (heap.successors node).Nodup
  predecessors_nodup : ∀ node, live node → (heap.predecessors node).Nodup
  mem_successors : ∀ node, live node → ∀ next,
    next ∈ heap.successors node ↔ edge node next
  mem_predecessors : ∀ node, live node → ∀ pred,
    pred ∈ heap.predecessors node ↔ edge pred node
  inside : ∀ source target, edge source target → live source ∧ live target

namespace Represents

variable {heap : Heap} {live : NodeId → Prop}
  {edge : NodeId → NodeId → Prop}

theorem congr_lists {heap' : Heap}
    (represents : heap.Represents live edge)
    (successors : ∀ node, live node →
      heap'.successors node = heap.successors node)
    (predecessors : ∀ node, live node →
      heap'.predecessors node = heap.predecessors node) :
    heap'.Represents live edge where
  successors_nodup := by
    intro node alive
    rw [successors node alive]
    exact represents.successors_nodup node alive
  predecessors_nodup := by
    intro node alive
    rw [predecessors node alive]
    exact represents.predecessors_nodup node alive
  mem_successors := by
    intro node alive
    rw [successors node alive]
    exact represents.mem_successors node alive
  mem_predecessors := by
    intro node alive
    rw [predecessors node alive]
    exact represents.mem_predecessors node alive
  inside := represents.inside

theorem congr_edge {edge' : NodeId → NodeId → Prop}
    (represents : heap.Represents live edge)
    (same : ∀ source target, edge' source target ↔ edge source target) :
    heap.Represents live edge' where
  successors_nodup := represents.successors_nodup
  predecessors_nodup := represents.predecessors_nodup
  mem_successors := by
    intro node alive next
    rw [represents.mem_successors node alive, same]
  mem_predecessors := by
    intro node alive pred
    rw [represents.mem_predecessors node alive, same]
  inside := by
    intro source target step
    exact represents.inside source target ((same source target).mp step)

theorem congr_live {live' : NodeId → Prop}
    (represents : heap.Represents live edge)
    (same : ∀ node, live' node ↔ live node) :
    heap.Represents live' edge :=
  (funext fun node => propext (same node) : live' = live) ▸ represents

/-- An edge is recorded at its source exactly when it is at its target. -/
theorem mem_iff (represents : heap.Represents live edge)
    {source target : NodeId} (sourceLive : live source)
    (targetLive : live target) :
    target ∈ heap.successors source ↔ source ∈ heap.predecessors target := by
  rw [represents.mem_successors source sourceLive,
    represents.mem_predecessors target targetLive]

/-- `precedes` adds one edge. -/
theorem precedes (represents : heap.Represents live edge)
    {source target : NodeId} (sourceLive : live source)
    (targetLive : live target) (fresh : ¬ edge source target) :
    (heap.precedes source target).Represents live
      (fun upper lower =>
        edge upper lower ∨ (upper = source ∧ lower = target)) where
  successors_nodup := by
    intro node alive
    rw [precedes_successors]
    split
    · rename_i equal
      refine List.nodup_append.mpr
        ⟨represents.successors_nodup source sourceLive,
          List.nodup_singleton target, ?_⟩
      intro upper member lower single equal'
      rw [List.mem_singleton] at single
      subst equal' single
      exact
        fresh ((represents.mem_successors source sourceLive upper).mp member)
    · exact represents.successors_nodup node alive
  predecessors_nodup := by
    intro node alive
    rw [precedes_predecessors]
    split
    · rename_i equal
      refine List.nodup_append.mpr
        ⟨represents.predecessors_nodup target targetLive,
          List.nodup_singleton source, ?_⟩
      intro upper member lower single equal'
      rw [List.mem_singleton] at single
      subst equal' single
      exact
        fresh
          ((represents.mem_predecessors target targetLive upper).mp member)
    · exact represents.predecessors_nodup node alive
  mem_successors := by
    intro node alive next
    rw [precedes_successors]
    split
    · rename_i equal
      subst equal
      rw [List.mem_append, List.mem_singleton,
        represents.mem_successors node alive]
      simp
    · rename_i different
      rw [represents.mem_successors node alive]
      simp [different]
  mem_predecessors := by
    intro node alive pred
    rw [precedes_predecessors]
    split
    · rename_i equal
      subst equal
      rw [List.mem_append, List.mem_singleton,
        represents.mem_predecessors node alive]
      simp
    · rename_i different
      rw [represents.mem_predecessors node alive]
      simp [different]
  inside := by
    intro upper lower step
    rcases step with old | ⟨rfl, rfl⟩
    · exact represents.inside upper lower old
    · exact ⟨sourceLive, targetLive⟩

/-- A guarded `precedes` adds one edge when its guard holds. -/
theorem precedes_if (represents : heap.Represents live edge)
    {condition : Prop} [Decidable condition] {source target : NodeId}
    (sourceLive : live source) (targetLive : live target)
    (fresh : condition → ¬ edge source target) :
    (if condition then heap.precedes source target else heap).Represents live
      (fun upper lower =>
        edge upper lower ∨
          (upper = source ∧ lower = target ∧ condition)) := by
  split
  · rename_i holds
    refine
      (represents.precedes sourceLive targetLive
        (fresh holds)).congr_edge fun upper lower => ?_
    simp [holds]
  · rename_i fails
    refine represents.congr_edge fun upper lower => ?_
    simp [fails]

/-- A list of neighbours is empty when the node has no such neighbour. -/
theorem predecessors_nil_iff (represents : heap.Represents live edge)
    {node : NodeId} (alive : live node) :
    heap.predecessors node = [] ↔ ∀ pred, ¬ edge pred node := by
  rw [List.eq_nil_iff_forall_not_mem]
  simp only [represents.mem_predecessors node alive]

theorem successors_nil_iff (represents : heap.Represents live edge)
    {node : NodeId} (alive : live node) :
    heap.successors node = [] ↔ ∀ next, ¬ edge node next := by
  rw [List.eq_nil_iff_forall_not_mem]
  simp only [represents.mem_successors node alive]

/-- `detach` removes one edge. -/
theorem detach (represents : heap.Represents live edge)
    (source target : NodeId) :
    (heap.detach source target).Represents live
      (fun upper lower =>
        edge upper lower ∧ ¬ (upper = source ∧ lower = target)) where
  successors_nodup := by
    intro node alive
    rw [detach_successors]
    split
    · rename_i equal
      subst equal
      exact (represents.successors_nodup node alive).erase target
    · exact represents.successors_nodup node alive
  predecessors_nodup := by
    intro node alive
    rw [detach_predecessors]
    split
    · rename_i equal
      subst equal
      exact (represents.predecessors_nodup node alive).erase source
    · exact represents.predecessors_nodup node alive
  mem_successors := by
    intro node alive next
    rw [detach_successors]
    split
    · rename_i equal
      subst equal
      rw [(represents.successors_nodup node alive).mem_erase_iff,
        represents.mem_successors node alive]
      simp [and_comm]
    · rename_i different
      rw [represents.mem_successors node alive]
      simp [different]
  mem_predecessors := by
    intro node alive pred
    rw [detach_predecessors]
    split
    · rename_i equal
      subst equal
      rw [(represents.predecessors_nodup node alive).mem_erase_iff,
        represents.mem_predecessors node alive]
      simp [and_comm]
    · rename_i different
      rw [represents.mem_predecessors node alive]
      simp [different]
  inside := fun upper lower step => represents.inside upper lower step.1

/-- Live nodes without edges may be added. -/
theorem extend (represents : heap.Represents live edge)
    {live' : NodeId → Prop} (more : ∀ node, live node → live' node)
    (isolated : ∀ node, live' node → ¬ live node →
      heap.successors node = [] ∧ heap.predecessors node = []) :
    heap.Represents live' edge where
  successors_nodup := by
    intro node alive
    by_cases old : live node
    · exact represents.successors_nodup node old
    · rw [(isolated node alive old).1]
      exact List.nodup_nil
  predecessors_nodup := by
    intro node alive
    by_cases old : live node
    · exact represents.predecessors_nodup node old
    · rw [(isolated node alive old).2]
      exact List.nodup_nil
  mem_successors := by
    intro node alive next
    by_cases old : live node
    · exact represents.mem_successors node old next
    · rw [(isolated node alive old).1]
      simp only [List.not_mem_nil, false_iff]
      intro step
      exact old (represents.inside node next step).1
  mem_predecessors := by
    intro node alive pred
    by_cases old : live node
    · exact represents.mem_predecessors node old pred
    · rw [(isolated node alive old).2]
      simp only [List.not_mem_nil, false_iff]
      intro step
      exact old (represents.inside pred node step).2
  inside := by
    intro source target step
    exact
      ⟨more source (represents.inside source target step).1,
        more target (represents.inside source target step).2⟩

/-- Fewer nodes may be live when no edge crosses their boundary. -/
theorem restrict (represents : heap.Represents live edge)
    {live' : NodeId → Prop} (fewer : ∀ node, live' node → live node)
    (closed : ∀ source target, edge source target →
      (live' source ↔ live' target)) :
    heap.Represents live'
      (fun source target => edge source target ∧ live' source) where
  successors_nodup := fun node alive =>
    represents.successors_nodup node (fewer node alive)
  predecessors_nodup := fun node alive =>
    represents.predecessors_nodup node (fewer node alive)
  mem_successors := by
    intro node alive next
    rw [represents.mem_successors node (fewer node alive)]
    exact (and_iff_left alive).symm
  mem_predecessors := by
    intro node alive pred
    rw [represents.mem_predecessors node (fewer node alive)]
    constructor
    · exact fun step => ⟨step, (closed pred node step).mpr alive⟩
    · exact And.left
  inside := by
    rintro source target ⟨step, alive⟩
    exact ⟨alive, (closed source target step).mp alive⟩

/-- Paths along the lists are paths of the relation. -/
theorem reach_iff (represents : heap.Represents live edge)
    {source : NodeId} (alive : live source) (target : NodeId) :
    MarkSearch.Reach heap.successors source target ↔
      ReflTransGen edge source target := by
  have closed :
      ∀ {last}, ReflTransGen edge source last → live last := by
    intro last path
    induction path with
    | refl => exact alive
    | tail _ step _ => exact (represents.inside _ _ step).2
  constructor
  · intro path
    induction path with
    | refl => exact ReflTransGen.refl
    | tail _ step induction =>
        exact
          induction.tail
            ((represents.mem_successors _ (closed induction) _).mp step)
  · intro path
    induction path with
    | refl => exact ReflTransGen.refl
    | tail before step induction =>
        exact
          induction.tail
            ((represents.mem_successors _ (closed before) _).mpr step)

theorem reachable_iff (represents : heap.Represents live edge)
    {graph : GraphId} (alive : live (heap.graphs graph).entry)
    (node : NodeId) :
    heap.Reachable graph node ↔
      ReflTransGen edge (heap.graphs graph).entry node :=
  represents.reach_iff alive node

theorem link_iff (represents : heap.Represents live edge)
    {graph : GraphId} (alive : live (heap.graphs graph).entry)
    (source target : NodeId) :
    heap.Link graph source target ↔
      ReflTransGen edge (heap.graphs graph).entry source ∧
        edge source target := by
  unfold Link
  rw [represents.reachable_iff alive]
  apply and_congr_right
  intro path
  have sourceLive : live source := by
    rcases ReflTransGen.cases_tail path with equal | ⟨before, _, step⟩
    · exact equal ▸ alive
    · exact (represents.inside before source step).2
  exact represents.mem_successors source sourceLive target

/-- When the entry spans the live nodes, they are the nodes of the graph. -/
theorem live_iff (represents : heap.Represents live edge)
    {graph : GraphId} (alive : live (heap.graphs graph).entry)
    (spans : ∀ node, live node →
      ReflTransGen edge (heap.graphs graph).entry node) (node : NodeId) :
    heap.Reachable graph node ↔ live node := by
  rw [represents.reachable_iff alive]
  constructor
  · intro path
    rcases ReflTransGen.cases_tail path with equal | ⟨before, _, step⟩
    · exact equal ▸ alive
    · exact (represents.inside before node step).2
  · exact spans node

theorem edge_iff (represents : heap.Represents live edge)
    {graph : GraphId} (alive : live (heap.graphs graph).entry)
    (spans : ∀ node, live node →
      ReflTransGen edge (heap.graphs graph).entry node)
    (source target : NodeId) :
    heap.Link graph source target ↔ edge source target := by
  rw [represents.link_iff alive]
  constructor
  · exact And.right
  · intro step
    exact ⟨spans source (represents.inside source target step).1, step⟩

end Represents

variable {heap : Heap} {graph : GraphId}

theorem Reachable.reach_iff {source target : NodeId}
    (reachable : heap.Reachable graph source) :
    MarkSearch.Reach heap.successors source target ↔
      ReflTransGen (heap.Link graph) source target :=
  ⟨reachable.links, ReflTransGen.mono (fun _ _ => Link.edge) _ _⟩

/-- The lists of a well-formed graph represent its links. -/
theorem WellFormed.represents (formed : heap.WellFormed graph) :
    heap.Represents (heap.Reachable graph) (heap.Link graph) where
  successors_nodup := formed.successors_nodup
  predecessors_nodup := formed.predecessors_nodup
  mem_successors := by
    intro node reachable next
    exact ⟨fun member => ⟨reachable, member⟩, And.right⟩
  mem_predecessors := formed.mem_predecessors
  inside := fun _ _ link => ⟨link.1, link.reachable⟩

/--
A graph whose lists represent an acyclic relation on nodes that are all between
its entry and its exit is well formed.
-/
theorem WellFormed.of_represents {live : NodeId → Prop}
    {edge : NodeId → NodeId → Prop}
    (represents : heap.Represents live edge)
    (graph_lt : graph < heap.graphCount)
    (allocated : ∀ node, live node → node < heap.nodeCount)
    (entryLive : live (heap.graphs graph).entry)
    (fromEntry : ∀ node, live node →
      ReflTransGen edge (heap.graphs graph).entry node)
    (toExit : ∀ node, live node →
      ReflTransGen edge node (heap.graphs graph).exit)
    (acyclic : Digraph.Acyclic edge) :
    heap.WellFormed graph := by
  have reachableIff := represents.live_iff entryLive fromEntry
  have linkIff := represents.edge_iff entryLive fromEntry
  exact {
    graph_lt := graph_lt
    allocated := fun node reachable =>
      allocated node ((reachableIff node).mp reachable)
    successors_nodup := fun node reachable =>
      represents.successors_nodup node ((reachableIff node).mp reachable)
    predecessors_nodup := fun node reachable =>
      represents.predecessors_nodup node ((reachableIff node).mp reachable)
    mem_predecessors := by
      intro node reachable pred
      rw [linkIff]
      exact
        represents.mem_predecessors node ((reachableIff node).mp reachable)
          pred
    acyclic := acyclic.mono fun source target link =>
      (linkIff source target).mp link
    reaches_exit := by
      intro node reachable
      have alive := (reachableIff node).mp reachable
      exact (represents.reach_iff alive _).mpr (toExit node alive) }

end Heap

end Cgir.Model
