import Mathlib.Algebra.Group.Nat.Defs
import Cgir.Library.Loop
import Cgir.Model.Walk

/-!
# Where an operation writes

The passes work on the nodes of one graph in a heap that other graphs share.  A
run of operations that is confined to a set of nodes changes no other node and no
other graph that was there before: it follows adjacency lists only, and these stay
within the set and the nodes that the run allocated itself.
-/

namespace Cgir.Model.Heap

open Relation
open Cgir.Library

/-- What was there before keeps the marks of walks, and the rest has none. -/
structure Steady (base heap : Heap) : Prop where
  nodeCount_le : base.nodeCount ≤ heap.nodeCount
  graphCount_le : base.graphCount ≤ heap.graphCount
  mark_eq : ∀ n < base.nodeCount,
    (heap.nodes n).walkId = (base.nodes n).walkId
  mark_new : ∀ n, base.nodeCount ≤ n → n < heap.nodeCount →
    (heap.nodes n).walkId = 0
  walkId_eq : ∀ graph < base.graphCount,
    (heap.graphs graph).walkId = (base.graphs graph).walkId

theorem Steady.refl (heap : Heap) : Steady heap heap :=
  ⟨le_rfl, le_rfl, fun _ _ => rfl,
    fun _ fresh below => (Nat.not_lt.mpr fresh below).elim, fun _ _ => rfl⟩

/-- Writing a node that keeps its mark. -/
theorem Steady.updateNode {base heap : Heap} (steady : Steady base heap)
    {n : NodeId} {change : CommandGraphNode → CommandGraphNode}
    (mark : (change (heap.nodes n)).walkId = (heap.nodes n).walkId) :
    Steady base (heap.updateNode n change) where
  nodeCount_le := steady.nodeCount_le
  graphCount_le := steady.graphCount_le
  mark_eq := by
    intro other old
    rw [updateNode_nodes, ← steady.mark_eq other old]
    split
    · rename_i same
      rw [mark, same]
    · rfl
  mark_new := by
    intro other fresh below
    rw [updateNode_nodes, ← steady.mark_new other fresh below]
    split
    · rename_i same
      rw [mark, same]
    · rfl
  walkId_eq := steady.walkId_eq

/-- Nodes of the given set, and those allocated since the start. -/
def Owned (inside : NodeId → Prop) (start heap : Heap) (n : NodeId) : Prop :=
  inside n ∨ start.nodeCount ≤ n ∧ n < heap.nodeCount

/--
What happened since the start is confined to a set of nodes and to one graph, and
nothing was marked since the last walk, which left `base`.
-/
structure Confined (inside : NodeId → Prop) (graph : GraphId)
    (start base heap : Heap) : Prop where
  steady : Steady base heap
  nodes_eq : ∀ n < start.nodeCount, ¬ inside n →
    heap.nodes n = start.nodes n
  graphs_eq : ∀ other < start.graphCount, other ≠ graph →
    heap.graphs other = start.graphs other
  nodeCount_le : start.nodeCount ≤ heap.nodeCount
  graphCount_le : start.graphCount ≤ heap.graphCount
  successors : ∀ n, Owned inside start heap n →
    ∀ next ∈ heap.successors n, Owned inside start heap next
  predecessors : ∀ n, Owned inside start heap n →
    ∀ pred ∈ heap.predecessors n, Owned inside start heap pred
  entry : Owned inside start heap (heap.graphs graph).entry
  exit : Owned inside start heap (heap.graphs graph).exit

section Confinement

variable {inside : NodeId → Prop} {graph : GraphId}
  {start base heap : Heap}

/-- A node that is not owned is not one of the nodes that are written. -/
theorem Owned.ne {n other : NodeId} (old : other < start.nodeCount)
    (outside : ¬ inside other) (owned : Owned inside start heap n) :
    other ≠ n := by
  rintro rfl
  rcases owned with member | ⟨fresh, -⟩
  · exact outside member
  · exact Nat.not_lt.mpr fresh old

theorem Owned.of_le {after : Heap} (more : heap.nodeCount ≤ after.nodeCount)
    {n : NodeId} (owned : Owned inside start heap n) :
    Owned inside start after n :=
  owned.imp_right fun ⟨fresh, below⟩ => ⟨fresh, below.trans_le more⟩

/-- The nodes of a well-formed graph are a set to be confined to. -/
theorem WellFormed.confined (formed : heap.WellFormed graph) :
    Confined (heap.Reachable graph) graph heap heap heap where
  steady := .refl heap
  nodes_eq := fun _ _ _ => rfl
  graphs_eq := fun _ _ _ => rfl
  nodeCount_le := le_rfl
  graphCount_le := le_rfl
  successors := by
    rintro n (reachable | ⟨fresh, old⟩) next member
    · exact Or.inl (reachable.tail member)
    · exact (Nat.not_lt.mpr fresh old).elim
  predecessors := by
    rintro n (reachable | ⟨fresh, old⟩) pred member
    · exact Or.inl ((formed.mem_predecessors n reachable pred).mp member).1
    · exact (Nat.not_lt.mpr fresh old).elim
  entry := Or.inl reachable_entry
  exit := Or.inl formed.reachable_exit

namespace Confined

variable (confined : Confined inside graph start base heap)

include confined

/-- A path along successors stays where it starts. -/
theorem owned_of_reach {source target : NodeId}
    (owned : Owned inside start heap source)
    (path : MarkSearch.Reach heap.successors source target) :
    Owned inside start heap target := by
  induction path with
  | refl => exact owned
  | tail _ step before => exact confined.successors _ before _ step

/-- One node is written, and its new lists stay within the set. -/
theorem updateNode {n : NodeId} (owned : Owned inside start heap n)
    {change : CommandGraphNode → CommandGraphNode}
    (successors : ∀ next ∈ (change (heap.nodes n)).successors,
      Owned inside start heap next)
    (predecessors : ∀ pred ∈ (change (heap.nodes n)).predecessors,
      Owned inside start heap pred)
    (mark : (change (heap.nodes n)).walkId = (heap.nodes n).walkId) :
    Confined inside graph start base (heap.updateNode n change) where
  steady := confined.steady.updateNode mark
  nodes_eq := by
    intro other old outside
    rw [updateNode_nodes,
      if_neg (Owned.ne old outside owned)]
    exact confined.nodes_eq other old outside
  graphs_eq := confined.graphs_eq
  nodeCount_le := confined.nodeCount_le
  graphCount_le := confined.graphCount_le
  successors := by
    intro other otherOwned next member
    rw [Heap.successors, updateNode_nodes] at member
    split at member
    · exact successors next member
    · exact confined.successors other otherOwned next member
  predecessors := by
    intro other otherOwned pred member
    rw [Heap.predecessors, updateNode_nodes] at member
    split at member
    · exact predecessors pred member
    · exact confined.predecessors other otherOwned pred member
  entry := confined.entry
  exit := confined.exit

/-- The lists of one node become parts of what they were. -/
theorem updateNode_of_subset {n : NodeId}
    (owned : Owned inside start heap n)
    {change : CommandGraphNode → CommandGraphNode}
    (successors : (change (heap.nodes n)).successors ⊆ heap.successors n)
    (predecessors :
      (change (heap.nodes n)).predecessors ⊆ heap.predecessors n)
    (mark : (change (heap.nodes n)).walkId = (heap.nodes n).walkId) :
    Confined inside graph start base (heap.updateNode n change) :=
  confined.updateNode owned
    (fun next member => confined.successors n owned next (successors member))
    (fun pred member =>
      confined.predecessors n owned pred (predecessors member)) mark

theorem setCommand {n : NodeId} (owned : Owned inside start heap n)
    (command : Command) :
    Confined inside graph start base (heap.setCommand n command) :=
  confined.updateNode_of_subset owned (List.Subset.refl _)
    (List.Subset.refl _) rfl

theorem setIteratorIndex {n : NodeId} (owned : Owned inside start heap n)
    (index : Nat) :
    Confined inside graph start base (heap.setIteratorIndex n index) :=
  confined.updateNode_of_subset owned (List.Subset.refl _)
    (List.Subset.refl _) rfl

theorem eraseSuccessor {n : NodeId} (owned : Owned inside start heap n)
    (succ : NodeId) :
    Confined inside graph start base (heap.eraseSuccessor n succ) :=
  confined.updateNode_of_subset owned List.erase_subset
    (List.Subset.refl _) rfl

theorem erasePredecessor {n : NodeId} (owned : Owned inside start heap n)
    (pred : NodeId) :
    Confined inside graph start base (heap.erasePredecessor n pred) :=
  confined.updateNode_of_subset owned (List.Subset.refl _)
    List.erase_subset rfl

theorem setSuccessors {n : NodeId} (owned : Owned inside start heap n)
    {list : List NodeId}
    (within : ∀ next ∈ list, Owned inside start heap next) :
    Confined inside graph start base (heap.setSuccessors n list) :=
  confined.updateNode owned within
    (fun pred member => confined.predecessors n owned pred member) rfl

theorem setPredecessors {n : NodeId} (owned : Owned inside start heap n)
    {list : List NodeId}
    (within : ∀ pred ∈ list, Owned inside start heap pred) :
    Confined inside graph start base (heap.setPredecessors n list) :=
  confined.updateNode owned
    (fun next member => confined.successors n owned next member) within rfl

theorem precedes {n succ : NodeId} (owned : Owned inside start heap n)
    (succOwned : Owned inside start heap succ) :
    Confined inside graph start base (heap.precedes n succ) := by
  have pushed : Confined inside graph start base (heap.pushSuccessor n succ) := by
    apply confined.updateNode owned
    · intro next member
      rcases List.mem_append.mp member with old | new
      · exact confined.successors n owned next old
      · exact List.mem_singleton.mp new ▸ succOwned
    · exact fun pred member => confined.predecessors n owned pred member
    · rfl
  rw [Heap.precedes, pushPredecessor]
  apply pushed.updateNode succOwned
  · exact fun next member => pushed.successors succ succOwned next member
  · intro pred member
    rcases List.mem_append.mp member with old | new
    · exact pushed.predecessors succ succOwned pred old
    · exact List.mem_singleton.mp new ▸ owned
  · rfl

theorem detach {n succ : NodeId} (owned : Owned inside start heap n)
    (succOwned : Owned inside start heap succ) :
    Confined inside graph start base (heap.detach n succ) :=
  (confined.eraseSuccessor owned succ).erasePredecessor succOwned n

/-! ## Allocation -/

/-- A fresh node has no neighbours. -/
theorem commandGraphNodeNew (deviceUniqueId : DeviceUniqueId)
    (type : CommandGraphNodeType) :
    Confined inside graph start base
      (heap.commandGraphNodeNew deviceUniqueId type).2 := by
  have more :
      heap.nodeCount ≤
        (heap.commandGraphNodeNew deviceUniqueId type).2.nodeCount := by
    simp
  have known : ∀ {n}, n ≠ heap.nodeCount →
      Owned inside start (heap.commandGraphNodeNew deviceUniqueId type).2 n →
        Owned inside start heap n := by
    rintro n other (member | ⟨fresh, below⟩)
    · exact Or.inl member
    · rw [commandGraphNodeNew_nodeCount] at below
      exact
        Or.inr ⟨fresh, lt_of_le_of_ne (Nat.lt_succ_iff.mp below) other⟩
  exact {
    steady := {
      nodeCount_le := confined.steady.nodeCount_le.trans more
      graphCount_le := confined.steady.graphCount_le
      mark_eq := by
        intro n old
        have other : n ≠ heap.nodeCount :=
          (old.trans_le confined.steady.nodeCount_le).ne
        rw [commandGraphNodeNew_nodes, if_neg other]
        exact confined.steady.mark_eq n old
      mark_new := by
        intro n fresh below
        rw [commandGraphNodeNew_nodes]
        split
        · rfl
        · rename_i other
          rw [commandGraphNodeNew_nodeCount] at below
          exact
            confined.steady.mark_new n fresh
              (lt_of_le_of_ne (Nat.lt_succ_iff.mp below) other)
      walkId_eq := confined.steady.walkId_eq }
    nodes_eq := by
      intro n old outside
      have other : n ≠ heap.nodeCount :=
        (old.trans_le confined.nodeCount_le).ne
      rw [commandGraphNodeNew_nodes, if_neg other]
      exact confined.nodes_eq n old outside
    graphs_eq := confined.graphs_eq
    nodeCount_le := confined.nodeCount_le.trans more
    graphCount_le := confined.graphCount_le
    successors := by
      intro n owned next member
      rw [commandGraphNodeNew_successors] at member
      split at member
      · cases member
      · rename_i other
        exact
          Owned.of_le more
            (confined.successors n (known other owned) next member)
    predecessors := by
      intro n owned pred member
      rw [commandGraphNodeNew_predecessors] at member
      split at member
      · cases member
      · rename_i other
        exact
          Owned.of_le more
            (confined.predecessors n (known other owned) pred member)
    entry := Owned.of_le more confined.entry
    exit := Owned.of_le more confined.exit }

theorem owned_new (deviceUniqueId : DeviceUniqueId)
    (type : CommandGraphNodeType) :
    Owned inside start (heap.commandGraphNodeNew deviceUniqueId type).2
      heap.nodeCount :=
  Or.inr ⟨confined.nodeCount_le, by simp⟩

/-- A graph object other than that of the graph is allocated or changed. -/
theorem of_graphs {after : Heap} (nodes : after.nodes = heap.nodes)
    (nodeCount : after.nodeCount = heap.nodeCount)
    (graphCount : heap.graphCount ≤ after.graphCount)
    (others : ∀ other < start.graphCount, other ≠ graph →
      after.graphs other = heap.graphs other)
    (walkIds : ∀ other < base.graphCount,
      (after.graphs other).walkId = (heap.graphs other).walkId)
    (entry : Owned inside start heap (after.graphs graph).entry)
    (exit : Owned inside start heap (after.graphs graph).exit) :
    Confined inside graph start base after where
  steady := {
    nodeCount_le := nodeCount ▸ confined.steady.nodeCount_le
    graphCount_le := confined.steady.graphCount_le.trans graphCount
    mark_eq := by
      rw [nodes]
      exact confined.steady.mark_eq
    mark_new := by
      rw [nodes, nodeCount]
      exact confined.steady.mark_new
    walkId_eq := by
      intro other old
      rw [walkIds other old]
      exact confined.steady.walkId_eq other old }
  nodes_eq := by
    intro n old outside
    rw [nodes]
    exact confined.nodes_eq n old outside
  graphs_eq := by
    intro other old different
    rw [others other old different]
    exact confined.graphs_eq other old different
  nodeCount_le := nodeCount ▸ confined.nodeCount_le
  graphCount_le := confined.graphCount_le.trans graphCount
  successors := by
    simp only [Owned, Heap.successors, nodes, nodeCount]
    exact confined.successors
  predecessors := by
    simp only [Owned, Heap.predecessors, nodes, nodeCount]
    exact confined.predecessors
  entry := by rwa [Owned, nodeCount]
  exit := by rwa [Owned, nodeCount]

/-- A fresh graph object is not that of the graph. -/
theorem allocateGraph (graphOld : graph < start.graphCount)
    (entry exit : NodeId) :
    Confined inside graph start base (heap.allocateGraph entry exit).2 := by
  have apart : ∀ other < start.graphCount, other ≠ heap.graphCount :=
    fun other old => (old.trans_le confined.graphCount_le).ne
  refine confined.of_graphs ?_ ?_ ?_ ?_ ?_ ?_ ?_
  · rfl
  · rfl
  · simp
  · intro other old _
    rw [allocateGraph_graphs, if_neg (apart other old)]
  · intro other old
    rw [allocateGraph_graphs,
      if_neg (old.trans_le confined.steady.graphCount_le).ne]
  · rw [allocateGraph_graphs, if_neg (apart graph graphOld)]
    exact confined.entry
  · rw [allocateGraph_graphs, if_neg (apart graph graphOld)]
    exact confined.exit

/-- A graph that was allocated since the start may be changed. -/
theorem updateGraph_new (graphOld : graph < start.graphCount)
    {sub : GraphId} (fresh : start.graphCount ≤ sub)
    {change : CommandGraph → CommandGraph}
    (walkId : (change (heap.graphs sub)).walkId =
      (heap.graphs sub).walkId) :
    Confined inside graph start base (heap.updateGraph sub change) := by
  have apart : ∀ other < start.graphCount,
      (heap.updateGraph sub change).graphs other = heap.graphs other := by
    intro other old
    exact Function.update_of_ne (old.trans_le fresh).ne _ _
  refine
    confined.of_graphs ?_ ?_ ?_ (fun other old _ => apart other old) ?_ ?_ ?_
  · rfl
  · rfl
  · rfl
  · intro other _
    show (Function.update heap.graphs sub (change (heap.graphs sub))
      other).walkId = _
    rw [Function.update_apply]
    split
    · rename_i same
      rw [walkId, same]
    · rfl
  · rw [apart graph graphOld]
    exact confined.entry
  · rw [apart graph graphOld]
    exact confined.exit

/-- A fresh graph with fresh ends. -/
theorem commandGraphNew (graphOld : graph < start.graphCount) :
    Confined inside graph start base (heap.commandGraphNew none).2 ∧
      Owned inside start (heap.commandGraphNew none).2 heap.nodeCount ∧
        Owned inside start (heap.commandGraphNew none).2
          (heap.nodeCount + 1) := by
  have first :=
    confined.commandGraphNodeNew unspecifiedDeviceUniqueId .empty
  have second := first.commandGraphNodeNew unspecifiedDeviceUniqueId .empty
  have entryOwned : Owned inside start (heap.commandGraphNew none).2
      heap.nodeCount := by
    refine Or.inr ⟨confined.nodeCount_le, ?_⟩
    simp
  have exitOwned : Owned inside start (heap.commandGraphNew none).2
      (heap.nodeCount + 1) := by
    refine Or.inr ⟨confined.nodeCount_le.trans (Nat.le_succ _), ?_⟩
    simp
  exact
    ⟨(second.precedes entryOwned exitOwned).allocateGraph graphOld _ _,
      entryOwned, exitOwned⟩

/-- A fresh graph without the default edge between its ends. -/
theorem newSubGraph (graphOld : graph < start.graphCount) :
    let created := (heap.commandGraphNew none).2
    let object := created.graphs (heap.commandGraphNew none).1
    let cut :=
      (created.setSuccessors object.entry []).setPredecessors object.exit []
    Confined inside graph start base cut ∧
      Owned inside start cut object.entry ∧
        Owned inside start cut object.exit := by
  obtain ⟨created, entryOwned, exitOwned⟩ := confined.commandGraphNew graphOld
  simp only [commandGraphNew_none_id, commandGraphNew_none_graphs, if_pos]
  exact
    ⟨(created.setSuccessors entryOwned
        (fun n member => (List.not_mem_nil member).elim)).setPredecessors
        exitOwned (fun n member => (List.not_mem_nil member).elim),
      entryOwned, exitOwned⟩

/-! ## Walks -/

/-- Marks may be kept from now on instead. -/
theorem rebase : Confined inside graph start heap heap :=
  { confined with steady := .refl heap }

/-- A walk that returns marks nodes of the set and reports no others. -/
theorem walk {kind : MarkSearch.Kind} {walked : Heap}
    {visited : List NodeId}
    (ran : heap.walk graph kind = some (walked, visited)) :
    Confined inside graph start walked walked ∧
      ∀ n ∈ visited, Owned inside start walked n := by
  obtain ⟨result, searched, same⟩ := Option.bind_eq_some_iff.mp ran
  simp only [Option.pure_def, Option.some.injEq, Prod.mk.injEq] at same
  obtain ⟨rfl, rfl⟩ := same
  have sweep := MarkSearch.sweep_of_walk searched
  have ownedOf : ∀ n ∈ result.visited, Owned inside start heap n :=
    fun n member =>
      confined.owned_of_reach confined.entry (sweep.sound n member)
  refine ⟨?_, ownedOf⟩
  exact {
    steady := .refl _
    nodes_eq := by
      intro n old outside
      have unvisited : n ∉ result.visited := fun member =>
        Owned.ne old outside (ownedOf n member) rfl
      have same := confined.nodes_eq n old outside
      simp only [writeMarks, sweep.mark_eq, if_neg unvisited]
      exact same
    graphs_eq := by
      intro other old different
      exact
        (Function.update_of_ne different _ _).trans
          (confined.graphs_eq other old different)
    nodeCount_le := confined.nodeCount_le
    graphCount_le := confined.graphCount_le
    successors := confined.successors
    predecessors := confined.predecessors
    entry := by
      simp only [writeMarks, Function.update_self]
      exact confined.entry
    exit := by
      simp only [writeMarks, Function.update_self]
      exact confined.exit }

/-- The node iterators hold nodes of the set. -/
theorem createNodeIterators {includeEntryExit : Bool} {indexed : Heap}
    {nodes : List NodeId}
    (ran : heap.createNodeIterators graph includeEntryExit =
      some (indexed, nodes)) :
    Confined inside graph start indexed indexed ∧
      ∀ n ∈ nodes, Owned inside start indexed n := by
  obtain ⟨⟨walked, visited⟩, walks, same⟩ := Option.bind_eq_some_iff.mp ran
  obtain ⟨walkedConfined, owned⟩ := confined.walk walks
  simp only [Option.pure_def, Option.some.injEq] at same
  have pushed : ∀ list : List NodeId, (∀ n ∈ list, n ∈ visited) →
      ∀ state : Heap × List NodeId,
        state.1.nodeCount = walked.nodeCount →
        Confined inside graph start walked state.1 →
        (∀ n ∈ state.2, n ∈ visited) →
          let final :=
            list.foldl (pushIterator (heap.graphs graph) includeEntryExit)
              state
          final.1.nodeCount = walked.nodeCount ∧
            Confined inside graph start walked final.1 ∧
              ∀ n ∈ final.2, n ∈ visited := by
    intro list
    induction list with
    | nil => exact fun _ state count kept members => ⟨count, kept, members⟩
    | cons n rest induction =>
        intro listed state count kept members
        have here := listed n List.mem_cons_self
        rw [List.foldl_cons]
        apply induction fun m member => listed m (List.mem_cons_of_mem _ member)
        · unfold pushIterator
          split <;> exact count
        · unfold pushIterator
          split
          · exact kept
          · apply kept.setIteratorIndex
            rw [Owned, count]
            exact owned n here
        · unfold pushIterator
          split
          · exact members
          · intro m member
            rcases List.mem_append.mp member with old | new
            · exact members m old
            · rwa [List.mem_singleton.mp new]
  obtain ⟨count, kept, members⟩ :=
    pushed visited (fun _ member => member) (walked, []) rfl walkedConfined
      (by simp)
  simp only [same] at count kept members
  refine ⟨kept.rebase, fun n member => ?_⟩
  rw [Owned, count]
  exact owned n (members n member)

/-- The graph itself gets other ends of the set. -/
theorem updateGraph_self {change : CommandGraph → CommandGraph}
    (entry : Owned inside start heap (change (heap.graphs graph)).entry)
    (exit : Owned inside start heap (change (heap.graphs graph)).exit)
    (walkId : (change (heap.graphs graph)).walkId =
      (heap.graphs graph).walkId) :
    Confined inside graph start base (heap.updateGraph graph change) := by
  have here : (heap.updateGraph graph change).graphs graph =
      change (heap.graphs graph) := Function.update_self _ _ _
  have others : ∀ other, other ≠ graph →
      (heap.updateGraph graph change).graphs other = heap.graphs other :=
    fun other different => Function.update_of_ne different _ _
  refine
    confined.of_graphs ?_ ?_ ?_ (fun other _ => others other) ?_ ?_ ?_
  · rfl
  · rfl
  · rfl
  · intro other _
    by_cases same : other = graph
    · rw [same, here, walkId]
    · rw [others other same]
  · rwa [here]
  · rwa [here]

/-! ## Loops -/

/-- A loop over nodes of the set, none of whose iterations allocates. -/
theorem foldl {Item : Type} (step : Heap → Item → Heap) (list : List Item)
    (each : ∀ item ∈ list, ∀ heap',
      Confined inside graph start base heap' →
        heap'.nodeCount = heap.nodeCount →
          Confined inside graph start base (step heap' item) ∧
            (step heap' item).nodeCount = heap.nodeCount) :
    Confined inside graph start base (list.foldl step heap) ∧
      (list.foldl step heap).nodeCount = heap.nodeCount := by
  refine
    Loop.foldl_invariant step
      (fun _ heap' => Confined inside graph start base heap' ∧
        heap'.nodeCount = heap.nodeCount) list heap ?_ ⟨confined, rfl⟩
  rintro done item rest heap' rfl ⟨kept, count⟩
  exact each item (by simp) heap' kept count

/-- A loop that may fail and that may allocate. -/
theorem foldlM_le {Item State : Type} {step : State → Item → Option State}
    {list : List Item} {first last : State} (heapOf : State → Heap)
    (here : heapOf first = heap)
    (each : ∀ item ∈ list, ∀ state next,
      Confined inside graph start base (heapOf state) →
        heap.nodeCount ≤ (heapOf state).nodeCount →
          step state item = some next →
            Confined inside graph start base (heapOf next) ∧
              (heapOf state).nodeCount ≤ (heapOf next).nodeCount)
    (ran : list.foldlM step first = some last) :
    Confined inside graph start base (heapOf last) ∧
      heap.nodeCount ≤ (heapOf last).nodeCount := by
  refine
    Loop.foldlM_some_invariant
      (fun _ state => Confined inside graph start base (heapOf state) ∧
        heap.nodeCount ≤ (heapOf state).nodeCount) ran ?_ ?_
  · rintro done item rest state next rfl ⟨kept, count⟩ stepped
    obtain ⟨kept', count'⟩ :=
      each item (by simp) state next kept count stepped
    exact ⟨kept', count.trans count'⟩
  · rw [here]
    exact ⟨confined, le_rfl⟩

/-- A loop that may fail, none of whose iterations allocates. -/
theorem foldlM {Item : Type} {step : Heap → Item → Option Heap}
    {list : List Item} {after : Heap}
    (each : ∀ item ∈ list, ∀ heap' next,
      Confined inside graph start base heap' →
        heap'.nodeCount = heap.nodeCount → step heap' item = some next →
          Confined inside graph start base next ∧
            next.nodeCount = heap.nodeCount)
    (ran : list.foldlM step heap = some after) :
    Confined inside graph start base after ∧
      after.nodeCount = heap.nodeCount := by
  refine
    Loop.foldlM_some_invariant
      (fun _ heap' => Confined inside graph start base heap' ∧
        heap'.nodeCount = heap.nodeCount) ran ?_ ⟨confined, rfl⟩
  rintro done item rest heap' next rfl ⟨kept, count⟩ stepped
  exact each item (by simp) heap' next kept count stepped

end Confined

/-! ## Marks -/

/-- If walks are complete, the nodes of a graph carry the mark of its last walk. -/
def Settles (graph : GraphId) (heap walked : Heap) : Prop :=
  (∀ n, heap.Reachable graph n → n < heap.nodeCount) →
    heap.WalkReady graph →
      walked.unmarked = heap.unmarked ∧
        ∀ n, heap.Reachable graph n →
          (walked.nodes n).walkId = (walked.graphs graph).walkId

theorem Settles.of_walk {kind : MarkSearch.Kind} {walked : Heap}
    {visited : List NodeId}
    (ran : heap.walk graph kind = some (walked, visited)) :
    Settles graph heap walked := by
  intro allocated ready
  obtain ⟨walked', visited', ran', done⟩ := walk_spec allocated ready kind
  obtain ⟨rfl, rfl⟩ := Prod.mk.inj (Option.some.inj (ran.symm.trans ran'))
  refine ⟨done.unmarked_eq, fun n reachable => ?_⟩
  rw [done.mark_reachable n reachable, done.walkId_eq]

theorem Settles.of_createNodeIterators {includeEntryExit : Bool}
    {indexed : Heap} {nodes : List NodeId}
    (ran : heap.createNodeIterators graph includeEntryExit =
      some (indexed, nodes)) :
    Settles graph heap indexed := by
  intro allocated ready
  obtain ⟨indexed', nodes', ran', iterated⟩ :=
    createNodeIterators_spec allocated ready includeEntryExit
  obtain ⟨rfl, rfl⟩ := Prod.mk.inj (Option.some.inj (ran.symm.trans ran'))
  refine ⟨iterated.unmarked_eq, fun n reachable => ?_⟩
  rw [iterated.mark_reachable n reachable, iterated.walkId_eq]

theorem Settles.trans {middle last : Heap}
    (first : Settles graph heap middle) (second : Settles graph middle last) :
    Settles graph heap last := by
  intro allocated ready
  obtain ⟨same, marks⟩ := first allocated ready
  have reachEq : middle.Reachable graph = heap.Reachable graph :=
    reachable_congr same
  obtain ⟨same', marks'⟩ :=
    second
      (by
        intro n reachable
        rw [unmarked_nodeCount same]
        exact allocated n (reachEq ▸ reachable))
      (by
        intro n reachable _ stale
        rw [marks n (reachEq ▸ reachable)] at stale
        simp at stale)
  exact
    ⟨same'.trans same,
      fun n reachable => marks' n (reachEq ▸ reachable)⟩

/-- What keeps marks can be walked when no node came in from outside. -/
theorem Settles.ready {walked after : Heap}
    (settles : Settles graph heap walked) (steady : Steady walked after)
    (formed : heap.WellFormed graph) (ready : heap.WalkReady graph)
    (remains : ∀ n, after.Reachable graph n → heap.Reachable graph n) :
    after.WalkReady graph := by
  obtain ⟨same, marks⟩ := settles formed.allocated ready
  intro n reachable _ stale
  have before := remains n reachable
  have old : n < walked.nodeCount :=
    unmarked_nodeCount same ▸ formed.allocated n before
  have graphOld : graph < walked.graphCount :=
    unmarked_graphCount same ▸ formed.graph_lt
  rw [steady.mark_eq n old, steady.walkId_eq graph graphOld,
    marks n before] at stale
  simp at stale

/-- No node carries the mark of a later walk than the last one. -/
def MarksUpTo (graph : GraphId) (heap : Heap) (n : NodeId) : Prop :=
  (heap.nodes n).walkId.toNat ≤ (heap.graphs graph).walkId.toNat

instance (graph : GraphId) (heap : Heap) (n : NodeId) :
    Decidable (MarksUpTo graph heap n) :=
  inferInstanceAs (Decidable (_ ≤ _))

/-- A number of walks counts the marks up as long as they do not wrap. -/
structure Counts (graph : GraphId) (walks : Nat) (heap walked : Heap) :
    Prop where
  nodeCount_eq : walked.nodeCount = heap.nodeCount
  graphCount_eq : walked.graphCount = heap.graphCount
  walkId_eq : (heap.graphs graph).walkId.toNat + walks < 2 ^ 8 →
    (walked.graphs graph).walkId.toNat =
      (heap.graphs graph).walkId.toNat + walks
  marks : (heap.graphs graph).walkId.toNat + walks < 2 ^ 8 →
    ∀ n, MarksUpTo graph heap n → MarksUpTo graph walked n

theorem Counts.of_walk {kind : MarkSearch.Kind} {walked : Heap}
    {visited : List NodeId}
    (ran : heap.walk graph kind = some (walked, visited)) :
    Counts graph 1 heap walked := by
  obtain ⟨result, searched, same⟩ := Option.bind_eq_some_iff.mp ran
  cases same
  have sweep := MarkSearch.sweep_of_walk searched
  have counted (bound : (heap.graphs graph).walkId.toNat + 1 < 2 ^ 8) :
      ((heap.graphs graph).walkId + 1).toNat =
        (heap.graphs graph).walkId.toNat + 1 := by
    rw [BitVec.toNat_add]
    exact Nat.mod_eq_of_lt bound
  exact {
    nodeCount_eq := rfl
    graphCount_eq := rfl
    walkId_eq := by
      intro bound
      simpa [writeMarks] using counted bound
    marks := by
      intro bound n below
      simp only [MarksUpTo, writeMarks, Function.update_self, sweep.mark_eq]
      split
      · exact le_rfl
      · rw [counted bound]
        exact Nat.le_succ_of_le below }

theorem Counts.of_createNodeIterators {includeEntryExit : Bool}
    {indexed : Heap} {nodes : List NodeId}
    (ran : heap.createNodeIterators graph includeEntryExit =
      some (indexed, nodes)) :
    Counts graph 1 heap indexed := by
  obtain ⟨⟨walked, visited⟩, walks, same⟩ := Option.bind_eq_some_iff.mp ran
  simp only [Option.pure_def, Option.some.injEq] at same
  have kept : ∀ (list : List NodeId) (state : Heap × List NodeId),
      let final :=
        list.foldl (pushIterator (heap.graphs graph) includeEntryExit) state
      final.1.nodeCount = state.1.nodeCount ∧
        final.1.graphCount = state.1.graphCount ∧
          final.1.graphs = state.1.graphs ∧
            ∀ n, (final.1.nodes n).walkId = (state.1.nodes n).walkId := by
    intro list
    induction list with
    | nil => exact fun state => ⟨rfl, rfl, rfl, fun n => rfl⟩
    | cons n rest induction =>
        intro state
        rw [List.foldl_cons]
        obtain ⟨count, objects, graphs, marks⟩ :=
          induction (pushIterator (heap.graphs graph) includeEntryExit
            state n)
        have pushed :
            (pushIterator (heap.graphs graph) includeEntryExit state
                n).1.nodeCount = state.1.nodeCount ∧
              (pushIterator (heap.graphs graph) includeEntryExit state
                n).1.graphCount = state.1.graphCount ∧
              (pushIterator (heap.graphs graph) includeEntryExit state
                n).1.graphs = state.1.graphs ∧
              ∀ m, ((pushIterator (heap.graphs graph) includeEntryExit state
                n).1.nodes m).walkId = (state.1.nodes m).walkId := by
          unfold pushIterator
          split
          · exact ⟨rfl, rfl, rfl, fun m => rfl⟩
          · refine ⟨rfl, rfl, rfl, fun m => ?_⟩
            rw [setIteratorIndex, updateNode_nodes]
            split
            · rename_i same
              rw [same]
            · rfl
        exact
          ⟨count.trans pushed.1, objects.trans pushed.2.1,
            graphs.trans pushed.2.2.1,
            fun m => (marks m).trans (pushed.2.2.2 m)⟩
  obtain ⟨count, objects, graphs, marks⟩ := kept visited (walked, [])
  simp only [same] at count objects graphs marks
  have counts : Counts graph 1 heap walked := .of_walk walks
  exact {
    nodeCount_eq := count.trans counts.nodeCount_eq
    graphCount_eq := objects.trans counts.graphCount_eq
    walkId_eq := by
      rw [graphs]
      exact counts.walkId_eq
    marks := by
      intro bound n before
      rw [MarksUpTo, marks, graphs]
      exact counts.marks bound n before }

theorem Counts.trans {middle last : Heap} {walks walks' : Nat}
    (first : Counts graph walks heap middle)
    (second : Counts graph walks' middle last) :
    Counts graph (walks + walks') heap last where
  nodeCount_eq := second.nodeCount_eq.trans first.nodeCount_eq
  graphCount_eq := second.graphCount_eq.trans first.graphCount_eq
  walkId_eq := by
    intro bound
    have counted := first.walkId_eq (by omega)
    rw [second.walkId_eq (by omega), counted, Nat.add_assoc]
  marks := by
    intro bound n before
    have counted := first.walkId_eq (by omega)
    exact second.marks (by omega) n (first.marks (by omega) n before)

/-- Writes that keep marks keep them counted. -/
theorem MarksUpTo.steady {walked after : Heap} (steady : Steady walked after)
    (graphOld : graph < walked.graphCount) {n : NodeId}
    (allocated : n < after.nodeCount)
    (before : n < walked.nodeCount → MarksUpTo graph walked n) :
    MarksUpTo graph after n := by
  rw [MarksUpTo, steady.walkId_eq graph graphOld]
  by_cases old : n < walked.nodeCount
  · rw [steady.mark_eq n old]
    exact before old
  · rw [steady.mark_new n (Nat.not_lt.mp old) allocated]
    exact Nat.zero_le _

/-- Marks that are counted are not stale. -/
theorem MarksUpTo.ready
    (marks : ∀ n, heap.Reachable graph n → MarksUpTo graph heap n)
    (bound : (heap.graphs graph).walkId.toNat + 1 < 2 ^ 8) :
    heap.WalkReady graph := by
  intro n reachable _ stale
  have below := marks n reachable
  rw [MarksUpTo, stale, BitVec.toNat_add] at below
  have counted : ((heap.graphs graph).walkId.toNat + 1) % 2 ^ 8 =
      (heap.graphs graph).walkId.toNat + 1 := Nat.mod_eq_of_lt bound
  have one : (1 : WalkId).toNat = 1 := rfl
  rw [one, counted] at below
  omega

end Confinement

end Cgir.Model.Heap
