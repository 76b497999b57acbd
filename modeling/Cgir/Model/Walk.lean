import Cgir.Library.MarkSearch
import Cgir.Library.Digraph
import Cgir.Model.Heap

/-!
# Walks and well-formed graphs

`command_graph_t::walk` and `create_node_iterators` on the heap, the
well-formedness of a command graph, and what a walk of a well-formed graph does.

Well-formedness is structural: it says nothing about marks.  Whether the next
walk of a graph meets stale marks is the separate predicate `WalkReady`.
-/

namespace Cgir.Model

open Relation
open Cgir.Library

namespace Heap

variable (heap : Heap)

/-! ## Walks -/

/-- Write back the marks of a walk and the identifier it used. -/
def writeMarks (graph : GraphId) (id : WalkId) (mark : NodeId → WalkId) :
    Heap :=
  { heap with
    nodes := fun node => { heap.nodes node with walkId := mark node }
    graphs :=
      Function.update heap.graphs graph
        { heap.graphs graph with walkId := id } }

/--
`command_graph_t::walk` from a node: the heap afterwards, and the nodes given to
the callback in order.
-/
def walkFrom (graph : GraphId) (kind : MarkSearch.Kind) (start : NodeId) :
    Option (Heap × List NodeId) := do
  let id := (heap.graphs graph).walkId + 1
  let result ←
    MarkSearch.walk heap.successors id kind (heap.nodeCount + 1)
      (fun node => (heap.nodes node).walkId) start
  return (heap.writeMarks graph id result.mark, result.visited)

/-- `command_graph_t::walk` from the entry. -/
def walk (graph : GraphId) (kind : MarkSearch.Kind) :
    Option (Heap × List NodeId) :=
  heap.walkFrom graph kind (heap.graphs graph).entry

/-- `node->iterator_index = index`. -/
def setIteratorIndex (node : NodeId) (index : Nat) : Heap :=
  heap.updateNode node fun object => { object with iteratorIndex := index }

/-- The entry and the exit are skipped unless they are asked for. -/
def skipsNode (graph : CommandGraph) (includeEntryExit : Bool)
    (node : NodeId) : Bool :=
  !includeEntryExit && (node = graph.entry || node = graph.exit)

/-- The callback of `create_node_iterators`. -/
def pushIterator (graph : CommandGraph) (includeEntryExit : Bool)
    (state : Heap × List NodeId) (node : NodeId) : Heap × List NodeId :=
  if skipsNode graph includeEntryExit node then
    state
  else
    (state.1.setIteratorIndex node state.2.length, state.2 ++ [node])

/-- `create_node_iterators`, in depth-first pre-order as all its callers ask. -/
def createNodeIterators (graph : GraphId) (includeEntryExit : Bool) :
    Option (Heap × List NodeId) := do
  let (walked, visited) ← heap.walk graph (.dfs .pre)
  return visited.foldl
    (pushIterator (heap.graphs graph) includeEntryExit) (walked, [])

/-! ## Well-formed graphs -/

/-- The node is reachable from the entry of the graph. -/
def Reachable (graph : GraphId) : NodeId → Prop :=
  MarkSearch.Reach heap.successors (heap.graphs graph).entry

/-- The edges between the nodes of a graph. -/
def Link (graph : GraphId) (source target : NodeId) : Prop :=
  heap.Reachable graph source ∧ target ∈ heap.successors source

/--
A well-formed command graph: its nodes are allocated, its adjacency lists are
free of duplicates and mutually consistent, it is acyclic, and every node
reaches the exit.
-/
structure WellFormed (graph : GraphId) : Prop where
  graph_lt : graph < heap.graphCount
  allocated : ∀ node, heap.Reachable graph node → node < heap.nodeCount
  successors_nodup :
    ∀ node, heap.Reachable graph node → (heap.successors node).Nodup
  predecessors_nodup :
    ∀ node, heap.Reachable graph node → (heap.predecessors node).Nodup
  mem_predecessors :
    ∀ node, heap.Reachable graph node → ∀ pred,
      pred ∈ heap.predecessors node ↔ heap.Link graph pred node
  acyclic : Digraph.Acyclic (heap.Link graph)
  reaches_exit :
    ∀ node, heap.Reachable graph node →
      MarkSearch.Reach heap.successors node (heap.graphs graph).exit

/-- No node but the entry carries the identifier of the next walk. -/
def WalkReady (graph : GraphId) : Prop :=
  ∀ node, heap.Reachable graph node → node ≠ (heap.graphs graph).entry →
    (heap.nodes node).walkId ≠ (heap.graphs graph).walkId + 1

/-- The nodes of the graph are among a number of nodes. -/
def NodesAtMost (graph : GraphId) (bound : Nat) : Prop :=
  ∃ nodes : List NodeId, nodes.length ≤ bound ∧
    ∀ node, heap.Reachable graph node → node ∈ nodes

section Reachability

variable {heap} {graph : GraphId}

theorem reachable_entry : heap.Reachable graph (heap.graphs graph).entry :=
  ReflTransGen.refl

theorem Link.reachable {source target : NodeId}
    (link : heap.Link graph source target) :
    heap.Reachable graph target :=
  ReflTransGen.tail link.1 link.2

/-- Paths from a node of the graph stay in the graph. -/
theorem Reachable.links {source target : NodeId}
    (reachable : heap.Reachable graph source)
    (path : MarkSearch.Reach heap.successors source target) :
    ReflTransGen (heap.Link graph) source target := by
  induction path with
  | refl => exact ReflTransGen.refl
  | tail before step induction =>
      exact induction.tail ⟨reachable.trans before, step⟩

theorem Reachable.transLinks {source target : NodeId}
    (reachable : heap.Reachable graph source)
    (path : TransGen (MarkSearch.Edge heap.successors) source target) :
    TransGen (heap.Link graph) source target := by
  obtain ⟨next, step, rest⟩ := TransGen.head'_iff.mp path
  have link : heap.Link graph source next := ⟨reachable, step⟩
  exact TransGen.head' link (link.reachable.links rest)

theorem Link.edge {source target : NodeId}
    (link : heap.Link graph source target) :
    MarkSearch.Edge heap.successors source target :=
  link.2

theorem reachable_iff_links (node : NodeId) :
    heap.Reachable graph node ↔
      ReflTransGen (heap.Link graph) (heap.graphs graph).entry node := by
  constructor
  · exact reachable_entry.links
  · exact ReflTransGen.mono (fun _ _ => Link.edge) _ _

theorem reachable_of_links {source target : NodeId}
    (reachable : heap.Reachable graph source)
    (path : ReflTransGen (heap.Link graph) source target) :
    heap.Reachable graph target :=
  reachable.trans (ReflTransGen.mono (fun _ _ => Link.edge) _ _ path)

/-- Two heaps with the same lists, counts and ends of a graph. -/
structure SameLinks (heap heap' : Heap) (graph : GraphId) : Prop where
  successors_eq : heap'.successors = heap.successors
  predecessors_eq : heap'.predecessors = heap.predecessors
  nodeCount_eq : heap'.nodeCount = heap.nodeCount
  graphCount_eq : heap'.graphCount = heap.graphCount
  entry_eq : (heap'.graphs graph).entry = (heap.graphs graph).entry
  exit_eq : (heap'.graphs graph).exit = (heap.graphs graph).exit

theorem SameLinks.of_unmarked {heap' : Heap}
    (same : heap'.unmarked = heap.unmarked) :
    SameLinks heap heap' graph where
  successors_eq := unmarked_successors same
  predecessors_eq := unmarked_predecessors same
  nodeCount_eq := unmarked_nodeCount same
  graphCount_eq := unmarked_graphCount same
  entry_eq := (unmarked_graphs same graph).1
  exit_eq := (unmarked_graphs same graph).2.1

theorem SameLinks.trans {heap' last : Heap}
    (one : SameLinks heap heap' graph) (two : SameLinks heap' last graph) :
    SameLinks heap last graph where
  successors_eq := two.successors_eq.trans one.successors_eq
  predecessors_eq := two.predecessors_eq.trans one.predecessors_eq
  nodeCount_eq := two.nodeCount_eq.trans one.nodeCount_eq
  graphCount_eq := two.graphCount_eq.trans one.graphCount_eq
  entry_eq := two.entry_eq.trans one.entry_eq
  exit_eq := two.exit_eq.trans one.exit_eq

theorem SameLinks.reachable_eq {heap' : Heap}
    (same : SameLinks heap heap' graph) :
    heap'.Reachable graph = heap.Reachable graph := by
  unfold Reachable
  rw [same.successors_eq, same.entry_eq]

theorem SameLinks.link_eq {heap' : Heap} (same : SameLinks heap heap' graph) :
    heap'.Link graph = heap.Link graph := by
  unfold Link
  rw [same.reachable_eq, same.successors_eq]

theorem SameLinks.wellFormed {heap' : Heap}
    (same : SameLinks heap heap' graph) (formed : heap.WellFormed graph) :
    heap'.WellFormed graph where
  graph_lt := by
    rw [same.graphCount_eq]
    exact formed.graph_lt
  allocated := by
    rw [same.reachable_eq, same.nodeCount_eq]
    exact formed.allocated
  successors_nodup := by
    rw [same.reachable_eq, same.successors_eq]
    exact formed.successors_nodup
  predecessors_nodup := by
    rw [same.reachable_eq, same.predecessors_eq]
    exact formed.predecessors_nodup
  mem_predecessors := by
    rw [same.reachable_eq, same.predecessors_eq, same.link_eq]
    exact formed.mem_predecessors
  acyclic := by
    rw [same.link_eq]
    exact formed.acyclic
  reaches_exit := by
    rw [same.reachable_eq, same.successors_eq, same.exit_eq]
    exact formed.reaches_exit

/-- What walks write does not matter for reachability. -/
theorem reachable_congr {heap' : Heap}
    (same : heap'.unmarked = heap.unmarked) :
    heap'.Reachable graph = heap.Reachable graph :=
  (SameLinks.of_unmarked same).reachable_eq

theorem link_congr {heap' : Heap}
    (same : heap'.unmarked = heap.unmarked) :
    heap'.Link graph = heap.Link graph :=
  (SameLinks.of_unmarked same).link_eq

/-- What walks write does not matter for well-formedness. -/
theorem WellFormed.congr {heap' : Heap}
    (formed : heap.WellFormed graph)
    (same : heap'.unmarked = heap.unmarked) :
    heap'.WellFormed graph :=
  (SameLinks.of_unmarked same).wellFormed formed

/-! ## Counting nodes -/

theorem NodesAtMost.length_le {bound : Nat}
    (few : heap.NodesAtMost graph bound) {nodes : List NodeId}
    (nodup : nodes.Nodup)
    (inside : ∀ node ∈ nodes, heap.Reachable graph node) :
    nodes.length ≤ bound := by
  obtain ⟨all, short, covers⟩ := few
  have subset : nodes ⊆ all := fun node member =>
    covers node (inside node member)
  exact (nodup.subperm subset).length_le.trans short

/-- A graph whose nodes come from those of another one has no more of them. -/
theorem NodesAtMost.image {bound : Nat} {heap' : Heap}
    (few : heap.NodesAtMost graph bound) (place : NodeId → NodeId)
    (covers : ∀ node, heap'.Reachable graph node →
      ∃ original, heap.Reachable graph original ∧ place original = node) :
    heap'.NodesAtMost graph bound := by
  obtain ⟨all, short, listed⟩ := few
  refine ⟨all.map place, (List.length_map _).trans_le short, ?_⟩
  intro node reachable
  obtain ⟨original, inside, rfl⟩ := covers node reachable
  exact List.mem_map_of_mem (listed original inside)

theorem NodesAtMost.mono {bound : Nat} {heap' : Heap}
    (few : heap.NodesAtMost graph bound)
    (remains : ∀ node, heap'.Reachable graph node →
      heap.Reachable graph node) :
    heap'.NodesAtMost graph bound :=
  few.image id fun node reachable => ⟨node, remains node reachable, rfl⟩

/-- A graph has no more nodes than there are. -/
theorem WellFormed.nodesAtMost {bound : Nat} (formed : heap.WellFormed graph)
    (small : heap.nodeCount ≤ bound) : heap.NodesAtMost graph bound :=
  ⟨List.range heap.nodeCount, List.length_range.trans_le small,
    fun node reachable => List.mem_range.mpr (formed.allocated node reachable)⟩

/-- Allocated nodes below a node, as a finite set. -/
theorem exists_domain {start : NodeId}
    (allocated : ∀ node, MarkSearch.Reach heap.successors start node →
      node < heap.nodeCount) :
    ∃ domain : Finset NodeId,
      (∀ node, node ∈ domain ↔
        MarkSearch.Reach heap.successors start node) ∧
          domain.card ≤ heap.nodeCount := by
  classical
  refine
    ⟨(Finset.range heap.nodeCount).filter
      (MarkSearch.Reach heap.successors start), ?_, ?_⟩
  · intro node
    rw [Finset.mem_filter, Finset.mem_range]
    exact ⟨And.right, fun path => ⟨allocated node path, path⟩⟩
  · exact
      (Finset.card_filter_le _ _).trans
        (Finset.card_range heap.nodeCount).le

namespace WellFormed

variable (formed : heap.WellFormed graph)

include formed

theorem predecessors_entry :
    heap.predecessors (heap.graphs graph).entry = [] := by
  apply List.eq_nil_iff_forall_not_mem.mpr
  intro pred member
  have link := (formed.mem_predecessors _ reachable_entry pred).mp member
  exact
    formed.acyclic pred
      (TransGen.head' link (reachable_entry.links link.1))

theorem reachable_exit : heap.Reachable graph (heap.graphs graph).exit :=
  formed.reaches_exit _ reachable_entry

theorem successors_exit :
    heap.successors (heap.graphs graph).exit = [] := by
  apply List.eq_nil_iff_forall_not_mem.mpr
  intro succ member
  have link : heap.Link graph (heap.graphs graph).exit succ :=
    ⟨formed.reachable_exit, member⟩
  exact
    formed.acyclic _
      (TransGen.head' link
        (link.reachable.links (formed.reaches_exit succ link.reachable)))

end WellFormed

end Reachability

/-! ## What a walk does -/

/-- `walked` is the heap after a complete walk that visited `visited`. -/
structure Walked (graph : GraphId) (walked : Heap) (visited : List NodeId) :
    Prop where
  unmarked_eq : walked.unmarked = heap.unmarked
  nodup : visited.Nodup
  mem_iff : ∀ node, node ∈ visited ↔ heap.Reachable graph node
  iteratorIndex_eq : ∀ node,
    (walked.nodes node).iteratorIndex = (heap.nodes node).iteratorIndex
  walkId_eq : (walked.graphs graph).walkId = (heap.graphs graph).walkId + 1
  other_graphs : ∀ other, other ≠ graph →
    walked.graphs other = heap.graphs other
  mark_reachable : ∀ node, heap.Reachable graph node →
    (walked.nodes node).walkId = (heap.graphs graph).walkId + 1
  mark_other : ∀ node, ¬ heap.Reachable graph node →
    (walked.nodes node).walkId = (heap.nodes node).walkId

section Specification

variable {heap} {graph : GraphId}

@[simp]
theorem writeMarks_unmarked (id : WalkId) (mark : NodeId → WalkId) :
    (heap.writeMarks graph id mark).unmarked = heap.unmarked := by
  simp only [unmarked, writeMarks, CommandGraphNode.unmarked]
  congr 1
  funext other
  by_cases equal : other = graph <;> simp [equal]

/-- A walk over allocated nodes returns, and its search is a sweep. -/
theorem walkFrom_returns (graph : GraphId) {start : NodeId}
    (allocated : ∀ node, MarkSearch.Reach heap.successors start node →
      node < heap.nodeCount)
    (kind : MarkSearch.Kind) :
    ∃ result : MarkSearch.State NodeId WalkId,
      heap.walkFrom graph kind start =
          some
            (heap.writeMarks graph ((heap.graphs graph).walkId + 1)
              result.mark, result.visited) ∧
        MarkSearch.Sweep heap.successors ((heap.graphs graph).walkId + 1)
          (fun node => (heap.nodes node).walkId) start result := by
  obtain ⟨domain, memIff, small⟩ := exists_domain allocated
  obtain ⟨result, ran, sweep⟩ :=
    MarkSearch.sweep_walk
      (by
        intro node member next edge
        rw [memIff] at member ⊢
        exact member.tail edge)
      ((heap.graphs graph).walkId + 1) kind (Nat.lt_succ_of_le small)
      (fun node => (heap.nodes node).walkId)
      ((memIff start).mpr ReflTransGen.refl)
  refine ⟨result, ?_, sweep⟩
  simp only [walkFrom, ran]
  rfl

/-- A walk of a graph without stale marks is complete. -/
theorem walk_spec
    (allocated : ∀ node, heap.Reachable graph node → node < heap.nodeCount)
    (ready : heap.WalkReady graph) (kind : MarkSearch.Kind) :
    ∃ walked visited, heap.walk graph kind = some (walked, visited) ∧
      heap.Walked graph walked visited := by
  obtain ⟨result, ran, sweep⟩ :=
    walkFrom_returns graph allocated kind
  have memIff := sweep.complete_iff.mpr ready
  refine ⟨_, _, ran, ?_⟩
  exact {
    unmarked_eq := writeMarks_unmarked _ _
    nodup := sweep.nodup
    mem_iff := memIff
    iteratorIndex_eq := fun _ => rfl
    walkId_eq := by simp [writeMarks]
    other_graphs := by
      intro other different
      simp [writeMarks, different]
    mark_reachable := by
      intro node reachable
      have visited := (memIff node).mpr reachable
      simp [writeMarks, sweep.mark_eq, visited]
    mark_other := by
      intro node unreachable
      have unvisited : node ∉ result.visited := by
        rwa [memIff]
      simp [writeMarks, sweep.mark_eq, unvisited] }

/-- A post-order walk of a well-formed graph visits successors first. -/
theorem walk_postSorted (formed : heap.WellFormed graph)
    (ready : heap.WalkReady graph) :
    ∃ walked visited, heap.walk graph (.dfs .post) = some (walked, visited) ∧
      heap.Walked graph walked visited ∧
        MarkSearch.PostSorted heap.successors (fun _ => False) visited := by
  obtain ⟨walked, visited, ran, done⟩ :=
    walk_spec formed.allocated ready (.dfs .post)
  refine ⟨walked, visited, ran, done, ?_⟩
  obtain ⟨result, searched, same⟩ := Option.bind_eq_some_iff.mp ran
  obtain ⟨-, rfl⟩ : _ ∧ result.visited = visited := by
    simpa using same
  have sorted := MarkSearch.walk_postSorted
    (fun node (reachable : heap.Reachable graph node) cycle =>
      formed.acyclic node (reachable.transLinks cycle)) searched
  intro earlier node later split next edge
  rcases sorted earlier node later split next edge with
    listed | ⟨stale, notEntry⟩
  · exact Or.inl listed
  · have reachable : heap.Reachable graph node :=
      (done.mem_iff node).mp (by simp [split])
    exact (ready next (reachable.tail edge) notEntry stale).elim

/-- After a complete walk the next walk meets no stale mark. -/
theorem Walked.ready {walked : Heap} {visited : List NodeId}
    (done : heap.Walked graph walked visited) :
    walked.WalkReady graph := by
  intro node reachable _
  rw [reachable_congr done.unmarked_eq] at reachable
  rw [done.mark_reachable node reachable, done.walkId_eq]
  intro equal
  simp at equal

/-! ## Node iterators -/

@[simp]
theorem setIteratorIndex_unmarked (node : NodeId) (index : Nat) :
    (heap.setIteratorIndex node index).unmarked = heap.unmarked := by
  simp only [unmarked, setIteratorIndex, updateNode_nodes,
    updateNode_nodeCount, updateNode_graphs, updateNode_graphCount]
  congr 1
  funext other
  split
  · rename_i equal
    rw [equal]
    rfl
  · rfl

@[simp]
theorem setIteratorIndex_walkId (node other : NodeId) (index : Nat) :
    ((heap.setIteratorIndex node index).nodes other).walkId =
      (heap.nodes other).walkId := by
  simp only [setIteratorIndex, updateNode_nodes]
  split
  · rename_i equal
    rw [equal]
  · rfl

/--
`indexed` is the heap after `create_node_iterators` returned the vector `nodes`.
-/
structure Iterated (graph : GraphId) (includeEntryExit : Bool)
    (indexed : Heap) (nodes : List NodeId) : Prop where
  unmarked_eq : indexed.unmarked = heap.unmarked
  nodup : nodes.Nodup
  mem_iff : ∀ node, node ∈ nodes ↔ heap.Reachable graph node ∧
    (includeEntryExit ∨ (node ≠ (heap.graphs graph).entry ∧
      node ≠ (heap.graphs graph).exit))
  index_eq : ∀ node ∈ nodes,
    nodes[(indexed.nodes node).iteratorIndex]? = some node
  walkId_eq : (indexed.graphs graph).walkId = (heap.graphs graph).walkId + 1
  other_graphs : ∀ other, other ≠ graph →
    indexed.graphs other = heap.graphs other
  mark_reachable : ∀ node, heap.Reachable graph node →
    (indexed.nodes node).walkId = (heap.graphs graph).walkId + 1
  mark_other : ∀ node, ¬ heap.Reachable graph node →
    (indexed.nodes node).walkId = (heap.nodes node).walkId

/-- After `create_node_iterators` the next walk meets no stale mark. -/
theorem Iterated.ready {includeEntryExit : Bool} {indexed : Heap}
    {nodes : List NodeId}
    (iterators : heap.Iterated graph includeEntryExit indexed nodes) :
    indexed.WalkReady graph := by
  intro node reachable _
  rw [reachable_congr iterators.unmarked_eq] at reachable
  rw [iterators.mark_reachable node reachable, iterators.walkId_eq]
  intro equal
  simp at equal

/-- The callback of `create_node_iterators` on a whole list of nodes. -/
private theorem pushIterators_spec (object : CommandGraph)
    (includeEntryExit : Bool) (list : List NodeId) :
    ∀ (before : Heap) (nodes : List NodeId), (nodes ++ list).Nodup →
      (∀ node ∈ nodes,
        nodes[(before.nodes node).iteratorIndex]? = some node) →
      ∃ indexed kept,
        list.foldl (pushIterator object includeEntryExit) (before, nodes) =
            (indexed, nodes ++ kept) ∧
          kept =
            list.filter (fun node =>
              !skipsNode object includeEntryExit node) ∧
          indexed.unmarked = before.unmarked ∧
          indexed.graphs = before.graphs ∧
          (∀ node,
            (indexed.nodes node).walkId = (before.nodes node).walkId) ∧
          ∀ node ∈ nodes ++ kept,
            (nodes ++ kept)[(indexed.nodes node).iteratorIndex]? =
              some node := by
  induction list with
  | nil =>
      intro before nodes _ indices
      exact ⟨before, [], by simp, by simp, rfl, rfl, fun _ => rfl,
        by simpa using indices⟩
  | cons head rest induction =>
      intro before nodes distinct indices
      have headFresh : head ∉ nodes := by
        intro member
        exact
          (List.nodup_append.mp distinct).2.2 head member head (by simp) rfl
      by_cases skipped : skipsNode object includeEntryExit head
      · obtain ⟨indexed, kept, ran, keptEq, same, graphs, marks, known⟩ :=
          induction before nodes
            (distinct.sublist (List.append_sublist_append_left _ |>.mpr
              (List.sublist_cons_self _ _))) indices
        refine ⟨indexed, kept, ?_, ?_, same, graphs, marks, known⟩
        · rw [List.foldl_cons, pushIterator, if_pos skipped]
          exact ran
        · rw [List.filter_cons, if_neg (by simp [skipped])]
          exact keptEq
      · have pushed :
            ∀ node ∈ nodes ++ [head],
              (nodes ++ [head])[((before.setIteratorIndex head
                nodes.length).nodes node).iteratorIndex]? = some node := by
          intro node member
          simp only [setIteratorIndex, updateNode_nodes]
          by_cases isHead : node = head
          · simp [isHead]
          · have inNodes : node ∈ nodes := by
              simpa [isHead] using member
            rw [if_neg isHead]
            exact
              List.getElem?_append_left
                (List.getElem?_eq_some_iff.mp (indices node inNodes)).1 ▸
                indices node inNodes
        obtain ⟨indexed, kept, ran, keptEq, same, graphs, marks, known⟩ :=
          induction (before.setIteratorIndex head nodes.length)
            (nodes ++ [head]) (by simpa using distinct) pushed
        refine
          ⟨indexed, head :: kept, ?_, ?_, ?_, ?_, ?_, ?_⟩
        · rw [List.foldl_cons, pushIterator, if_neg skipped]
          rw [ran]
          simp
        · rw [List.filter_cons, if_pos (by simp [skipped]), keptEq]
        · exact same.trans (setIteratorIndex_unmarked _ _)
        · exact graphs
        · intro node
          rw [marks, setIteratorIndex_walkId]
        · simpa using known

/-- The iterators of a graph without stale marks. -/
theorem createNodeIterators_spec
    (allocated : ∀ node, heap.Reachable graph node → node < heap.nodeCount)
    (ready : heap.WalkReady graph) (includeEntryExit : Bool) :
    ∃ indexed nodes,
      heap.createNodeIterators graph includeEntryExit =
          some (indexed, nodes) ∧
        heap.Iterated graph includeEntryExit indexed nodes := by
  obtain ⟨walked, visited, ran, done⟩ :=
    walk_spec allocated ready (.dfs .pre)
  obtain ⟨indexed, kept, folded, keptEq, same, graphs, marks, known⟩ :=
    pushIterators_spec (heap.graphs graph) includeEntryExit visited walked []
      (by simpa using done.nodup) (by simp)
  refine ⟨indexed, kept, ?_, ?_⟩
  · simp only [createNodeIterators, ran]
    simpa using folded
  · rw [List.nil_append] at known
    exact {
      unmarked_eq := same.trans done.unmarked_eq
      nodup := by
        rw [keptEq]
        exact done.nodup.filter _
      mem_iff := by
        intro node
        rw [keptEq, List.mem_filter, done.mem_iff]
        cases includeEntryExit <;> simp [skipsNode]
      index_eq := known
      walkId_eq := by
        rw [graphs]
        exact done.walkId_eq
      other_graphs := by
        rw [graphs]
        exact done.other_graphs
      mark_reachable := by
        intro node reachable
        rw [marks]
        exact done.mark_reachable node reachable
      mark_other := by
        intro node unreachable
        rw [marks]
        exact done.mark_other node unreachable }

/--
The vectors that `create_node_iterators` makes with and without the ends list the
nodes in one order, each but the entry after one of its predecessors.
-/
theorem createNodeIterators_order
    (allocated : ∀ node, heap.Reachable graph node → node < heap.nodeCount)
    (ready : heap.WalkReady graph) :
    ∃ visited all inner,
      heap.createNodeIterators graph true = some (all, visited) ∧
        heap.createNodeIterators graph false =
            some
              (inner,
                visited.filter fun node =>
                  !skipsNode (heap.graphs graph) false node) ∧
          MarkSearch.PreSorted heap.successors (heap.graphs graph).entry
            visited := by
  obtain ⟨walked, visited, ran, done⟩ :=
    walk_spec allocated ready (.dfs .pre)
  obtain ⟨all, keptAll, foldedAll, keptAllEq, -⟩ :=
    pushIterators_spec (heap.graphs graph) true visited walked []
      (by simpa using done.nodup) (by simp)
  obtain ⟨inner, kept, folded, keptEq, -⟩ :=
    pushIterators_spec (heap.graphs graph) false visited walked []
      (by simpa using done.nodup) (by simp)
  have everything : keptAll = visited := by
    simp [keptAllEq, skipsNode]
  refine ⟨visited, all, inner, ?_, ?_, ?_⟩
  · simp only [createNodeIterators, ran]
    simpa [everything] using foldedAll
  · simp only [createNodeIterators, ran]
    simpa [keptEq] using folded
  · obtain ⟨result, searched, same⟩ := Option.bind_eq_some_iff.mp ran
    obtain ⟨-, rfl⟩ : _ ∧ result.visited = visited := by
      simpa using same
    exact MarkSearch.walk_preSorted searched

end Specification

end Heap

end Cgir.Model
