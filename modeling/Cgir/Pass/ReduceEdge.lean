import Cgir.Model.Numbered
import Cgir.Model.ReachRows

/-!
# Transitive edge reduction

`command_graph_t::pass_reduce_edge`: number the nodes, compute the reachability
matrix in one post-order walk, then scan every successor list and drop the
successors that another successor still in the list reaches.

On a well-formed graph the pass computes the transitive reduction
(`passReduceEdge_spec`).
-/

namespace Cgir.Pass.ReduceEdge

open Relation
open Cgir.Library
open Cgir.Model

/-! ## The pass -/

/-- The reachability matrix, with 64-bit words. -/
abbrev Reachability := Bitset2d 6

/-- The callback of the post-order walk: the row of one node. -/
def reachRow (heap : Heap) (r : Reachability) (node : NodeId) : Reachability :=
  let index := (heap.nodes node).iteratorIndex
  (heap.successors node).foldl
    (fun r succ => r.orRows index (heap.nodes succ).iteratorIndex)
    (r.set index index)

/-- `r.test(w->iterator_index, v->iterator_index)`. -/
def reaches (r : Reachability) (heap : Heap) (w v : NodeId) : Bool :=
  r.test (heap.nodes w).iteratorIndex (heap.nodes v).iteratorIndex

/--
The scan of the successor list of `u`: `kept` is before the iterator and the
last argument from the iterator on.
-/
def reduceFrom (r : Reachability) (u : NodeId) :
    List NodeId → List NodeId → Heap → Heap
  | _, [], heap => heap
  | kept, v :: rest, heap =>
      if (kept ++ v :: rest).any
          (fun w => w ≠ v && reaches r heap w v) then
        reduceFrom r u kept rest
          ((heap.setSuccessors u (kept ++ rest)).erasePredecessor v u)
      else
        reduceFrom r u (kept ++ [v]) rest heap

/-- The body of the loop over the nodes. -/
def reduceNode (r : Reachability) (heap : Heap) (u : NodeId) : Heap :=
  reduceFrom r u [] (heap.successors u) heap

/-- `command_graph_t::pass_reduce_edge`. -/
def passReduceEdge (heap : Heap) (graph : GraphId) : Option Heap := do
  let (heap, nodes) ← heap.createNodeIterators graph true
  let (heap, visited) ← heap.walk graph (.dfs .post)
  let r := visited.foldl (reachRow heap) (Bitset2d.new 6 nodes.length)
  return nodes.foldl (reduceNode r) heap

/-! ## The reachability matrix -/

/-- The indices of the nodes of a vector are their positions. -/
def Indexed (heap : Heap) (nodes : List NodeId) : Prop :=
  ∀ node ∈ nodes, nodes[(heap.nodes node).iteratorIndex]? = some node

/-- The walk in post-order makes the rows of the nodes it visits. -/
theorem reachRows {heap : Heap} {nodes visited : List NodeId}
    (indexed : Indexed heap nodes)
    (inside : ∀ node ∈ nodes, ∀ succ ∈ heap.successors node, succ ∈ nodes)
    (distinct : visited.Nodup) (members : ∀ node ∈ visited, node ∈ nodes)
    (sorted :
      MarkSearch.PostSorted heap.successors (fun _ => False) visited) :
    ReachRows.Rows heap.successors (fun n => (heap.nodes n).iteratorIndex)
      nodes visited
      (visited.foldl (reachRow heap) (Bitset2d.new 6 nodes.length)) :=
  ReachRows.Rows.foldl indexed inside distinct members sorted visited []
    (Bitset2d.new 6 nodes.length) rfl (.nil 6 _ _ nodes)

/-! ## The scan of a successor list -/

section Scan

variable {heap : Heap} {live : NodeId → Prop}
  {edge : NodeId → NodeId → Prop}

theorem reaches_congr {heap' : Heap} (same : heap'.unlinked = heap.unlinked)
    (r : Reachability) : reaches r heap' = reaches r heap := by
  funext w v
  simp only [reaches, Heap.unlinked_iteratorIndex same]

/-- Dropping the successor at the iterator removes one edge. -/
private theorem represents_drop (represents : heap.Represents live edge)
    {u v : NodeId} {kept rest : List NodeId} (uLive : live u)
    (lists : heap.successors u = kept ++ v :: rest) :
    ((heap.setSuccessors u (kept ++ rest)).erasePredecessor v u).Represents
      live (fun source target =>
        edge source target ∧ ¬ (source = u ∧ target = v)) := by
  have distinct := represents.successors_nodup u uLive
  rw [lists] at distinct
  have fresh : v ∉ kept := by
    intro member
    exact (List.nodup_append.mp distinct).2.2 v member v (by simp) rfl
  apply (represents.detach u v).congr_lists
  · intro node _
    simp only [Heap.erasePredecessor_successors,
      Heap.setSuccessors_successors, Heap.detach_successors, lists]
    rw [List.erase_append_right _ fresh, List.erase_cons_head]
  · intro node _
    simp

/-- The scan removes the edges to the successors that `prune` drops. -/
theorem reduceFrom_spec (r : Reachability) {u : NodeId} (uLive : live u)
    (rest : List NodeId) :
    ∀ {kept : List NodeId} {heap : Heap} {edge : NodeId → NodeId → Prop},
      heap.Represents live edge → heap.successors u = kept ++ rest →
        (reduceFrom r u kept rest heap).unlinked = heap.unlinked ∧
          (reduceFrom r u kept rest heap).Represents live
            (fun source target => edge source target ∧
              (source = u →
                target ∈ Digraph.prune (reaches r heap) kept rest)) := by
  induction rest with
  | nil =>
      intro kept heap edge represents lists
      refine ⟨rfl, represents.congr_edge ?_⟩
      intro source target
      apply and_iff_left_of_imp
      rintro step rfl
      rw [List.append_nil] at lists
      rw [Digraph.prune, ← lists]
      exact (represents.mem_successors source uLive target).mpr step
  | cons v rest induction =>
      intro kept heap edge represents lists
      have distinct := represents.successors_nodup u uLive
      rw [lists] at distinct
      rw [reduceFrom, Digraph.prune]
      split
      · have dropped := represents_drop represents uLive lists
        have same :
            ((heap.setSuccessors u (kept ++ rest)).erasePredecessor
              v u).unlinked = heap.unlinked := by simp
        have remaining :
            ((heap.setSuccessors u (kept ++ rest)).erasePredecessor
              v u).successors u = kept ++ rest := by simp
        obtain ⟨unchanged, scanned⟩ := induction dropped remaining
        refine ⟨unchanged.trans same, scanned.congr_edge ?_⟩
        intro source target
        rw [reaches_congr same]
        constructor
        · rintro ⟨step, stays⟩
          refine ⟨⟨step, ?_⟩, stays⟩
          rintro ⟨rfl, rfl⟩
          have member := Digraph.prune_subset _ _ (stays rfl)
          exact (List.nodup_middle.mp distinct).notMem member
        · rintro ⟨⟨step, -⟩, stays⟩
          exact ⟨step, stays⟩
      · exact induction represents (by simpa using lists)

end Scan

/-! ## The whole pass -/

section Pass

variable {heap : Heap} {live : NodeId → Prop}
  {edge : NodeId → NodeId → Prop}

/-- What is left of the edges after the nodes of a list have been reduced. -/
def ReducedAt (edge : NodeId → NodeId → Prop) (done : List NodeId)
    (source target : NodeId) : Prop :=
  edge source target ∧
    (source ∈ done → Digraph.Reduced edge source target)

/-- The loop over the nodes keeps exactly the reduced edges of each. -/
private theorem reduceNodes_spec (acyclic : Digraph.Acyclic edge)
    (r : Reachability) {start : Heap}
    (matrix : ∀ w, live w → ∀ v, live v →
      (reaches r start w v ↔ ReflTransGen edge w v))
    (inside : ∀ source target, edge source target → live target)
    (list : List NodeId) :
    ∀ {done : List NodeId} {heap : Heap}, (done ++ list).Nodup →
      (∀ node ∈ list, live node) → heap.unlinked = start.unlinked →
        heap.Represents live (ReducedAt edge done) →
          (list.foldl (reduceNode r) heap).unlinked = start.unlinked ∧
            (list.foldl (reduceNode r) heap).Represents live
              (ReducedAt edge (done ++ list)) := by
  induction list with
  | nil =>
      intro done heap _ _ same represents
      exact ⟨same, by simpa using represents⟩
  | cons u rest induction =>
      intro done heap distinct alive same represents
      have uLive := alive u (by simp)
      have fresh : u ∉ done := by
        intro member
        exact (List.nodup_append.mp distinct).2.2 u member u (by simp) rfl
      have lists : ∀ node, node ∈ heap.successors u ↔ edge u node := by
        intro node
        rw [represents.mem_successors u uLive]
        simp [ReducedAt, fresh]
      obtain ⟨unchanged, scanned⟩ :=
        reduceFrom_spec r uLive (heap.successors u) represents
          (List.nil_append _).symm
      have rows : ∀ w ∈ heap.successors u, ∀ v ∈ heap.successors u,
          (reaches r heap w v ↔ ReflTransGen edge w v) := by
        intro w wMember v vMember
        rw [reaches_congr same]
        exact
          matrix w (inside u w ((lists w).mp wMember)) v
            (inside u v ((lists v).mp vMember))
      have kept : ∀ v,
          v ∈ Digraph.prune (reaches r heap) [] (heap.successors u) ↔
            Digraph.Reduced edge u v := by
        intro v
        rw [Digraph.mem_prune_iff, Digraph.unbypassed_iff acyclic lists rows]
        · intro first firstMember second secondMember third thirdMember
            upper lower
          rw [rows first firstMember second secondMember] at upper
          rw [rows second secondMember third thirdMember] at lower
          exact
            (rows first firstMember third thirdMember).mpr
              (upper.trans lower)
        · intro first firstMember second secondMember forth back
          rw [rows first firstMember second secondMember] at forth
          rw [rows second secondMember first firstMember] at back
          rcases reflTransGen_iff_eq_or_transGen.mp forth with equal | longer
          · exact equal.symm
          · exact (acyclic.asymm longer back).elim
      rw [List.foldl_cons]
      have reduced : (reduceNode r heap u).Represents live
          (ReducedAt edge (done ++ [u])) := by
        refine scanned.congr_edge fun source target => ?_
        by_cases isNode : source = u
        · subst isNode
          simp [ReducedAt, fresh, kept]
        · simp [ReducedAt, isNode]
      have split : done ++ u :: rest = done ++ [u] ++ rest := by simp
      rw [split]
      exact
        induction (split ▸ distinct)
          (fun node member => alive node (List.mem_cons_of_mem u member))
          (unchanged.trans same) reduced

variable {graph : GraphId}

/--
The pass returns, changes adjacency lists only, and leaves lists that represent
the reduced links of the graph.
-/
theorem passReduceEdge_spec (formed : heap.WellFormed graph)
    (ready : heap.WalkReady graph) :
    ∃ reduced, passReduceEdge heap graph = some reduced ∧
      reduced.unlinked.unmarked = heap.unlinked.unmarked ∧
        reduced.Represents (heap.Reachable graph)
          (Digraph.Reduced (heap.Link graph)) := by
  obtain ⟨indexed, nodes, iterated, iterators⟩ :=
    Heap.createNodeIterators_spec formed.allocated ready true
  have indexedFormed := formed.congr iterators.unmarked_eq
  have indexedReady : indexed.WalkReady graph := iterators.ready
  obtain ⟨walked, visited, ran, done, sorted⟩ :=
    Heap.walk_postSorted indexedFormed indexedReady
  have same : walked.unmarked = heap.unmarked :=
    done.unmarked_eq.trans iterators.unmarked_eq
  have lists : walked.successors = indexed.successors :=
    Heap.unmarked_successors done.unmarked_eq
  have nodesIff : ∀ node, node ∈ nodes ↔ heap.Reachable graph node := by
    simpa using iterators.mem_iff
  have visitedIff : ∀ node, node ∈ visited ↔ node ∈ nodes := by
    intro node
    rw [done.mem_iff, nodesIff, Heap.reachable_congr iterators.unmarked_eq]
  have inside : ∀ node ∈ nodes, ∀ succ ∈ walked.successors node,
      succ ∈ nodes := by
    intro node member succ edge
    rw [nodesIff] at member ⊢
    rw [Heap.unmarked_successors same] at edge
    exact member.tail edge
  have positions : Indexed walked nodes := by
    intro node member
    rw [done.iteratorIndex_eq]
    exact iterators.index_eq node member
  have rows :=
    reachRows positions inside done.nodup
      (fun node member => (visitedIff node).mp member) (lists ▸ sorted)
  have matrix : ∀ w, heap.Reachable graph w → ∀ v, heap.Reachable graph v →
      (reaches (visited.foldl (reachRow walked)
          (Bitset2d.new 6 nodes.length)) walked w v ↔
        ReflTransGen (heap.Link graph) w v) := by
    intro w wReachable v vReachable
    have wMember := (nodesIff w).mpr wReachable
    unfold reaches
    rw [rows.test_iff w wMember v ((nodesIff v).mpr vReachable),
      Heap.unmarked_successors same, wReachable.reach_iff]
    exact and_iff_right ((visitedIff w).mpr wMember)
  have represents :
      walked.Represents (heap.Reachable graph)
        (ReducedAt (heap.Link graph) []) := by
    have walkedFormed := formed.congr same
    have links := walkedFormed.represents
    rw [Heap.reachable_congr same, Heap.link_congr same] at links
    exact links.congr_edge fun source target => by simp [ReducedAt]
  obtain ⟨unchanged, final⟩ :=
    reduceNodes_spec formed.acyclic _ matrix
      (fun source target link => link.reachable) nodes
      (by simpa using iterators.nodup)
      (fun node member => (nodesIff node).mp member) rfl represents
  refine ⟨_, ?_, ?_, final.congr_edge fun source target => ?_⟩
  · simp only [passReduceEdge, iterated, Option.bind_eq_bind,
      Option.bind_some, ran]
    rfl
  · rw [unchanged, Heap.unlinked_unmarked, Heap.unlinked_unmarked, same]
  · rw [List.nil_append]
    constructor
    · intro step
      exact ⟨step.1, fun _ => step⟩
    · rintro ⟨link, reduces⟩
      exact reduces ((nodesIff source).mpr link.1)

/--
On a well-formed graph the pass computes the transitive reduction: it returns a
well-formed graph with the same nodes, entry, exit and reachability, in which
an edge is kept if and only if no path of two or more edges joined its ends, so
that no edge of the result is redundant.  Nothing but adjacency lists changes.
-/
theorem passReduceEdge_transitive_reduction
    (formed : heap.WellFormed graph) (ready : heap.WalkReady graph) :
    ∃ reduced, passReduceEdge heap graph = some reduced ∧
      reduced.WellFormed graph ∧
      reduced.unlinked.unmarked = heap.unlinked.unmarked ∧
      (reduced.graphs graph).entry = (heap.graphs graph).entry ∧
      (reduced.graphs graph).exit = (heap.graphs graph).exit ∧
      (∀ node, reduced.Reachable graph node ↔ heap.Reachable graph node) ∧
      (∀ source, heap.Reachable graph source → ∀ target,
        MarkSearch.Reach reduced.successors source target ↔
          MarkSearch.Reach heap.successors source target) ∧
      (∀ source, heap.Reachable graph source → ∀ target,
        target ∈ reduced.successors source ↔
          target ∈ heap.successors source ∧
            ¬ ∃ middle,
              TransGen (MarkSearch.Edge heap.successors) source middle ∧
                TransGen (MarkSearch.Edge heap.successors) middle target) ∧
      (∀ source, heap.Reachable graph source →
        ∀ target ∈ reduced.successors source,
          ¬ ∃ middle,
            TransGen (MarkSearch.Edge reduced.successors) source middle ∧
              TransGen (MarkSearch.Edge reduced.successors) middle
                target) := by
  obtain ⟨reduced, ran, unchanged, represents⟩ :=
    passReduceEdge_spec formed ready
  obtain ⟨domain, inDomain, -⟩ := Heap.exists_domain formed.allocated
  have reachIff : ∀ source target,
      ReflTransGen (Digraph.Reduced (heap.Link graph)) source target ↔
        ReflTransGen (heap.Link graph) source target := by
    intro source target
    rw [reflTransGen_iff_eq_or_transGen, reflTransGen_iff_eq_or_transGen,
      Digraph.transGen_reduced_iff formed.acyclic domain
        fun upper lower link => (inDomain lower).mpr link.reachable]
  obtain ⟨entryEq, exitEq, -⟩ := Heap.unmarked_graphs unchanged graph
  have entryEq : (reduced.graphs graph).entry = (heap.graphs graph).entry :=
    entryEq
  have exitEq : (reduced.graphs graph).exit = (heap.graphs graph).exit :=
    exitEq
  have entryLive : heap.Reachable graph (reduced.graphs graph).entry := by
    rw [entryEq]
    exact Heap.reachable_entry
  have reducedFormed : reduced.WellFormed graph := by
    apply Heap.WellFormed.of_represents represents
    · exact (Heap.unmarked_graphCount unchanged).symm ▸ formed.graph_lt
    · intro node reachable
      exact
        (Heap.unmarked_nodeCount unchanged).symm ▸
          formed.allocated node reachable
    · exact entryLive
    · intro node reachable
      rw [entryEq, reachIff]
      exact Heap.reachable_entry.links reachable
    · intro node reachable
      rw [exitEq, reachIff]
      exact reachable.links (formed.reaches_exit node reachable)
    · exact Digraph.acyclic_reduced formed.acyclic
  have reachableIff : ∀ node,
      reduced.Reachable graph node ↔ heap.Reachable graph node := by
    intro node
    rw [represents.reachable_iff entryLive, reachIff, entryEq,
      ← Heap.reachable_iff_links]
  have keptIff : ∀ source, heap.Reachable graph source → ∀ target,
      target ∈ reduced.successors source ↔
        Digraph.Reduced (heap.Link graph) source target :=
    represents.mem_successors
  refine
    ⟨reduced, ran, reducedFormed, unchanged, entryEq, exitEq, reachableIff,
      ?_, ?_, ?_⟩
  · intro source reachable target
    rw [represents.reach_iff reachable, reachIff, reachable.reach_iff]
  · intro source reachable target
    rw [keptIff source reachable]
    constructor
    · rintro ⟨link, direct⟩
      refine ⟨link.2, ?_⟩
      rintro ⟨middle, upper, lower⟩
      have path := reachable.transLinks upper
      have middleReachable :=
        Heap.reachable_of_links reachable path.to_reflTransGen
      exact direct ⟨middle, path, middleReachable.transLinks lower⟩
    · rintro ⟨edge, direct⟩
      refine ⟨⟨reachable, edge⟩, ?_⟩
      rintro ⟨middle, upper, lower⟩
      exact
        direct
          ⟨middle, TransGen.mono (fun _ _ => Heap.Link.edge) _ _ upper,
            TransGen.mono (fun _ _ => Heap.Link.edge) _ _ lower⟩
  · rintro source reachable target edge ⟨middle, upper, lower⟩
    obtain ⟨-, direct⟩ := (keptIff source reachable target).mp edge
    have kept : ∀ first second, reduced.Link graph first second →
        heap.Link graph first second := by
      intro first second link
      exact
        ((keptIff first ((reachableIff first).mp link.1) second).mp
          link.2).1
    have reachable' := (reachableIff source).mpr reachable
    have path := reachable'.transLinks upper
    have middleReachable :=
      Heap.reachable_of_links reachable' path.to_reflTransGen
    exact
      direct
        ⟨middle, TransGen.mono kept _ _ path,
          TransGen.mono kept _ _ (middleReachable.transLinks lower)⟩

/-- An entry with an edge to the exit that a path through a command bypasses. -/
def triangle : Heap :=
  Heap.ofNodes
    [Heap.linkedNode unspecifiedDeviceUniqueId .empty [] [1, 2],
      Heap.linkedNode 0 .command [0] [2],
      Heap.linkedNode unspecifiedDeviceUniqueId .empty [0, 1] []]
    { entry := 0, exit := 2, walkId := 0, isSequence := false }

theorem passReduceEdge_transitive_reduction_triangle :
    ∃ reduced, passReduceEdge triangle 0 = some reduced ∧
      reduced.WellFormed 0 ∧ 2 ∉ reduced.successors 0 := by
  have numbered : triangle.Numbered 0 := by decide
  obtain ⟨reduced, ran, formed, -, -, -, -, -, keptIff, -⟩ :=
    passReduceEdge_transitive_reduction numbered.wellFormed
      (numbered.walkReady (by decide))
  refine ⟨reduced, ran, formed, ?_⟩
  rw [keptIff 0 (numbered.reachable 0 (by decide))]
  rintro ⟨-, direct⟩
  apply direct
  refine ⟨1, TransGen.single ?_, TransGen.single ?_⟩
  · exact (by decide : 1 ∈ triangle.successors 0)
  · exact (by decide : 2 ∈ triangle.successors 1)

example :
    (passReduceEdge triangle 0).map (fun heap => heap.successors 0) =
      some [1] := by
  decide

end Pass

end Cgir.Pass.ReduceEdge
