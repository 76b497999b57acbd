import Mathlib.Tactic.Ring
import Cgir.Library.Eliminate
import Cgir.Library.Loop
import Cgir.Model.Numbered

/-!
# Node reduction

`command_graph_t::pass_reduce_node`: one sweep over the inner nodes in
depth-first order, which removes every control node whose removal does not
increase the number of nodes and edges around it.  `command_graph_t::remove`
joins the predecessors of a node to its successors.

Each removal eliminates one vertex of the graph, so the paths between the
remaining nodes are kept (`passReduceNode_simplifies`).  The sweep tests each
node once; `passReduceNode_complete_unless_absorbed` says what has to happen
later for a node that was kept to pass the test in the end.
-/

namespace Cgir.Pass.ReduceNode

open Relation
open Cgir.Library
open Cgir.Model

/-! ## The pass -/

section Source

/-- The first two loops of `remove`: erase the edges at the neighbours. -/
def disconnect (heap : Heap) (u : NodeId) : Heap :=
  let heap' :=
    (heap.predecessors u).foldl
      (fun heap pred => heap.eraseSuccessor pred u) heap
  (heap.successors u).foldl
    (fun heap succ => heap.erasePredecessor succ u) heap'

/-- Add an edge unless the nodes are connected already. -/
def connect (heap : Heap) (pred succ : NodeId) : Heap :=
  if succ ∉ heap.successors pred then heap.precedes pred succ else heap

/-- `command_graph_t::remove`. -/
def remove (heap : Heap) (u : NodeId) : Heap :=
  (heap.predecessors u).foldl
    (fun state pred =>
      (heap.successors u).foldl (fun state succ => connect state pred succ)
        state)
    (disconnect heap u)

/-- The node and its edges cost at least as much as the edges without it. -/
def Removable (heap : Heap) (u : NodeId) : Prop :=
  (heap.nodes u).type = .empty ∧
    (heap.predecessors u).length * (heap.successors u).length <
      1 + (heap.predecessors u).length + (heap.successors u).length

instance (heap : Heap) (u : NodeId) : Decidable (Removable heap u) :=
  inferInstanceAs (Decidable (_ ∧ _))

/-- The body of the loop over the nodes. -/
def reduceNode (heap : Heap) (u : NodeId) : Heap :=
  if Removable heap u then remove heap u else heap

/-- `command_graph_t::pass_reduce_node`. -/
def passReduceNode (heap : Heap) (graph : GraphId) : Option Heap := do
  let (heap, nodes) ← heap.createNodeIterators graph false
  return nodes.foldl reduceNode heap

end Source

/-! ## The removal of a node -/

section Remove

variable {heap : Heap} {live : NodeId → Prop} {edge : NodeId → NodeId → Prop}

theorem foldl_eraseSuccessor_predecessors (u other : NodeId)
    (list : List NodeId) :
    (list.foldl (fun heap pred => heap.eraseSuccessor pred u)
      heap).predecessors other = heap.predecessors other := by
  induction list generalizing heap with
  | nil => rfl
  | cons pred rest induction =>
      rw [List.foldl_cons, induction, Heap.eraseSuccessor_predecessors]

theorem foldl_erasePredecessor_successors (u other : NodeId)
    (list : List NodeId) :
    (list.foldl (fun heap succ => heap.erasePredecessor succ u)
      heap).successors other = heap.successors other := by
  induction list generalizing heap with
  | nil => rfl
  | cons succ rest induction =>
      rw [List.foldl_cons, induction, Heap.erasePredecessor_successors]

theorem foldl_eraseSuccessor_successors (u other : NodeId)
    {list : List NodeId} (nodup : list.Nodup) :
    (list.foldl (fun heap pred => heap.eraseSuccessor pred u)
        heap).successors other =
      if other ∈ list then (heap.successors other).erase u
      else heap.successors other := by
  induction list generalizing heap with
  | nil => simp
  | cons pred rest induction =>
      obtain ⟨fresh, nodup⟩ := List.nodup_cons.mp nodup
      rw [List.foldl_cons, induction nodup, Heap.eraseSuccessor_successors]
      by_cases same : other = pred
      · subst same
        simp [fresh]
      · simp [same]

theorem foldl_erasePredecessor_predecessors (u other : NodeId)
    {list : List NodeId} (nodup : list.Nodup) :
    (list.foldl (fun heap succ => heap.erasePredecessor succ u)
        heap).predecessors other =
      if other ∈ list then (heap.predecessors other).erase u
      else heap.predecessors other := by
  induction list generalizing heap with
  | nil => simp
  | cons succ rest induction =>
      obtain ⟨fresh, nodup⟩ := List.nodup_cons.mp nodup
      rw [List.foldl_cons, induction nodup, Heap.erasePredecessor_predecessors]
      by_cases same : other = succ
      · subst same
        simp [fresh]
      · simp [same]

theorem disconnect_unlinked (u : NodeId) :
    (disconnect heap u).unlinked = heap.unlinked := by
  have erased : ∀ (list : List NodeId) (heap : Heap),
      (list.foldl (fun heap pred => heap.eraseSuccessor pred u)
        heap).unlinked = heap.unlinked := by
    intro list
    induction list with
    | nil => exact fun _ => rfl
    | cons pred rest induction =>
        intro heap
        rw [List.foldl_cons, induction, Heap.eraseSuccessor_unlinked]
  have erased' : ∀ (list : List NodeId) (heap : Heap),
      (list.foldl (fun heap succ => heap.erasePredecessor succ u)
        heap).unlinked = heap.unlinked := by
    intro list
    induction list with
    | nil => exact fun _ => rfl
    | cons succ rest induction =>
        intro heap
        rw [List.foldl_cons, induction, Heap.erasePredecessor_unlinked]
  unfold disconnect
  rw [erased', erased]

/-- Without its edges at the neighbours, a node is out of the graph. -/
theorem disconnect_represents (represents : heap.Represents live edge)
    {u : NodeId} (alive : live u) :
    (disconnect heap u).Represents (fun node => live node ∧ node ≠ u)
      (fun source target =>
        edge source target ∧ source ≠ u ∧ target ≠ u) := by
  have successorsEq : ∀ node, live node → node ≠ u →
      (disconnect heap u).successors node =
        (heap.successors node).erase u := by
    intro node nodeLive _
    rw [disconnect, foldl_erasePredecessor_successors,
      foldl_eraseSuccessor_successors u node
        (represents.predecessors_nodup u alive)]
    split
    · rfl
    · rename_i outside
      refine (List.erase_of_not_mem ?_).symm
      rw [represents.mem_iff nodeLive alive]
      exact outside
  have predecessorsEq : ∀ node, live node → node ≠ u →
      (disconnect heap u).predecessors node =
        (heap.predecessors node).erase u := by
    intro node nodeLive _
    rw [disconnect,
      foldl_erasePredecessor_predecessors u node
        (represents.successors_nodup u alive),
      foldl_eraseSuccessor_predecessors]
    split
    · rfl
    · rename_i outside
      refine (List.erase_of_not_mem ?_).symm
      rw [← represents.mem_iff alive nodeLive]
      exact outside
  exact {
    successors_nodup := by
      rintro node ⟨nodeLive, away⟩
      rw [successorsEq node nodeLive away]
      exact (represents.successors_nodup node nodeLive).erase u
    predecessors_nodup := by
      rintro node ⟨nodeLive, away⟩
      rw [predecessorsEq node nodeLive away]
      exact (represents.predecessors_nodup node nodeLive).erase u
    mem_successors := by
      rintro node ⟨nodeLive, away⟩ next
      rw [successorsEq node nodeLive away,
        (represents.successors_nodup node nodeLive).mem_erase_iff,
        represents.mem_successors node nodeLive]
      exact
        ⟨fun ⟨apart, step⟩ => ⟨step, away, apart⟩,
          fun ⟨step, _, apart⟩ => ⟨apart, step⟩⟩
    mem_predecessors := by
      rintro node ⟨nodeLive, away⟩ pred
      rw [predecessorsEq node nodeLive away,
        (represents.predecessors_nodup node nodeLive).mem_erase_iff,
        represents.mem_predecessors node nodeLive]
      exact
        ⟨fun ⟨apart, step⟩ => ⟨step, apart, away⟩,
          fun ⟨step, apart, _⟩ => ⟨apart, step⟩⟩
    inside := by
      rintro source target ⟨step, sourceAway, targetAway⟩
      obtain ⟨sourceLive, targetLive⟩ := represents.inside source target step
      exact ⟨⟨sourceLive, sourceAway⟩, ⟨targetLive, targetAway⟩⟩ }

theorem connect_unlinked (pred succ : NodeId) :
    (connect heap pred succ).unlinked = heap.unlinked := by
  unfold connect
  split
  · exact Heap.precedes_unlinked pred succ
  · rfl

theorem connect_represents (represents : heap.Represents live edge)
    {pred succ : NodeId} (predLive : live pred) (succLive : live succ) :
    (connect heap pred succ).Represents live
      (fun source target =>
        edge source target ∨ (source = pred ∧ target = succ)) := by
  have memIff := represents.mem_successors pred predLive succ
  have fresh : succ ∉ heap.successors pred → ¬ edge pred succ :=
    fun outside step => outside (memIff.mpr step)
  apply (represents.precedes_if predLive succLive fresh).congr_edge
  intro source target
  constructor
  · rintro (old | ⟨rfl, rfl⟩)
    · exact .inl old
    · by_cases known : target ∈ heap.successors source
      · exact .inl (memIff.mp known)
      · exact .inr ⟨rfl, rfl, known⟩
  · rintro (old | ⟨rfl, rfl, -⟩)
    · exact .inl old
    · exact .inr ⟨rfl, rfl⟩

/-- The last two loops of `remove` connect two lists of nodes completely. -/
theorem connectAll_represents (represents : heap.Represents live edge)
    {preds succs : List NodeId} (predsLive : ∀ pred ∈ preds, live pred)
    (succsLive : ∀ succ ∈ succs, live succ) :
    (preds.foldl
        (fun state pred =>
          succs.foldl (fun state succ => connect state pred succ) state)
        heap).Represents live
      (fun source target =>
        edge source target ∨ (source ∈ preds ∧ target ∈ succs)) := by
  have inner : ∀ {heap : Heap} {edge : NodeId → NodeId → Prop},
      heap.Represents live edge → ∀ pred, live pred →
        (succs.foldl (fun state succ => connect state pred succ)
          heap).Represents live
          (fun source target =>
            edge source target ∨ (source = pred ∧ target ∈ succs)) := by
    intro heap edge represents pred predLive
    refine
      Loop.foldl_invariant (fun state succ => connect state pred succ)
        (fun done state => state.Represents live fun source target =>
          edge source target ∨ (source = pred ∧ target ∈ done))
        succs heap ?_ ?_
    · intro done succ rest state split before
      have succLive := succsLive succ (by simp [split])
      apply (connect_represents before predLive succLive).congr_edge
      intro source target
      rw [List.mem_append, List.mem_singleton]
      tauto
    · exact represents.congr_edge fun _ _ => by simp
  refine
    Loop.foldl_invariant
      (fun state pred =>
        succs.foldl (fun state succ => connect state pred succ) state)
      (fun done state => state.Represents live fun source target =>
        edge source target ∨ (source ∈ done ∧ target ∈ succs))
      preds heap ?_ ?_
  · intro done pred rest state split before
    have predLive := predsLive pred (by simp [split])
    apply (inner before pred predLive).congr_edge
    intro source target
    rw [List.mem_append, List.mem_singleton]
    tauto
  · exact represents.congr_edge fun _ _ => by simp

theorem remove_unlinked (u : NodeId) :
    (remove heap u).unlinked = heap.unlinked := by
  have inner : ∀ (pred : NodeId) (succs : List NodeId) (heap : Heap),
      (succs.foldl (fun state succ => connect state pred succ)
        heap).unlinked = heap.unlinked := by
    intro pred succs
    induction succs with
    | nil => exact fun _ => rfl
    | cons succ rest induction =>
        intro heap
        rw [List.foldl_cons, induction, connect_unlinked]
  have outer : ∀ (succs preds : List NodeId) (heap : Heap),
      (preds.foldl
        (fun state pred =>
          succs.foldl (fun state succ => connect state pred succ) state)
        heap).unlinked = heap.unlinked := by
    intro succs preds
    induction preds with
    | nil => exact fun _ => rfl
    | cons pred rest induction =>
        intro heap
        rw [List.foldl_cons, induction, inner]
  unfold remove
  rw [outer, disconnect_unlinked]

/-- `remove` eliminates one node from the represented graph. -/
theorem remove_represents (represents : heap.Represents live edge)
    {u : NodeId} (alive : live u) (loopless : ¬ edge u u) :
    (remove heap u).Represents (fun node => live node ∧ node ≠ u)
      (Digraph.Eliminate edge u) := by
  have into := represents.mem_predecessors u alive
  have out := represents.mem_successors u alive
  have predsLive : ∀ pred ∈ heap.predecessors u, live pred ∧ pred ≠ u := by
    intro pred member
    have step := (into pred).mp member
    refine ⟨(represents.inside pred u step).1, ?_⟩
    rintro rfl
    exact loopless step
  have succsLive : ∀ succ ∈ heap.successors u, live succ ∧ succ ≠ u := by
    intro succ member
    have step := (out succ).mp member
    refine ⟨(represents.inside u succ step).2, ?_⟩
    rintro rfl
    exact loopless step
  apply (connectAll_represents (disconnect_represents represents alive)
    predsLive succsLive).congr_edge
  intro source target
  constructor
  · rintro ⟨sourceAway, targetAway, direct | ⟨before, after⟩⟩
    · exact .inl ⟨direct, sourceAway, targetAway⟩
    · exact .inr ⟨(into source).mpr before, (out target).mpr after⟩
  · rintro (⟨direct, sourceAway, targetAway⟩ | ⟨before, after⟩)
    · exact ⟨sourceAway, targetAway, .inl direct⟩
    · exact
        ⟨(predsLive source before).2, (succsLive target after).2,
          .inr ⟨(into source).mp before, (out target).mp after⟩⟩

end Remove

/-! ## What a removal keeps -/

section Graph

variable {heap : Heap} {graph : GraphId}

/-- The removal of an inner node of a well-formed graph. -/
structure Removed (heap : Heap) (graph : GraphId) (u : NodeId)
    (after : Heap) : Prop where
  formed : after.WellFormed graph
  unlinked_eq : after.unlinked = heap.unlinked
  reachable_iff : ∀ n,
    after.Reachable graph n ↔ heap.Reachable graph n ∧ n ≠ u
  link_iff : ∀ source target, after.Link graph source target ↔
    Digraph.Eliminate (heap.Link graph) u source target

theorem remove_spec (formed : heap.WellFormed graph) {u : NodeId}
    (reachable : heap.Reachable graph u)
    (notEntry : u ≠ (heap.graphs graph).entry)
    (notExit : u ≠ (heap.graphs graph).exit) :
    Removed heap graph u (remove heap u) := by
  have same : (remove heap u).unlinked = heap.unlinked := remove_unlinked u
  have graphs := Heap.unlinked_graphs same
  have loopless : ¬ heap.Link graph u u :=
    fun loop => formed.acyclic u (TransGen.single loop)
  have represents :=
    remove_represents formed.represents reachable loopless
  have entryLive :
      heap.Reachable graph ((remove heap u).graphs graph).entry ∧
        ((remove heap u).graphs graph).entry ≠ u := by
    rw [graphs]
    exact ⟨Heap.reachable_entry, notEntry.symm⟩
  have fromEntry : ∀ node, heap.Reachable graph node ∧ node ≠ u →
      ReflTransGen (Digraph.Eliminate (heap.Link graph) u)
        ((remove heap u).graphs graph).entry node := by
    rintro node ⟨nodeReachable, away⟩
    rw [graphs, Digraph.reach_eliminate_iff notEntry.symm away]
    exact (Heap.reachable_iff_links node).mp nodeReachable
  have toExit : ∀ node, heap.Reachable graph node ∧ node ≠ u →
      ReflTransGen (Digraph.Eliminate (heap.Link graph) u) node
        ((remove heap u).graphs graph).exit := by
    rintro node ⟨nodeReachable, away⟩
    rw [graphs, Digraph.reach_eliminate_iff away notExit.symm]
    exact nodeReachable.links (formed.reaches_exit node nodeReachable)
  exact {
    formed := by
      apply Heap.WellFormed.of_represents represents _ _ entryLive fromEntry
        toExit (Digraph.acyclic_eliminate formed.acyclic)
      · rw [Heap.unlinked_graphCount same]
        exact formed.graph_lt
      · rintro node ⟨nodeReachable, -⟩
        rw [Heap.unlinked_nodeCount same]
        exact formed.allocated node nodeReachable
    unlinked_eq := same
    reachable_iff := represents.live_iff entryLive fromEntry
    link_iff := represents.edge_iff entryLive fromEntry }

/-- The links of a well-formed graph are finitely many. -/
theorem finite_links (formed : heap.WellFormed graph) :
    Set.Finite {pair : NodeId × NodeId | heap.Link graph pair.1 pair.2} := by
  apply Digraph.finite_edges (Finset.range heap.nodeCount)
  intro source target link
  rw [Finset.mem_range, Finset.mem_range]
  exact
    ⟨formed.allocated source link.1, formed.allocated target link.reachable⟩

theorem Removed.edgeCount_le {u : NodeId} {after : Heap}
    (removed : Removed heap graph u after) (formed : heap.WellFormed graph)
    (reachable : heap.Reachable graph u) (removable : Removable heap u) :
    Digraph.edgeCount (after.Link graph) ≤
      Digraph.edgeCount (heap.Link graph) := by
  have linkEq : after.Link graph =
      Digraph.Eliminate (heap.Link graph) u := by
    funext source target
    exact propext (removed.link_iff source target)
  have bound :=
    Digraph.edgeCount_eliminate_le (heap.predecessors u).toFinset
      (heap.successors u).toFinset (finite_links formed)
      (fun source => by
        rw [List.mem_toFinset, formed.mem_predecessors u reachable])
      (fun target => by
        rw [List.mem_toFinset]
        exact ⟨fun member => ⟨reachable, member⟩, And.right⟩)
      (fun loop => formed.acyclic u (TransGen.single loop))
  rw [List.toFinset_card_of_nodup (formed.predecessors_nodup u reachable),
    List.toFinset_card_of_nodup (formed.successors_nodup u reachable),
    ← linkEq] at bound
  have cheap := removable.2
  omega

/-- What the pass keeps of a graph. -/
structure Simplified (heap : Heap) (graph : GraphId) (after : Heap) :
    Prop where
  formed : after.WellFormed graph
  entry_eq : (after.graphs graph).entry = (heap.graphs graph).entry
  exit_eq : (after.graphs graph).exit = (heap.graphs graph).exit
  kept : ∀ n, (after.nodes n).type = (heap.nodes n).type ∧
    (after.nodes n).deviceUniqueId = (heap.nodes n).deviceUniqueId ∧
      (after.nodes n).command = (heap.nodes n).command
  remains : ∀ n, after.Reachable graph n → heap.Reachable graph n
  removed_control : ∀ n, heap.Reachable graph n → ¬ after.Reachable graph n →
    (heap.nodes n).type = .empty ∧ n ≠ (heap.graphs graph).entry ∧
      n ≠ (heap.graphs graph).exit
  reach_iff : ∀ u v, after.Reachable graph u → after.Reachable graph v →
    (ReflTransGen (after.Link graph) u v ↔
      ReflTransGen (heap.Link graph) u v)
  edges_le : Digraph.edgeCount (after.Link graph) ≤
    Digraph.edgeCount (heap.Link graph)

/-- Marks and iterator indices do not count. -/
theorem Simplified.of_unmarked {after : Heap}
    (formed : heap.WellFormed graph)
    (same : after.unmarked = heap.unmarked) :
    Simplified heap graph after where
  formed := formed.congr same
  entry_eq := (Heap.unmarked_graphs same graph).1
  exit_eq := (Heap.unmarked_graphs same graph).2.1
  kept := fun n =>
    ⟨Heap.unmarked_type same n, Heap.unmarked_deviceUniqueId same n,
      Heap.unmarked_command same n⟩
  remains := fun n reachable => by
    rwa [Heap.reachable_congr same] at reachable
  removed_control := fun n reachable gone => by
    rw [Heap.reachable_congr same] at gone
    exact (gone reachable).elim
  reach_iff := fun _ _ _ _ => by rw [Heap.link_congr same]
  edges_le := by rw [Heap.link_congr same]

theorem Simplified.trans {middle after : Heap}
    (first : Simplified heap graph middle)
    (second : Simplified middle graph after) :
    Simplified heap graph after where
  formed := second.formed
  entry_eq := second.entry_eq.trans first.entry_eq
  exit_eq := second.exit_eq.trans first.exit_eq
  kept := by
    intro n
    obtain ⟨type, device, command⟩ := second.kept n
    obtain ⟨type', device', command'⟩ := first.kept n
    exact
      ⟨type.trans type', device.trans device', command.trans command'⟩
  remains := fun n reachable => first.remains n (second.remains n reachable)
  removed_control := by
    intro n reachable gone
    by_cases between : middle.Reachable graph n
    · have control := second.removed_control n between gone
      rwa [(first.kept n).1, first.entry_eq, first.exit_eq] at control
    · exact first.removed_control n reachable between
  reach_iff := by
    intro u v uRemains vRemains
    rw [second.reach_iff u v uRemains vRemains]
    exact
      first.reach_iff u v (second.remains u uRemains)
        (second.remains v vRemains)
  edges_le := second.edges_le.trans first.edges_le

/-- One iteration of the pass, at an inner node. -/
theorem reduceNode_simplified (formed : heap.WellFormed graph) {u : NodeId}
    (reachable : heap.Reachable graph u)
    (notEntry : u ≠ (heap.graphs graph).entry)
    (notExit : u ≠ (heap.graphs graph).exit) :
    Simplified heap graph (reduceNode heap u) := by
  unfold reduceNode
  split
  · rename_i removable
    have removed := remove_spec formed reachable notEntry notExit
    have same := removed.unlinked_eq
    have linkEq : (remove heap u).Link graph =
        Digraph.Eliminate (heap.Link graph) u := by
      funext source target
      exact propext (removed.link_iff source target)
    exact {
      formed := removed.formed
      entry_eq := by rw [Heap.unlinked_graphs same]
      exit_eq := by rw [Heap.unlinked_graphs same]
      kept := fun n =>
        ⟨Heap.unlinked_type same n, Heap.unlinked_deviceUniqueId same n,
          Heap.unlinked_command same n⟩
      remains := fun n remains => ((removed.reachable_iff n).mp remains).1
      removed_control := by
        intro n before gone
        rw [removed.reachable_iff, not_and_not_right] at gone
        obtain rfl := gone before
        exact ⟨removable.1, notEntry, notExit⟩
      reach_iff := by
        intro source target sourceRemains targetRemains
        rw [linkEq]
        exact
          Digraph.reach_eliminate_iff
            ((removed.reachable_iff source).mp sourceRemains).2
            ((removed.reachable_iff target).mp targetRemains).2
      edges_le := removed.edgeCount_le formed reachable removable }
  · exact Simplified.of_unmarked formed rfl

/-! ## The sweep -/

/-- A node of the graph that is neither its entry nor its exit. -/
def Inner (heap : Heap) (graph : GraphId) (u : NodeId) : Prop :=
  heap.Reachable graph u ∧ u ≠ (heap.graphs graph).entry ∧
    u ≠ (heap.graphs graph).exit

/-- A sweep over different inner nodes, of which the others stay. -/
theorem sweep_spec (formed : heap.WellFormed graph) {nodes : List NodeId}
    (nodup : nodes.Nodup) (inner : ∀ n ∈ nodes, Inner heap graph n) :
    Simplified heap graph (nodes.foldl reduceNode heap) ∧
      ∀ n, heap.Reachable graph n → n ∉ nodes →
        (nodes.foldl reduceNode heap).Reachable graph n := by
  refine
    Loop.foldl_invariant reduceNode
      (fun done state => Simplified heap graph state ∧
        ∀ n, heap.Reachable graph n → n ∉ done → state.Reachable graph n)
      nodes heap ?_ ?_
  · rintro done u rest state rfl ⟨simplified, stays⟩
    obtain ⟨reachable, notEntry, notExit⟩ := inner u (by simp)
    have fresh : u ∉ done := by
      intro member
      exact
        (List.nodup_append.mp nodup).2.2 u member u List.mem_cons_self rfl
    have remains := stays u reachable fresh
    rw [← simplified.entry_eq] at notEntry
    rw [← simplified.exit_eq] at notExit
    have step :=
      reduceNode_simplified simplified.formed remains notEntry notExit
    refine ⟨simplified.trans step, ?_⟩
    intro n before outside
    rw [List.mem_append, List.mem_singleton, not_or] at outside
    have between := stays n before outside.1
    unfold reduceNode
    split
    · have removed :=
        remove_spec simplified.formed remains notEntry notExit
      exact (removed.reachable_iff n).mpr ⟨between, outside.2⟩
    · exact between
  · exact ⟨Simplified.of_unmarked formed rfl, fun n reachable _ => reachable⟩

/-- The nodes of the pass are the inner nodes of the graph. -/
theorem exists_nodes (formed : heap.WellFormed graph)
    (ready : heap.WalkReady graph) :
    ∃ indexed nodes, heap.createNodeIterators graph false =
        some (indexed, nodes) ∧
      passReduceNode heap graph = some (nodes.foldl reduceNode indexed) ∧
        indexed.unmarked = heap.unmarked ∧ indexed.WalkReady graph ∧
          nodes.Nodup ∧ ∀ n, n ∈ nodes ↔ Inner heap graph n := by
  obtain ⟨indexed, nodes, listed, iterated⟩ :=
    Heap.createNodeIterators_spec formed.allocated ready false
  refine
    ⟨indexed, nodes, listed, ?_, iterated.unmarked_eq, iterated.ready,
      iterated.nodup, ?_⟩
  · simp [passReduceNode, listed]
  · intro n
    rw [iterated.mem_iff]
    simp [Inner]

theorem inner_congr {indexed : Heap}
    (same : indexed.unmarked = heap.unmarked) :
    Inner indexed graph = Inner heap graph := by
  obtain ⟨entryEq, exitEq, -⟩ := Heap.unmarked_graphs same graph
  funext n
  rw [Inner, Heap.reachable_congr same, entryEq, exitEq, Inner]

/--
On a well-formed graph the pass returns, and removes inner control nodes only:
the graph stays well formed, the remaining nodes reach each other as before, and
there are no more edges than before.
-/
theorem passReduceNode_simplifies (formed : heap.WellFormed graph)
    (ready : heap.WalkReady graph) :
    ∃ after, passReduceNode heap graph = some after ∧
      Simplified heap graph after := by
  obtain ⟨indexed, nodes, -, ran, same, -, nodup, memIff⟩ :=
    exists_nodes formed ready
  refine ⟨_, ran, (Simplified.of_unmarked formed same).trans ?_⟩
  apply (sweep_spec (formed.congr same) nodup _).1
  intro n member
  rw [inner_congr same]
  exact (memIff n).mp member

/-! ## Nodes that are removable at the end -/

/-- An edge of `u` is merged into its other edges when `x` is removed. -/
def Absorbs (heap : Heap) (x u : NodeId) : Prop :=
  (x ∈ heap.predecessors u ∧
      ∀ pred ∈ heap.predecessors x, pred ∈ heap.predecessors u) ∨
    (x ∈ heap.successors u ∧
      ∀ succ ∈ heap.successors x, succ ∈ heap.successors u)

/-- A list does not get shorter when a new item replaces one of its items. -/
theorem length_le_of_replaced {old new : List NodeId} (nodup : old.Nodup)
    {x : NodeId}
    (fresh : x ∈ old → ∃ p ∈ new, p ∉ old)
    (kept : ∀ y ∈ old, y ≠ x → y ∈ new) : old.length ≤ new.length := by
  by_cases member : x ∈ old
  · obtain ⟨p, isNew, outside⟩ := fresh member
    have nodup' : (p :: old.erase x).Nodup := by
      apply List.nodup_cons.mpr
      exact ⟨fun inside => outside (List.mem_of_mem_erase inside),
        nodup.erase x⟩
    have contained : p :: old.erase x ⊆ new := by
      intro y inside
      rcases List.mem_cons.mp inside with rfl | old'
      · exact isNew
      · obtain ⟨away, known⟩ := nodup.mem_erase_iff.mp old'
        exact kept y known away
    have bound := (nodup'.subperm contained).length_le
    rw [List.length_cons, List.length_erase_of_mem member] at bound
    omega
  · apply (nodup.subperm _).length_le
    intro y known
    apply kept y known
    rintro rfl
    exact member known

/-- A removal that absorbs no edge of a node does not lower its degrees. -/
theorem Removed.degrees_le {x u : NodeId} {after : Heap}
    (removed : Removed heap graph x after) (formed : heap.WellFormed graph)
    (xReachable : heap.Reachable graph x)
    (uReachable : heap.Reachable graph u) (away : u ≠ x)
    (apart : ¬ Absorbs heap x u) :
    (heap.predecessors u).length ≤ (after.predecessors u).length ∧
      (heap.successors u).length ≤ (after.successors u).length := by
  have uRemains := (removed.reachable_iff u).mpr ⟨uReachable, away⟩
  have predsAfter : ∀ p, p ∈ after.predecessors u ↔
      Digraph.Eliminate (heap.Link graph) x p u := by
    intro p
    rw [removed.formed.mem_predecessors u uRemains, removed.link_iff]
  have succsAfter : ∀ q, q ∈ after.successors u ↔
      Digraph.Eliminate (heap.Link graph) x u q := by
    intro q
    rw [← removed.link_iff]
    exact ⟨fun member => ⟨uRemains, member⟩, And.right⟩
  have predsBefore := formed.mem_predecessors u uReachable
  have loopless : ∀ p, heap.Link graph p p → False :=
    fun p loop => formed.acyclic p (TransGen.single loop)
  rw [Absorbs, not_or, not_and, not_and] at apart
  constructor
  · apply length_le_of_replaced (formed.predecessors_nodup u uReachable)
      (x := x)
    · intro member
      obtain ⟨p, isPred, outside⟩ := by
        simpa only [not_forall, exists_prop] using apart.1 member
      have link := (formed.mem_predecessors x xReachable p).mp isPred
      refine ⟨p, (predsAfter p).mpr ⟨?_, away, .inr ⟨link, ?_⟩⟩, outside⟩
      · rintro rfl
        exact loopless p link
      · exact (predsBefore x).mp member
    · intro p member apart
      exact
        (predsAfter p).mpr ⟨apart, away, .inl ((predsBefore p).mp member)⟩
  · apply length_le_of_replaced (formed.successors_nodup u uReachable)
      (x := x)
    · intro member
      obtain ⟨q, isSucc, outside⟩ := by
        simpa only [not_forall, exists_prop] using apart.2 member
      have link : heap.Link graph x q := ⟨xReachable, isSucc⟩
      refine
        ⟨q, (succsAfter q).mpr ⟨away, ?_, .inr ⟨⟨uReachable, member⟩, link⟩⟩,
          outside⟩
      rintro rfl
      exact loopless q link
    · intro q member apart
      exact
        (succsAfter q).mpr ⟨away, apart, .inl ⟨uReachable, member⟩⟩

/-- Larger degrees never make the removal cheaper. -/
theorem costs_mono {m n m' n' : Nat} (costs : ¬ m * n < 1 + m + n)
    (preds : m ≤ m') (succs : n ≤ n') : ¬ m' * n' < 1 + m' + n' := by
  have two : 2 ≤ m ∧ 2 ≤ n := by
    constructor
    · by_contra small
      have : m = 0 ∨ m = 1 := by omega
      rcases this with rfl | rfl <;> omega
    · by_contra small
      have : n = 0 ∨ n = 1 := by omega
      rcases this with rfl | rfl <;> omega
  obtain ⟨a, rfl⟩ := Nat.exists_eq_add_of_le preds
  obtain ⟨b, rfl⟩ := Nat.exists_eq_add_of_le succs
  have grown : (m + a) * (n + b) = m * n + (a * n + (m * b + a * b)) := by
    ring
  have first : 2 * a ≤ a * n := by
    rw [Nat.mul_comm a n]
    exact Nat.mul_le_mul_right a two.2
  have second : 2 * b ≤ m * b := Nat.mul_le_mul_right b two.1
  omega

/--
After the sweep examined `u` and kept it, it removes a node and with it absorbs
an edge of `u`.
-/
def AbsorbedLater (start : Heap) (nodes : List NodeId) (u : NodeId) : Prop :=
  ∃ done between x rest, nodes = done ++ u :: between ++ x :: rest ∧
    ¬ Removable (done.foldl reduceNode start) u ∧
      Removable ((done ++ u :: between).foldl reduceNode start) x ∧
        Absorbs ((done ++ u :: between).foldl reduceNode start) x u

/-- No inner node of the graph passes the test of the pass. -/
def Complete (heap : Heap) (graph : GraphId) : Prop :=
  ∀ u, Inner heap graph u → ¬ Removable heap u

/-- No two inner control nodes are linked. -/
def ControlApart (heap : Heap) (graph : GraphId) : Prop :=
  ∀ u v, Inner heap graph u → Inner heap graph v →
    (heap.nodes u).type = .empty → (heap.nodes v).type = .empty →
      ¬ heap.Link graph u v

/-- The removal of a control node links no other control nodes. -/
theorem Removed.controlApart {x : NodeId} {after : Heap}
    (removed : Removed heap graph x after) (inner : Inner heap graph x)
    (isEmpty : (heap.nodes x).type = .empty)
    (apart : ControlApart heap graph) : ControlApart after graph := by
  have same := removed.unlinked_eq
  have innerBefore : ∀ n, Inner after graph n → Inner heap graph n := by
    rintro n ⟨reachable, notEntry, notExit⟩
    rw [Heap.unlinked_graphs same] at notEntry notExit
    exact ⟨((removed.reachable_iff n).mp reachable).1, notEntry, notExit⟩
  intro u v uInner vInner uEmpty vEmpty link
  rw [Heap.unlinked_type same] at uEmpty vEmpty
  obtain ⟨-, -, direct | ⟨before, -⟩⟩ := (removed.link_iff u v).mp link
  · exact
      apart u v (innerBefore u uInner) (innerBefore v vInner) uEmpty vEmpty
        direct
  · exact apart u x (innerBefore u uInner) inner uEmpty isEmpty before

theorem foldl_reduceNode_unlinked (nodes : List NodeId) :
    (nodes.foldl reduceNode heap).unlinked = heap.unlinked := by
  induction nodes generalizing heap with
  | nil => rfl
  | cons u rest induction =>
      rw [List.foldl_cons, induction, reduceNode]
      split
      · exact remove_unlinked u
      · rfl

section Sweep

variable {nodes : List NodeId} (formed : heap.WellFormed graph)
  (nodup : nodes.Nodup) (inner : ∀ n ∈ nodes, Inner heap graph n)

include formed nodup inner

/-- What holds when the sweep comes to a node. -/
theorem sweep_at {done rest : List NodeId} {x : NodeId}
    (split : nodes = done ++ x :: rest) :
    Simplified heap graph (done.foldl reduceNode heap) ∧
      Inner (done.foldl reduceNode heap) graph x := by
  subst split
  obtain ⟨doneNodup, -, disjoint⟩ := List.nodup_append.mp nodup
  obtain ⟨simplified, stays⟩ :=
    sweep_spec formed doneNodup fun n member => inner n (by simp [member])
  obtain ⟨reachable, notEntry, notExit⟩ := inner x (by simp)
  refine ⟨simplified, ?_, ?_, ?_⟩
  · apply stays x reachable
    intro member
    exact disjoint x member x List.mem_cons_self rfl
  · rwa [simplified.entry_eq]
  · rwa [simplified.exit_eq]

/-- The rest of the sweep simplifies further. -/
theorem sweep_from {done rest : List NodeId} (split : nodes = done ++ rest) :
    Simplified (done.foldl reduceNode heap) graph
      (nodes.foldl reduceNode heap) := by
  subst split
  obtain ⟨doneNodup, restNodup, disjoint⟩ := List.nodup_append.mp nodup
  obtain ⟨simplified, stays⟩ :=
    sweep_spec formed doneNodup fun n member => inner n (by simp [member])
  rw [List.foldl_append]
  apply (sweep_spec simplified.formed restNodup _).1
  intro n member
  obtain ⟨reachable, notEntry, notExit⟩ := inner n (by simp [member])
  refine ⟨?_, ?_, ?_⟩
  · apply stays n reachable
    intro known
    exact disjoint n known n member rfl
  · rwa [simplified.entry_eq]
  · rwa [simplified.exit_eq]

/-- A node that is left was not removable when the sweep examined it. -/
theorem kept_of_remains {done rest : List NodeId} {u : NodeId}
    (split : nodes = done ++ u :: rest)
    (remains : (nodes.foldl reduceNode heap).Reachable graph u) :
    ¬ Removable (done.foldl reduceNode heap) u := by
  intro removable
  obtain ⟨simplified, reachable, notEntry, notExit⟩ :=
    sweep_at formed nodup inner split
  have removed :=
    remove_spec simplified.formed reachable notEntry notExit
  have split' : nodes = (done ++ [u]) ++ rest := by
    rw [split, List.append_assoc, List.singleton_append]
  have before := (sweep_from formed nodup inner split').remains u remains
  rw [List.foldl_append, List.foldl_cons, List.foldl_nil, reduceNode,
    if_pos removable] at before
  exact ((removed.reachable_iff u).mp before).2 rfl

/-- One iteration at another node that absorbs no edge of a kept node. -/
theorem kept_step {done rest : List NodeId} {u x : NodeId}
    (split : nodes = done ++ x :: rest)
    (remains : (nodes.foldl reduceNode heap).Reachable graph u)
    (kept : ¬ Removable (done.foldl reduceNode heap) u)
    (apart : Removable (done.foldl reduceNode heap) x →
      ¬ Absorbs (done.foldl reduceNode heap) x u) :
    ¬ Removable (reduceNode (done.foldl reduceNode heap) x) u := by
  obtain ⟨simplified, reachable, notEntry, notExit⟩ :=
    sweep_at formed nodup inner split
  have uReachable := (sweep_from formed nodup inner split).remains u remains
  generalize done.foldl reduceNode heap = state at *
  by_cases removable : Removable state x
  · rw [reduceNode, if_pos removable]
    have removed :=
      remove_spec simplified.formed reachable notEntry notExit
    have away : u ≠ x := by
      rintro rfl
      exact kept removable
    obtain ⟨preds, succs⟩ :=
      removed.degrees_le simplified.formed reachable uReachable away
        (apart removable)
    rintro ⟨isEmpty, cheap⟩
    rw [Heap.unlinked_type removed.unlinked_eq] at isEmpty
    exact costs_mono (fun cheap => kept ⟨isEmpty, cheap⟩) preds succs cheap
  · rwa [reduceNode, if_neg removable]

/-- The sweep does not lower the degrees of a node it absorbs no edge of. -/
theorem kept_until_absorbed {done rest : List NodeId} {u : NodeId}
    (split : nodes = done ++ u :: rest)
    (remains : (nodes.foldl reduceNode heap).Reachable graph u)
    (apart : ¬ AbsorbedLater heap nodes u) :
    ¬ Removable (nodes.foldl reduceNode heap) u := by
  have kept := kept_of_remains formed nodup inner split remains
  -- over the nodes that come after `u`
  have along : ∀ between after, rest = between ++ after →
      ¬ Removable ((done ++ u :: between).foldl reduceNode heap) u := by
    intro between
    induction between using List.reverseRecOn with
    | nil =>
        intro _ _
        rw [List.foldl_append, List.foldl_cons, List.foldl_nil, reduceNode,
          if_neg kept]
        exact kept
    | append_singleton between x induction =>
        intro after restEq
        rw [List.append_assoc, List.singleton_append] at restEq
        have splitX : nodes = (done ++ u :: between) ++ x :: after := by
          rw [split, restEq, List.append_assoc, List.cons_append]
        rw [← List.cons_append, ← List.append_assoc, List.foldl_append,
          List.foldl_cons, List.foldl_nil]
        apply kept_step formed nodup inner splitX remains
          (induction (x :: after) restEq)
        intro removable absorbs
        exact
          apart ⟨done, between, x, after, splitX, kept, removable, absorbs⟩
  rw [split]
  exact along rest [] (List.append_nil rest).symm

/-- Control nodes that are apart stay apart. -/
theorem sweep_controlApart (apart : ControlApart heap graph)
    {done rest : List NodeId} (split : nodes = done ++ rest) :
    ControlApart (done.foldl reduceNode heap) graph := by
  induction done using List.reverseRecOn generalizing rest with
  | nil => exact apart
  | append_singleton done x induction =>
      rw [List.append_assoc, List.singleton_append] at split
      obtain ⟨simplified, xInner⟩ := sweep_at formed nodup inner split
      rw [List.foldl_append, List.foldl_cons, List.foldl_nil, reduceNode]
      split_ifs with removable
      · have removed :=
          remove_spec simplified.formed xInner.1 xInner.2.1 xInner.2.2
        exact removed.controlApart xInner removable.1 (induction split)
      · exact induction split

/-- Between control nodes that are apart nothing is absorbed. -/
theorem not_absorbed_of_apart (apart : ControlApart heap graph)
    {u : NodeId} (uInner : Inner (nodes.foldl reduceNode heap) graph u)
    (uEmpty : (heap.nodes u).type = .empty) :
    ¬ AbsorbedLater heap nodes u := by
  rintro ⟨done, between, x, rest, split, -, removable, absorbs⟩
  obtain ⟨simplified, xInner⟩ := sweep_at formed nodup inner split
  have simplified' := sweep_from formed nodup inner split
  have apart' := sweep_controlApart formed nodup inner apart split
  obtain ⟨reachable, notEntry, notExit⟩ := uInner
  have uInner' :
      Inner ((done ++ u :: between).foldl reduceNode heap) graph u := by
    refine ⟨simplified'.remains u reachable, ?_, ?_⟩
    · rwa [simplified'.entry_eq] at notEntry
    · rwa [simplified'.exit_eq] at notExit
  rw [← (simplified.kept u).1] at uEmpty
  rcases absorbs with ⟨member, -⟩ | ⟨member, -⟩
  · have link :=
      (simplified.formed.mem_predecessors u uInner'.1 x).mp member
    exact apart' x u xInner uInner' removable.1 uEmpty link
  · exact
      apart' u x uInner' xInner uEmpty removable.1 ⟨uInner'.1, member⟩

/-- When every node remains, the sweep did nothing. -/
theorem foldl_reduceNode_of_remains
    (remains : ∀ n ∈ nodes,
      (nodes.foldl reduceNode heap).Reachable graph n)
    {done rest : List NodeId} (split : nodes = done ++ rest) :
    done.foldl reduceNode heap = heap := by
  induction done using List.reverseRecOn generalizing rest with
  | nil => rfl
  | append_singleton done x induction =>
      rw [List.append_assoc, List.singleton_append] at split
      have kept :=
        kept_of_remains formed nodup inner split
          (remains x (by simp [split]))
      rw [List.foldl_append, induction split] at *
      rw [List.foldl_cons, List.foldl_nil, reduceNode, if_neg kept]

end Sweep

theorem removable_congr {indexed : Heap}
    (same : indexed.unmarked = heap.unmarked) (u : NodeId) :
    Removable indexed u ↔ Removable heap u := by
  unfold Removable
  rw [Heap.unmarked_type same, Heap.unmarked_predecessors same,
    Heap.unmarked_successors same]

/-- A run changes nothing but marks exactly when no node is removable. -/
theorem complete_iff_unchanged (formed : heap.WellFormed graph)
    (ready : heap.WalkReady graph) :
    Complete heap graph ↔
      ∃ again, passReduceNode heap graph = some again ∧
        again.unmarked = heap.unmarked := by
  obtain ⟨indexed, nodes, -, ran, same, -, nodup, memIff⟩ :=
    exists_nodes formed ready
  have formed' := formed.congr same
  have inner : ∀ n ∈ nodes, Inner indexed graph n := by
    intro n member
    rw [inner_congr same]
    exact (memIff n).mp member
  constructor
  · intro complete
    refine ⟨_, ran, ?_⟩
    have idle : ∀ list : List NodeId, (∀ n ∈ list, n ∈ nodes) →
        list.foldl reduceNode indexed = indexed := by
      intro list
      induction list with
      | nil => exact fun _ => rfl
      | cons n rest induction =>
          intro members
          have kept : ¬ Removable indexed n := by
            rw [removable_congr same]
            exact complete n ((memIff n).mp (members n List.mem_cons_self))
          rw [List.foldl_cons, reduceNode, if_neg kept]
          exact induction fun n member =>
            members n (List.mem_cons_of_mem _ member)
    rw [idle nodes fun _ member => member, same]
  · rintro ⟨again, ranAgain, unchanged⟩ u uInner
    obtain rfl := Option.some.inj (ran.symm.trans ranAgain)
    have remains : ∀ n ∈ nodes,
        (nodes.foldl reduceNode indexed).Reachable graph n := by
      intro n member
      rw [Heap.reachable_congr unchanged]
      exact ((memIff n).mp member).1
    have member := (memIff u).mpr uInner
    obtain ⟨done, rest, split⟩ := List.append_of_mem member
    have kept :=
      kept_of_remains formed' nodup inner split (remains u member)
    rw [foldl_reduceNode_of_remains formed' nodup inner remains split,
      removable_congr same] at kept
    exact kept

/--
An inner node that is removable after the pass was kept when it was examined,
and absorbed later.  So the pass is complete when no two inner control nodes are
linked, and it is complete exactly when a second run changes nothing.
-/
theorem passReduceNode_complete_unless_absorbed
    (formed : heap.WellFormed graph) (ready : heap.WalkReady graph) :
    ∃ indexed nodes after, heap.createNodeIterators graph false =
        some (indexed, nodes) ∧
      passReduceNode heap graph = some after ∧
        (∀ u, Inner after graph u → Removable after u →
          AbsorbedLater indexed nodes u) ∧
        (ControlApart heap graph → Complete after graph) ∧
        (Complete after graph ↔
          ∃ again, passReduceNode after graph = some again ∧
            again.unmarked = after.unmarked) := by
  obtain ⟨indexed, nodes, listed, ran, same, ready', nodup, memIff⟩ :=
    exists_nodes formed ready
  have formed' := formed.congr same
  have inner : ∀ n ∈ nodes, Inner indexed graph n := by
    intro n member
    rw [inner_congr same]
    exact (memIff n).mp member
  have simplified := (sweep_spec formed' nodup inner).1
  have unlinked : (nodes.foldl reduceNode indexed).unlinked =
      indexed.unlinked := foldl_reduceNode_unlinked nodes
  have absorbed : ∀ u, Inner (nodes.foldl reduceNode indexed) graph u →
      Removable (nodes.foldl reduceNode indexed) u →
        AbsorbedLater indexed nodes u := by
    rintro u ⟨reachable, notEntry, notExit⟩ removable
    rw [simplified.entry_eq] at notEntry
    rw [simplified.exit_eq] at notExit
    have member : u ∈ nodes := by
      rw [memIff, ← inner_congr same]
      exact ⟨simplified.remains u reachable, notEntry, notExit⟩
    obtain ⟨done, rest, split⟩ := List.append_of_mem member
    by_contra apart
    exact
      kept_until_absorbed formed' nodup inner split reachable apart removable
  refine ⟨indexed, nodes, _, listed, ran, absorbed, ?_, ?_⟩
  · intro apart u uInner removable
    have apart' : ControlApart indexed graph := by
      intro a b
      rw [inner_congr same, Heap.link_congr same, Heap.unmarked_type same,
        Heap.unmarked_type same]
      exact apart a b
    have uEmpty := removable.1
    rw [(simplified.kept u).1] at uEmpty
    exact
      not_absorbed_of_apart formed' nodup inner apart' uInner uEmpty
        (absorbed u uInner removable)
  · apply complete_iff_unchanged simplified.formed
    intro node reachable notEntry
    rw [Heap.unlinked_walkId unlinked, Heap.unlinked_graphs unlinked] at *
    exact ready' node (simplified.remains node reachable) notEntry

end Graph

/-! ## A control node beside a shortcut -/

/--
A read 1 before a control node 3 with three reads behind it, once directly and
once through the control node 2.
-/
def shortcut : Heap :=
  Heap.ofNodes
    [Heap.linkedNode unspecifiedDeviceUniqueId .empty [] [1],
      Heap.readNode 1 [0] [3, 2],
      Heap.linkedNode unspecifiedDeviceUniqueId .empty [1] [3],
      Heap.linkedNode unspecifiedDeviceUniqueId .empty [1, 2] [4, 5, 6],
      Heap.readNode 1 [3] [7],
      Heap.readNode 1 [3] [7],
      Heap.readNode 1 [3] [7],
      Heap.linkedNode unspecifiedDeviceUniqueId .empty [4, 5, 6] []]
    { entry := 0, exit := 7, walkId := 0, isSequence := false }

theorem shortcut_numbered : shortcut.Numbered 0 := by decide

theorem shortcut_walkReady : shortcut.WalkReady 0 :=
  shortcut_numbered.walkReady (by decide)

theorem passReduceNode_simplifies_shortcut :
    ∃ after, passReduceNode shortcut 0 = some after ∧
      Simplified shortcut 0 after :=
  passReduceNode_simplifies shortcut_numbered.wellFormed shortcut_walkReady

/-- The node 3 is kept with two predecessors; then the node 2 is removed. -/
theorem passReduceNode_incomplete_shortcut :
    shortcut.WellFormed 0 ∧ shortcut.WalkReady 0 ∧
      ∃ after, passReduceNode shortcut 0 = some after ∧
        ¬ Complete after 0 ∧
          ∃ again, passReduceNode after 0 = some again ∧
            again.successors 1 ≠ after.successors 1 := by
  refine ⟨shortcut_numbered.wellFormed, shortcut_walkReady, ?_⟩
  have ran : (passReduceNode shortcut 0).map (fun after =>
      (after.successors 0, after.successors 1, (after.graphs 0).entry,
        (after.graphs 0).exit, decide (Removable after 3))) =
      some ([1], [3], 0, 7, true) := by
    decide
  have again : ((passReduceNode shortcut 0).bind fun after =>
      passReduceNode after 0).map (fun again => again.successors 1) =
      some [4, 5, 6] := by
    decide
  obtain ⟨after, passed, observed⟩ := Option.map_eq_some_iff.mp ran
  obtain ⟨entrySuccs, readSuccs, entryEq, exitEq, removable⟩ := by
    simpa only [Prod.mk.injEq, decide_eq_true_eq] using observed
  refine ⟨after, passed, ?_, ?_⟩
  · intro complete
    refine complete 3 ⟨?_, ?_, ?_⟩ removable
    · have first : MarkSearch.Edge after.successors 0 1 := by
        show 1 ∈ after.successors 0
        rw [entrySuccs]
        exact List.mem_singleton_self 1
      have second : MarkSearch.Edge after.successors 1 3 := by
        show 3 ∈ after.successors 1
        rw [readSuccs]
        exact List.mem_singleton_self 3
      unfold Heap.Reachable
      rw [entryEq]
      exact (ReflTransGen.single first).tail second
    · rw [entryEq]
      decide
    · rw [exitEq]
      decide
  · rw [passed, Option.bind_some] at again
    obtain ⟨final, passedAgain, successors⟩ := Option.map_eq_some_iff.mp again
    refine ⟨final, passedAgain, ?_⟩
    rw [successors, readSuccs]
    decide

theorem passReduceNode_complete_unless_absorbed_shortcut :
    ∃ indexed nodes after, shortcut.createNodeIterators 0 false =
        some (indexed, nodes) ∧
      passReduceNode shortcut 0 = some after ∧
        (∀ u, Inner after 0 u → Removable after u →
          AbsorbedLater indexed nodes u) ∧
        (ControlApart shortcut 0 → Complete after 0) ∧
        (Complete after 0 ↔
          ∃ again, passReduceNode after 0 = some again ∧
            again.unmarked = after.unmarked) :=
  passReduceNode_complete_unless_absorbed shortcut_numbered.wellFormed
    shortcut_walkReady

end Cgir.Pass.ReduceNode
