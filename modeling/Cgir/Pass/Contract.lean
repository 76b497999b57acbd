import Cgir.Library.PairMerge
import Cgir.Model.Reverse
import Cgir.Pass.CopyFuse
import Cgir.Pass.ProgFuse

/-!
# Contracting two nodes

`command_graph_t::contract` for its three hints, in place and with a fresh node.
The six variants rewrite lists in different ways; all of them make the graph the
quotient in which the returned node stands for both nodes (`contract_quotient`).
-/

namespace Cgir.Pass.Contract

open Relation
open Cgir.Library
open Cgir.Library.PairMerge (Twins)
open Cgir.Model
open Cgir.Pass.CopyFuse (areFalseTwins)
open Cgir.Pass.ProgFuse (areSequence redirectPredecessor contractSequence)

/-! ## The source functions -/

/-- The hints that tell how two nodes lie to each other. -/
inductive ContractionHint where
  | falseTwins
  | uvSequence
  | vuSequence
  deriving DecidableEq, Repr

/-- What `contract` asserts of two nodes for a hint. -/
def hinted (heap : Heap) (u v : NodeId) : ContractionHint → Bool
  | .falseTwins => areFalseTwins heap u v
  | .uvSequence => areSequence heap u v
  | .vuSequence => areSequence heap v u

/-- `pred->precedes(w)` for the fresh node, if there is one. -/
def precedeFresh (heap : Heap) (pred : NodeId) : Option NodeId → Heap
  | none => heap
  | some w => heap.precedes pred w

/-- `w->precedes(succ)` for the fresh node, if there is one. -/
def followFresh (heap : Heap) (succ : NodeId) : Option NodeId → Heap
  | none => heap
  | some w => heap.precedes w succ

/--
One iteration over predecessors: the absorbed nodes, each of which is asserted to
be a successor once, are erased, and a fresh node takes their place.
-/
def unlinkPredecessor (gone : List NodeId) (fresh : Option NodeId)
    (heap : Heap) (pred : NodeId) : Option Heap :=
  if ∀ x ∈ gone, (heap.successors pred).count x = 1 then
    let erased := gone.foldl (fun heap x => heap.eraseSuccessor pred x) heap
    some (precedeFresh erased pred fresh)
  else
    none

/-- One iteration over successors. -/
def unlinkSuccessor (gone : List NodeId) (fresh : Option NodeId)
    (heap : Heap) (succ : NodeId) : Option Heap :=
  if ∀ x ∈ gone, (heap.predecessors succ).count x = 1 then
    let erased := gone.foldl (fun heap x => heap.erasePredecessor succ x) heap
    some (followFresh erased succ fresh)
  else
    none

/-- One iteration over predecessors that overwrites `v` by `u`. -/
def redirectSuccessor (u v : NodeId) (heap : Heap) (pred : NodeId) :
    Option Heap :=
  if (heap.successors pred).count v = 1 ∧ pred ≠ u then
    some (heap.setSuccessors pred
      ((heap.successors pred).map fun s => if s = v then u else s))
  else
    none

/-- The loop over the predecessors of `a`, then the one over the successors of `b`. -/
def relink (goneAbove goneBelow : List NodeId) (fresh : Option NodeId)
    (a b : NodeId) (heap : Heap) : Option Heap := do
  let heap ← heap.foreachPredecessor a (unlinkPredecessor goneAbove fresh)
  heap.foreachSuccessor b (unlinkSuccessor goneBelow fresh)

/-- The loops with the node that `command_graph_node_new` returns. -/
def relinkFresh (goneAbove goneBelow : List NodeId) (a b : NodeId)
    (heap : Heap) : Option (Heap × NodeId) := do
  let (w, heap) :=
    heap.commandGraphNodeNew unspecifiedDeviceUniqueId .empty
  let heap ← relink goneAbove goneBelow (some w) a b heap
  return (heap, w)

/-- `contract<FALSE_TWINS | INPLACE>`: `v` is erased everywhere. -/
def contractTwinsInPlace (heap : Heap) (u v : NodeId) :
    Option (Heap × NodeId) := do
  let heap ← relink [v] [v] none u u heap
  return (heap, u)

/-- `contract<FALSE_TWINS>`. -/
def contractTwins (heap : Heap) (u v : NodeId) : Option (Heap × NodeId) :=
  relinkFresh [u, v] [u, v] u u heap

/-- `contract<U_V_SEQUENCE | INPLACE>`; the successors of `v` are moved to `u`. -/
def contractUvInPlace (heap : Heap) (u v : NodeId) :
    Option (Heap × NodeId) := do
  let redirected ← heap.foreachSuccessor v (redirectPredecessor u v)
  return ((redirected.setSuccessors u (heap.successors v)).setSuccessors v [],
    u)

/-- `contract<U_V_SEQUENCE>`. -/
def contractUv (heap : Heap) (u v : NodeId) : Option (Heap × NodeId) :=
  relinkFresh [u] [v] u v heap

/-- `contract<V_U_SEQUENCE | INPLACE>`; the predecessors of `v` are moved to `u`. -/
def contractVuInPlace (heap : Heap) (u v : NodeId) :
    Option (Heap × NodeId) := do
  let redirected ← heap.foreachPredecessor v (redirectSuccessor u v)
  return ((redirected.setPredecessors u
      (heap.predecessors v)).setPredecessors v [], u)

/-- `contract<V_U_SEQUENCE>`. -/
def contractVu (heap : Heap) (u v : NodeId) : Option (Heap × NodeId) :=
  relinkFresh [v] [u] v u heap

/--
`command_graph_t::contract` with a hint, which fails where the source asserts:
the heap afterwards and the node that is returned.
-/
def contract (hint : ContractionHint) (inPlace : Bool) (heap : Heap)
    (u v : NodeId) : Option (Heap × NodeId) :=
  if u ≠ v ∧ hinted heap u v hint then
    match hint, inPlace with
    | .falseTwins, true => contractTwinsInPlace heap u v
    | .falseTwins, false => contractTwins heap u v
    | .uvSequence, true => contractUvInPlace heap u v
    | .uvSequence, false => contractUv heap u v
    | .vuSequence, true => contractVuInPlace heap u v
    | .vuSequence, false => contractVu heap u v
  else
    none

/-! ## What a contraction is for -/

/-- Two nodes of a graph, neither of them its entry or its exit. -/
structure Inner (heap : Heap) (graph : GraphId) (u v : NodeId) : Prop where
  different : u ≠ v
  u_reachable : heap.Reachable graph u
  v_reachable : heap.Reachable graph v
  u_inner : u ≠ (heap.graphs graph).entry ∧ u ≠ (heap.graphs graph).exit
  v_inner : v ≠ (heap.graphs graph).entry ∧ v ≠ (heap.graphs graph).exit

/--
The graph afterwards is the graph before with `u` and `v` replaced by `w`: a
well-formed graph over the other nodes and `w`, whose edges are those of the
quotient.
-/
structure Quotient (heap after : Heap) (graph : GraphId) (u v w : NodeId) :
    Prop where
  formed : after.WellFormed graph
  graph_eq : after.graphs graph = heap.graphs graph
  reachable_iff : ∀ node, after.Reachable graph node ↔
    (heap.Reachable graph node ∧ node ≠ u ∧ node ≠ v) ∨ node = w
  link_iff : ∀ source target, after.Link graph source target ↔
    Digraph.Contract (heap.Link graph) (PairMerge.rep u v w) source target
  predecessors_iff : ∀ node, node ∈ after.predecessors w ↔
    node ≠ u ∧ node ≠ v ∧
      (node ∈ heap.predecessors u ∨ node ∈ heap.predecessors v)
  successors_iff : ∀ node, node ∈ after.successors w ↔
    node ≠ u ∧ node ≠ v ∧
      (node ∈ heap.successors u ∨ node ∈ heap.successors v)
  others : ∀ source target, source ≠ u → source ≠ v → source ≠ w →
    target ≠ u → target ≠ v → target ≠ w →
      (after.Link graph source target ↔ heap.Link graph source target)
  unreferenced : ∀ absorbed, absorbed = u ∨ absorbed = v → absorbed ≠ w →
    ∀ node, after.Reachable graph node →
      absorbed ∉ after.predecessors node ∧ absorbed ∉ after.successors node
  data : ∀ node < heap.nodeCount,
    (after.nodes node).unlinked = (heap.nodes node).unlinked

/-! ## From lists to the quotient -/

/-- The nodes that are left. -/
def Stays (live : NodeId → Prop) (u v w node : NodeId) : Prop :=
  (live node ∧ node ≠ u ∧ node ≠ v) ∨ node = w

/-- The successor lists after `u` and `v` are merged into `w`. -/
structure SuccessorsMerged (heap after : Heap) (live : NodeId → Prop)
    (u v w : NodeId) : Prop where
  others : ∀ n, live n → n ≠ u → n ≠ v →
    PairMerge.Merges u v w (heap.successors n) (after.successors n)
  merged_nodup : (after.successors w).Nodup
  mem_merged : ∀ x, x ∈ after.successors w ↔
    x ≠ u ∧ x ≠ v ∧ (x ∈ heap.successors u ∨ x ∈ heap.successors v)

section Lists

variable {heap after : Heap} {live : NodeId → Prop}
  {edge : NodeId → NodeId → Prop} {u v w : NodeId}

/-- Merged successor lists hold the successors in the quotient. -/
theorem SuccessorsMerged.spec
    (merged : SuccessorsMerged heap after live u v w)
    (represents : heap.Represents live edge)
    (room : PairMerge.Room edge live u v w) (uLive : live u)
    (vLive : live v) {node : NodeId} (stays : Stays live u v w node) :
    (after.successors node).Nodup ∧ ∀ next,
      next ∈ after.successors node ↔
        Digraph.Contract edge (PairMerge.rep u v w) node next := by
  rcases stays with ⟨alive, uNe, vNe⟩ | rfl
  · have merges := merged.others node alive uNe vNe
    refine ⟨merges.nodup, ?_⟩
    intro next
    rw [merges.mem_iff, room.contract_from uNe vNe (room.ne alive uNe)]
    simp only [represents.mem_successors node alive]
  · refine ⟨merged.merged_nodup, ?_⟩
    intro next
    rw [merged.mem_merged, room.contract_merged,
      represents.mem_successors u uLive, represents.mem_successors v vLive]

/-- Merged lists represent the quotient. -/
theorem represents_of_merged (represents : heap.Represents live edge)
    (room : PairMerge.Room edge live u v w) (uLive : live u)
    (vLive : live v) (below : SuccessorsMerged heap after live u v w)
    (above : SuccessorsMerged heap.reverse after.reverse live u v w) :
    after.Represents (Stays live u v w)
      (Digraph.Contract edge (PairMerge.rep u v w)) where
  successors_nodup _ stays :=
    (below.spec represents room uLive vLive stays).1
  predecessors_nodup _ stays :=
    (above.spec represents.reverse room.reverse uLive vLive stays).1
  mem_successors _ stays :=
    (below.spec represents room uLive vLive stays).2
  mem_predecessors node stays pred := by
    have mem :=
      (above.spec represents.reverse room.reverse uLive vLive stays).2 pred
    rw [PairMerge.contract_reverse] at mem
    exact mem
  inside := by
    have stays : ∀ x, live x → Stays live u v w (PairMerge.rep u v w x) := by
      intro x alive
      by_cases pair : x = u ∨ x = v
      · exact Or.inr (PairMerge.rep_of_mem pair)
      · rw [not_or] at pair
        rw [PairMerge.rep_of_ne pair.1 pair.2]
        exact Or.inl ⟨alive, pair⟩
    rintro _ _ ⟨-, source, target, step, rfl, rfl⟩
    obtain ⟨sourceLive, targetLive⟩ := represents.inside source target step
    exact ⟨stays source sourceLive, stays target targetLive⟩

end Lists

section Graphs

variable {heap after : Heap} {graph : GraphId} {u v w : NodeId}

/-- The objects that a contraction leaves, the lists apart. -/
structure KeepsObjects (heap after : Heap) (w : NodeId) : Prop where
  graphs_eq : after.graphs = heap.graphs
  graphCount_eq : after.graphCount = heap.graphCount
  nodeCount_le : heap.nodeCount ≤ after.nodeCount
  merged_lt : w < after.nodeCount
  data : ∀ node < heap.nodeCount,
    (after.nodes node).unlinked = (heap.nodes node).unlinked

/-- A graph whose lists represent the quotient, without a new cycle, is it. -/
theorem quotient_of_represents (formed : heap.WellFormed graph)
    (inner : Inner heap graph u v)
    (apart : PairMerge.Room (heap.Link graph) (heap.Reachable graph) u v w)
    (objects : KeepsObjects heap after w)
    (acyclic : Digraph.Acyclic
      (Digraph.Contract (heap.Link graph) (PairMerge.rep u v w)))
    (represents : after.Represents (Stays (heap.Reachable graph) u v w)
      (Digraph.Contract (heap.Link graph) (PairMerge.rep u v w))) :
    Quotient heap after graph u v w := by
  obtain ⟨-, uReachable, vReachable, uInner, vInner⟩ := inner
  have path : ∀ {source target}, ReflTransGen (heap.Link graph) source target →
      ReflTransGen
        (Digraph.Contract (heap.Link graph) (PairMerge.rep u v w))
        (PairMerge.rep u v w source) (PairMerge.rep u v w target) :=
    Digraph.reach_contract
  have entryRep : PairMerge.rep u v w (heap.graphs graph).entry =
      (heap.graphs graph).entry :=
    PairMerge.rep_of_ne uInner.1.symm vInner.1.symm
  have exitRep : PairMerge.rep u v w (heap.graphs graph).exit =
      (heap.graphs graph).exit :=
    PairMerge.rep_of_ne uInner.2.symm vInner.2.symm
  -- Every node that is left stands for a node of the graph.
  have original : ∀ node, Stays (heap.Reachable graph) u v w node →
      ∃ old, heap.Reachable graph old ∧ PairMerge.rep u v w old = node := by
    rintro node (⟨reachable, uNe, vNe⟩ | rfl)
    · exact ⟨node, reachable, PairMerge.rep_of_ne uNe vNe⟩
    · exact ⟨u, uReachable, PairMerge.rep_of_mem (Or.inl rfl)⟩
  have fromEntry : ∀ node, Stays (heap.Reachable graph) u v w node →
      ReflTransGen
        (Digraph.Contract (heap.Link graph) (PairMerge.rep u v w))
        (heap.graphs graph).entry node := by
    intro node stays
    obtain ⟨old, reachable, rfl⟩ := original node stays
    rw [← entryRep]
    exact path ((Heap.reachable_iff_links old).mp reachable)
  have toExit : ∀ node, Stays (heap.Reachable graph) u v w node →
      ReflTransGen
        (Digraph.Contract (heap.Link graph) (PairMerge.rep u v w)) node
        (heap.graphs graph).exit := by
    intro node stays
    obtain ⟨old, reachable, rfl⟩ := original node stays
    rw [← exitRep]
    exact path (reachable.links (formed.reaches_exit old reachable))
  have entryStays :
      Stays (heap.Reachable graph) u v w (heap.graphs graph).entry :=
    Or.inl ⟨Heap.reachable_entry, uInner.1.symm, vInner.1.symm⟩
  have sameGraph : after.graphs graph = heap.graphs graph :=
    congrFun objects.graphs_eq graph
  have formedAfter : after.WellFormed graph := by
    apply Heap.WellFormed.of_represents represents
    · rw [objects.graphCount_eq]
      exact formed.graph_lt
    · rintro node (⟨reachable, -, -⟩ | rfl)
      · exact (formed.allocated node reachable).trans_le objects.nodeCount_le
      · exact objects.merged_lt
    · rw [sameGraph]
      exact entryStays
    · rw [sameGraph]
      exact fromEntry
    · rw [sameGraph]
      exact toExit
    · exact acyclic
  have liveIff : ∀ node, after.Reachable graph node ↔
      Stays (heap.Reachable graph) u v w node :=
    represents.live_iff (by rw [sameGraph]; exact entryStays)
      (by rw [sameGraph]; exact fromEntry)
  have linkIff : ∀ source target, after.Link graph source target ↔
      Digraph.Contract (heap.Link graph) (PairMerge.rep u v w) source
        target :=
    represents.edge_iff (by rw [sameGraph]; exact entryStays)
      (by rw [sameGraph]; exact fromEntry)
  have absent : ∀ {absorbed}, absorbed = u ∨ absorbed = v →
      absorbed ≠ w → ¬ Stays (heap.Reachable graph) u v w absorbed := by
    rintro absorbed pair notMerged (⟨-, uNe, vNe⟩ | same)
    · exact pair.elim uNe vNe
    · exact notMerged same
  refine
    { formed := formedAfter
      graph_eq := sameGraph
      reachable_iff := liveIff
      link_iff := linkIff
      predecessors_iff := ?_
      successors_iff := ?_
      others := ?_
      unreferenced := ?_
      data := objects.data }
  · intro node
    rw [represents.mem_predecessors w (Or.inr rfl),
      ← PairMerge.contract_reverse, apart.reverse.contract_merged,
      formed.represents.mem_predecessors u uReachable,
      formed.represents.mem_predecessors v vReachable]
  · intro node
    rw [represents.mem_successors w (Or.inr rfl), apart.contract_merged,
      formed.represents.mem_successors u uReachable,
      formed.represents.mem_successors v vReachable]
  · intro source target sourceU sourceV sourceW targetU targetV targetW
    rw [linkIff]
    exact
      apart.contract_others sourceU sourceV sourceW targetU targetV targetW
  · intro absorbed pair notMerged node reachable
    have stays := (liveIff node).mp reachable
    constructor
    · intro member
      have step := (represents.mem_predecessors node stays absorbed).mp member
      exact absent pair notMerged (represents.inside _ _ step).1
    · intro member
      have step := (represents.mem_successors node stays absorbed).mp member
      exact absent pair notMerged (represents.inside _ _ step).2

end Graphs

/-! ## The loops -/

section Loops

variable {heap : Heap} {gone : List NodeId} {fresh : Option NodeId}

/-- Erasing several nodes from one list. -/
theorem eraseSuccessors_spec (heap : Heap) (gone : List NodeId)
    (node : NodeId) :
    let erased := gone.foldl (fun heap x => heap.eraseSuccessor node x) heap
    erased.unlinked = heap.unlinked ∧
      (∀ n, erased.successors n =
        if n = node then (heap.successors node).diff gone
        else heap.successors n) ∧
      ∀ n, erased.predecessors n = heap.predecessors n := by
  induction gone generalizing heap with
  | nil =>
      refine ⟨rfl, ?_, fun _ => rfl⟩
      intro n
      split
      · rename_i same
        rw [same]
        rfl
      · rfl
  | cons x rest induction =>
      obtain ⟨unlinked, successors, predecessors⟩ :=
        induction (heap.eraseSuccessor node x)
      refine ⟨unlinked.trans (Heap.eraseSuccessor_unlinked _ _), ?_, ?_⟩
      · intro n
        refine (successors n).trans ?_
        rw [Heap.eraseSuccessor_successors, if_pos rfl,
          Heap.eraseSuccessor_successors, List.diff_cons]
        split
        · rfl
        · rfl
      · intro n
        exact (predecessors n).trans (Heap.eraseSuccessor_predecessors _ _ _)

theorem precedeFresh_unlinked (heap : Heap) (pred : NodeId) :
    (precedeFresh heap pred fresh).unlinked = heap.unlinked := by
  cases fresh with
  | none => rfl
  | some w => exact Heap.precedes_unlinked _ _

theorem precedeFresh_successors (heap : Heap) (pred n : NodeId) :
    (precedeFresh heap pred fresh).successors n =
      if n = pred then heap.successors pred ++ fresh.toList
      else heap.successors n := by
  cases fresh with
  | none =>
      simp only [precedeFresh, Option.toList_none, List.append_nil]
      split
      · rename_i same
        rw [same]
      · rfl
  | some w => exact Heap.precedes_successors _ _ _

theorem precedeFresh_predecessors (heap : Heap) (pred n : NodeId) :
    (precedeFresh heap pred fresh).predecessors n =
      if fresh = some n then heap.predecessors n ++ [pred]
      else heap.predecessors n := by
  cases fresh with
  | none => rfl
  | some w =>
      simp only [precedeFresh, Heap.precedes_predecessors, Option.some.injEq,
        eq_comm]
      split
      · rename_i same
        rw [same]
      · rfl

/-- The heap after the loop over some predecessors. -/
structure UnlinkedAbove (heap : Heap) (gone : List NodeId)
    (fresh : Option NodeId) (done : List NodeId) (after : Heap) : Prop where
  unlinked_eq : after.unlinked = heap.unlinked
  successors_eq : ∀ n, after.successors n =
    if n ∈ done then (heap.successors n).diff gone ++ fresh.toList
    else heap.successors n
  predecessors_eq : ∀ n, after.predecessors n =
    if fresh = some n then heap.predecessors n ++ done
    else heap.predecessors n

theorem unlinkPredecessors_spec (heap : Heap) (gone : List NodeId)
    (fresh : Option NodeId) {list : List NodeId} (nodup : list.Nodup)
    (once : ∀ pred ∈ list, ∀ x ∈ gone, (heap.successors pred).count x = 1) :
    ∃ after, list.foldlM (unlinkPredecessor gone fresh) heap = some after ∧
      UnlinkedAbove heap gone fresh list after := by
  apply Loop.foldlM_invariant _ (UnlinkedAbove heap gone fresh)
  · intro done pred rest state split above
    have member : pred ∈ list := by simp [split]
    have absent : pred ∉ done := by
      rw [split] at nodup
      intro inside
      exact
        (List.nodup_append.mp nodup).2.2 pred inside pred (by simp) rfl
    have kept := above.successors_eq pred
    rw [if_neg absent] at kept
    obtain ⟨unlinked, successors, predecessors⟩ :=
      eraseSuccessors_spec state gone pred
    rw [unlinkPredecessor, kept, if_pos (once pred member)]
    refine ⟨_, rfl, ?_, ?_, ?_⟩
    · rw [precedeFresh_unlinked, unlinked, above.unlinked_eq]
    · intro n
      rw [precedeFresh_successors, successors, successors, if_pos rfl, kept]
      by_cases isLast : n = pred
      · subst isLast
        rw [if_pos rfl, if_pos (by simp)]
      · rw [if_neg isLast, if_neg isLast, above.successors_eq]
        simp [isLast]
    · intro n
      rw [precedeFresh_predecessors, predecessors, above.predecessors_eq]
      split
      · simp
      · rfl
  · exact ⟨rfl, fun n => by simp, fun n => by simp⟩

/-- One iteration over successors, seen from the reversed heap. -/
theorem unlinkSuccessor_reverse (gone : List NodeId) (fresh : Option NodeId)
    (heap : Heap) (node : NodeId) :
    unlinkSuccessor gone fresh heap node =
      (unlinkPredecessor gone fresh heap.reverse node).map Heap.reverse := by
  have erase : ∀ (list : List NodeId) (state : Heap),
      list.foldl (fun heap x => heap.erasePredecessor node x) state =
        (list.foldl (fun heap x => heap.eraseSuccessor node x)
          state.reverse).reverse := by
    intro list
    induction list with
    | nil => exact fun _ => rfl
    | cons x rest induction =>
        intro state
        rw [List.foldl_cons, List.foldl_cons, induction,
          ← Heap.reverse_reverse (state.reverse.eraseSuccessor node x),
          Heap.eraseSuccessor_reverse, Heap.reverse_reverse]
  unfold unlinkSuccessor unlinkPredecessor
  rw [Heap.reverse_successors]
  split
  · rw [Option.map_some, erase]
    cases fresh with
    | none => rfl
    | some w => exact congrArg some (Heap.precedes_reverse _ _ _).symm
  · rfl

/-- The heap after both loops. -/
structure Relinked (heap : Heap) (goneAbove goneBelow : List NodeId)
    (fresh : Option NodeId) (above below : List NodeId) (after : Heap) :
    Prop where
  unlinked_eq : after.unlinked = heap.unlinked
  successors_eq : ∀ n, after.successors n =
    (if n ∈ above then (heap.successors n).diff goneAbove ++ fresh.toList
      else heap.successors n) ++ if fresh = some n then below else []
  predecessors_eq : ∀ n, after.predecessors n =
    (if n ∈ below then (heap.predecessors n).diff goneBelow ++ fresh.toList
      else heap.predecessors n) ++ if fresh = some n then above else []

theorem Relinked.reverse {goneAbove goneBelow above below : List NodeId}
    {after : Heap}
    (relinked : Relinked heap goneAbove goneBelow fresh above below after) :
    Relinked heap.reverse goneBelow goneAbove fresh below above
      after.reverse where
  unlinked_eq := relinked.unlinked_eq
  successors_eq := relinked.predecessors_eq
  predecessors_eq := relinked.successors_eq

theorem relink_spec (heap : Heap) (fresh : Option NodeId)
    {goneAbove goneBelow : List NodeId} {a b : NodeId}
    (aboveNodup : (heap.predecessors a).Nodup)
    (belowNodup : (heap.successors b).Nodup)
    (onceAbove : ∀ pred ∈ heap.predecessors a, ∀ x ∈ goneAbove,
      (heap.successors pred).count x = 1)
    (onceBelow : ∀ succ ∈ heap.successors b, ∀ x ∈ goneBelow,
      (heap.predecessors succ).count x = 1)
    (aNoLoop : a ∉ heap.predecessors a) (bNoLoop : b ∉ heap.successors b)
    (untouched : b ∉ heap.predecessors a)
    (below_ne : ∀ succ ∈ heap.successors b, fresh ≠ some succ) :
    ∃ after, relink goneAbove goneBelow fresh a b heap = some after ∧
      Relinked heap goneAbove goneBelow fresh (heap.predecessors a)
        (heap.successors b) after := by
  obtain ⟨middle, ranAbove, above⟩ :=
    unlinkPredecessors_spec heap goneAbove fresh aboveNodup onceAbove
  have sameBelow : middle.successors b = heap.successors b := by
    rw [above.successors_eq, if_neg untouched]
  have samePreds : ∀ succ ∈ heap.successors b,
      middle.predecessors succ = heap.predecessors succ := by
    intro succ member
    rw [above.predecessors_eq, if_neg (below_ne succ member)]
  obtain ⟨last, ranBelow, below⟩ :=
    unlinkPredecessors_spec middle.reverse goneBelow fresh belowNodup (by
        intro succ member x isGone
        rw [Heap.reverse_successors, samePreds succ member]
        exact onceBelow succ member x isGone)
  refine ⟨last.reverse, ?_, ?_⟩
  · rw [relink, Heap.foreachPredecessor_eq aNoLoop, ranAbove]
    refine (Heap.foreachSuccessor_reverse
      (unlinkSuccessor_reverse goneBelow fresh)).trans ?_
    have listed : middle.reverse.predecessors b = heap.successors b :=
      sameBelow
    rw [Heap.foreachPredecessor_eq (by rw [listed]; exact bNoLoop), listed,
      ranBelow]
    rfl
  · refine ⟨?_, ?_, ?_⟩
    · rw [Heap.reverse_unlinked, below.unlinked_eq, Heap.reverse_unlinked,
        above.unlinked_eq]
    · intro n
      rw [Heap.reverse_successors, below.predecessors_eq,
        Heap.reverse_predecessors, above.successors_eq]
      by_cases isFresh : fresh = some n
      · rw [if_pos isFresh, if_pos isFresh]
      · rw [if_neg isFresh, if_neg isFresh, List.append_nil]
    · intro n
      rw [Heap.reverse_predecessors, below.successors_eq,
        Heap.reverse_successors, above.predecessors_eq]
      by_cases isFresh : fresh = some n
      · have outside : n ∉ heap.successors b :=
          fun member => below_ne n member isFresh
        rw [if_neg outside, if_pos isFresh, if_neg outside, if_pos isFresh]
      · rw [if_neg isFresh, if_neg isFresh, List.append_nil]

end Loops

/-! ## One side of a contraction -/

/--
The nodes above the pair, which have one of it as a successor, and those below
it.  `gone` are the members of the pair that a node above has.
-/
structure Side (heap : Heap) (live : NodeId → Prop) (u v : NodeId)
    (gone above below : List NodeId) : Prop where
  above_nodup : above.Nodup
  above_iff : ∀ n, n ∈ above ↔ live n ∧ n ≠ u ∧ n ≠ v ∧
    (u ∈ heap.successors n ∨ v ∈ heap.successors n)
  gone_ne : gone ≠ []
  gone_iff : ∀ n ∈ above, ∀ x,
    x ∈ gone ↔ (x = u ∨ x = v) ∧ x ∈ heap.successors n
  below_iff : ∀ x, x ∈ below ↔
    x ≠ u ∧ x ≠ v ∧ (x ∈ heap.successors u ∨ x ∈ heap.successors v)

section Sides

variable {heap : Heap} {live : NodeId → Prop}
  {edge : NodeId → NodeId → Prop} {u v w : NodeId}
  {gone above below : List NodeId}

theorem Side.swap (side : Side heap live u v gone above below) :
    Side heap live v u gone above below where
  above_nodup := side.above_nodup
  above_iff n := by
    rw [side.above_iff]
    tauto
  gone_ne := side.gone_ne
  gone_iff n member x := by
    rw [side.gone_iff n member]
    tauto
  below_iff x := by
    rw [side.below_iff]
    tauto

/-- A node above the pair has each of the `gone` once. -/
theorem Side.once (side : Side heap live u v gone above below)
    (represents : heap.Represents live edge) {n : NodeId} (member : n ∈ above)
    {x : NodeId} (isGone : x ∈ gone) : (heap.successors n).count x = 1 :=
  List.count_eq_one_of_mem
    (represents.successors_nodup n ((side.above_iff n).mp member).1)
    ((side.gone_iff n member x).mp isGone).2

/-- The loops with a fresh node merge the successor lists. -/
theorem Relinked.merged_fresh {goneBelow : List NodeId} {after : Heap}
    (relinked : Relinked heap gone goneBelow (some w) above below after)
    (represents : heap.Represents live edge)
    (side : Side heap live u v gone above below)
    (belowNodup : below.Nodup) (fresh : ¬ live w)
    (empty : heap.successors w = []) :
    SuccessorsMerged heap after live u v w := by
  have notAbove : w ∉ above :=
    fun member => fresh ((side.above_iff w).mp member).1
  have merged : after.successors w = below := by
    rw [relinked.successors_eq, if_neg notAbove, if_pos rfl, empty,
      List.nil_append]
  refine ⟨?_, ?_, ?_⟩
  · intro n alive uNe vNe
    have notFresh : ¬ some w = some n := by
      rintro same
      obtain rfl := Option.some.inj same
      exact fresh alive
    rw [relinked.successors_eq, if_neg notFresh, List.append_nil]
    have nodup := represents.successors_nodup n alive
    split
    · rename_i member
      apply PairMerge.Merges.diff nodup _ (side.gone_iff n member)
        side.gone_ne
      intro inside
      exact
        fresh
          (represents.inside n w
            ((represents.mem_successors n alive w).mp inside)).2
    · rename_i outside
      have neither : u ∉ heap.successors n ∧ v ∉ heap.successors n := by
        rw [← not_or]
        intro either
        exact outside ((side.above_iff n).mpr ⟨alive, uNe, vNe, either⟩)
      exact PairMerge.Merges.same nodup neither.1 neither.2
  · rw [merged]
    exact belowNodup
  · intro x
    rw [merged, side.below_iff]

/-- What are above and below twins are the neighbours of either. -/
theorem side_twins (represents : heap.Represents live edge) (uLive : live u)
    (vLive : live v) (irreflexive : ∀ x, ¬ edge x x)
    (twins : Twins edge u v) :
    Side heap live u v [u, v] (heap.predecessors u) (heap.successors u) where
  above_nodup := represents.predecessors_nodup u uLive
  above_iff n := by
    rw [represents.mem_predecessors u uLive]
    constructor
    · intro step
      have alive := (represents.inside n u step).1
      refine ⟨alive, ?_, ?_, Or.inl ?_⟩
      · rintro rfl
        exact irreflexive n step
      · rintro rfl
        exact (twins.apart irreflexive).2 step
      · exact (represents.mem_successors n alive u).mpr step
    · rintro ⟨alive, -, -, member | member⟩
      · exact (represents.mem_successors n alive u).mp member
      · exact
          (twins.prev n).mpr ((represents.mem_successors n alive v).mp member)
  gone_ne := List.cons_ne_nil _ _
  gone_iff n member x := by
    rw [represents.mem_predecessors u uLive] at member
    have alive := (represents.inside n u member).1
    have mem := represents.mem_successors n alive
    simp only [List.mem_cons, List.not_mem_nil, or_false, mem]
    constructor
    · rintro (rfl | rfl)
      · exact ⟨Or.inl rfl, member⟩
      · exact ⟨Or.inr rfl, (twins.prev n).mp member⟩
    · exact And.left
  below_iff x := by
    rw [represents.mem_successors u uLive]
    constructor
    · intro step
      refine ⟨?_, ?_, Or.inl step⟩
      · rintro rfl
        exact irreflexive x step
      · rintro rfl
        exact (twins.apart irreflexive).1 step
    · rintro ⟨-, -, step | member⟩
      · exact step
      · exact
          (twins.next x).mpr ((represents.mem_successors v vLive x).mp member)

/-- What is above a sequence precedes its first node, what is below its last. -/
theorem side_sequence (represents : heap.Represents live edge)
    (uLive : live u) (irreflexive : ∀ x, ¬ edge x x) (back : ¬ edge v u)
    (sole : Sole edge u v) :
    Side heap live u v [u] (heap.predecessors u) (heap.successors v) where
  above_nodup := represents.predecessors_nodup u uLive
  above_iff n := by
    rw [represents.mem_predecessors u uLive]
    constructor
    · intro step
      have alive := (represents.inside n u step).1
      refine ⟨alive, ?_, ?_, Or.inl ?_⟩
      · rintro rfl
        exact irreflexive n step
      · rintro rfl
        exact back step
      · exact (represents.mem_successors n alive u).mpr step
    · rintro ⟨alive, uNe, -, member | member⟩
      · exact (represents.mem_successors n alive u).mp member
      · have step := (represents.mem_successors n alive v).mp member
        exact (uNe (sole.only_prev n step)).elim
  gone_ne := List.cons_ne_nil _ _
  gone_iff n member x := by
    rw [represents.mem_predecessors u uLive] at member
    have alive := (represents.inside n u member).1
    rw [List.mem_singleton, represents.mem_successors n alive]
    constructor
    · rintro rfl
      exact ⟨Or.inl rfl, member⟩
    · rintro ⟨rfl | rfl, step⟩
      · rfl
      · have same := sole.only_prev n step
        subst same
        exact (irreflexive n member).elim
  below_iff x := by
    have vLive := (represents.inside u v sole.step).2
    rw [represents.mem_successors v vLive, represents.mem_successors u uLive]
    constructor
    · intro step
      refine ⟨?_, ?_, Or.inr step⟩
      · rintro rfl
        exact back step
      · rintro rfl
        exact irreflexive x step
    · rintro ⟨-, vNe, step | step⟩
      · exact (vNe (sole.only_next x step)).elim
      · exact step

/-- The loops of the twins in place merge the successor lists. -/
theorem Relinked.merged_twins {goneBelow : List NodeId} {after : Heap}
    (relinked : Relinked heap [v] goneBelow none (heap.predecessors u) below
      after)
    (represents : heap.Represents live edge)
    (side : Side heap live u v [u, v] (heap.predecessors u) below)
    (uLive : live u) (different : u ≠ v)
    (belowEq : below = heap.successors u) :
    SuccessorsMerged heap after live u v u := by
  subst belowEq
  have notAbove : u ∉ heap.predecessors u :=
    fun member => ((side.above_iff u).mp member).2.1 rfl
  have lists : ∀ n, after.successors n =
      if n ∈ heap.predecessors u then (heap.successors n).erase v
      else heap.successors n := by
    intro n
    have unlisted : ¬ none = some n := nofun
    rw [relinked.successors_eq n, if_neg unlisted, List.append_nil,
      Option.toList_none, List.append_nil, List.diff_cons, List.diff_nil]
  have merged : after.successors u = heap.successors u := by
    rw [lists, if_neg notAbove]
  refine ⟨?_, ?_, ?_⟩
  · intro n alive uNe vNe
    rw [lists]
    have nodup := represents.successors_nodup n alive
    split
    · rename_i member
      have has := side.gone_iff n member
      exact
        PairMerge.Merges.erase nodup different ((has u).mp (by simp)).2
    · rename_i outside
      have neither : u ∉ heap.successors n ∧ v ∉ heap.successors n := by
        rw [← not_or]
        intro either
        exact outside ((side.above_iff n).mpr ⟨alive, uNe, vNe, either⟩)
      exact PairMerge.Merges.same nodup neither.1 neither.2
  · rw [merged]
    exact represents.successors_nodup u uLive
  · intro x
    rw [merged]
    exact side.below_iff x

end Sides

/-! ## The six variants -/

section Variants

variable {heap : Heap} {graph : GraphId} {u v : NodeId}

theorem KeepsObjects.of_unlinked {after : Heap}
    (formed : heap.WellFormed graph) (reachable : heap.Reachable graph u)
    (same : after.unlinked = heap.unlinked) : KeepsObjects heap after u where
  graphs_eq := Heap.unlinked_graphs same
  graphCount_eq := Heap.unlinked_graphCount same
  nodeCount_le := (Heap.unlinked_nodeCount same).ge
  merged_lt := by
    rw [Heap.unlinked_nodeCount same]
    exact formed.allocated u reachable
  data node _ := Heap.unlinked_nodes same node

theorem irreflexive (formed : heap.WellFormed graph) (x : NodeId) :
    ¬ heap.Link graph x x :=
  fun loop => formed.acyclic x (TransGen.single loop)

theorem room (formed : heap.WellFormed graph) {w : NodeId}
    (place : w = u ∨ ¬ heap.Reachable graph w) :
    PairMerge.Room (heap.Link graph) (heap.Reachable graph) u v w where
  inside := formed.represents.inside
  room := place
  irreflexive := irreflexive formed

/-- The number of nodes is the name of no node yet. -/
theorem fresh_nodeCount (formed : heap.WellFormed graph) :
    ¬ heap.Reachable graph heap.nodeCount :=
  fun reachable => (formed.allocated _ reachable).false

/-- The nodes that a fresh node replaces, as the two loops need them. -/
structure Sides (heap : Heap) (graph : GraphId) (u v : NodeId)
    (goneAbove goneBelow : List NodeId) (a b : NodeId) : Prop where
  a_pair : a = u ∨ a = v
  b_pair : b = u ∨ b = v
  above : ∀ other : Heap,
    other.Represents (heap.Reachable graph) (heap.Link graph) →
      Side other (heap.Reachable graph) u v goneAbove (other.predecessors a)
        (other.successors b)
  below : ∀ other : Heap,
    other.Represents (heap.Reachable graph)
        (fun source target => heap.Link graph target source) →
      Side other (heap.Reachable graph) u v goneBelow (other.predecessors b)
        (other.successors a)

/-- The loops with a fresh node make the quotient. -/
theorem relinkFresh_quotient (formed : heap.WellFormed graph)
    (inner : Inner heap graph u v) {goneAbove goneBelow : List NodeId}
    {a b : NodeId} (sides : Sides heap graph u v goneAbove goneBelow a b)
    (acyclic : Digraph.Acyclic (Digraph.Contract (heap.Link graph)
      (PairMerge.rep u v heap.nodeCount))) :
    ∃ after,
      relinkFresh goneAbove goneBelow a b heap =
          some (after, heap.nodeCount) ∧
        Quotient heap after graph u v heap.nodeCount := by
  have fresh := fresh_nodeCount formed
  have notFresh : ∀ {n}, heap.Reachable graph n → n ≠ heap.nodeCount := by
    rintro n reachable rfl
    exact fresh reachable
  let allocated :=
    (heap.commandGraphNodeNew unspecifiedDeviceUniqueId .empty).2
  have represents :
      allocated.Represents (heap.Reachable graph) (heap.Link graph) := by
    apply formed.represents.congr_lists
    · intro node reachable
      rw [Heap.commandGraphNodeNew_successors, if_neg (notFresh reachable)]
    · intro node reachable
      rw [Heap.commandGraphNodeNew_predecessors, if_neg (notFresh reachable)]
  have above := sides.above allocated represents
  have below := sides.below allocated.reverse represents.reverse
  have notAbove : ∀ {n}, n = u ∨ n = v → n ∉ allocated.predecessors a :=
    fun pair member =>
      pair.elim ((above.above_iff _).mp member).2.1
        ((above.above_iff _).mp member).2.2.1
  have notBelow : b ∉ allocated.successors b :=
    fun member =>
      sides.b_pair.elim ((below.above_iff b).mp member).2.1
        ((below.above_iff b).mp member).2.2.1
  obtain ⟨after, ran, relinked⟩ :=
    relink_spec allocated (some heap.nodeCount)
      above.above_nodup below.above_nodup
      (fun pred member x isGone => above.once represents member isGone)
      (fun succ member x isGone =>
        below.once represents.reverse member isGone)
      (notAbove sides.a_pair) notBelow (notAbove sides.b_pair)
      (by
        intro succ member same
        exact
          notFresh ((below.above_iff succ).mp member).1
            (Option.some.inj same).symm)
  have apart := room (u := u) (v := v) formed (Or.inr fresh)
  refine ⟨after, ?_, ?_⟩
  · rw [relinkFresh]
    simp only [Heap.commandGraphNodeNew_id]
    rw [ran]
    rfl
  · have objects : KeepsObjects heap after heap.nodeCount := {
      graphs_eq :=
        (Heap.unlinked_graphs relinked.unlinked_eq).trans
          (Heap.commandGraphNodeNew_graphs _ _)
      graphCount_eq :=
        (Heap.unlinked_graphCount relinked.unlinked_eq).trans
          (Heap.commandGraphNodeNew_graphCount _ _)
      nodeCount_le := by
        rw [Heap.unlinked_nodeCount relinked.unlinked_eq]
        exact Nat.le_succ _
      merged_lt := by
        rw [Heap.unlinked_nodeCount relinked.unlinked_eq]
        exact Nat.lt_succ_self _
      data := by
        intro node old
        rw [Heap.unlinked_nodes relinked.unlinked_eq,
          Heap.commandGraphNodeNew_nodes, if_neg old.ne] }
    apply quotient_of_represents formed inner apart objects acyclic
    apply represents_of_merged represents apart inner.u_reachable
      inner.v_reachable
    · apply relinked.merged_fresh represents above below.above_nodup fresh
      rw [Heap.commandGraphNodeNew_successors, if_pos rfl]
    · apply relinked.reverse.merged_fresh represents.reverse below
        above.above_nodup fresh
      rw [Heap.reverse_successors, Heap.commandGraphNodeNew_predecessors,
        if_pos rfl]

/-! ### False twins -/

theorem twins_iff (formed : heap.WellFormed graph)
    (inner : Inner heap graph u v) (twins : areFalseTwins heap u v = true) :
    Twins (heap.Link graph) u v := by
  have represents := formed.represents
  rw [areFalseTwins, Bool.and_eq_true, List.isPerm_iff,
    List.isPerm_iff] at twins
  constructor
  · intro x
    rw [← represents.mem_predecessors u inner.u_reachable,
      ← represents.mem_predecessors v inner.v_reachable, twins.1.mem_iff]
  · intro x
    rw [← represents.mem_successors u inner.u_reachable,
      ← represents.mem_successors v inner.v_reachable, twins.2.mem_iff]

theorem contractTwins_quotient (formed : heap.WellFormed graph)
    (inner : Inner heap graph u v) (twins : Twins (heap.Link graph) u v) :
    ∃ after, contractTwins heap u v = some (after, heap.nodeCount) ∧
      Quotient heap after graph u v heap.nodeCount := by
  have apart := room (u := u) (v := v) formed (Or.inr (fresh_nodeCount formed))
  apply relinkFresh_quotient formed inner
  · exact {
      a_pair := Or.inl rfl
      b_pair := Or.inl rfl
      above := fun other represents =>
        side_twins represents inner.u_reachable inner.v_reachable
          (irreflexive formed) twins
      below := fun other represents =>
        side_twins represents inner.u_reachable inner.v_reachable
          (irreflexive formed) twins.reverse }
  · exact apart.acyclic_twins formed.acyclic twins.prev twins.next

theorem contractTwinsInPlace_quotient (formed : heap.WellFormed graph)
    (inner : Inner heap graph u v) (twins : Twins (heap.Link graph) u v) :
    ∃ after, contractTwinsInPlace heap u v = some (after, u) ∧
      Quotient heap after graph u v u := by
  have represents := formed.represents
  have above :=
    side_twins represents inner.u_reachable inner.v_reachable
      (irreflexive formed) twins
  have below :=
    side_twins represents.reverse inner.u_reachable inner.v_reachable
      (irreflexive formed) twins.reverse
  have notAbove : u ∉ heap.predecessors u :=
    fun member => ((above.above_iff u).mp member).2.1 rfl
  have notBelow : u ∉ heap.successors u :=
    fun member => ((below.above_iff u).mp member).2.1 rfl
  have second : ∀ {x}, x ∈ [v] → x ∈ [u, v] := List.mem_cons_of_mem u
  obtain ⟨after, ran, relinked⟩ :=
    relink_spec heap none above.above_nodup
      below.above_nodup
      (fun pred member x isGone =>
        above.once represents member (second isGone))
      (fun succ member x isGone =>
        below.once represents.reverse member (second isGone))
      notAbove notBelow notAbove (fun _ _ => nofun)
  have apart := room (u := u) (v := v) formed (Or.inl rfl)
  refine ⟨after, ?_, ?_⟩
  · rw [contractTwinsInPlace, ran]
    rfl
  · apply quotient_of_represents formed inner apart
      (KeepsObjects.of_unlinked formed inner.u_reachable relinked.unlinked_eq)
      (apart.acyclic_twins formed.acyclic twins.prev twins.next)
    apply represents_of_merged represents apart inner.u_reachable
      inner.v_reachable
    · exact
        relinked.merged_twins represents above inner.u_reachable
          inner.different rfl
    · exact
        relinked.reverse.merged_twins represents.reverse below
          inner.u_reachable inner.different rfl

/-- Where the assertions hold, this is the contraction of `pass_copy_fuse`. -/
theorem contractTwinsInPlace_eq {after : Heap} {w : NodeId}
    (ran : contractTwinsInPlace heap u v = some (after, w)) :
    after = CopyFuse.contractFalseTwins heap u v := by
  rw [contractTwinsInPlace, relink] at ran
  obtain ⟨last, relinked, same⟩ := Option.bind_eq_some_iff.mp ran
  obtain ⟨middle, ranAbove, ranBelow⟩ := Option.bind_eq_some_iff.mp relinked
  obtain rfl : last = after := congrArg Prod.fst (Option.some.inj same)
  have middleEq :
      middle = (heap.predecessors u).foldl
        (fun heap pred => heap.eraseSuccessor pred v) heap := by
    apply Loop.foldl_of_foldlM _ ranAbove
    intro state pred after stepped
    obtain ⟨-, unlinked⟩ := Option.ite_none_right_eq_some.mp stepped
    obtain ⟨-, erased⟩ := Option.ite_none_right_eq_some.mp unlinked
    exact (Option.some.inj erased).symm
  have lastEq :
      last = (middle.successors u).foldl
        (fun heap succ => heap.erasePredecessor succ v) middle := by
    apply Loop.foldl_of_foldlM _ ranBelow
    intro state succ after stepped
    obtain ⟨-, unlinked⟩ := Option.ite_none_right_eq_some.mp stepped
    obtain ⟨-, erased⟩ := Option.ite_none_right_eq_some.mp unlinked
    exact (Option.some.inj erased).symm
  rw [lastEq, middleEq]
  rfl

/-! ### Sequences -/

theorem not_back (formed : heap.WellFormed graph)
    (step : heap.Link graph u v) : ¬ heap.Link graph v u :=
  fun back => formed.acyclic u ((TransGen.single step).tail back)

/-- A sequence the other way merges without a cycle. -/
theorem acyclic_vu (formed : heap.WellFormed graph) {w : NodeId}
    (apart : PairMerge.Room (heap.Link graph) (heap.Reachable graph) u v w)
    (sole : Sole (heap.Link graph) v u) :
    Digraph.Acyclic
      (Digraph.Contract (heap.Link graph) (PairMerge.rep u v w)) := by
  have merged :=
    apart.reverse.acyclic_sequence formed.acyclic.reverse sole.step
      sole.only_prev sole.only_next
  apply merged.reverse.mono
  exact fun source target => (PairMerge.contract_reverse source target).mpr

theorem contractUv_quotient (formed : heap.WellFormed graph)
    (inner : Inner heap graph u v) (sole : Sole (heap.Link graph) u v) :
    ∃ after, contractUv heap u v = some (after, heap.nodeCount) ∧
      Quotient heap after graph u v heap.nodeCount := by
  have back := not_back formed sole.step
  have apart := room (u := u) (v := v) formed (Or.inr (fresh_nodeCount formed))
  apply relinkFresh_quotient formed inner
  · exact {
      a_pair := Or.inl rfl
      b_pair := Or.inr rfl
      above := fun other represents =>
        side_sequence represents inner.u_reachable (irreflexive formed) back
          sole
      below := fun other represents =>
        (side_sequence represents inner.v_reachable (irreflexive formed) back
          sole.reverse).swap }
  · exact
      apart.acyclic_sequence formed.acyclic sole.step sole.only_next
        sole.only_prev

theorem contractVu_quotient (formed : heap.WellFormed graph)
    (inner : Inner heap graph u v) (sole : Sole (heap.Link graph) v u) :
    ∃ after, contractVu heap u v = some (after, heap.nodeCount) ∧
      Quotient heap after graph u v heap.nodeCount := by
  have back := not_back formed sole.step
  have apart := room (u := u) (v := v) formed (Or.inr (fresh_nodeCount formed))
  apply relinkFresh_quotient formed inner
  · exact {
      a_pair := Or.inr rfl
      b_pair := Or.inl rfl
      above := fun other represents =>
        (side_sequence represents inner.v_reachable (irreflexive formed) back
          sole).swap
      below := fun other represents =>
        side_sequence represents inner.u_reachable (irreflexive formed) back
          sole.reverse }
  · exact acyclic_vu formed apart sole

/-- The edges of a sequence that is contracted in place. -/
theorem contracted_iff {live : NodeId → Prop}
    {edge : NodeId → NodeId → Prop} (apart : PairMerge.Room edge live u v u)
    (different : u ≠ v) (back : ¬ edge v u) (sole : Sole edge u v)
    (source target : NodeId) :
    Digraph.Contract edge (PairMerge.rep u v u) source target ↔
      ProgFuse.Contracted edge u v source target := by
  unfold ProgFuse.Contracted
  by_cases isFirst : source = u
  · subst isFirst
    rw [apart.contract_merged]
    constructor
    · rintro ⟨-, vNe, step⟩
      exact ⟨different, vNe, step.imp_right (⟨rfl, ·⟩)⟩
    · rintro ⟨-, vNe, step⟩
      refine ⟨?_, vNe, step.imp_right And.right⟩
      rintro rfl
      rcases step with loop | ⟨-, step⟩
      · exact apart.irreflexive target loop
      · exact back step
  · by_cases isSecond : source = v
    · subst isSecond
      constructor
      · rintro ⟨-, from', to', -, fromEq, -⟩
        by_cases pair : from' = u ∨ from' = source
        · rw [PairMerge.rep_of_mem pair] at fromEq
          exact (different fromEq).elim
        · rw [not_or] at pair
          rw [PairMerge.rep_of_ne pair.1 pair.2] at fromEq
          exact (pair.2 fromEq).elim
      · exact fun step => (step.1 rfl).elim
    · rw [apart.contract_from isFirst isSecond isFirst]
      constructor
      · rintro (⟨-, vNe, step⟩ | ⟨rfl, step | step⟩)
        · exact ⟨isSecond, vNe, Or.inl step⟩
        · exact ⟨isSecond, different, Or.inl step⟩
        · exact (isFirst (sole.only_prev source step)).elim
      · rintro ⟨-, vNe, step | ⟨same, -⟩⟩
        · by_cases toFirst : target = u
          · subst toFirst
            exact Or.inr ⟨rfl, Or.inl step⟩
          · exact Or.inl ⟨toFirst, vNe, step⟩
        · exact (isFirst same).elim

/-- A sequence in place is the quotient of the lists. -/
theorem contractUvInPlace_spec {live : NodeId → Prop}
    {edge : NodeId → NodeId → Prop} (represents : heap.Represents live edge)
    (apart : PairMerge.Room edge live u v u) (different : u ≠ v)
    (back : ¬ edge v u) (sole : Sole edge u v) :
    ∃ after, contractUvInPlace heap u v = some (after, u) ∧
      after.unlinked = heap.unlinked ∧
        after.Represents (Stays live u v u)
          (Digraph.Contract edge (PairMerge.rep u v u)) := by
  have uLive := (represents.inside u v sole.step).1
  have vLive := (represents.inside u v sole.step).2
  obtain ⟨after, ran, unlinked, contracted⟩ :=
    ProgFuse.contractSequence_spec represents uLive sole different back
  refine ⟨after, ?_, unlinked, ?_⟩
  · have noLoop : v ∉ heap.successors v := by
      rw [represents.mem_successors v vLive]
      exact apart.irreflexive v
    have sequence :=
      (ProgFuse.areSequence_iff_sole represents uLive).mpr sole
    rw [contractSequence, if_pos ⟨different, sequence⟩] at ran
    rw [contractUvInPlace, Heap.foreachSuccessor_eq noLoop]
    obtain ⟨redirected, looped, same⟩ := Option.bind_eq_some_iff.mp ran
    obtain rfl := Option.some.inj same
    rw [looped]
    rfl
  · refine
      (contracted.congr_edge
        (contracted_iff apart different back sole)).congr_live fun node => ?_
    constructor
    · rintro (⟨alive, -, vNe⟩ | rfl)
      · exact ⟨alive, vNe⟩
      · exact ⟨uLive, different⟩
    · rintro ⟨alive, vNe⟩
      by_cases isFirst : node = u
      · exact Or.inr isFirst
      · exact Or.inl ⟨alive, isFirst, vNe⟩

/-- A sequence the other way is a sequence of the reversed heap. -/
theorem contractVuInPlace_reverse (heap : Heap) (u v : NodeId) :
    contractVuInPlace heap u v =
      (contractUvInPlace heap.reverse u v).map
        fun result => (result.1.reverse, result.2) := by
  have each : ∀ heap n, redirectSuccessor u v heap n =
      (redirectPredecessor u v heap.reverse n).map Heap.reverse := by
    intro heap n
    unfold redirectSuccessor redirectPredecessor
    rw [Heap.reverse_predecessors]
    split
    · rw [Option.map_some, Heap.setPredecessors_reverse,
        Heap.reverse_reverse]
    · rfl
  rw [contractVuInPlace, Heap.foreachPredecessor_reverse each,
    contractUvInPlace, Heap.reverse_successors]
  cases heap.reverse.foreachSuccessor v (redirectPredecessor u v) with
  | none => rfl
  | some redirected =>
      simp only [Option.map_some, Option.bind_eq_bind, Option.bind_some,
        Option.pure_def, Heap.setSuccessors_reverse]

theorem contractUvInPlace_quotient (formed : heap.WellFormed graph)
    (inner : Inner heap graph u v) (sole : Sole (heap.Link graph) u v) :
    ∃ after, contractUvInPlace heap u v = some (after, u) ∧
      Quotient heap after graph u v u := by
  have apart := room (u := u) (v := v) formed (Or.inl rfl)
  obtain ⟨after, ran, unlinked, represents⟩ :=
    contractUvInPlace_spec formed.represents apart inner.different
      (not_back formed sole.step) sole
  refine ⟨after, ran, ?_⟩
  exact
    quotient_of_represents formed inner apart
      (KeepsObjects.of_unlinked formed inner.u_reachable unlinked)
      (apart.acyclic_sequence formed.acyclic sole.step sole.only_next
        sole.only_prev)
      represents

theorem contractVuInPlace_quotient (formed : heap.WellFormed graph)
    (inner : Inner heap graph u v) (sole : Sole (heap.Link graph) v u) :
    ∃ after, contractVuInPlace heap u v = some (after, u) ∧
      Quotient heap after graph u v u := by
  have apart := room (u := u) (v := v) formed (Or.inl rfl)
  obtain ⟨after, ran, unlinked, represents⟩ :=
    contractUvInPlace_spec formed.represents.reverse apart.reverse
      inner.different (not_back formed sole.step) sole.reverse
  refine ⟨after.reverse, ?_, ?_⟩
  · rw [contractVuInPlace_reverse, ran]
    rfl
  · have objects : KeepsObjects heap after.reverse u :=
      KeepsObjects.of_unlinked formed inner.u_reachable unlinked
    apply quotient_of_represents formed inner apart objects
      (acyclic_vu formed apart sole)
    apply represents.reverse.congr_edge
    exact fun source target =>
      (PairMerge.contract_reverse source target).symm

/-! ## All hints -/

/--
For every hint that the two nodes satisfy, in place and with a fresh node,
`contract` succeeds and its result is the quotient.
-/
theorem contract_quotient (heap : Heap) (graph : GraphId) (u v : NodeId)
    (hint : ContractionHint) (inPlace : Bool)
    (formed : heap.WellFormed graph) (inner : Inner heap graph u v)
    (satisfied : hinted heap u v hint = true) :
    ∃ after, contract hint inPlace heap u v =
        some (after, if inPlace then u else heap.nodeCount) ∧
      Quotient heap after graph u v
        (if inPlace then u else heap.nodeCount) := by
  have represents := formed.represents
  unfold contract
  rw [if_pos ⟨inner.different, satisfied⟩]
  cases hint with
  | falseTwins =>
      have twins := twins_iff formed inner satisfied
      cases inPlace with
      | true => exact contractTwinsInPlace_quotient formed inner twins
      | false => exact contractTwins_quotient formed inner twins
  | uvSequence =>
      have sole :=
        (ProgFuse.areSequence_iff_sole represents inner.u_reachable).mp
          satisfied
      cases inPlace with
      | true => exact contractUvInPlace_quotient formed inner sole
      | false => exact contractUv_quotient formed inner sole
  | vuSequence =>
      have sole :=
        (ProgFuse.areSequence_iff_sole represents inner.v_reachable).mp
          satisfied
      cases inPlace with
      | true => exact contractVuInPlace_quotient formed inner sole
      | false => exact contractVu_quotient formed inner sole

end Variants

/-! ## A diamond and a sequence -/

/-- Two false twins above a sequence of two nodes. -/
def diamondChain : Heap :=
  Heap.ofNodes
    [Heap.linkedNode unspecifiedDeviceUniqueId .empty [] [1, 2],
      Heap.linkedNode 1 .command [0] [3],
      Heap.linkedNode 1 .command [0] [3],
      Heap.linkedNode 1 .command [1, 2] [4],
      Heap.linkedNode 1 .command [3] [5],
      Heap.linkedNode unspecifiedDeviceUniqueId .empty [4] []]
    { entry := 0, exit := 5, walkId := 0, isSequence := false }

theorem contract_quotient_diamondChain :
    (∃ after, contract .falseTwins false diamondChain 1 2 =
        some (after, 6) ∧ Quotient diamondChain after 0 1 2 6) ∧
      (∃ after, contract .uvSequence true diamondChain 3 4 =
        some (after, 3) ∧ Quotient diamondChain after 0 3 4 3) ∧
      ∃ after, contract .vuSequence false diamondChain 4 3 =
        some (after, 6) ∧ Quotient diamondChain after 0 4 3 6 := by
  have numbered : diamondChain.Numbered 0 := by decide
  have formed := numbered.wellFormed
  have reachable : ∀ node : NodeId, node < 6 →
      diamondChain.Reachable 0 node :=
    fun node bound => numbered.reachable node bound
  refine
    ⟨contract_quotient diamondChain 0 1 2 .falseTwins false formed
        ⟨by decide, reachable 1 (by decide), reachable 2 (by decide),
          by decide, by decide⟩ (by decide),
      contract_quotient diamondChain 0 3 4 .uvSequence true formed
        ⟨by decide, reachable 3 (by decide), reachable 4 (by decide),
          by decide, by decide⟩ (by decide),
      contract_quotient diamondChain 0 4 3 .vuSequence false formed
        ⟨by decide, reachable 4 (by decide), reachable 3 (by decide),
          by decide, by decide⟩ (by decide)⟩

end Cgir.Pass.Contract
