import Cgir.Library.Loop
import Cgir.Library.StraightPath
import Cgir.Model.Adjacency
import Cgir.Pass.Sequence

/-!
# What the sequence pass builds

Moving the boundary of a chain replaces the head and the tail of the chain by
the batch node at the other ends of their edges (`detachBoundary_represents`).
The heads and the tails are mirror images: reversing every edge turns one into
the other.  After every node of the scan the adjacency lists represent the
contraction of the chains found so far (`Sequenced`).
-/

namespace Cgir.Pass.Sequence

open Relation
open Cgir.Library
open Cgir.Model

/-! ## Replacing an element -/

section Replace

variable {list : List NodeId} {old new : NodeId}

private theorem replace_eq_map (nodup : list.Nodup) :
    list.replace old new = list.map fun x => if x = old then new else x := by
  induction list with
  | nil => rfl
  | cons first rest induction =>
      rw [List.nodup_cons] at nodup
      by_cases here : first = old
      · subst here
        have same : rest.map (fun x => if x = first then new else x) =
            rest.map id := by
          refine List.map_congr_left fun x member => ?_
          have apart : x ≠ first := fun equal => nodup.1 (equal ▸ member)
          exact if_neg apart
        rw [List.replace_cons_self, List.map_cons, if_pos rfl, same,
          List.map_id]
      · rw [List.replace_cons, List.map_cons, if_neg here,
          ← induction nodup.2, beq_eq_false_iff_ne.mpr (Ne.symm here)]

private theorem mem_replace_iff (nodup : list.Nodup) (x : NodeId) :
    x ∈ list.replace old new ↔
      (x ∈ list ∧ x ≠ old) ∨ (x = new ∧ old ∈ list) := by
  rw [replace_eq_map nodup, List.mem_map]
  constructor
  · rintro ⟨y, member, rfl⟩
    by_cases isOld : y = old
    · rw [if_pos isOld]
      exact Or.inr ⟨rfl, isOld ▸ member⟩
    · rw [if_neg isOld]
      exact Or.inl ⟨member, isOld⟩
  · rintro (⟨member, apart⟩ | ⟨rfl, member⟩)
    · exact ⟨x, member, if_neg apart⟩
    · exact ⟨old, member, if_pos rfl⟩

private theorem nodup_replace (nodup : list.Nodup) (fresh : new ∉ list) :
    (list.replace old new).Nodup := by
  rw [replace_eq_map nodup]
  refine List.Nodup.map_on ?_ nodup
  intro x xMem y yMem same
  split at same <;> split at same
  · simp_all
  · exact (fresh (same ▸ yMem)).elim
  · exact (fresh (same ▸ xMem)).elim
  · exact same

end Replace

/-! ## Moving the head -/

section Moving

variable {heap : Heap} {live : NodeId → Prop}
  {edge : NodeId → NodeId → Prop} {batch head : NodeId}

/-- The predecessors of the head while their lists are being changed. -/
private theorem moveSuccessors_spec
    (fresh : ∀ p ∈ heap.predecessors head, batch ∉ heap.successors p)
    (nodup : (heap.predecessors head).Nodup) :
    let moved := (heap.predecessors head).foldl (moveSuccessor batch head) heap
    (∀ x, moved.successors x =
      if x ∈ heap.predecessors head then
        (heap.successors x).replace head batch
      else heap.successors x) ∧
    (∀ x, moved.predecessors x = heap.predecessors x) ∧
      moved.unlinked = heap.unlinked := by
  refine
    Loop.foldl_invariant (moveSuccessor batch head)
      (fun done moved =>
        (∀ x, moved.successors x =
          if x ∈ done then (heap.successors x).replace head batch
          else heap.successors x) ∧
        (∀ x, moved.predecessors x = heap.predecessors x) ∧
          moved.unlinked = heap.unlinked)
      (heap.predecessors head) heap ?_ ?_
  · rintro done p rest moved split ⟨succs, preds, same⟩
    rw [split, List.nodup_middle, List.nodup_cons] at nodup
    have notDone : p ∉ done :=
      fun earlier => nodup.1 (List.mem_append_left _ earlier)
    have untouched : moved.successors p = heap.successors p := by
      rw [succs, if_neg notDone]
    have absent : batch ∉ heap.successors p := fresh p (by simp [split])
    rw [moveSuccessor, untouched, if_neg absent]
    refine ⟨?_, ?_, ?_⟩
    · intro x
      rw [Heap.setSuccessors_successors]
      by_cases here : x = p
      · simp [here]
      · rw [if_neg here, succs]
        simp [here]
    · intro x
      rw [Heap.setSuccessors_predecessors, preds]
    · rw [Heap.setSuccessors_unlinked, same]
  · simp

/-- Edges into the head become edges into the batch node. -/
private theorem detachHead_represents
    (represents : heap.Represents live edge) (batchLive : live batch)
    (headLive : live head) (apart : head ≠ batch)
    (noIn : ∀ source, ¬ edge source batch) :
    (detachHead batch head heap).Represents live
      (fun source target =>
        (edge source target ∧ target ≠ head) ∨
          (edge source head ∧ target = batch)) ∧
      (detachHead batch head heap).unlinked = heap.unlinked := by
  have predLive : ∀ {p}, p ∈ heap.predecessors head → live p := by
    intro p member
    rw [represents.mem_predecessors head headLive] at member
    exact (represents.inside p head member).1
  have fresh : ∀ p, live p → batch ∉ heap.successors p := by
    intro p alive
    rw [represents.mem_successors p alive]
    exact noIn p
  obtain ⟨succs, preds, same⟩ :=
    moveSuccessors_spec (fun p member => fresh p (predLive member))
      (represents.predecessors_nodup head headLive)
  simp only [detachHead]
  generalize (heap.predecessors head).foldl (moveSuccessor batch head) heap =
    moved at succs preds same ⊢
  have predIff : ∀ p, p ∈ heap.predecessors head ↔ edge p head :=
    represents.mem_predecessors head headLive
  have predsEq : ∀ x,
      ((moved.setPredecessors batch (heap.predecessors head)).setPredecessors
          head []).predecessors x =
        if x = head then []
        else if x = batch then heap.predecessors head
        else heap.predecessors x := by
    intro x
    rw [Heap.setPredecessors_predecessors,
      Heap.setPredecessors_predecessors, preds]
  have succsEq : ∀ x,
      ((moved.setPredecessors batch (heap.predecessors head)).setPredecessors
          head []).successors x = moved.successors x := by
    intro x
    rw [Heap.setPredecessors_successors, Heap.setPredecessors_successors]
  refine ⟨?_, ?_⟩
  · refine
      { successors_nodup := ?_
        predecessors_nodup := ?_
        mem_successors := ?_
        mem_predecessors := ?_
        inside := ?_ }
    · intro x alive
      have nodup := represents.successors_nodup x alive
      rw [succsEq, succs]
      split
      · exact nodup_replace nodup (fresh x alive)
      · exact nodup
    · intro x alive
      rw [predsEq]
      split
      · exact List.nodup_nil
      · split
        · exact represents.predecessors_nodup head headLive
        · exact represents.predecessors_nodup x alive
    · intro x alive next
      rw [succsEq, succs]
      split
      · rename_i isPred
        rw [mem_replace_iff (represents.successors_nodup x alive),
          represents.mem_successors x alive, represents.mem_successors x alive,
          and_comm (a := next = batch)]
      · rename_i notPred
        rw [predIff] at notPred
        rw [represents.mem_successors x alive]
        constructor
        · intro step
          exact Or.inl ⟨step, fun isHead => notPred (isHead ▸ step)⟩
        · rintro (⟨step, -⟩ | ⟨step, -⟩)
          · exact step
          · exact (notPred step).elim
    · intro x alive pred
      rw [predsEq]
      split
      · rename_i isHead
        subst isHead
        simp [apart]
      · rename_i notHead
        split
        · rename_i isBatch
          subst isBatch
          rw [predIff]
          simp [noIn]
        · rename_i notBatch
          rw [represents.mem_predecessors x alive]
          simp [notHead, notBatch]
    · rintro source target (⟨step, -⟩ | ⟨step, rfl⟩)
      · exact represents.inside source target step
      · exact ⟨(represents.inside source head step).1, batchLive⟩
  · rw [Heap.setPredecessors_unlinked, Heap.setPredecessors_unlinked, same]

/-! ## Moving the tail -/

/-- The objects of a heap with the lists of every node exchanged. -/
private def mirror (heap : Heap) : Heap :=
  { heap with
    nodes := fun id =>
      { heap.nodes id with
        predecessors := (heap.nodes id).successors
        successors := (heap.nodes id).predecessors } }

private theorem mirror_setSuccessors (id : NodeId) (list : List NodeId) :
    mirror (heap.setSuccessors id list) =
      (mirror heap).setPredecessors id list := by
  simp only [mirror, Heap.setSuccessors, Heap.setPredecessors,
    Heap.updateNode]
  congr 1
  funext other
  by_cases here : other = id
  · subst here
    simp
  · simp [here]

private theorem mirror_setPredecessors (id : NodeId) (list : List NodeId) :
    mirror (heap.setPredecessors id list) =
      (mirror heap).setSuccessors id list := by
  simp only [mirror, Heap.setSuccessors, Heap.setPredecessors,
    Heap.updateNode]
  congr 1
  funext other
  by_cases here : other = id
  · subst here
    simp
  · simp [here]

private theorem mirror_erasePredecessor (id pred : NodeId) :
    mirror (heap.erasePredecessor id pred) =
      (mirror heap).eraseSuccessor id pred :=
  mirror_setPredecessors id _

private theorem mirror_represents
    (represents : heap.Represents live edge) :
    (mirror heap).Represents live
      (fun source target => edge target source) where
  successors_nodup := represents.predecessors_nodup
  predecessors_nodup := represents.successors_nodup
  mem_successors := represents.mem_predecessors
  mem_predecessors := represents.mem_successors
  inside := fun source target step =>
    (represents.inside target source step).symm

/-- Moving the tail is moving the head of the mirror image. -/
private theorem mirror_detachTail (tail : NodeId) :
    mirror (detachTail batch tail heap) =
      detachHead batch tail (mirror heap) := by
  have moved : ∀ (list : List NodeId) (heap : Heap),
      mirror (list.foldl (movePredecessor batch tail) heap) =
        list.foldl (moveSuccessor batch tail) (mirror heap) := by
    intro list heap
    refine (List.foldl_hom mirror fun heap s => ?_).symm
    rw [movePredecessor, moveSuccessor,
      show (mirror heap).successors s = heap.predecessors s from rfl]
    split
    · exact (mirror_erasePredecessor s tail).symm
    · exact (mirror_setPredecessors s _).symm
  simp only [detachTail, detachHead, mirror_setSuccessors, moved]
  rfl

/-- Edges out of the tail become edges out of the batch node. -/
private theorem detachTail_represents
    (represents : heap.Represents live edge) {tail : NodeId}
    (batchLive : live batch) (tailLive : live tail) (apart : tail ≠ batch)
    (noOut : ∀ target, ¬ edge batch target) :
    (detachTail batch tail heap).Represents live
      (fun source target =>
        (edge source target ∧ source ≠ tail) ∨
          (edge tail target ∧ source = batch)) ∧
      (detachTail batch tail heap).unlinked = heap.unlinked := by
  obtain ⟨mirrored, same⟩ :=
    detachHead_represents (mirror_represents represents) batchLive tailLive
      apart noOut
  rw [← mirror_detachTail] at mirrored same
  exact ⟨mirror_represents mirrored, same⟩

/-- The edges of a chain and its neighbours, after the boundary is moved. -/
theorem detachBoundary_represents {tail : NodeId}
    (represents : heap.Represents live edge) (batchLive : live batch)
    (headLive : live head) (tailLive : live tail)
    (headApart : head ≠ batch) (tailApart : tail ≠ batch)
    (isolated : ∀ other, ¬ edge other batch ∧ ¬ edge batch other)
    (noBack : ¬ edge tail head) :
    (detachBoundary batch head tail heap).Represents live
      (fun source target =>
        (edge source target ∧ target ≠ head ∧ source ≠ tail) ∨
          (edge source head ∧ target = batch) ∨
            (source = batch ∧ edge tail target)) ∧
      (detachBoundary batch head tail heap).unlinked = heap.unlinked := by
  obtain ⟨first, sameFirst⟩ :=
    detachHead_represents represents batchLive headLive headApart
      fun other => (isolated other).1
  obtain ⟨second, sameSecond⟩ :=
    detachTail_represents first batchLive tailLive tailApart (by
      rintro target (⟨step, -⟩ | ⟨step, -⟩)
      · exact (isolated target).2 step
      · exact (isolated head).2 step)
  refine
    ⟨second.congr_edge fun source target => ?_, sameSecond.trans sameFirst⟩
  constructor
  · rintro (⟨step, notHead, notTail⟩ | ⟨step, rfl⟩ | ⟨rfl, step⟩)
    · exact Or.inl ⟨Or.inl ⟨step, notHead⟩, notTail⟩
    · exact
        Or.inl ⟨Or.inr ⟨step, rfl⟩, fun isTail => noBack (isTail ▸ step)⟩
    · exact
        Or.inr ⟨Or.inl ⟨step, fun isHead => noBack (isHead ▸ step)⟩, rfl⟩
  · rintro (⟨⟨step, notHead⟩ | ⟨step, rfl⟩, notTail⟩ |
      ⟨⟨step, -⟩ | ⟨step, -⟩, rfl⟩)
    · exact Or.inl ⟨step, notHead, notTail⟩
    · exact Or.inr (Or.inl ⟨step, rfl⟩)
    · exact Or.inr (Or.inr ⟨rfl, step⟩)
    · exact (noBack step).elim

end Moving

/-! ## The contracted chains -/

/-- A chain that was contracted. -/
structure Chain where
  head : NodeId
  tail : NodeId
  members : List NodeId

/-- The node is a member of the chain at a position. -/
def InChain (chains : List Chain) (position : Nat) (node : NodeId) : Prop :=
  ∃ chain, chains[position]? = some chain ∧ node ∈ chain.members

/-- The batch node of the chain at a position. -/
def batchAt (heap : Heap) (position : Nat) : NodeId :=
  heap.nodeCount + position

/-- The sub-graph of the chain at a position. -/
def subAt (heap : Heap) (position : Nat) : GraphId :=
  heap.graphCount + position

/-- The nodes of the graph and the batch nodes. -/
def Live (iterators : Iterators) (chains : List Chain) (node : NodeId) :
    Prop :=
  iterators.heap.Reachable iterators.graph node ∨
    ∃ p < chains.length, node = batchAt iterators.heap p

/-- The object of a batch node, its lists apart. -/
def batchObject (iterators : Iterators) (p : Nat) (chain : Chain) :
    CommandGraphNode :=
  { CommandGraphNode.new (iterators.device chain.head) .command with
    command := some (.batch (subAt iterators.heap p)) }

/-- The chains have been contracted, in this order. -/
structure Sequenced (iterators : Iterators) (chains : List Chain)
    (block : NodeId → NodeId) (state : Scan) : Prop where
  nodeCount_eq :
    state.heap.nodeCount = iterators.heap.nodeCount + chains.length
  graphCount_eq :
    state.heap.graphCount = iterators.heap.graphCount + chains.length
  node_old : ∀ node < iterators.heap.nodeCount,
    (state.heap.nodes node).unlinked = (iterators.heap.nodes node).unlinked
  graphs_old : ∀ graph < iterators.heap.graphCount,
    state.heap.graphs graph = iterators.heap.graphs graph
  straight : ∀ (p : Nat) (chain : Chain), chains[p]? = some chain →
    StraightPath (iterators.heap.Link iterators.graph) chain.head chain.tail
      chain.members
  ends_ne : ∀ (p : Nat) (chain : Chain), chains[p]? = some chain → chain.head ≠ chain.tail
  reachable : ∀ p node, InChain chains p node →
    iterators.heap.Reachable iterators.graph node
  candidate : ∀ p node, InChain chains p node →
    isCand iterators.heap iterators.graph node
  device_eq : ∀ (p : Nat) (chain : Chain), chains[p]? = some chain →
    ∀ node ∈ chain.members,
      iterators.device node = iterators.device chain.head
  node_batch : ∀ (p : Nat) (chain : Chain), chains[p]? = some chain →
    (state.heap.nodes (batchAt iterators.heap p)).unlinked =
      batchObject iterators p chain
  graphs_sub : ∀ (p : Nat) (chain : Chain), chains[p]? = some chain →
    state.heap.graphs (subAt iterators.heap p) =
      { entry := chain.head
        exit := chain.tail
        walkId := 0
        isSequence := true }
  block_chain : ∀ p node, InChain chains p node →
    block node = batchAt iterators.heap p
  block_other : ∀ node, (∀ p, ¬ InChain chains p node) → block node = node
  represents : state.heap.Represents (Live iterators chains)
    (StraightPath.Regroup (iterators.heap.Link iterators.graph) block)
  contracted : ∀ p node, InChain chains p node →
    state.contracted (iterators.index node) = true

section Contraction

variable {iterators : Iterators} {chains : List Chain}
  {block : NodeId → NodeId} {state : Scan}

theorem inChain_concat {chain : Chain} {p : Nat} {node : NodeId} :
    InChain (chains ++ [chain]) p node ↔
      InChain chains p node ∨
        (p = chains.length ∧ node ∈ chain.members) := by
  unfold InChain
  rcases Nat.lt_trichotomy p chains.length with before | rfl | after
  · rw [List.getElem?_append_left before]
    simp [before.ne]
  · simp
  · have outside : (chains ++ [chain]).length ≤ p := by
      rw [List.length_append]
      exact after
    simp [List.getElem?_eq_none after.le, List.getElem?_eq_none outside,
      after.ne']

theorem inChain_iff_mem {chain : Chain} {p : Nat} {node : NodeId}
    (position : chains[p]? = some chain) :
    InChain chains p node ↔ node ∈ chain.members := by
  constructor
  · rintro ⟨other, position', member⟩
    rw [position, Option.some.injEq] at position'
    exact position' ▸ member
  · exact fun member => ⟨chain, position, member⟩

theorem InChain.lt {p : Nat} {node : NodeId}
    (member : InChain chains p node) : p < chains.length := by
  obtain ⟨chain, position, -⟩ := member
  exact (List.getElem?_eq_some_iff.mp position).1

/-- The heap with the fresh batch node of a chain. -/
private def allocated (u : NodeId) (heap : Heap) : Heap :=
  (heap.commandGraphNodeNew (heap.nodes u).deviceUniqueId .command).2

/-- The objects that a contraction leaves, the lists apart. -/
private theorem contract_objects (heap : Heap) (u tail : NodeId)
    (kept : (detachBoundary heap.nodeCount u tail
        (allocated u heap)).unlinked = (allocated u heap).unlinked) :
    (contract u tail heap).nodeCount = heap.nodeCount + 1 ∧
      (contract u tail heap).graphCount = heap.graphCount + 1 ∧
      (∀ graph, (contract u tail heap).graphs graph =
        if graph = heap.graphCount then
          { entry := u, exit := tail, walkId := 0, isSequence := true }
        else heap.graphs graph) ∧
      ∀ node, ((contract u tail heap).nodes node).unlinked =
        if node = heap.nodeCount then
          { CommandGraphNode.new (heap.nodes u).deviceUniqueId .command with
            command := some (.batch heap.graphCount) }
        else (heap.nodes node).unlinked := by
  have nodes := Heap.unlinked_nodes kept
  have nodeCount := Heap.unlinked_nodeCount kept
  have graphs := Heap.unlinked_graphs kept
  have graphCount := Heap.unlinked_graphCount kept
  simp only [contract, Heap.commandGraphNodeNew_id, Heap.commandGraphNew,
    Heap.allocateGraph, Heap.setCommand, Heap.updateGraph]
  rw [show (heap.commandGraphNodeNew (heap.nodes u).deviceUniqueId
    .command).2 = allocated u heap from rfl]
  generalize detachBoundary heap.nodeCount u tail (allocated u heap) = moved
    at nodes nodeCount graphs graphCount ⊢
  refine ⟨nodeCount, congrArg (· + 1) graphCount, ?_, ?_⟩
  · intro graph
    rw [graphCount, graphs]
    by_cases here : graph = heap.graphCount
    · subst here
      simp [allocated]
    · simp [allocated, here]
  · intro node
    have old := nodes node
    rw [graphCount]
    by_cases here : node = heap.nodeCount
    · subst here
      simp only [allocated, Heap.commandGraphNodeNew_nodes, if_pos] at old
      simp only [Heap.updateNode_nodes, if_pos, allocated,
        Heap.commandGraphNodeNew_graphCount]
      simp only [CommandGraphNode.unlinked, CommandGraphNode.new] at old ⊢
      simp only [CommandGraphNode.mk.injEq] at old ⊢
      simp [old]
    · simp only [allocated, Heap.commandGraphNodeNew_nodes, here,
        if_false] at old
      simp only [Heap.updateNode_nodes, here, if_false]
      exact old

/-- Contracting a chain changes the lists by moving its boundary. -/
private theorem contract_lists (heap : Heap) (u tail : NodeId) :
    (contract u tail heap).successors =
        (detachBoundary heap.nodeCount u tail (allocated u heap)).successors ∧
      (contract u tail heap).predecessors =
        (detachBoundary heap.nodeCount u tail
          (allocated u heap)).predecessors := by
  constructor
  · funext node
    simp only [contract, Heap.commandGraphNew, Heap.allocateGraph,
      Heap.setCommand, Heap.updateGraph, Heap.successors,
      Heap.updateNode_nodes]
    split
    · rename_i here
      rw [here]
      rfl
    · rfl
  · funext node
    simp only [contract, Heap.commandGraphNew, Heap.allocateGraph,
      Heap.setCommand, Heap.updateGraph, Heap.predecessors,
      Heap.updateNode_nodes]
    split
    · rename_i here
      rw [here]
      rfl
    · rfl

/-- A chain that can be contracted next. -/
structure Fresh (iterators : Iterators) (chains : List Chain)
    (chain : Chain) : Prop where
  straight : StraightPath (iterators.heap.Link iterators.graph) chain.head
    chain.tail chain.members
  ends_ne : chain.head ≠ chain.tail
  reachable : ∀ node ∈ chain.members,
    iterators.heap.Reachable iterators.graph node
  candidate : ∀ node ∈ chain.members,
    isCand iterators.heap iterators.graph node
  device_eq : ∀ node ∈ chain.members,
    iterators.device node = iterators.device chain.head
  outside : ∀ node ∈ chain.members, ∀ p, ¬ InChain chains p node

/-- The representatives once the next chain is contracted. -/
def absorb (iterators : Iterators) (chains : List Chain)
    (block : NodeId → NodeId) (chain : Chain) (node : NodeId) : NodeId :=
  if node ∈ chain.members then batchAt iterators.heap chains.length
  else block node

namespace Sequenced

variable (sequenced : Sequenced iterators chains block state)
  (formed : iterators.heap.WellFormed iterators.graph)

include sequenced

theorem block_cases (node : NodeId) :
    (∃ p, InChain chains p node ∧ block node = batchAt iterators.heap p) ∨
      ((∀ p, ¬ InChain chains p node) ∧ block node = node) := by
  by_cases inside : ∃ p, InChain chains p node
  · obtain ⟨p, member⟩ := inside
    exact Or.inl ⟨p, member, sequenced.block_chain p node member⟩
  · rw [not_exists] at inside
    exact Or.inr ⟨inside, sequenced.block_other node inside⟩

/-- A representative that is no batch node represents itself alone. -/
theorem eq_of_block_lt {node : NodeId}
    (old : block node < iterators.heap.nodeCount) : node = block node := by
  rcases sequenced.block_cases node with ⟨p, -, isBatch⟩ | ⟨-, self⟩
  · rw [isBatch] at old
    exact (Nat.not_lt.mpr (Nat.le_add_right _ _) old).elim
  · exact self.symm

theorem inChain_unique {p q : Nat} {node : NodeId}
    (first : InChain chains p node) (second : InChain chains q node) :
    p = q := by
  have same :=
    (sequenced.block_chain p node first).symm.trans
      (sequenced.block_chain q node second)
  exact Nat.add_left_cancel same

include formed

/-- The representatives of linked nodes are not the next batch node. -/
private theorem block_ne_next {node : NodeId}
    (reachable : iterators.heap.Reachable iterators.graph node) :
    block node ≠ batchAt iterators.heap chains.length := by
  intro equal
  rcases sequenced.block_cases node with ⟨p, member, isBatch⟩ | ⟨-, self⟩
  · rw [isBatch] at equal
    exact member.lt.ne (Nat.add_left_cancel equal)
  · rw [self] at equal
    have old := formed.allocated node reachable
    rw [equal] at old
    exact Nat.not_lt.mpr (Nat.le_add_right _ _) old

private theorem absorbs {chain : Chain}
    (fresh : Fresh iterators chains chain) :
    StraightPath.Absorbs (iterators.heap.Link iterators.graph) chain.members
      (batchAt iterators.heap chains.length) block
      (absorb iterators chains block chain) where
  self := fun node member =>
    sequenced.block_other node (fresh.outside node member)
  alone := fun _ member =>
    sequenced.eq_of_block_lt
      (formed.allocated _ (fresh.reachable _ member))
  source_fresh := fun _ _ link => sequenced.block_ne_next formed link.1
  target_fresh := fun _ _ link =>
    sequenced.block_ne_next formed link.reachable
  on_path := fun _ member => if_pos member
  off_path := fun _ outside => if_neg outside

/-- The lists after the next chain is contracted. -/
private theorem contract_represents {chain : Chain}
    (fresh : Fresh iterators chains chain) :
    (detachBoundary state.heap.nodeCount chain.head chain.tail
        (allocated chain.head state.heap)).Represents
      (Live iterators (chains ++ [chain]))
      (StraightPath.Regroup (iterators.heap.Link iterators.graph)
        (absorb iterators chains block chain)) ∧
    (detachBoundary state.heap.nodeCount chain.head chain.tail
        (allocated chain.head state.heap)).unlinked =
      (allocated chain.head state.heap).unlinked := by
  have batchEq :
      state.heap.nodeCount = batchAt iterators.heap chains.length :=
    sequenced.nodeCount_eq
  have liveLt : ∀ {node}, Live iterators chains node →
      node < state.heap.nodeCount := by
    rintro node (reachable | ⟨p, bound, rfl⟩)
    · rw [sequenced.nodeCount_eq]
      exact Nat.lt_add_right _ (formed.allocated node reachable)
    · rw [batchEq]
      exact Nat.add_lt_add_left bound _
  have grown :
      (allocated chain.head state.heap).Represents
        (Live iterators (chains ++ [chain]))
        (StraightPath.Regroup (iterators.heap.Link iterators.graph)
          block) := by
    have same :
        (allocated chain.head state.heap).Represents (Live iterators chains)
          (StraightPath.Regroup (iterators.heap.Link iterators.graph)
            block) := by
      refine sequenced.represents.congr_lists ?_ ?_
      · intro node alive
        rw [allocated, Heap.commandGraphNodeNew_successors,
          if_neg (liveLt alive).ne]
      · intro node alive
        rw [allocated, Heap.commandGraphNodeNew_predecessors,
          if_neg (liveLt alive).ne]
    refine same.extend ?_ ?_
    · rintro node (reachable | ⟨p, bound, rfl⟩)
      · exact Or.inl reachable
      · refine Or.inr ⟨p, ?_, rfl⟩
        rw [List.length_append]
        exact Nat.lt_add_right _ bound
    · rintro node (reachable | ⟨p, bound, rfl⟩) isNew
      · exact (isNew (Or.inl reachable)).elim
      · have isNext : p = chains.length := by
          rw [List.length_append, List.length_singleton] at bound
          rcases Nat.lt_or_eq_of_le (Nat.le_of_lt_succ bound) with
            before | isNext
          · exact (isNew (Or.inr ⟨p, before, rfl⟩)).elim
          · exact isNext
        rw [isNext, ← batchEq, allocated,
          Heap.commandGraphNodeNew_successors,
          Heap.commandGraphNodeNew_predecessors, if_pos rfl, if_pos rfl]
        exact ⟨rfl, rfl⟩
  have absorbs := sequenced.absorbs formed fresh
  have acyclic := formed.acyclic
  have memberLive : ∀ node ∈ chain.members,
      Live iterators (chains ++ [chain]) node :=
    fun node member => Or.inl (fresh.reachable node member)
  have memberApart : ∀ node ∈ chain.members, node ≠ state.heap.nodeCount := by
    intro node member
    exact (liveLt (Or.inl (fresh.reachable node member))).ne
  have headMem := fresh.straight.first_mem
  have tailMem := fresh.straight.last_mem
  obtain ⟨moved, unlinked⟩ :=
    detachBoundary_represents grown
      (batchEq ▸ Or.inr ⟨chains.length, by simp, rfl⟩)
      (memberLive _ headMem) (memberLive _ tailMem)
      (memberApart _ headMem) (memberApart _ tailMem)
      (fun other =>
        ⟨fun step =>
            (liveLt (sequenced.represents.inside _ _ step).2).ne rfl,
          fun step =>
            (liveLt (sequenced.represents.inside _ _ step).1).ne rfl⟩)
      (fun back =>
        fresh.straight.not_edge_first acyclic tailMem
          (absorbs.edge_of_regroup tailMem headMem back))
  refine ⟨moved.congr_edge fun source target => ?_, unlinked⟩
  rw [batchEq]
  exact fresh.straight.regroup_iff acyclic absorbs source target

/-- Contracting the next chain keeps the invariant of the scan. -/
theorem append {chain : Chain} (fresh : Fresh iterators chains chain)
    {contracted : Nat → Bool}
    (more : ∀ i, state.contracted i = true → contracted i = true)
    (marked : ∀ node ∈ chain.members,
      contracted (iterators.index node) = true) :
    Sequenced iterators (chains ++ [chain])
      (absorb iterators chains block chain)
      { heap := contract chain.head chain.tail state.heap
        contracted := contracted } := by
  obtain ⟨moved, unlinked⟩ := sequenced.contract_represents formed fresh
  obtain ⟨nodeCount, graphCount, graphs, nodes⟩ :=
    contract_objects state.heap chain.head chain.tail unlinked
  obtain ⟨succs, preds⟩ :=
    contract_lists state.heap chain.head chain.tail
  have batchEq :
      state.heap.nodeCount = batchAt iterators.heap chains.length :=
    sequenced.nodeCount_eq
  have subEq :
      state.heap.graphCount = subAt iterators.heap chains.length :=
    sequenced.graphCount_eq
  have atPosition : ∀ {p : Nat} {other : Chain},
      (chains ++ [chain])[p]? = some other →
        chains[p]? = some other ∧ p < chains.length ∨
          p = chains.length ∧ chain = other := by
    intro p other position
    rcases Nat.lt_trichotomy p chains.length with before | rfl | after
    · rw [List.getElem?_append_left before] at position
      exact Or.inl ⟨position, before⟩
    · rw [List.getElem?_concat_length, Option.some.injEq] at position
      exact Or.inr ⟨rfl, position⟩
    · have outside : (chains ++ [chain]).length ≤ p := by
        rw [List.length_append]
        exact after
      rw [List.getElem?_eq_none outside] at position
      exact (Option.some_ne_none _ position.symm).elim
  have headDevice : (state.heap.nodes chain.head).deviceUniqueId =
      iterators.device chain.head := by
    have old :=
      formed.allocated _ (fresh.reachable _ fresh.straight.first_mem)
    exact
      (congrArg CommandGraphNode.deviceUniqueId
        (sequenced.node_old _ old) :)
  refine
    { nodeCount_eq := ?_
      graphCount_eq := ?_
      node_old := ?_
      graphs_old := ?_
      straight := ?_
      ends_ne := ?_
      reachable := ?_
      candidate := ?_
      device_eq := ?_
      node_batch := ?_
      graphs_sub := ?_
      block_chain := ?_
      block_other := ?_
      represents := ?_
      contracted := ?_ }
  · rw [nodeCount, sequenced.nodeCount_eq, List.length_append]
    rfl
  · rw [graphCount, sequenced.graphCount_eq, List.length_append]
    rfl
  · intro node old
    rw [nodes, if_neg, sequenced.node_old node old]
    rw [sequenced.nodeCount_eq]
    exact (Nat.lt_add_right _ old).ne
  · intro graph old
    rw [graphs, if_neg, sequenced.graphs_old graph old]
    rw [sequenced.graphCount_eq]
    exact (Nat.lt_add_right _ old).ne
  · intro p other position
    rcases atPosition position with ⟨earlier, -⟩ | ⟨-, rfl⟩
    · exact sequenced.straight p other earlier
    · exact fresh.straight
  · intro p other position
    rcases atPosition position with ⟨earlier, -⟩ | ⟨-, rfl⟩
    · exact sequenced.ends_ne p other earlier
    · exact fresh.ends_ne
  · intro p node member
    rcases inChain_concat.mp member with earlier | ⟨-, isNew⟩
    · exact sequenced.reachable p node earlier
    · exact fresh.reachable node isNew
  · intro p node member
    rcases inChain_concat.mp member with earlier | ⟨-, isNew⟩
    · exact sequenced.candidate p node earlier
    · exact fresh.candidate node isNew
  · intro p other position
    rcases atPosition position with ⟨earlier, -⟩ | ⟨-, rfl⟩
    · exact sequenced.device_eq p other earlier
    · exact fresh.device_eq
  · intro p other position
    rw [nodes, batchEq]
    rcases atPosition position with ⟨earlier, bound⟩ | ⟨rfl, rfl⟩
    · rw [if_neg, sequenced.node_batch p other earlier]
      exact fun equal => bound.ne (Nat.add_left_cancel equal)
    · rw [if_pos rfl, headDevice, subEq]
      rfl
  · intro p other position
    rw [graphs, subEq]
    rcases atPosition position with ⟨earlier, bound⟩ | ⟨rfl, rfl⟩
    · rw [if_neg, sequenced.graphs_sub p other earlier]
      exact fun equal => bound.ne (Nat.add_left_cancel equal)
    · rw [if_pos rfl]
  · intro p node member
    rcases inChain_concat.mp member with earlier | ⟨rfl, isNew⟩
    · have off : node ∉ chain.members :=
        fun isNew => fresh.outside node isNew p earlier
      rw [absorb, if_neg off, sequenced.block_chain p node earlier]
    · exact if_pos isNew
  · intro node outside
    have off : node ∉ chain.members := fun isNew =>
      outside chains.length (inChain_concat.mpr (Or.inr ⟨rfl, isNew⟩))
    rw [absorb, if_neg off]
    exact
      sequenced.block_other node fun p earlier =>
        outside p (inChain_concat.mpr (Or.inl earlier))
  · exact
      moved.congr_lists (fun node _ => by rw [succs])
        (fun node _ => by rw [preds])
  · intro p node member
    rcases inChain_concat.mp member with earlier | ⟨-, isNew⟩
    · exact more _ (sequenced.contracted p node earlier)
    · exact marked node isNew

/-! ## Walking a chain -/

omit formed in
/-- A candidate is an original node, and was one before. -/
theorem isCand_old {node : NodeId}
    (graphOld : iterators.graph < iterators.heap.graphCount)
    (old : node < iterators.heap.nodeCount) :
    isCand state.heap iterators.graph node =
      isCand iterators.heap iterators.graph node := by
  have object := sequenced.node_old node old
  have type := (congrArg CommandGraphNode.type object :)
  have command := (congrArg CommandGraphNode.command object :)
  simp only [CommandGraphNode.unlinked] at type command
  simp only [isCand, nodeIsSeqable, sequenced.graphs_old _ graphOld, type,
    command]

omit formed in
/-- A batch node is no candidate. -/
theorem not_isCand_batch {p : Nat} (bound : p < chains.length) :
    ¬ isCand state.heap iterators.graph (batchAt iterators.heap p) := by
  have object :=
    sequenced.node_batch p _ (List.getElem?_eq_getElem bound)
  have type := (congrArg CommandGraphNode.type object :)
  have command := (congrArg CommandGraphNode.command object :)
  simp only [CommandGraphNode.unlinked, batchObject, CommandGraphNode.new]
    at type command
  simp [isCand, nodeIsSeqable, type, command]

/-- A node outside the chains keeps its links, up to representatives. -/
theorem regroup_of_link {cur other : NodeId}
    (outside : ∀ p, ¬ InChain chains p cur)
    (link : iterators.heap.Link iterators.graph cur other ∨
      iterators.heap.Link iterators.graph other cur) :
    (iterators.heap.Link iterators.graph cur other →
        StraightPath.Regroup (iterators.heap.Link iterators.graph) block cur
          (block other)) ∧
      (iterators.heap.Link iterators.graph other cur →
        StraightPath.Regroup (iterators.heap.Link iterators.graph) block
          (block other) cur) := by
  have self := sequenced.block_other cur outside
  have apart : block other ≠ cur := by
    intro equal
    have curReachable :
        iterators.heap.Reachable iterators.graph cur :=
      link.elim And.left Heap.Link.reachable
    have same :=
      sequenced.eq_of_block_lt
        (equal.symm ▸ formed.allocated cur curReachable)
    rw [equal] at same
    subst same
    rcases link with step | step <;>
      exact formed.acyclic _ (TransGen.single step)
  constructor
  · exact fun step =>
      Or.inl ⟨apart.symm, cur, other, step, self, rfl⟩
  · exact fun step => Or.inl ⟨apart, other, cur, step, rfl, self⟩

/-- Where a chain continues, the original edge is a sole edge. -/
theorem continues_spec {cur nxt : NodeId}
    (reachable : iterators.heap.Reachable iterators.graph cur)
    (outside : ∀ p, ¬ InChain chains p cur)
    (only : state.heap.successors cur = [nxt])
    (continued : continues state.heap iterators.graph cur nxt) :
    Sole (iterators.heap.Link iterators.graph) cur nxt ∧
      isCand iterators.heap iterators.graph nxt ∧
      iterators.device nxt = iterators.device cur ∧
      ∀ p, ¬ InChain chains p nxt := by
  simp only [continues, Bool.and_eq_true, decide_eq_true_eq] at continued
  obtain ⟨⟨candidate, device⟩, single⟩ := continued
  have curLive : Live iterators chains cur := Or.inl reachable
  have succIff := sequenced.represents.mem_successors cur curLive
  rw [only] at succIff
  have step := (succIff nxt).mp (List.mem_singleton.mpr rfl)
  have nxtReachable : iterators.heap.Reachable iterators.graph nxt := by
    rcases (sequenced.represents.inside cur nxt step).2 with
      original | ⟨p, bound, rfl⟩
    · exact original
    · exact (sequenced.not_isCand_batch bound candidate).elim
  have nxtOld := formed.allocated nxt nxtReachable
  have curOld := formed.allocated cur reachable
  -- The regrouped edge is the original link, and its target is in no chain.
  have original :
      iterators.heap.Link iterators.graph cur nxt ∧ block nxt = nxt := by
    rcases step with ⟨-, from', to', link, fromEq, toEq⟩ | ⟨link, same⟩
    · have fromSelf := sequenced.eq_of_block_lt (fromEq.symm ▸ curOld)
      have toSelf := sequenced.eq_of_block_lt (toEq.symm ▸ nxtOld)
      rw [fromEq] at fromSelf
      rw [toEq] at toSelf
      subst fromSelf toSelf
      exact ⟨link, toEq⟩
    · rw [sequenced.block_other cur outside] at same
      have equal := sequenced.eq_of_block_lt (same ▸ curOld)
      rw [← same] at equal
      rw [equal] at link
      exact (formed.acyclic _ (TransGen.single link)).elim
  obtain ⟨link, nxtSelf⟩ := original
  have nxtOutside : ∀ p, ¬ InChain chains p nxt := by
    intro p member
    rw [sequenced.block_chain p nxt member] at nxtSelf
    exact
      Nat.not_lt.mpr (Nat.le_add_right _ _) (nxtSelf.symm ▸ nxtOld)
  have graphOld := formed.graph_lt
  refine
    ⟨{ step := link, only_next := ?_, only_prev := ?_ }, ?_, ?_, nxtOutside⟩
  · intro other link'
    have regrouped :=
      (sequenced.regroup_of_link formed outside (Or.inl link')).1 link'
    rw [← succIff, List.mem_singleton] at regrouped
    have same := sequenced.eq_of_block_lt (regrouped.symm ▸ nxtOld)
    rw [same, regrouped]
  · intro other link'
    have regrouped :=
      (sequenced.regroup_of_link formed nxtOutside (Or.inr link')).2 link'
    have predIff :=
      sequenced.represents.mem_predecessors nxt (Or.inl nxtReachable)
    obtain ⟨pred, only'⟩ := List.length_eq_one_iff.mp single
    rw [only'] at predIff
    have isCur := List.mem_singleton.mp ((predIff cur).mpr step)
    rw [← predIff, List.mem_singleton, ← isCur] at regrouped
    have same := sequenced.eq_of_block_lt (regrouped.symm ▸ curOld)
    rw [same, regrouped]
  · rw [← sequenced.isCand_old graphOld nxtOld]
    exact candidate
  · have nxtObject := sequenced.node_old nxt nxtOld
    have curObject := sequenced.node_old cur curOld
    have nxtDevice :=
      (congrArg CommandGraphNode.deviceUniqueId nxtObject :)
    have curDevice :=
      (congrArg CommandGraphNode.deviceUniqueId curObject :)
    exact nxtDevice.symm.trans (device.trans curDevice)

end Sequenced

/-- The chain walked so far, from `u` to the current tail. -/
structure Follows (iterators : Iterators) (chains : List Chain)
    (u : NodeId) (walk : ChainWalk) (members : List NodeId) : Prop where
  straight : StraightPath (iterators.heap.Link iterators.graph) u walk.tail
    members
  reachable : ∀ node ∈ members,
    iterators.heap.Reachable iterators.graph node
  candidate : ∀ node ∈ members, isCand iterators.heap iterators.graph node
  device_eq : ∀ node ∈ members, iterators.device node = iterators.device u
  outside : ∀ node ∈ members, ∀ p, ¬ InChain chains p node
  marked : ∀ node ∈ members,
    walk.contracted (iterators.index node) = true

/-- The chain grows by the next node. -/
theorem Follows.step {u nxt : NodeId} {walk : ChainWalk}
    {members : List NodeId}
    (sequenced : Sequenced iterators chains block state)
    (formed : iterators.heap.WellFormed iterators.graph)
    (follows : Follows iterators chains u walk members)
    (only : state.heap.successors walk.tail = [nxt])
    (continued : continues state.heap iterators.graph walk.tail nxt)
    (ncmd : Nat) :
    Follows iterators chains u
      { contracted :=
          Function.update walk.contracted (iterators.index nxt) true
        ncmd := ncmd
        tail := nxt }
      (members ++ [nxt]) := by
  have tailMem := follows.straight.last_mem
  obtain ⟨sole, candidate, device, outside⟩ :=
    sequenced.continues_spec formed (follows.reachable _ tailMem)
      (follows.outside _ tailMem) only continued
  have cases : ∀ {property : NodeId → Prop},
      (∀ node ∈ members, property node) → property nxt →
        ∀ node ∈ members ++ [nxt], property node := by
    intro property old new node member
    rcases List.mem_append.mp member with earlier | isNext
    · exact old node earlier
    · rw [List.mem_singleton.mp isNext]
      exact new
  exact
    { straight := .next follows.straight sole
      reachable := cases follows.reachable sole.step.reachable
      candidate := cases follows.candidate candidate
      device_eq :=
        cases follows.device_eq
          (device.trans (follows.device_eq _ tailMem))
      outside := cases follows.outside outside
      marked := by
        refine cases (fun node member => ?_) (Function.update_self ..)
        change Function.update walk.contracted _ true _ = true
        by_cases same : iterators.index node = iterators.index nxt
        · rw [same, Function.update_self]
        · rw [Function.update_of_ne same]
          exact follows.marked node member }

/-- A chain has no more members than the vector has nodes. -/
theorem Follows.length_le {u : NodeId} {walk : ChainWalk}
    {members : List NodeId} (valid : iterators.Valid)
    (formed : iterators.heap.WellFormed iterators.graph)
    (follows : Follows iterators chains u walk members) :
    members.length ≤ iterators.count := by
  have subset : members ⊆ iterators.nodes := by
    intro node member
    exact (valid.mem_iff node).mpr (follows.reachable node member)
  exact
    ((follows.straight.nodup formed.acyclic).subperm subset).length_le

/-- The number of commands in a chain. -/
def commands (heap : Heap) (members : List NodeId) : Nat :=
  (members.map (commandCount heap)).sum

/-- No chain continues from the node. -/
def Stops (heap : Heap) (graph : GraphId) (cur : NodeId) : Prop :=
  ∀ nxt, heap.successors cur = [nxt] →
    ¬ continues heap graph cur nxt = true

/-- The walk along a chain ends, at the tail of a straight path. -/
theorem walkChain_spec (valid : iterators.Valid)
    (sequenced : Sequenced iterators chains block state)
    (formed : iterators.heap.WellFormed iterators.graph) {u : NodeId}
    (fuel : Nat) {walk : ChainWalk} {members : List NodeId}
    (follows : Follows iterators chains u walk members)
    (counted : walk.ncmd = commands state.heap members)
    (enough : iterators.count < members.length + fuel) :
    ∃ final members',
      walkChain iterators state.heap fuel walk = some final ∧
        Follows iterators chains u final members' ∧
        members <+: members' ∧
        (∀ i, final.contracted i = true ↔ walk.contracted i = true ∨
          ∃ n ∈ members', i = iterators.index n) ∧
        final.ncmd = commands state.heap members' ∧
          Stops state.heap iterators.graph final.tail := by
  induction fuel generalizing walk members with
  | zero =>
      have bound := follows.length_le valid formed
      omega
  | succ fuel induction =>
      have stay : Stops state.heap iterators.graph walk.tail →
          ∃ final members', some walk = some final ∧
            Follows iterators chains u final members' ∧
            members <+: members' ∧
            (∀ i, final.contracted i = true ↔ walk.contracted i = true ∨
              ∃ n ∈ members', i = iterators.index n) ∧
            final.ncmd = commands state.heap members' ∧
              Stops state.heap iterators.graph final.tail := by
        intro stops
        refine
          ⟨walk, members, rfl, follows, List.prefix_rfl, ?_, counted, stops⟩
        intro i
        rw [iff_self_or]
        rintro ⟨n, member, rfl⟩
        exact follows.marked n member
      rw [walkChain]
      split
      · rename_i nxt only
        split
        · rename_i continued
          obtain ⟨final, members', ran, follows', longer, marks, counted',
              stops⟩ :=
            induction
              (follows.step sequenced formed only continued
                (walk.ncmd + commandCount state.heap nxt))
              (by
                rw [commands, List.map_append, List.sum_append, counted]
                simp [commands])
              (by
                rw [List.length_append, List.length_singleton]
                omega)
          refine
            ⟨final, members', ran, follows',
              (List.prefix_append members [nxt]).trans longer, ?_, counted',
              stops⟩
          intro i
          have nxtMem : nxt ∈ members' := longer.subset (by simp)
          rw [marks]
          dsimp only
          rw [Function.update_apply]
          by_cases same : i = iterators.index nxt
          · simp only [same, if_true, true_or, true_iff]
            exact .inr ⟨nxt, nxtMem, rfl⟩
          · rw [if_neg same]
        · rename_i stopped
          apply stay
          intro other only'
          rw [only', List.cons.injEq] at only
          rw [only.1]
          exact stopped
      · rename_i others
        exact stay fun nxt only => (others nxt only).elim

/-- A chain that the scan walked along, and the marks it left. -/
structure ScanWalk (iterators : Iterators) (chains : List Chain)
    (state : Scan) (chain : Chain) (after : Scan) : Prop where
  fresh : Fresh iterators chains chain
  stops : Stops state.heap iterators.graph chain.tail
  contracted_iff : ∀ i, after.contracted i = true ↔
    state.contracted i = true ∨
      ∃ n ∈ chain.members, i = iterators.index n

/-- What the scan does at a node. -/
inductive Scans (iterators : Iterators) (chains : List Chain)
    (state : Scan) (u : NodeId) : List Chain → Scan → Prop where
  | skipped
      (idle : state.contracted (iterators.index u) = true ∨
        ¬ isCand state.heap iterators.graph u ∨
          Stops state.heap iterators.graph u) :
      Scans iterators chains state u chains state
  | short {chain : Chain} {after : Scan} (starts : chain.head = u)
      (unmarked : ¬ state.contracted (iterators.index u) = true)
      (walk : ScanWalk iterators chains state chain after)
      (few : commands state.heap chain.members < 2)
      (same : after.heap = state.heap) :
      Scans iterators chains state u chains after
  | contracted {chain : Chain} {after : Scan} (starts : chain.head = u)
      (unmarked : ¬ state.contracted (iterators.index u) = true)
      (walk : ScanWalk iterators chains state chain after)
      (enough : 2 ≤ commands state.heap chain.members) :
      Scans iterators chains state u (chains ++ [chain]) after

/-- Every node of the scan keeps the invariant. -/
theorem scanNode_spec (valid : iterators.Valid)
    (sequenced : Sequenced iterators chains block state)
    (formed : iterators.heap.WellFormed iterators.graph) {i : Nat}
    (bound : i < iterators.count) :
    ∃ after chains' block', scanNode iterators state i = some after ∧
      Sequenced iterators chains' block' after ∧
        Scans iterators chains state (iterators.node i) chains' after := by
  have stay (idle : state.contracted i = true ∨
        ¬ isCand state.heap iterators.graph (iterators.node i) ∨
          Stops state.heap iterators.graph (iterators.node i)) :
      ∃ after chains' block', some state = some after ∧
        Sequenced iterators chains' block' after ∧
          Scans iterators chains state (iterators.node i) chains' after := by
    refine ⟨state, chains, block, rfl, sequenced, Scans.skipped ?_⟩
    rwa [valid.index_node bound]
  have member := Iterators.node_mem bound
  have reachable := (valid.mem_iff _).mp member
  simp only [scanNode]
  split
  · rename_i skipped
    rw [Bool.or_eq_true, Bool.not_eq_true', Bool.eq_false_iff] at skipped
    exact stay (skipped.imp_right .inl)
  rename_i isHead
  rw [Bool.or_eq_true, not_or, Bool.not_eq_true', Bool.not_eq_false]
    at isHead
  obtain ⟨unmarked, candidate⟩ := isHead
  have unmarked' :
      ¬ state.contracted (iterators.index (iterators.node i)) = true := by
    rwa [valid.index_node bound]
  rw [sequenced.isCand_old formed.graph_lt
    (formed.allocated _ reachable)] at candidate
  have outside : ∀ p, ¬ InChain chains p (iterators.node i) := by
    intro p inside
    have marked := sequenced.contracted p _ inside
    rw [valid.index_node bound] at marked
    exact unmarked marked
  split
  swap
  · rename_i others
    exact stay (.inr (.inr fun nxt only => (others nxt only).elim))
  rename_i v only
  split
  · rename_i stopped
    rw [Bool.not_eq_true', Bool.eq_false_iff] at stopped
    apply stay
    refine .inr (.inr fun nxt only' => ?_)
    rw [only', List.cons.injEq] at only
    rw [only.1]
    exact stopped
  rename_i continued
  rw [Bool.not_eq_true', Bool.not_eq_false] at continued
  have start :
      Follows iterators chains (iterators.node i)
        { contracted :=
            Function.update state.contracted
              (iterators.index (iterators.node i)) true
          ncmd := commandCount state.heap (iterators.node i)
          tail := iterators.node i }
        [iterators.node i] :=
    { straight := .start
      reachable := by simpa using reachable
      candidate := by simpa using candidate
      device_eq := by simp
      outside := by simpa using outside
      marked := by simp }
  have grown := start.step sequenced formed only continued
    (commandCount state.heap (iterators.node i) +
      commandCount state.heap v)
  obtain ⟨final, members, ran, follows, longer, marks, counted, stops⟩ :=
    walkChain_spec valid sequenced formed iterators.count grown
      (by simp [commands]) (by simp)
  have marks' : ∀ k, final.contracted k = true ↔
      state.contracted k = true ∨
        ∃ n ∈ members, k = iterators.index n := by
    intro k
    have headMem : iterators.node i ∈ members := longer.subset (by simp)
    have nextMem : v ∈ members := longer.subset (by simp)
    rw [marks]
    dsimp only
    rw [Function.update_apply, Function.update_apply]
    by_cases isNext : k = iterators.index v
    · rw [if_pos isNext]
      exact iff_of_true (.inl rfl) (.inr ⟨v, nextMem, isNext⟩)
    · rw [if_neg isNext]
      by_cases isFirst : k = iterators.index (iterators.node i)
      · rw [if_pos isFirst]
        exact iff_of_true (.inl rfl) (.inr ⟨_, headMem, isFirst⟩)
      · rw [if_neg isFirst]
  have more' : ∀ k, state.contracted k = true →
      final.contracted k = true := fun k old => (marks' k).mpr (.inl old)
  let chain : Chain :=
    { head := iterators.node i, tail := final.tail, members := members }
  have fresh : Fresh iterators chains chain :=
    { straight := follows.straight
      ends_ne := follows.straight.ends_ne formed.acyclic longer.length_le
      reachable := follows.reachable
      candidate := follows.candidate
      device_eq := follows.device_eq
      outside := follows.outside }
  rw [walkChain]
  simp only [only, continued, if_true, ran, Option.bind_eq_bind,
    Option.bind_some]
  split
  · rename_i few
    have walk : ScanWalk iterators chains state chain
        { state with contracted := final.contracted } :=
      { fresh := fresh, stops := stops, contracted_iff := marks' }
    exact
      ⟨_, chains, block, rfl,
        { sequenced with
          contracted := fun p node inside =>
            more' _ (sequenced.contracted p node inside) },
        .short rfl unmarked' walk (counted ▸ few) rfl⟩
  · rename_i many
    have walk : ScanWalk iterators chains state chain
        { heap := contract (iterators.node i) final.tail state.heap
          contracted := final.contracted } :=
      { fresh := fresh, stops := stops, contracted_iff := marks' }
    exact
      ⟨_, chains ++ [chain], _, rfl,
        sequenced.append formed fresh more' follows.marked,
        .contracted rfl unmarked' walk (counted ▸ Nat.not_lt.mp many)⟩

/-- Before the scan no chain is contracted. -/
theorem sequenced_nil
    (formed : iterators.heap.WellFormed iterators.graph) :
    Sequenced iterators [] id
      { heap := iterators.heap, contracted := fun _ => false } where
  nodeCount_eq := rfl
  graphCount_eq := rfl
  node_old := fun _ _ => rfl
  graphs_old := fun _ _ => rfl
  straight := by simp
  ends_ne := by simp
  reachable := by simp [InChain]
  candidate := by simp [InChain]
  device_eq := by simp
  node_batch := by simp
  graphs_sub := by simp
  block_chain := by simp [InChain]
  block_other := fun _ _ => rfl
  represents := by
    have live : ∀ node, Live iterators [] node ↔
        iterators.heap.Reachable iterators.graph node := by
      intro node
      simp [Live]
    have original : iterators.heap.Represents (Live iterators [])
        (iterators.heap.Link iterators.graph) :=
      formed.represents.extend
        (fun node reachable => (live node).mpr reachable)
        (fun node alive dead => (dead ((live node).mp alive)).elim)
    refine original.congr_edge fun source target => ?_
    constructor
    · rintro (⟨-, _, _, link, rfl, rfl⟩ | ⟨link, -⟩) <;> exact link
    · intro link
      have apart := formed.acyclic.ne (TransGen.single link)
      exact Or.inl ⟨apart, source, target, link, rfl, rfl⟩
  contracted := by simp [InChain]

/-- The scan has passed the first nodes of the vector, one after the other. -/
inductive ScanRun (iterators : Iterators) :
    Nat → List Chain → Scan → Prop where
  | start : ScanRun iterators 0 []
      { heap := iterators.heap, contracted := fun _ => false }
  | step {k : Nat} {chains chains' : List Chain}
      {block : NodeId → NodeId} {state after : Scan}
      (run : ScanRun iterators k chains state) (bound : k < iterators.count)
      (sequenced : Sequenced iterators chains block state)
      (scans : Scans iterators chains state (iterators.node k) chains'
        after) :
      ScanRun iterators (k + 1) chains' after

/-- The pass returns with some chains contracted, after a whole scan. -/
theorem passSequence_sequenced {heap : Heap} {graph : GraphId}
    (formed : heap.WellFormed graph) (ready : heap.WalkReady graph) :
    ∃ iterators chains block state k,
      passSequence heap graph = some state.heap ∧
        iterators.graph = graph ∧
        heap.createNodeIterators graph true =
          some (iterators.heap, iterators.nodes) ∧
        heap.Iterated iterators.graph true iterators.heap iterators.nodes ∧
        Sequenced iterators chains block state ∧
        ScanRun iterators k chains state ∧
          (iterators.count ≤ 2 ∨ k = iterators.count) := by
  obtain ⟨indexed, nodes, made, iterated⟩ :=
    Heap.createNodeIterators_spec formed.allocated ready true
  let iterators : Iterators :=
    { heap := indexed, graph := graph, nodes := nodes }
  have valid : iterators.Valid := Iterators.valid_of_iterated iterated
  have formed' : iterators.heap.WellFormed iterators.graph :=
    formed.congr iterated.unmarked_eq
  by_cases few : nodes.length ≤ 2
  · refine
      ⟨iterators, [], id, _, 0, ?_, rfl, made, iterated,
        sequenced_nil formed', .start, .inl few⟩
    simp only [passSequence, made, Option.bind_eq_bind, Option.bind_some]
    exact if_pos few
  · obtain ⟨state, ran, chains, block, sequenced, run⟩ :=
      Loop.foldlM_invariant (scanNode iterators)
        (fun done state =>
          ∃ chains block, Sequenced iterators chains block state ∧
            ScanRun iterators done.length chains state)
        (List.range iterators.count)
        { heap := indexed, contracted := fun _ => false }
        (by
          rintro done i rest state split ⟨chains, block, sequenced, run⟩
          have position :
              (List.range iterators.count)[done.length]? = some i := by
            rw [split]
            simp
          obtain ⟨_, isNext⟩ := List.getElem?_eq_some_iff.mp position
          rw [List.getElem_range] at isNext
          have bound : i < iterators.count := by
            rw [← List.mem_range, split]
            simp
          obtain ⟨after, chains', block', ran, kept, scans⟩ :=
            scanNode_spec valid sequenced formed' bound
          refine ⟨after, ran, chains', block', kept, ?_⟩
          rw [← isNext] at bound scans
          rw [List.length_append, List.length_singleton]
          exact run.step bound sequenced scans)
        ⟨[], id, sequenced_nil formed', .start⟩
    rw [List.length_range] at run
    refine
      ⟨iterators, chains, block, state, _, ?_, rfl, made, iterated, sequenced,
        run, .inr rfl⟩
    simp only [passSequence, made, Option.bind_eq_bind, Option.bind_some]
    rw [if_neg few]
    change (List.foldlM (scanNode iterators) _ _ >>= _) = _
    rw [ran]
    rfl

end Contraction

end Cgir.Pass.Sequence
