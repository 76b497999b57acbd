import Cgir.Mlir.Export
import Cgir.Model.Adjacency

/-!
# What export builds

Pass 2 of the export adds the edges of a list in order, so that the
predecessor list of a node is the operand list of its op.  Pass 1 on ops with a
source node rewrites these nodes and no others.
-/

namespace Cgir.Model.Heap

variable (heap : Heap)

/-- `precedes` for every edge of a list. -/
def precedesAll (edges : List (NodeId × NodeId)) : Heap :=
  edges.foldl (fun heap edge => heap.precedes edge.1 edge.2) heap

variable {heap}

theorem precedesAll_append (first second : List (NodeId × NodeId)) :
    heap.precedesAll (first ++ second) =
      (heap.precedesAll first).precedesAll second :=
  List.foldl_append

@[simp]
theorem precedesAll_unlinked (edges : List (NodeId × NodeId)) :
    (heap.precedesAll edges).unlinked = heap.unlinked := by
  induction edges generalizing heap with
  | nil => rfl
  | cons edge rest induction =>
      exact induction.trans (precedes_unlinked edge.1 edge.2)

/-- Added edges are appended to the predecessors of their target in order. -/
theorem precedesAll_predecessors (edges : List (NodeId × NodeId))
    (node : NodeId) :
    (heap.precedesAll edges).predecessors node =
      heap.predecessors node ++
        (edges.filter fun edge => edge.2 = node).map Prod.fst := by
  induction edges generalizing heap with
  | nil => exact (List.append_nil _).symm
  | cons edge rest induction =>
      refine induction.trans ?_
      rw [precedes_predecessors, List.filter_cons]
      by_cases equal : node = edge.2
      · simp [equal]
      · simp [equal, Ne.symm equal]

/-- Added edges are appended to the successors of their source in order. -/
theorem precedesAll_successors (edges : List (NodeId × NodeId))
    (node : NodeId) :
    (heap.precedesAll edges).successors node =
      heap.successors node ++
        (edges.filter fun edge => edge.1 = node).map Prod.snd := by
  induction edges generalizing heap with
  | nil => exact (List.append_nil _).symm
  | cons edge rest induction =>
      refine induction.trans ?_
      rw [precedes_successors, List.filter_cons]
      by_cases equal : node = edge.1
      · simp [equal]
      · simp [equal, Ne.symm equal]

/-- Both ends of an edge occur equally often in a list of edges. -/
theorem count_ends (edges : List (NodeId × NodeId)) (source target : NodeId) :
    ((edges.filter fun edge => edge.1 = source).map Prod.snd).count target =
      ((edges.filter fun edge => edge.2 = target).map Prod.fst).count
        source := by
  induction edges with
  | nil => rfl
  | cons edge rest induction =>
      obtain ⟨first, second⟩ := edge
      simp only [List.filter_cons, decide_eq_true_eq]
      by_cases isSource : first = source <;>
        by_cases isTarget : second = target <;>
        simp [isSource, isTarget, induction]

/-- Edges added to cleared lists are recorded equally often at both ends. -/
theorem precedesAll_balanced (edges : List (NodeId × NodeId))
    {source target : NodeId} (noSuccessors : heap.successors source = [])
    (noPredecessors : heap.predecessors target = []) :
    ((heap.precedesAll edges).successors source).count target =
      ((heap.precedesAll edges).predecessors target).count source := by
  rw [precedesAll_successors, precedesAll_predecessors, noSuccessors,
    noPredecessors]
  exact count_ends edges source target

/-- Distinct edges added to cleared lists are represented by the lists. -/
theorem precedesAll_represents {live : NodeId → Prop}
    {edges : List (NodeId × NodeId)} (nodup : edges.Nodup)
    (inside : ∀ edge ∈ edges, live edge.1 ∧ live edge.2)
    (cleared : ∀ node, live node →
      heap.successors node = [] ∧ heap.predecessors node = []) :
    (heap.precedesAll edges).Represents live
      (fun source target => (source, target) ∈ edges) where
  successors_nodup := by
    intro node alive
    rw [precedesAll_successors, (cleared node alive).1, List.nil_append]
    apply (nodup.filter _).map_on
    rintro ⟨source, target⟩ first ⟨source', target'⟩ second same
    have firstEq := of_decide_eq_true (List.mem_filter.mp first).2
    have secondEq := of_decide_eq_true (List.mem_filter.mp second).2
    exact Prod.ext (firstEq.trans secondEq.symm) same
  predecessors_nodup := by
    intro node alive
    rw [precedesAll_predecessors, (cleared node alive).2, List.nil_append]
    apply (nodup.filter _).map_on
    rintro ⟨source, target⟩ first ⟨source', target'⟩ second same
    have firstEq := of_decide_eq_true (List.mem_filter.mp first).2
    have secondEq := of_decide_eq_true (List.mem_filter.mp second).2
    exact Prod.ext same (firstEq.trans secondEq.symm)
  mem_successors := by
    intro node alive next
    rw [precedesAll_successors, (cleared node alive).1, List.nil_append]
    constructor
    · intro member
      obtain ⟨⟨source, target⟩, kept, rfl⟩ := List.mem_map.mp member
      obtain ⟨listed, same⟩ := List.mem_filter.mp kept
      exact of_decide_eq_true same ▸ listed
    · intro listed
      exact List.mem_map.mpr ⟨(node, next), by simp [listed], rfl⟩
  mem_predecessors := by
    intro node alive pred
    rw [precedesAll_predecessors, (cleared node alive).2, List.nil_append]
    constructor
    · intro member
      obtain ⟨⟨source, target⟩, kept, rfl⟩ := List.mem_map.mp member
      obtain ⟨listed, same⟩ := List.mem_filter.mp kept
      exact of_decide_eq_true same ▸ listed
    · intro listed
      exact List.mem_map.mpr ⟨(pred, node), by simp [listed], rfl⟩
  inside := fun source target listed => inside (source, target) listed

/-- Nodes that no edge mentions keep their object. -/
theorem precedesAll_nodes {edges : List (NodeId × NodeId)} {node : NodeId}
    (untouched : ∀ edge ∈ edges, edge.1 ≠ node ∧ edge.2 ≠ node) :
    (heap.precedesAll edges).nodes node = heap.nodes node := by
  induction edges generalizing heap with
  | nil => rfl
  | cons edge rest induction =>
      obtain ⟨notSource, notTarget⟩ := untouched edge (by simp)
      refine
        (induction
          fun other member => untouched other (by simp [member])).trans ?_
      simp [precedes, pushSuccessor, pushPredecessor, Ne.symm notSource,
        Ne.symm notTarget]

end Cgir.Model.Heap

namespace Cgir.Mlir

open Cgir.Library
open Cgir.Model

/-! ## Token edges -/

section Tokens

variable (operands : OpId → List OpId) (place : OpId → NodeId)

/-- The edges into one op. -/
def tokensOf (op : OpId) : List (NodeId × NodeId) :=
  (operands op).map fun pred => (place pred, place op)

/-- The edges of a block in the order in which export adds them. -/
def tokens (body : List OpId) : List (NodeId × NodeId) :=
  body.flatMap (tokensOf operands place)

variable {operands place}

theorem relinkOp_eq {ops : OpId → Op} {out : OpId → Option NodeId}
    {op : OpId} (known : out op = some (place op))
    (operandsKnown : ∀ pred ∈ (ops op).operands, out pred = some (place pred))
    (heap : Heap) :
    relinkOp ops out heap op =
      some
        (heap.precedesAll (tokensOf (fun op => (ops op).operands) place op)) := by
  have added : ∀ (list : List OpId) (heap : Heap),
      (∀ pred ∈ list, out pred = some (place pred)) →
        list.foldlM
            (fun heap pred => do
              let pnode ← out pred
              return heap.precedes pnode (place op)) heap =
          some
            (heap.precedesAll
              (list.map fun pred => (place pred, place op))) := by
    intro list
    induction list with
    | nil => exact fun _ _ => rfl
    | cons pred rest induction =>
        intro heap listKnown
        rw [List.foldlM_cons, listKnown pred (by simp)]
        exact
          induction _ fun other member => listKnown other (by simp [member])
  simp only [relinkOp, known]
  exact added _ heap operandsKnown

/-- Pass 2 adds the edges of the block in order. -/
theorem relink_eq {ops : OpId → Op} {out : OpId → Option NodeId}
    (body : List OpId) (known : ∀ op ∈ body, out op = some (place op))
    (operandsKnown : ∀ op ∈ body, ∀ pred ∈ (ops op).operands,
      out pred = some (place pred)) (heap : Heap) :
    body.foldlM (relinkOp ops out) heap =
      some
        (heap.precedesAll
          (tokens (fun op => (ops op).operands) place body)) := by
  induction body generalizing heap with
  | nil => rfl
  | cons op rest induction =>
      rw [List.foldlM_cons,
        relinkOp_eq (known op (by simp)) (operandsKnown op (by simp))]
      refine
        (induction (fun other member => known other (by simp [member]))
          (fun other member => operandsKnown other (by simp [member]))
          _).trans ?_
      exact congrArg some (Heap.precedesAll_append _ _).symm

variable {body : List OpId} (nodup : body.Nodup)
  (distinct : ∀ op ∈ body, ∀ other ∈ body, place op = place other → op = other)

include nodup distinct

/-- The edges into a node are those of the operands of its op. -/
theorem tokens_into {op : OpId} (member : op ∈ body) :
    ((tokens operands place body).filter fun edge =>
        edge.2 = place op).map Prod.fst =
      (operands op).map place := by
  induction body with
  | nil => cases member
  | cons first rest induction =>
      have apart := (List.nodup_cons.mp nodup).1
      rw [tokens, List.flatMap_cons, List.filter_append, List.map_append]
      have ofFirst : first = op ∨ first ≠ op := eq_or_ne first op
      rcases ofFirst with rfl | different
      · have others :
            (rest.flatMap (tokensOf operands place)).filter
              (fun edge => edge.2 = place first) = [] := by
          rw [List.filter_eq_nil_iff]
          intro edge inRest
          obtain ⟨other, otherMember, isToken⟩ :=
            List.mem_flatMap.mp inRest
          obtain ⟨pred, -, rfl⟩ := List.mem_map.mp isToken
          intro equal
          have same :=
            distinct other (by simp [otherMember]) first (by simp)
              (of_decide_eq_true equal)
          exact apart (same ▸ otherMember)
        rw [others, List.map_nil, List.append_nil]
        simp [tokensOf, List.filter_map, Function.comp_def]
      · have none :
            (tokensOf operands place first).filter
              (fun edge => edge.2 = place op) = [] := by
          rw [List.filter_eq_nil_iff]
          intro edge isToken
          obtain ⟨pred, -, rfl⟩ := List.mem_map.mp isToken
          intro equal
          exact
            different
              (distinct first (by simp) op member (of_decide_eq_true equal))
        rw [none, List.map_nil, List.nil_append]
        have inRest : op ∈ rest := by
          simpa [Ne.symm different] using member
        exact
          induction (List.nodup_cons.mp nodup).2
            (fun a aMember b bMember =>
              distinct a (by simp [aMember]) b (by simp [bMember]))
            inRest

end Tokens

/-! ## The relinked graph -/

/--
`after` is `heap` with the adjacency lists of the nodes of a block rebuilt from
the operands of its ops, and with the ends of the graph set.
-/
structure Linked (cg : Graph) (place : OpId → NodeId) (heap : Heap)
    (graph : GraphId) (entry exit : OpId) (after : Heap) : Prop where
  unlinked_nodes : ∀ node,
    (after.nodes node).unlinked = (heap.nodes node).unlinked
  nodeCount_eq : after.nodeCount = heap.nodeCount
  graphCount_eq : after.graphCount = heap.graphCount
  graph_eq : after.graphs graph =
    { heap.graphs graph with entry := place entry, exit := place exit }
  other_graphs : ∀ other, other ≠ graph →
    after.graphs other = heap.graphs other
  predecessors_eq : ∀ op ∈ cg.body,
    after.predecessors (place op) = (cg.operands op).map place
  count_successors : ∀ op ∈ cg.body, ∀ pred ∈ cg.body,
    (after.successors (place pred)).count (place op) =
      (cg.operands op).count pred
  successors_placed : ∀ pred ∈ cg.body,
    ∀ node ∈ after.successors (place pred), ∃ op ∈ cg.body, node = place op
  other_nodes : ∀ node, (∀ op ∈ cg.body, place op ≠ node) →
    after.nodes node = heap.nodes node

section Linking

variable {cg : Graph} {place : OpId → NodeId} {body : List OpId}

theorem count_map_place {operands : List OpId} {pred : OpId}
    (distinct : ∀ op ∈ operands, place op = place pred → op = pred) :
    (operands.map place).count (place pred) = operands.count pred := by
  induction operands with
  | nil => rfl
  | cons first rest induction =>
      have induction :=
        induction fun op member => distinct op (by simp [member])
      rw [List.map_cons, List.count_cons, List.count_cons, induction]
      congr 1
      by_cases same : first = pred
      · simp [same]
      · have apart : place first ≠ place pred := by
          intro equal
          exact same (distinct first (by simp) equal)
        simp [same, apart]

theorem mem_tokens {operands : OpId → List OpId}
    {edge : NodeId × NodeId} :
    edge ∈ tokens operands place body ↔
      ∃ op ∈ body, ∃ pred ∈ operands op, (place pred, place op) = edge := by
  simp [tokens, tokensOf]

/-- The export of a block whose ops are all resolved to distinct nodes. -/
theorem export_of_resolved {heap : Heap} {graph : GraphId}
    {state : ExportState} {entry exit : OpId}
    (ran : cg.body.foldlM (resolveOp cg)
      { heap := heap
        out := fun _ => none
        entryNode := none
        exitNode := none } = some state)
    (known : ∀ op ∈ cg.body, state.out op = some (place op))
    (entryNode : state.entryNode = some (place entry))
    (exitNode : state.exitNode = some (place exit))
    (entryMem : entry ∈ cg.body) (exitMem : exit ∈ cg.body)
    (nodup : cg.body.Nodup)
    (distinct : ∀ op ∈ cg.body, ∀ other ∈ cg.body,
      place op = place other → op = other)
    (closed : ∀ op ∈ cg.body, ∀ pred ∈ cg.operands op, pred ∈ cg.body)
    (cleared : ∀ op ∈ cg.body, state.heap.successors (place op) = [] ∧
      state.heap.predecessors (place op) = [])
    (first : cg.operands entry = [])
    (last : ∀ op ∈ cg.body, exit ∉ cg.operands op) :
    ∃ after, exportCommandGraph cg heap graph = some after ∧
      Linked cg place state.heap graph entry exit after := by
  let edges := tokens cg.operands place cg.body
  let relinked := state.heap.precedesAll edges
  have relinks : cg.body.foldlM (relinkOp cg.ops state.out) state.heap =
      some relinked :=
    relink_eq cg.body known
      (fun op member pred isPred =>
        known pred (closed op member pred isPred)) state.heap
  have predecessorsEq : ∀ op ∈ cg.body,
      relinked.predecessors (place op) = (cg.operands op).map place := by
    intro op member
    refine (Heap.precedesAll_predecessors edges (place op)).trans ?_
    rw [(cleared op member).2, List.nil_append]
    exact tokens_into nodup distinct member
  have countEq : ∀ op ∈ cg.body, ∀ pred ∈ cg.body,
      (relinked.successors (place pred)).count (place op) =
        (cg.operands op).count pred := by
    intro op member pred predMember
    rw [Heap.precedesAll_balanced edges (cleared pred predMember).1
      (cleared op member).2]
    refine (congrArg (List.count (place pred))
      (predecessorsEq op member)).trans ?_
    exact
      count_map_place fun other isPred =>
        distinct other (closed op member other isPred) pred predMember
  have placed : ∀ pred ∈ cg.body,
      ∀ node ∈ relinked.successors (place pred),
        ∃ op ∈ cg.body, node = place op := by
    intro pred predMember node isSuccessor
    have listed :
        (state.heap.precedesAll edges).successors (place pred) = _ :=
      Heap.precedesAll_successors edges (place pred)
    rw [(cleared pred predMember).1, List.nil_append] at listed
    obtain ⟨edge, isEdge, rfl⟩ :=
      List.mem_map.mp (listed ▸ isSuccessor)
    obtain ⟨op, member, -, -, rfl⟩ :=
      mem_tokens.mp (List.mem_of_mem_filter isEdge)
    exact ⟨op, member, rfl⟩
  have entryFirst : relinked.predecessors (place entry) = [] := by
    rw [predecessorsEq entry entryMem, first, List.map_nil]
  have exitLast : relinked.successors (place exit) = [] := by
    apply List.eq_nil_iff_forall_not_mem.mpr
    intro node isSuccessor
    obtain ⟨op, member, rfl⟩ := placed exit exitMem node isSuccessor
    have positive := List.count_pos_iff.mpr isSuccessor
    rw [countEq op member exit exitMem] at positive
    exact last op member (List.count_pos_iff.mp positive)
  refine
    ⟨relinked.updateGraph graph fun object =>
      { object with entry := place entry, exit := place exit }, ?_, ?_⟩
  · simp only [exportCommandGraph, ran]
    refine (congrArg (Option.bind · _) relinks).trans ?_
    simp only [entryNode, exitNode]
    exact if_pos ⟨entryFirst, exitLast⟩
  · have same : relinked.unlinked = state.heap.unlinked :=
      Heap.precedesAll_unlinked edges
    have graphsEq := Heap.unlinked_graphs same
    exact {
      unlinked_nodes := fun node => Heap.unlinked_nodes same node
      nodeCount_eq := (congrArg Heap.nodeCount same :)
      graphCount_eq := (congrArg Heap.graphCount same :)
      graph_eq := by
        simp [Heap.updateGraph, graphsEq]
      other_graphs := by
        intro other different
        simp [Heap.updateGraph, graphsEq, different]
      predecessors_eq := predecessorsEq
      count_successors := countEq
      successors_placed := placed
      other_nodes := by
        intro node apart
        apply Heap.precedesAll_nodes
        intro edge isEdge
        obtain ⟨op, member, pred, isPred, rfl⟩ := mem_tokens.mp isEdge
        exact ⟨apart pred (closed op member pred isPred), apart op member⟩ }

end Linking

section Lists

variable {cg : Graph} {place : OpId → NodeId} {heap after : Heap}
  {graph : GraphId} {entry exit : OpId}

/-- A node that an op of the block is placed at. -/
def Placed (cg : Graph) (place : OpId → NodeId) (node : NodeId) : Prop :=
  ∃ op ∈ cg.body, place op = node

/-- A token of an op of the block, as an edge between their nodes. -/
def TokenEdge (cg : Graph) (place : OpId → NodeId)
    (source target : NodeId) : Prop :=
  ∃ op ∈ cg.body, ∃ pred ∈ cg.operands op,
    place pred = source ∧ place op = target

/-- The predecessor lists are free of duplicates when the operands are. -/
theorem Linked.predecessors_nodup_iff
    (linked : Linked cg place heap graph entry exit after)
    (distinct : ∀ op ∈ cg.body, ∀ other ∈ cg.body,
      place op = place other → op = other)
    (closed : ∀ op ∈ cg.body, ∀ pred ∈ cg.operands op, pred ∈ cg.body)
    {op : OpId} (member : op ∈ cg.body) :
    (after.predecessors (place op)).Nodup ↔ (cg.operands op).Nodup := by
  rw [linked.predecessors_eq op member]
  constructor
  · exact List.Nodup.of_map place
  · intro nodup
    exact
      nodup.map_on fun pred isPred other isOther =>
        distinct pred (closed op member pred isPred) other
          (closed op member other isOther)

/-- So are the successor lists. -/
theorem Linked.successors_nodup
    (linked : Linked cg place heap graph entry exit after)
    (nodup : ∀ op ∈ cg.body, (cg.operands op).Nodup)
    {pred : OpId} (member : pred ∈ cg.body) :
    (after.successors (place pred)).Nodup := by
  rw [List.nodup_iff_count_le_one]
  intro node
  by_cases listed : node ∈ after.successors (place pred)
  · obtain ⟨op, opMember, rfl⟩ :=
      linked.successors_placed pred member node listed
    rw [linked.count_successors op opMember pred member]
    exact List.nodup_iff_count_le_one.mp (nodup op opMember) pred
  · rw [List.count_eq_zero_of_not_mem listed]
    exact Nat.zero_le 1

theorem Linked.mem_successors
    (linked : Linked cg place heap graph entry exit after)
    {op pred : OpId} (member : op ∈ cg.body) (predMember : pred ∈ cg.body) :
    place op ∈ after.successors (place pred) ↔ pred ∈ cg.operands op := by
  rw [← List.count_pos_iff, linked.count_successors op member pred predMember,
    List.count_pos_iff]

/-- Without duplicate operands the lists represent the tokens. -/
theorem Linked.represents
    (linked : Linked cg place heap graph entry exit after)
    (distinct : ∀ op ∈ cg.body, ∀ other ∈ cg.body,
      place op = place other → op = other)
    (closed : ∀ op ∈ cg.body, ∀ pred ∈ cg.operands op, pred ∈ cg.body)
    (nodup : ∀ op ∈ cg.body, (cg.operands op).Nodup) :
    after.Represents (Placed cg place) (TokenEdge cg place) where
  successors_nodup := by
    rintro _ ⟨pred, member, rfl⟩
    exact linked.successors_nodup nodup member
  predecessors_nodup := by
    rintro _ ⟨op, member, rfl⟩
    exact (linked.predecessors_nodup_iff distinct closed member).mpr
      (nodup op member)
  mem_successors := by
    rintro _ ⟨pred, predMember, rfl⟩ node
    constructor
    · intro listed
      obtain ⟨op, member, rfl⟩ :=
        linked.successors_placed pred predMember node listed
      exact
        ⟨op, member, pred,
          (linked.mem_successors member predMember).mp listed, rfl, rfl⟩
    · rintro ⟨op, member, other, isOperand, same, rfl⟩
      have equal :=
        distinct other (closed op member other isOperand) pred predMember same
      exact
        (linked.mem_successors member predMember).mpr (equal ▸ isOperand)
  mem_predecessors := by
    rintro _ ⟨op, member, rfl⟩ node
    rw [linked.predecessors_eq op member, List.mem_map]
    constructor
    · rintro ⟨pred, isPred, rfl⟩
      exact ⟨op, member, pred, isPred, rfl, rfl⟩
    · rintro ⟨other, otherMember, pred, isPred, rfl, same⟩
      have equal := distinct other otherMember op member same
      exact ⟨pred, equal ▸ isPred, rfl⟩
  inside := by
    rintro _ _ ⟨op, member, pred, isPred, rfl, rfl⟩
    exact
      ⟨⟨pred, closed op member pred isPred, rfl⟩, ⟨op, member, rfl⟩⟩

end Lists

/-! ## Ops with a source node -/

/-- The node that the last op of a list passing the test resolves to. -/
def lastPlace (cg : Graph) (place : OpId → NodeId) (test : Op → Bool)
    (ids : List OpId) (found : Option NodeId) : Option NodeId :=
  ids.foldl
    (fun found id => if test (cg.ops id) then some (place id) else found)
    found

/-- Pass 1 on ops with distinct source nodes rewrites exactly these nodes. -/
structure Rewritten (cg : Graph) (source : OpId → NodeId)
    (start : ExportState) (ids : List OpId) (after : ExportState) :
    Prop where
  node_eq : ∀ id ∈ ids, ∃ object,
    (cg.ops id).updateNode (start.heap.nodes (source id)) = some object ∧
      after.heap.nodes (source id) = object.unlinked
  other_nodes : ∀ node, node ∉ ids.map source →
    after.heap.nodes node = start.heap.nodes node
  nodeCount_eq : after.heap.nodeCount = start.heap.nodeCount
  graphs_eq : after.heap.graphs = start.heap.graphs
  graphCount_eq : after.heap.graphCount = start.heap.graphCount
  out_eq : ∀ id, after.out id =
    if id ∈ ids then some (source id) else start.out id
  entryNode_eq : after.entryNode =
    lastPlace cg source Op.isEntry ids start.entryNode
  exitNode_eq : after.exitNode =
    lastPlace cg source Op.isExit ids start.exitNode

section Sourced

variable {cg : Graph} {place source : OpId → NodeId} {test : Op → Bool}

theorem lastPlace_append (first second : List OpId)
    (found : Option NodeId) :
    lastPlace cg place test (first ++ second) found =
      lastPlace cg place test second (lastPlace cg place test first found) :=
  List.foldl_append

/-- Ops that fail the test do not matter. -/
theorem lastPlace_of_none {ids : List OpId}
    (fails : ∀ id ∈ ids, test (cg.ops id) = false) (found : Option NodeId) :
    lastPlace cg place test ids found = found := by
  induction ids generalizing found with
  | nil => rfl
  | cons id rest induction =>
      refine (induction (fun other member => fails other (by simp [member]))
        _).trans ?_
      simp [fails id (by simp)]

/-- The only op that passes the test is the last one. -/
theorem lastPlace_of_unique {ids : List OpId} (nodup : ids.Nodup)
    {chosen : OpId} (member : chosen ∈ ids)
    (unique : ∀ id ∈ ids, test (cg.ops id) = true ↔ id = chosen)
    (found : Option NodeId) :
    lastPlace cg place test ids found = some (place chosen) := by
  obtain ⟨before, rest, rfl⟩ := List.append_of_mem member
  have apart : chosen ∉ rest :=
    (List.nodup_cons.mp (List.nodup_append.mp nodup).2.1).1
  have fails : ∀ id ∈ rest, test (cg.ops id) = false := by
    intro id inRest
    by_contra passes
    have same := (unique id (by simp [inRest])).mp (by simpa using passes)
    exact apart (same ▸ inRest)
  rw [lastPlace_append, ← List.singleton_append, lastPlace_append,
    lastPlace_of_none fails]
  have passes := (unique chosen member).mpr rfl
  simp [lastPlace, passes]

theorem updateNodeFromOp_eq {heap : Heap} {node : NodeId} {op : Op}
    {object : CommandGraphNode}
    (written : op.updateNode (heap.nodes node) = some object) :
    updateNodeFromOp heap node op =
      some (heap.updateNode node fun _ => object) := by
  simp [updateNodeFromOp, written]

/-- Pass 1 on ops with distinct source nodes. -/
theorem resolveSourced_spec (start : ExportState) {ids : List OpId}
    (sourced : ∀ id ∈ ids, (cg.ops id).srcNode = some (source id))
    (distinct : (ids.map source).Nodup)
    (writable : ∀ id ∈ ids, ∃ object,
      (cg.ops id).updateNode (start.heap.nodes (source id)) = some object) :
    ∃ after, ids.foldlM (resolveOp cg) start = some after ∧
      Rewritten cg source start ids after := by
  apply Loop.foldlM_invariant _ (Rewritten cg source start)
  · intro done id rest state split rewritten
    have member : id ∈ ids := by
      simp [split]
    have fresh : source id ∉ done.map source := by
      rw [split, List.map_append, List.nodup_append] at distinct
      intro earlier
      exact
        distinct.2.2 (source id) earlier (source id) (by simp) rfl
    obtain ⟨object, written⟩ := writable id member
    have unchanged := rewritten.other_nodes (source id) fresh
    have updated :
        updateNodeFromOp state.heap (source id) (cg.ops id) =
          some (state.heap.updateNode (source id) fun _ => object) :=
      updateNodeFromOp_eq (unchanged.symm ▸ written)
    refine
      ⟨{ heap :=
          clearLists (state.heap.updateNode (source id) fun _ => object)
            (source id)
         out := Function.update state.out id (some (source id))
         entryNode :=
          if (cg.ops id).isEntry then some (source id) else state.entryNode
         exitNode :=
          if (cg.ops id).isExit then some (source id) else state.exitNode },
        ?_, ?_⟩
    · simp only [resolveOp, resolveNode, sourced id member, updated,
        Option.map_some]
      rfl
    · exact {
        node_eq := by
          intro other otherMember
          rcases List.mem_append.mp otherMember with earlier | isLast
          · obtain ⟨otherObject, otherWritten, stored⟩ :=
              rewritten.node_eq other earlier
            refine ⟨otherObject, otherWritten, ?_⟩
            have apart : source other ≠ source id := by
              intro equal
              exact fresh (equal ▸ List.mem_map_of_mem earlier)
            simp [clearLists, apart, stored]
          · rw [List.mem_singleton] at isLast
            subst isLast
            exact ⟨object, written, by simp [clearLists]⟩
        other_nodes := by
          intro node absent
          rw [List.map_append, List.mem_append, not_or] at absent
          have apart : node ≠ source id := by
            simpa using absent.2
          simp [clearLists, apart, rewritten.other_nodes node absent.1]
        nodeCount_eq := rewritten.nodeCount_eq
        graphs_eq := rewritten.graphs_eq
        graphCount_eq := rewritten.graphCount_eq
        out_eq := by
          intro other
          by_cases same : other = id
          · simp [same]
          · simp [same, rewritten.out_eq]
        entryNode_eq := by
          rw [lastPlace_append, ← rewritten.entryNode_eq]
          rfl
        exitNode_eq := by
          rw [lastPlace_append, ← rewritten.exitNode_eq]
          rfl }
  · exact {
      node_eq := fun id member => absurd member (List.not_mem_nil)
      other_nodes := fun _ _ => rfl
      nodeCount_eq := rfl
      graphs_eq := rfl
      graphCount_eq := rfl
      out_eq := fun _ => by simp
      entryNode_eq := rfl
      exitNode_eq := rfl }

/-- The export of a block whose ops all have distinct source nodes. -/
theorem exportSourced_spec (heap : Heap) (graph : GraphId)
    (source : OpId → NodeId) {entry exit : OpId}
    (sourced : ∀ op ∈ cg.body, (cg.ops op).srcNode = some (source op))
    (distinct : (cg.body.map source).Nodup)
    (writable : ∀ op ∈ cg.body, ∃ object,
      (cg.ops op).updateNode (heap.nodes (source op)) = some object)
    (entryMem : entry ∈ cg.body) (exitMem : exit ∈ cg.body)
    (entryOnly : ∀ op ∈ cg.body,
      (cg.ops op).isEntry = true ↔ op = entry)
    (exitOnly : ∀ op ∈ cg.body, (cg.ops op).isExit = true ↔ op = exit)
    (closed : ∀ op ∈ cg.body, ∀ pred ∈ cg.operands op, pred ∈ cg.body)
    (first : cg.operands entry = [])
    (last : ∀ op ∈ cg.body, exit ∉ cg.operands op) :
    ∃ state after, exportCommandGraph cg heap graph = some after ∧
      Rewritten cg source
        { heap := heap
          out := fun _ => none
          entryNode := none
          exitNode := none } cg.body state ∧
      Linked cg source state.heap graph entry exit after := by
  have nodup : cg.body.Nodup := distinct.of_map source
  have injective := List.inj_on_of_nodup_map distinct
  obtain ⟨state, ran, rewritten⟩ :=
    resolveSourced_spec
      { heap := heap
        out := fun _ => none
        entryNode := none
        exitNode := none } sourced distinct writable
  have cleared : ∀ op ∈ cg.body,
      state.heap.successors (source op) = [] ∧
        state.heap.predecessors (source op) = [] := by
    intro op member
    obtain ⟨object, -, stored⟩ := rewritten.node_eq op member
    simp [Heap.successors, Heap.predecessors, stored,
      CommandGraphNode.unlinked]
  obtain ⟨after, exported, linked⟩ :=
    export_of_resolved ran
      (fun op member => by rw [rewritten.out_eq, if_pos member])
      (rewritten.entryNode_eq.trans
        (lastPlace_of_unique nodup entryMem entryOnly none))
      (rewritten.exitNode_eq.trans
        (lastPlace_of_unique nodup exitMem exitOnly none))
      entryMem exitMem nodup
      (fun op member other otherMember => injective member otherMember)
      closed cleared first last
  exact ⟨state, after, exported, rewritten, linked⟩

end Sourced

end Cgir.Mlir
