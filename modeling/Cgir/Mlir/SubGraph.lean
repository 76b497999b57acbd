import Cgir.Mlir.RoundTrip

/-!
# The sub-graph of a batch

`build_batch_node` allocates the ends of the sub-graph, one node for each
member, and the batch node, in this order.  The lists of the sub-graph record
the tokens between members, an edge from the entry to every source and one from
every sink to the exit.
-/

namespace Cgir.Mlir

open Relation
open Cgir.Library
open Cgir.Model

/-! ## Sub-nodes -/

/-- The object that a fresh sub-node copies from a source node. -/
def memberObject (object : CommandGraphNode) : CommandGraphNode :=
  { CommandGraphNode.new object.deviceUniqueId object.type with
    command := if object.type = .command then object.command else none }

/-- An op that import made for a control or a command node. -/
structure Encoded (op : Op) (object : CommandGraphNode) : Prop where
  duid_eq : op.duid = duidAttr object.deviceUniqueId
  kind : object.type = .empty ∨
    (object.type = .command ∧ ∃ command, object.command = some command ∧
      op.kind = commandOpKind command)

theorem encoded_created {op : Op} {node : CommandGraphNode}
    {isEntry isExit : Bool} {operands : List OpId}
    {srcNode : Option NodeId}
    (created : createNodeOp node isEntry isExit =
      some { op with operands := operands, srcNode := srcNode }) :
    Encoded op node := by
  unfold createNodeOp at created
  cases type : node.type with
  | empty =>
      rw [type] at created
      simp only [Option.some.injEq, Op.mk.injEq] at created
      exact ⟨created.1.symm, Or.inl type⟩
  | command =>
      rw [type] at created
      obtain ⟨command, held, same⟩ := Option.map_eq_some_iff.mp created
      rw [Op.mk.injEq] at same
      exact
        ⟨same.1.symm, Or.inr ⟨type, command, held, same.2.1.symm⟩⟩
  | commandGraph =>
      rw [type] at created
      cases created
  | condition =>
      rw [type] at created
      cases created

/-- Add one allocated node. -/
def appendNode (heap : Heap) (object : CommandGraphNode) : Heap :=
  { heap with
    nodes := Function.update heap.nodes heap.nodeCount object
    nodeCount := heap.nodeCount + 1 }

section SubNodes

variable {heap : Heap} {op : Op} {source : NodeId}
  {create : Heap → Op → Option (NodeId × Heap)}

theorem appendNode_nodes (object : CommandGraphNode) (node : NodeId) :
    (appendNode heap object).nodes node =
      if node = heap.nodeCount then object else heap.nodes node := by
  simp [appendNode, Function.update_apply]

theorem clearLists_appendNode (object : CommandGraphNode) :
    clearLists (appendNode heap object) heap.nodeCount =
      appendNode heap object.unlinked := by
  simp [clearLists, appendNode, Heap.updateNode]

theorem newCommandNode_eq (duid : DeviceUniqueId) (command : Command) :
    newCommandNode heap duid command =
      (heap.nodeCount,
        appendNode heap
          { CommandGraphNode.new duid .command with
            command := some command }) := by
  simp [newCommandNode, Heap.commandGraphNodeNew, Heap.setCommand,
    Heap.updateNode, appendNode]

theorem updateNodeFromOp_appendNode {object : CommandGraphNode}
    (written : op.updateNode object = some object) :
    updateNodeFromOp (appendNode heap object) heap.nodeCount op =
      some (appendNode heap object) := by
  have written' :
      op.updateNode ((appendNode heap object).nodes heap.nodeCount) =
        some object := by
    rwa [appendNode_nodes, if_pos rfl]
  rw [updateNodeFromOp_eq written']
  simp [appendNode, Heap.updateNode]

/-- The sub-node of a member is a copy of its source node. -/
theorem subNode_eq (sourced : op.srcNode = some source)
    (encoded : Encoded op (heap.nodes source)) :
    subNode create heap op =
      some
        (heap.nodeCount,
          appendNode heap (memberObject (heap.nodes source))) := by
  have device : op.getDuid = (heap.nodes source).deviceUniqueId := by
    rw [Op.getDuid, encoded.duid_eq, duidOfAttr_attr]
  unfold subNode
  rw [sourced]
  rcases encoded.kind with isEmpty | ⟨isCommand, command, held, kind⟩
  · simp only [isEmpty]
    rw [device]
    simp [memberObject, isEmpty, Heap.commandGraphNodeNew, appendNode,
      CommandGraphNode.new]
  · simp only [isCommand, held]
    rw [newCommandNode_eq, device]
    have same : memberObject (heap.nodes source) =
        { CommandGraphNode.new (heap.nodes source).deviceUniqueId
            .command with command := some command } := by
      simp [memberObject, isCommand, held]
    have written : op.updateNode
        { CommandGraphNode.new (heap.nodes source).deviceUniqueId
            .command with command := some command } = some _ :=
      commandOpKind_written kind encoded.duid_eq rfl
    rw [same]
    exact
      congrArg (Option.map (heap.nodeCount, ·))
        (updateNodeFromOp_appendNode written)

end SubNodes

/-! ## The loops over the region -/

/-- What the members of a region must be for the sub-graph to be built. -/
structure Region (ops : OpId → Op) (source : OpId → NodeId) (heap : Heap)
    (region : List OpId) : Prop where
  nodup : region.Nodup
  sourced : ∀ op ∈ region, (ops op).srcNode = some (source op)
  old : ∀ op ∈ region, source op < heap.nodeCount
  encoded : ∀ op ∈ region, Encoded (ops op) (heap.nodes (source op))
  closed : ∀ op ∈ region, ∀ pred ∈ (ops op).operands, pred ∈ region
  operands_nodup : ∀ op ∈ region, (ops op).operands.Nodup

/-- The node of a member, when sub-nodes are numbered from `base`. -/
def memberAt (base : Nat) (region : List OpId) (op : OpId) : NodeId :=
  base + region.idxOf op

/-- The loop that creates the sub-nodes, after the members of `done`. -/
structure MembersMade (start : Heap) (objects : OpId → CommandGraphNode)
    (done : List OpId) (state : SubState) : Prop where
  nodeCount_eq : state.heap.nodeCount = start.nodeCount + done.length
  graphs_eq : state.heap.graphs = start.graphs
  graphCount_eq : state.heap.graphCount = start.graphCount
  old_eq : ∀ node < start.nodeCount,
    state.heap.nodes node = start.nodes node
  member_eq : ∀ (position : Nat) (op : OpId), done[position]? = some op →
    state.heap.nodes (start.nodeCount + position) = objects op ∧
      state.subNodes op = some (start.nodeCount + position)

section Loops

variable {ops : OpId → Op} {source : OpId → NodeId} {heap : Heap}
  {region : List OpId} {create : Heap → Op → Option (NodeId × Heap)}

theorem resolveMembers_spec (regular : Region ops source heap region)
    {start : Heap} (grown : heap.nodeCount ≤ start.nodeCount)
    (same : ∀ node < heap.nodeCount, start.nodes node = heap.nodes node) :
    ∃ state, region.foldlM (resolveMember ops create)
        { heap := start, subNodes := fun _ => none } = some state ∧
      MembersMade start
        (fun op => memberObject (heap.nodes (source op))) region state := by
  apply Loop.foldlM_invariant _
    (MembersMade start fun op => memberObject (heap.nodes (source op)))
  · intro done op rest state split made
    have member : op ∈ region := by
      simp [split]
    have fresh : op ∉ done := by
      have nodup := regular.nodup
      rw [split, List.nodup_append] at nodup
      intro earlier
      exact nodup.2.2 op earlier op (by simp) rfl
    have sourceOld := regular.old op member
    have sourceEq : state.heap.nodes (source op) = heap.nodes (source op) :=
      (made.old_eq _ (Nat.lt_of_lt_of_le sourceOld grown)).trans
        (same _ sourceOld)
    have created : subNode create state.heap (ops op) = _ :=
      subNode_eq (regular.sourced op member)
        (sourceEq.symm ▸ regular.encoded op member)
    rw [sourceEq] at created
    let object := memberObject (heap.nodes (source op))
    refine
      ⟨{ heap := appendNode state.heap object
         subNodes :=
          Function.update state.subNodes op (some state.heap.nodeCount) },
        ?_, ?_⟩
    · simp only [resolveMember, created]
      exact
        congrArg
          (fun heap => some (SubState.mk heap
            (Function.update state.subNodes op
              (some state.heap.nodeCount))))
          (clearLists_appendNode object)
    · exact {
        nodeCount_eq := by
          simp [appendNode, made.nodeCount_eq, Nat.add_assoc]
        graphs_eq := made.graphs_eq
        graphCount_eq := made.graphCount_eq
        old_eq := by
          intro node bound
          have notNew : node ≠ state.heap.nodeCount := by
            rw [made.nodeCount_eq]
            exact Nat.ne_of_lt (Nat.lt_add_right _ bound)
          rw [appendNode_nodes, if_neg notNew, made.old_eq node bound]
        member_eq := by
          intro position other known
          simp only [appendNode_nodes, made.nodeCount_eq,
            Function.update_apply]
          by_cases earlier : position < done.length
          · rw [List.getElem?_append_left earlier] at known
            have notOp : other ≠ op := by
              rintro rfl
              exact fresh (List.mem_of_getElem? known)
            have apart : start.nodeCount + position ≠
                start.nodeCount + done.length := by
              omega
            rw [if_neg apart, if_neg notOp]
            exact made.member_eq position other known
          · have last : position = done.length := by
              have bound := (List.getElem?_eq_some_iff.mp known).1
              rw [List.length_append, List.length_singleton] at bound
              omega
            subst last
            rw [List.getElem?_concat_length, Option.some.injEq] at known
            subst known
            exact ⟨if_pos rfl, if_pos rfl⟩ }
  · exact {
      nodeCount_eq := rfl
      graphs_eq := rfl
      graphCount_eq := rfl
      old_eq := fun _ _ => rfl
      member_eq := fun position op known => by simp at known }

end Loops

/-! ## Sources and sinks -/

/-- No member of the region uses the token of the op. -/
def Unused (operands : OpId → List OpId) (region : List OpId)
    (op : OpId) : Prop :=
  ∀ other ∈ region, op ∉ operands other

instance (operands : OpId → List OpId) (region : List OpId) (op : OpId) :
    Decidable (Unused operands region op) :=
  inferInstanceAs (Decidable (∀ other ∈ region, op ∉ operands other))

/-- The edges that connect one member to the ends. -/
def endEdgesOf (operands : OpId → List OpId) (place : OpId → NodeId)
    (region : List OpId) (entry exit : NodeId) (op : OpId) :
    List (NodeId × NodeId) :=
  (if operands op = [] then [(entry, place op)] else []) ++
    if Unused operands region op then [(place op, exit)] else []

/-- The edges between the ends and the members of a region. -/
def endEdges (operands : OpId → List OpId) (place : OpId → NodeId)
    (region : List OpId) (entry exit : NodeId) : List (NodeId × NodeId) :=
  region.flatMap (endEdgesOf operands place region entry exit)

section Ends

variable {operands : OpId → List OpId} {place : OpId → NodeId}
  {region : List OpId} {entry exit : NodeId}

theorem mem_endEdges {edge : NodeId × NodeId} :
    edge ∈ endEdges operands place region entry exit ↔
      (∃ op ∈ region, operands op = [] ∧ edge = (entry, place op)) ∨
        ∃ op ∈ region, Unused operands region op ∧
          edge = (place op, exit) := by
  simp only [endEdges, List.mem_flatMap, endEdgesOf, List.mem_append]
  constructor
  · rintro ⟨op, member, first | last⟩
    · split at first
      · rename_i source
        exact Or.inl ⟨op, member, source, by simpa using first⟩
      · exact (List.not_mem_nil first).elim
    · split at last
      · rename_i sink
        exact Or.inr ⟨op, member, sink, by simpa using last⟩
      · exact (List.not_mem_nil last).elim
  · rintro (⟨op, member, source, rfl⟩ | ⟨op, member, sink, rfl⟩)
    · exact ⟨op, member, Or.inl (by simp [source])⟩
    · exact ⟨op, member, Or.inr (by simp [sink])⟩

theorem connectMember_eq {subNodes : OpId → Option NodeId} {heap : Heap}
    {op : OpId} (known : subNodes op = some (place op))
    (notEntry : place op ≠ entry)
    (isSource : heap.predecessors (place op) = [] ↔ operands op = [])
    (isSink : heap.successors (place op) = [] ↔
      Unused operands region op) :
    connectMember entry exit subNodes heap op =
      some
        (heap.precedesAll
          (endEdgesOf operands place region entry exit op)) := by
  by_cases source : operands op = [] <;>
    by_cases sink : Unused operands region op <;>
    simp [connectMember, known, endEdgesOf, Heap.precedesAll, isSource,
      isSink, source, sink, notEntry]

/-- Connecting the members adds the edges of all sources and sinks. -/
theorem connectMembers_eq {subNodes : OpId → Option NodeId} {heap : Heap}
    (nodup : region.Nodup)
    (known : ∀ op ∈ region, subNodes op = some (place op))
    (distinct : ∀ op ∈ region, ∀ other ∈ region,
      place op = place other → op = other)
    (notEntry : ∀ op ∈ region, place op ≠ entry)
    (notExit : ∀ op ∈ region, place op ≠ exit)
    (isSource : ∀ op ∈ region,
      heap.predecessors (place op) = [] ↔ operands op = [])
    (isSink : ∀ op ∈ region,
      heap.successors (place op) = [] ↔ Unused operands region op) :
    region.foldlM (connectMember entry exit subNodes) heap =
      some (heap.precedesAll (endEdges operands place region entry exit)) := by
  obtain ⟨final, ran, done⟩ :=
    Loop.foldlM_invariant (connectMember entry exit subNodes)
      (fun done state => state =
        heap.precedesAll
          (done.flatMap (endEdgesOf operands place region entry exit)))
      region heap
      (by
        intro done op rest state split stateEq
        have member : op ∈ region := by
          simp [split]
        have fresh : op ∉ done := by
          rw [split, List.nodup_append] at nodup
          intro earlier
          exact nodup.2.2 op earlier op (by simp) rfl
        have edgesDone : ∀ edge ∈
            done.flatMap (endEdgesOf operands place region entry exit),
            edge.2 ≠ place op ∧ edge.1 ≠ place op := by
          intro edge isEdge
          obtain ⟨other, otherDone, isEnd⟩ := List.mem_flatMap.mp isEdge
          have otherMember : other ∈ region := by
            simp [split, otherDone]
          have apart : place other ≠ place op := by
            intro equal
            exact
              fresh (distinct other otherMember op member equal ▸ otherDone)
          rcases List.mem_append.mp isEnd with first | last
          · split at first
            · rw [List.mem_singleton] at first
              subst first
              exact ⟨apart, (notEntry op member).symm⟩
            · exact (List.not_mem_nil first).elim
          · split at last
            · rw [List.mem_singleton] at last
              subst last
              exact ⟨(notExit op member).symm, apart⟩
            · exact (List.not_mem_nil last).elim
        have predecessorsEq : state.predecessors (place op) =
            heap.predecessors (place op) := by
          rw [stateEq, Heap.precedesAll_predecessors,
            List.filter_eq_nil_iff.mpr, List.map_nil, List.append_nil]
          intro edge isEdge
          simpa using (edgesDone edge isEdge).1
        have successorsEq : state.successors (place op) =
            heap.successors (place op) := by
          rw [stateEq, Heap.precedesAll_successors,
            List.filter_eq_nil_iff.mpr, List.map_nil, List.append_nil]
          intro edge isEdge
          simpa using (edgesDone edge isEdge).2
        refine
          ⟨state.precedesAll
            (endEdgesOf operands place region entry exit op), ?_, ?_⟩
        · apply connectMember_eq (known op member) (notEntry op member)
          · rw [predecessorsEq, isSource op member]
          · rw [successorsEq, isSink op member]
        · rw [stateEq, List.flatMap_append, Heap.precedesAll_append]
          simp)
      (by rfl)
  rw [ran, done]
  rfl

theorem tokens_nodup (nodup : region.Nodup)
    (distinct : ∀ op ∈ region, ∀ other ∈ region,
      place op = place other → op = other)
    (closed : ∀ op ∈ region, ∀ pred ∈ operands op, pred ∈ region)
    (operandsNodup : ∀ op ∈ region, (operands op).Nodup) :
    (tokens operands place region).Nodup := by
  rw [tokens, List.nodup_flatMap]
  constructor
  · intro op member
    apply (operandsNodup op member).map_on
    intro pred isPred other isOther same
    exact
      distinct pred (closed op member pred isPred) other
        (closed op member other isOther) (congrArg Prod.fst same)
  · apply nodup.imp_of_mem
    intro op other member otherMember apart edge inFirst inSecond
    obtain ⟨pred, -, rfl⟩ := List.mem_map.mp inFirst
    obtain ⟨pred', -, same⟩ := List.mem_map.mp inSecond
    exact
      apart
        (distinct op member other otherMember
          (congrArg Prod.snd same).symm)

theorem endEdges_nodup (nodup : region.Nodup)
    (distinct : ∀ op ∈ region, ∀ other ∈ region,
      place op = place other → op = other)
    (notEntry : ∀ op ∈ region, place op ≠ entry)
    (notExit : ∀ op ∈ region, place op ≠ exit) :
    (endEdges operands place region entry exit).Nodup := by
  rw [endEdges, List.nodup_flatMap]
  constructor
  · intro op member
    unfold endEdgesOf
    split <;> split <;> simp [Ne.symm (notEntry op member)]
  · apply nodup.imp_of_mem
    intro op other member otherMember apart edge inFirst inSecond
    have differ : place op ≠ place other := by
      intro equal
      exact apart (distinct op member other otherMember equal)
    have ofFirst : edge = (entry, place op) ∨ edge = (place op, exit) := by
      unfold endEdgesOf at inFirst
      split at inFirst <;> split at inFirst <;> simp at inFirst <;> tauto
    have ofSecond :
        edge = (entry, place other) ∨ edge = (place other, exit) := by
      unfold endEdgesOf at inSecond
      split at inSecond <;> split at inSecond <;> simp at inSecond <;> tauto
    rcases ofFirst with rfl | rfl
    · rcases ofSecond with same | same
      · exact differ (congrArg Prod.snd same)
      · exact notExit op member (congrArg Prod.snd same)
    · rcases ofSecond with same | same
      · exact notEntry op member (congrArg Prod.fst same)
      · exact differ (congrArg Prod.fst same)

end Ends

/-! ## The whole sub-graph -/

section Whole

variable {ops : OpId → Op} {source : OpId → NodeId} {heap : Heap}
  {region : List OpId} {create : Heap → Op → Option (NodeId × Heap)}

theorem memberAt_injective {base : Nat} {op other : OpId}
    (member : op ∈ region)
    (equal : memberAt base region op = memberAt base region other) :
    op = other := by
  rw [memberAt, memberAt, Nat.add_left_cancel_iff] at equal
  exact (List.idxOf_inj member).mp equal

theorem memberAt_lt {base : Nat} {op : OpId} (member : op ∈ region) :
    memberAt base region op < base + region.length :=
  Nat.add_lt_add_left (List.idxOf_lt_length_of_mem member) base

theorem memberAt_ge {base : Nat} {op : OpId} :
    base ≤ memberAt base region op :=
  Nat.le_add_right _ _

/-- The nodes of the sub-graph whose nodes are numbered from `base`. -/
def SubLive (base : Nat) (region : List OpId) (node : NodeId) : Prop :=
  node = base ∨ node = base + 1 ∨
    ∃ op ∈ region, memberAt (base + 2) region op = node

theorem subLive_ge {base : Nat} {node : NodeId}
    (alive : SubLive base region node) : base ≤ node := by
  rcases alive with rfl | rfl | ⟨op, -, rfl⟩
  · exact Nat.le_refl _
  · exact Nat.le_succ _
  · exact Nat.le_trans (Nat.le_add_right _ 2) memberAt_ge

/-- The edges of the sub-graph. -/
def subEdges (operands : OpId → List OpId) (base : Nat)
    (region : List OpId) : List (NodeId × NodeId) :=
  tokens operands (memberAt (base + 2) region) region ++
    endEdges operands (memberAt (base + 2) region) region base (base + 1)

/--
A graph whose nodes are numbered from `base` and which holds the members of a
region, with the batch node after them.
-/
structure Holds (operands : OpId → List OpId)
    (objects : OpId → CommandGraphNode) (region : List OpId)
    (duid : DeviceUniqueId) (base : Nat) (sub : GraphId) (after : Heap) :
    Prop where
  graph_eq : after.graphs sub =
    { entry := base
      exit := base + 1
      walkId := 0
      isSequence := false }
  entry_eq : (after.nodes base).unlinked =
    CommandGraphNode.new unspecifiedDeviceUniqueId .empty
  exit_eq : (after.nodes (base + 1)).unlinked =
    CommandGraphNode.new unspecifiedDeviceUniqueId .empty
  member_eq : ∀ op ∈ region,
    (after.nodes (memberAt (base + 2) region op)).unlinked =
      memberObject (objects op)
  batch_eq : (after.nodes (base + 2 + region.length)).unlinked =
    { CommandGraphNode.new duid .command with
      command := some (.batch sub) }
  represents : after.Represents (SubLive base region)
    (fun upper lower => (upper, lower) ∈ subEdges operands base region)

/-- What `build_batch_node` adds to the heap. -/
structure Built (ops : OpId → Op) (source : OpId → NodeId) (heap : Heap)
    (duid : DeviceUniqueId) (region : List OpId) (node : NodeId)
    (after : Heap) : Prop where
  node_eq : node = heap.nodeCount + 2 + region.length
  nodeCount_eq : after.nodeCount = heap.nodeCount + 2 + region.length + 1
  graphCount_eq : after.graphCount = heap.graphCount + 1
  other_graphs : ∀ other, other ≠ heap.graphCount →
    after.graphs other = heap.graphs other
  old_eq : ∀ other < heap.nodeCount, after.nodes other = heap.nodes other
  holds : Holds (fun op => (ops op).operands)
    (fun op => heap.nodes (source op)) region duid heap.nodeCount
    heap.graphCount after

theorem subLive_lt {base : Nat} {node : NodeId}
    (alive : SubLive base region node) : node < base + 2 + region.length := by
  rcases alive with rfl | rfl | ⟨op, member, rfl⟩
  · exact Nat.lt_add_right _ (Nat.lt_add_of_pos_right Nat.two_pos)
  · exact Nat.lt_add_right _ (Nat.lt_succ_self (base + 1))
  · exact memberAt_lt member

/-- Changes elsewhere do not matter. -/
theorem Holds.congr {operands : OpId → List OpId}
    {objects objects' : OpId → CommandGraphNode} {duid : DeviceUniqueId}
    {base : Nat} {sub : GraphId} {after after' : Heap}
    (holds : Holds operands objects region duid base sub after)
    (members : ∀ op ∈ region, objects' op = objects op)
    (graph : after'.graphs sub = after.graphs sub)
    (nodes : ∀ node, SubLive base region node →
      after'.nodes node = after.nodes node)
    (batch : (after'.nodes (base + 2 + region.length)).unlinked =
      (after.nodes (base + 2 + region.length)).unlinked) :
    Holds operands objects' region duid base sub after' where
  graph_eq := graph.trans holds.graph_eq
  entry_eq := by
    rw [nodes _ (Or.inl rfl)]
    exact holds.entry_eq
  exit_eq := by
    rw [nodes _ (Or.inr (Or.inl rfl))]
    exact holds.exit_eq
  member_eq := by
    intro op member
    rw [nodes _ (Or.inr (Or.inr ⟨op, member, rfl⟩)), members op member]
    exact holds.member_eq op member
  batch_eq := batch.trans holds.batch_eq
  represents := by
    apply holds.represents.congr_lists
    · intro node alive
      rw [Heap.successors, nodes node alive, Heap.successors]
    · intro node alive
      rw [Heap.predecessors, nodes node alive, Heap.predecessors]

/-- The heap with the unlinked ends of the sub-graph. -/
def subStart (heap : Heap) : Heap :=
  ((heap.commandGraphNew none).2.setSuccessors heap.nodeCount
    []).setPredecessors (heap.nodeCount + 1) []

theorem subStart_nodes (heap : Heap) (node : NodeId) :
    (subStart heap).nodes node =
      if node = heap.nodeCount ∨ node = heap.nodeCount + 1 then
        CommandGraphNode.new unspecifiedDeviceUniqueId .empty
      else heap.nodes node := by
  have apart : heap.nodeCount ≠ heap.nodeCount + 1 :=
    (Nat.succ_ne_self _).symm
  by_cases isEntry : node = heap.nodeCount
  · subst isEntry
    simp [subStart, Heap.setSuccessors, Heap.setPredecessors,
      Heap.commandGraphNew_none_nodes, CommandGraphNode.new]
  · by_cases isExit : node = heap.nodeCount + 1
    · subst isExit
      simp [subStart, Heap.setSuccessors, Heap.setPredecessors,
        Heap.commandGraphNew_none_nodes, CommandGraphNode.new]
    · simp [subStart, Heap.setSuccessors, Heap.setPredecessors,
        Heap.commandGraphNew_none_nodes, isEntry, isExit]

theorem subStart_old {node : NodeId} (old : node < heap.nodeCount) :
    (subStart heap).nodes node = heap.nodes node := by
  rw [subStart_nodes, if_neg]
  rintro (rfl | rfl)
  · exact Nat.lt_irrefl _ old
  · exact Nat.not_lt.mpr (Nat.le_succ _) old

/-- The sub-nodes are new, so their lists are empty before edges are added. -/
theorem sub_cleared {state : SubState}
    (made : MembersMade (subStart heap)
      (fun op => memberObject (heap.nodes (source op))) region state)
    {node : NodeId} (alive : SubLive heap.nodeCount region node) :
    state.heap.successors node = [] ∧ state.heap.predecessors node = [] := by
  have count : (subStart heap).nodeCount = heap.nodeCount + 2 := rfl
  rcases alive with rfl | rfl | ⟨op, member, rfl⟩
  · have same := made.old_eq heap.nodeCount (by rw [count]; omega)
    rw [subStart_nodes, if_pos (Or.inl rfl)] at same
    simp [Heap.successors, Heap.predecessors, same, CommandGraphNode.new]
  · have same := made.old_eq (heap.nodeCount + 1) (by rw [count]; omega)
    rw [subStart_nodes, if_pos (Or.inr rfl)] at same
    simp [Heap.successors, Heap.predecessors, same, CommandGraphNode.new]
  · have same :=
      (made.member_eq (region.idxOf op) op
        (List.getElem?_idxOf member)).1
    rw [count] at same
    simp [Heap.successors, Heap.predecessors, memberAt, same, memberObject,
      CommandGraphNode.new]

/-- `build_batch_node` on a region of imported ops. -/
theorem buildBatchNode_spec (regular : Region ops source heap region)
    (duid : DeviceUniqueId) :
    ∃ node after, buildBatchNode ops create heap duid region =
        some (node, after) ∧
      Built ops source heap duid region node after := by
  let place := memberAt (heap.nodeCount + 2) region
  let operands := fun op => (ops op).operands
  obtain ⟨state, ran, made⟩ :
      ∃ state, region.foldlM (resolveMember ops create)
          { heap := subStart heap, subNodes := fun _ => none } = some state ∧
        MembersMade (subStart heap) _ region state :=
    resolveMembers_spec regular (Nat.le_add_right _ 2)
      (fun node old => subStart_old old)
  have known : ∀ op ∈ region, state.subNodes op = some (place op) := by
    intro op member
    exact
      (made.member_eq (region.idxOf op) op (List.getElem?_idxOf member)).2
  have distinct : ∀ op ∈ region, ∀ other ∈ region,
      place op = place other → op = other :=
    fun op member other _ equal => memberAt_injective member equal
  have notEntry : ∀ op ∈ region, place op ≠ heap.nodeCount := by
    intro op _ equal
    have ge : heap.nodeCount + 2 ≤ place op := memberAt_ge
    rw [equal] at ge
    exact Nat.not_le.mpr (Nat.lt_add_of_pos_right Nat.two_pos) ge
  have notExit : ∀ op ∈ region, place op ≠ heap.nodeCount + 1 := by
    intro op _ equal
    have ge : heap.nodeCount + 2 ≤ place op := memberAt_ge
    rw [equal] at ge
    exact Nat.not_le.mpr (Nat.lt_succ_self _) ge
  have tokensNodup : (tokens operands place region).Nodup :=
    tokens_nodup regular.nodup distinct regular.closed
      regular.operands_nodup
  have tokensLive : ∀ edge ∈ tokens operands place region,
      (∃ op ∈ region, place op = edge.1) ∧
        ∃ op ∈ region, place op = edge.2 := by
    intro edge isEdge
    obtain ⟨op, member, pred, isPred, rfl⟩ := mem_tokens.mp isEdge
    exact
      ⟨⟨pred, regular.closed op member pred isPred, rfl⟩,
        ⟨op, member, rfl⟩⟩
  have relinks : region.foldlM (relinkOp ops state.subNodes) state.heap =
      some (state.heap.precedesAll (tokens operands place region)) :=
    relink_eq region known
      (fun op member pred isPred =>
        known pred (regular.closed op member pred isPred)) state.heap
  have linked :=
    Heap.precedesAll_represents tokensNodup
      (fun edge isEdge =>
        ⟨Or.inr (Or.inr (tokensLive edge isEdge).1),
          Or.inr (Or.inr (tokensLive edge isEdge).2)⟩)
      (fun node (alive : SubLive heap.nodeCount region node) =>
        sub_cleared made alive)
  have connects :
      region.foldlM
          (connectMember heap.nodeCount (heap.nodeCount + 1) state.subNodes)
          (state.heap.precedesAll (tokens operands place region)) =
        some
          ((state.heap.precedesAll (tokens operands place region)).precedesAll
            (endEdges operands place region heap.nodeCount
              (heap.nodeCount + 1))) :=
    connectMembers_eq regular.nodup known distinct notEntry notExit
      (by
        intro op member
        have alive : SubLive heap.nodeCount region (place op) :=
          Or.inr (Or.inr ⟨op, member, rfl⟩)
        rw [Heap.precedesAll_predecessors, (sub_cleared made alive).2,
          List.nil_append, tokens_into regular.nodup distinct member,
          List.map_eq_nil_iff])
      (by
        intro op member
        have alive : SubLive heap.nodeCount region (place op) :=
          Or.inr (Or.inr ⟨op, member, rfl⟩)
        rw [linked.successors_nil_iff alive]
        constructor
        · intro none other otherMember isOperand
          exact
            none (place other)
              (mem_tokens.mpr ⟨other, otherMember, op, isOperand, rfl⟩)
        · intro unused next isEdge
          obtain ⟨other, otherMember, pred, isPred, same⟩ :=
            mem_tokens.mp isEdge
          have equal :=
            distinct pred (regular.closed other otherMember pred isPred) op
              member (congrArg Prod.fst same)
          exact unused other otherMember (equal ▸ isPred))
  rw [← Heap.precedesAll_append] at connects
  let connected := state.heap.precedesAll
    (subEdges operands heap.nodeCount region)
  have same : connected.unlinked = state.heap.unlinked :=
    Heap.precedesAll_unlinked _
  have countEq : connected.nodeCount =
      heap.nodeCount + 2 + region.length :=
    (Heap.unlinked_nodeCount same).trans made.nodeCount_eq
  have graphsEq : connected.graphs = (heap.commandGraphNew none).2.graphs :=
    (Heap.unlinked_graphs same).trans made.graphs_eq
  have edgesLive : ∀ edge ∈ subEdges operands heap.nodeCount region,
      SubLive heap.nodeCount region edge.1 ∧
        SubLive heap.nodeCount region edge.2 := by
    intro edge isEdge
    rcases List.mem_append.mp isEdge with isToken | isEnd
    · exact
        ⟨Or.inr (Or.inr (tokensLive edge isToken).1),
          Or.inr (Or.inr (tokensLive edge isToken).2)⟩
    · rcases mem_endEdges.mp isEnd with
        ⟨op, member, -, rfl⟩ | ⟨op, member, -, rfl⟩
      · exact ⟨Or.inl rfl, Or.inr (Or.inr ⟨op, member, rfl⟩)⟩
      · exact ⟨Or.inr (Or.inr ⟨op, member, rfl⟩), Or.inr (Or.inl rfl)⟩
  have liveLt : ∀ node, SubLive heap.nodeCount region node →
      node < connected.nodeCount := by
    intro node alive
    rw [countEq]
    exact subLive_lt alive
  have edgesNodup : (subEdges operands heap.nodeCount region).Nodup := by
    refine List.nodup_append.mpr
      ⟨tokensNodup,
        endEdges_nodup regular.nodup distinct notEntry notExit, ?_⟩
    rintro edge isToken _ isEnd rfl
    obtain ⟨⟨upper, upperMember, upperEq⟩, lower, lowerMember, lowerEq⟩ :=
      tokensLive edge isToken
    rcases mem_endEdges.mp isEnd with
      ⟨op, member, -, rfl⟩ | ⟨op, member, -, rfl⟩
    · exact notEntry upper upperMember upperEq
    · exact notExit lower lowerMember lowerEq
  have represents :=
    Heap.precedesAll_represents edgesNodup edgesLive
      (fun node alive => sub_cleared made alive)
  refine
    ⟨connected.nodeCount,
      appendNode connected
        { CommandGraphNode.new duid .command with
          command := some (.batch heap.graphCount) }, ?_, ?_⟩
  · have entryEq : ((heap.commandGraphNew none).2.graphs
        (heap.commandGraphNew none).1).entry = heap.nodeCount := by
      simp [Heap.commandGraphNew_none_graphs]
    have exitEq : ((heap.commandGraphNew none).2.graphs
        (heap.commandGraphNew none).1).exit = heap.nodeCount + 1 := by
      simp [Heap.commandGraphNew_none_graphs]
    unfold buildBatchNode
    simp only [entryEq, exitEq]
    refine (congrArg (Option.bind · _) ran).trans ?_
    refine (congrArg (Option.bind · _) relinks).trans ?_
    refine (congrArg (Option.bind · _) connects).trans ?_
    exact congrArg some (newCommandNode_eq duid (.batch heap.graphCount))
  · have nodeEq : ∀ node, node < connected.nodeCount →
        (appendNode connected
          { CommandGraphNode.new duid .command with
            command := some (.batch heap.graphCount) }).nodes node =
          connected.nodes node := by
      intro node bound
      rw [appendNode_nodes, if_neg (Nat.ne_of_lt bound)]
    exact {
      node_eq := countEq
      nodeCount_eq := by
        simp [appendNode, countEq]
      graphCount_eq :=
        ((Heap.unlinked_graphCount same).trans made.graphCount_eq :)
      other_graphs := by
        intro other different
        simp only [appendNode, graphsEq]
        rw [Heap.commandGraphNew_none_graphs, if_neg different]
      old_eq := by
        intro node old
        have small : node < connected.nodeCount := by
          rw [countEq]
          exact Nat.lt_add_right _ (Nat.lt_add_right _ old)
        rw [nodeEq node small]
        refine (Heap.precedesAll_nodes ?_).trans ?_
        · have apart : ∀ other, SubLive heap.nodeCount region other →
              other ≠ node := by
            rintro _ alive rfl
            exact Nat.not_lt.mpr (subLive_ge alive) old
          exact fun edge isEdge =>
            ⟨apart _ (edgesLive edge isEdge).1,
              apart _ (edgesLive edge isEdge).2⟩
        · rw [made.old_eq node (Nat.lt_add_right 2 old), subStart_old old]
      holds := {
        graph_eq := by
          simp only [appendNode, graphsEq]
          rw [Heap.commandGraphNew_none_graphs, if_pos rfl]
        entry_eq := by
          rw [nodeEq _ (liveLt _ (Or.inl rfl)), Heap.unlinked_nodes same,
            made.old_eq heap.nodeCount
              (Nat.lt_add_of_pos_right Nat.two_pos),
            subStart_nodes, if_pos (Or.inl rfl)]
          rfl
        exit_eq := by
          rw [nodeEq _ (liveLt _ (Or.inr (Or.inl rfl))),
            Heap.unlinked_nodes same,
            made.old_eq (heap.nodeCount + 1) (Nat.lt_succ_self _),
            subStart_nodes, if_pos (Or.inr rfl)]
          rfl
        member_eq := by
          intro op member
          rw [nodeEq _ (liveLt _ (Or.inr (Or.inr ⟨op, member, rfl⟩))),
            Heap.unlinked_nodes same]
          exact
            congrArg CommandGraphNode.unlinked
              (made.member_eq (region.idxOf op) op
                (List.getElem?_idxOf member)).1
        batch_eq := by
          rw [← countEq, appendNode_nodes, if_pos rfl]
          rfl
        represents := by
          apply represents.congr_lists
          · intro node alive
            rw [Heap.successors, nodeEq node (liveLt node alive)]
            rfl
          · intro node alive
            rw [Heap.predecessors, nodeEq node (liveLt node alive)]
            rfl } }

end Whole

/-! ## Paths of the sub-graph -/

section Paths

variable {operands : OpId → List OpId} {objects : OpId → CommandGraphNode}
  {region : List OpId} {duid : DeviceUniqueId} {base : Nat} {sub : GraphId}
  {after : Heap} {op : OpId}

/-- A token between members. -/
def RegionEdge (operands : OpId → List OpId) (region : List OpId)
    (pred op : OpId) : Prop :=
  op ∈ region ∧ pred ∈ operands op

/-- The links of the sub-graph whose nodes are numbered from `base`. -/
def SubEdge (operands : OpId → List OpId) (base : Nat)
    (region : List OpId) (source target : NodeId) : Prop :=
  (source, target) ∈ subEdges operands base region

theorem subEdge_iff {source target : NodeId} :
    SubEdge operands base region source target ↔
      (∃ op ∈ region, ∃ pred ∈ operands op,
        memberAt (base + 2) region pred = source ∧
          memberAt (base + 2) region op = target) ∨
      (∃ op ∈ region, operands op = [] ∧ source = base ∧
        target = memberAt (base + 2) region op) ∨
      ∃ op ∈ region, Unused operands region op ∧
        source = memberAt (base + 2) region op ∧ target = base + 1 := by
  rw [SubEdge, subEdges, List.mem_append, mem_tokens, mem_endEdges]
  simp only [Prod.mk.injEq]

variable (closed : ∀ op ∈ region, ∀ pred ∈ operands op, pred ∈ region)
  (acyclic : Digraph.Acyclic (RegionEdge operands region))

include closed acyclic

/-- Every member lies between the ends of the sub-graph. -/
theorem member_between (base : NodeId) (member : op ∈ region) :
    ReflTransGen (SubEdge operands base region) base
        (memberAt (base + 2) region op) ∧
      ReflTransGen (SubEdge operands base region)
        (memberAt (base + 2) region op) (base + 1) := by
  let place := memberAt (base + 2) region
  have lift : ∀ {upper lower}, ReflTransGen (RegionEdge operands region)
      upper lower → ReflTransGen (SubEdge operands base region)
        (place upper) (place lower) := by
    intro upper lower path
    refine ReflTransGen.lift place ?_ _ _ path
    intro pred op edge
    exact
      subEdge_iff.mpr (Or.inl ⟨op, edge.1, pred, edge.2, rfl, rfl⟩)
  constructor
  · obtain ⟨source, initial, path⟩ :=
      acyclic.exists_source region.toFinset
        (fun pred op edge =>
          List.mem_toFinset.mpr (closed op edge.1 pred edge.2)) op
    have sourceMember : source ∈ region := by
      rcases ReflTransGen.cases_head path with rfl | ⟨next, edge, -⟩
      · exact member
      · exact closed next edge.1 source edge.2
    have noOperands : operands source = [] := by
      apply List.eq_nil_iff_forall_not_mem.mpr
      intro pred isPred
      exact initial pred ⟨sourceMember, isPred⟩
    exact
      ReflTransGen.head
        (subEdge_iff.mpr
          (Or.inr (Or.inl ⟨source, sourceMember, noOperands, rfl, rfl⟩)))
        (lift path)
  · obtain ⟨sink, final, path⟩ :=
      acyclic.exists_sink region.toFinset
        (fun pred op edge => List.mem_toFinset.mpr edge.1) op
    have sinkMember : sink ∈ region := by
      rcases ReflTransGen.cases_tail path with rfl | ⟨_, _, last⟩
      · exact member
      · exact last.1
    have unused : Unused operands region sink :=
      fun other otherMember isOperand =>
        final other ⟨otherMember, isOperand⟩
    exact
      (lift path).tail
        (subEdge_iff.mpr
          (Or.inr (Or.inr ⟨sink, sinkMember, unused, rfl, rfl⟩)))

variable (holds : Holds operands objects region duid base sub after)
  (nonempty : region ≠ [])

include holds nonempty

omit closed acyclic nonempty in
theorem Holds.live_entry :
    SubLive base region (after.graphs sub).entry := by
  rw [holds.graph_eq]
  exact Or.inl rfl

theorem Holds.spans (node : NodeId) (alive : SubLive base region node) :
    ReflTransGen (SubEdge operands base region) (after.graphs sub).entry
      node := by
  rw [holds.graph_eq]
  rcases alive with rfl | rfl | ⟨op, member, rfl⟩
  · exact ReflTransGen.refl
  · obtain ⟨op, member⟩ := List.exists_mem_of_ne_nil _ nonempty
    obtain ⟨above, below⟩ :=
      member_between closed acyclic base member
    exact above.trans below
  · exact (member_between closed acyclic base member).1

/-- The sub-graph consists of its ends and its members. -/
theorem Holds.reachable_iff (node : NodeId) :
    after.Reachable sub node ↔ SubLive base region node :=
  holds.represents.live_iff holds.live_entry
    (holds.spans closed acyclic nonempty) node

theorem Holds.link_iff (source target : NodeId) :
    after.Link sub source target ↔
      SubEdge operands base region source target :=
  holds.represents.edge_iff holds.live_entry
    (holds.spans closed acyclic nonempty) source target

end Paths

end Cgir.Mlir
