import Cgir.Mlir.Import
import Cgir.Mlir.Relink
import Cgir.Model.Numbered

/-!
# The bridge round-trips

Import followed directly by export leaves a well-formed graph of control and
command nodes as it is: nodes, payloads, predecessor lists and ends exactly,
successor lists up to order.
-/

namespace Cgir.Mlir

open Relation
open Cgir.Library
open Cgir.Model

/-- `import_command_graph` followed by `export_command_graph`. -/
def importThenExport (heap : Heap) (graph : GraphId) : Option Heap := do
  let (heap, cg) ← importCommandGraph heap graph
  exportCommandGraph cg heap graph

/-- A graph of control and command nodes between two control nodes. -/
structure Plain (heap : Heap) (graph : GraphId) : Prop where
  importable : ∀ node, heap.Reachable graph node →
    Importable (heap.nodes node)
  entry_empty : (heap.nodes (heap.graphs graph).entry).type = .empty
  exit_empty : (heap.nodes (heap.graphs graph).exit).type = .empty

theorem Plain.of_numbered {heap : Heap} {graph : GraphId}
    (numbered : heap.Numbered graph)
    (importable : ∀ node : Nat, node < heap.nodeCount →
      Importable (heap.nodes node))
    (entry_empty : (heap.nodes (heap.graphs graph).entry).type = .empty)
    (exit_empty : (heap.nodes (heap.graphs graph).exit).type = .empty) :
    Plain heap graph where
  importable := fun node reachable =>
    importable node (numbered.lt_of_reachable reachable)
  entry_empty := entry_empty
  exit_empty := exit_empty

/-! ## One node -/

/-- Writing the op of a command back gives the command. -/
theorem commandOpKind_written {op : Op} {node : CommandGraphNode}
    {command : Command} (kind : op.kind = commandOpKind command)
    (duid : op.duid = duidAttr node.deviceUniqueId)
    (held : node.command = some command) :
    op.updateNode node = some node := by
  obtain ⟨device, predecessors, successors, index, walkId, type, held'⟩ := node
  cases held
  cases command <;>
    simp [Op.updateNode, Op.getDuid, kind, duid, commandOpKind]

/-- Writing the op of a node back into the node changes nothing. -/
theorem updateNode_created {op : Op} {node : CommandGraphNode}
    {isEntry isExit : Bool} {operands : List OpId}
    {srcNode : Option NodeId}
    (created : createNodeOp node isEntry isExit =
      some { op with operands := operands, srcNode := srcNode }) :
    op.updateNode node = some node := by
  unfold createNodeOp at created
  cases type : node.type with
  | empty =>
      rw [type] at created
      simp only [Option.some.injEq, Op.mk.injEq] at created
      obtain ⟨duid, kind, -⟩ := created
      simp [Op.updateNode, Op.getDuid, ← kind, ← duid]
  | command =>
      rw [type] at created
      obtain ⟨command, held, same⟩ := Option.map_eq_some_iff.mp created
      rw [Op.mk.injEq] at same
      exact commandOpKind_written same.2.1.symm same.1.symm held
  | commandGraph =>
      rw [type] at created
      cases created
  | condition =>
      rw [type] at created
      cases created

/-- The op of a control node carries the flags; no other op does. -/
theorem flags_created {op : Op} {node : CommandGraphNode}
    {isEntry isExit : Bool} {operands : List OpId}
    {srcNode : Option NodeId}
    (created : createNodeOp node isEntry isExit =
      some { op with operands := operands, srcNode := srcNode }) :
    (op.isEntry = true ↔ node.type = .empty ∧ isEntry = true) ∧
      (op.isExit = true ↔ node.type = .empty ∧ isExit = true) := by
  unfold createNodeOp at created
  cases type : node.type with
  | empty =>
      rw [type] at created
      simp only [Option.some.injEq, Op.mk.injEq] at created
      simp [Op.isEntry, Op.isExit, ← created.2.1]
  | command =>
      rw [type] at created
      obtain ⟨command, -, same⟩ := Option.map_eq_some_iff.mp created
      rw [Op.mk.injEq] at same
      cases command <;>
        simp [Op.isEntry, Op.isExit, ← same.2.1, commandOpKind]
  | commandGraph =>
      rw [type] at created
      cases created
  | condition =>
      rw [type] at created
      cases created

/-! ## The imported graph -/

/--
A block whose ops are the nodes of a graph under valid node iterators: the op
at an index belongs to the node at that index.
-/
structure Mirrors (heap : Heap) (iterators : Iterators) (cg : Graph) :
    Prop where
  valid : iterators.Valid
  same : iterators.heap.unmarked = heap.unmarked
  body_eq : cg.body = List.range iterators.count
  sourced : ∀ op ∈ cg.body, (cg.ops op).srcNode = some (iterators.node op)
  written : ∀ op ∈ cg.body,
    (cg.ops op).updateNode (iterators.heap.nodes (iterators.node op)) =
      some (iterators.heap.nodes (iterators.node op))
  operands_eq : ∀ op ∈ cg.body, cg.operands op =
    (heap.predecessors (iterators.node op)).map iterators.index
  isEntry_iff : ∀ op ∈ cg.body, (cg.ops op).isEntry = true ↔
    iterators.node op = (heap.graphs iterators.graph).entry
  isExit_iff : ∀ op ∈ cg.body, (cg.ops op).isExit = true ↔
    iterators.node op = (heap.graphs iterators.graph).exit

/-- Import makes a block that mirrors the graph. -/
theorem Imported.mirrors {heap indexed : Heap} {graph : GraphId}
    {nodes : List NodeId} {cg : Graph} (plain : Plain heap graph)
    (iterated : heap.Iterated graph true indexed nodes)
    (imported : Imported
      { heap := indexed, graph := graph, nodes := nodes } cg) :
    Mirrors heap { heap := indexed, graph := graph, nodes := nodes } cg where
  valid := Iterators.valid_of_iterated iterated
  same := iterated.unmarked_eq
  body_eq := imported.body_eq
  sourced := by
    intro op member
    rw [imported.body_eq, List.mem_range] at member
    exact (imported.encodes op member).srcNode_eq
  written := by
    intro op member
    rw [imported.body_eq, List.mem_range] at member
    exact updateNode_created (imported.encodes op member).created
  operands_eq := by
    intro op member
    rw [imported.body_eq, List.mem_range] at member
    rw [Graph.operands, (imported.encodes op member).operands_eq,
      Heap.unmarked_predecessors iterated.unmarked_eq]
  isEntry_iff := by
    intro op member
    rw [imported.body_eq, List.mem_range] at member
    have graphsEq := Heap.unmarked_graphs iterated.unmarked_eq graph
    rw [(flags_created (imported.encodes op member).created).1,
      decide_eq_true_eq, graphsEq.1, and_iff_right_of_imp]
    intro isEntry
    rw [Heap.unmarked_type iterated.unmarked_eq, isEntry]
    exact plain.entry_empty
  isExit_iff := by
    intro op member
    rw [imported.body_eq, List.mem_range] at member
    have graphsEq := Heap.unmarked_graphs iterated.unmarked_eq graph
    rw [(flags_created (imported.encodes op member).created).2,
      decide_eq_true_eq, graphsEq.2.1, and_iff_right_of_imp]
    intro isExit
    rw [Heap.unmarked_type iterated.unmarked_eq, isExit]
    exact plain.exit_empty

namespace Mirrors

variable {heap : Heap} {iterators : Iterators} {cg : Graph}

section Places

variable (mirrors : Mirrors heap iterators cg)

include mirrors

theorem mem_body (op : OpId) : op ∈ cg.body ↔ op < iterators.count := by
  rw [mirrors.body_eq, List.mem_range]

theorem body_nodup : cg.body.Nodup := by
  rw [mirrors.body_eq]
  exact List.nodup_range

theorem places : cg.body.map iterators.node = iterators.nodes := by
  rw [mirrors.body_eq]
  apply List.ext_getElem
  · simp [Iterators.count]
  · intro i _ bound
    simp [Iterators.node, bound]

theorem places_nodup : (cg.body.map iterators.node).Nodup :=
  mirrors.places ▸ mirrors.valid.nodup

theorem injective {op other : OpId} (member : op ∈ cg.body)
    (otherMember : other ∈ cg.body)
    (equal : iterators.node op = iterators.node other) : op = other :=
  List.inj_on_of_nodup_map mirrors.places_nodup member otherMember equal

theorem mem_nodes (node : NodeId) :
    node ∈ iterators.nodes ↔ heap.Reachable iterators.graph node := by
  rw [mirrors.valid.mem_iff, Heap.reachable_congr mirrors.same]

theorem reachable {op : OpId} (member : op ∈ cg.body) :
    heap.Reachable iterators.graph (iterators.node op) :=
  (mirrors.mem_nodes _).mp
    (Iterators.node_mem ((mirrors.mem_body op).mp member))

theorem index_mem {node : NodeId}
    (reachable : heap.Reachable iterators.graph node) :
    iterators.index node ∈ cg.body :=
  (mirrors.mem_body _).mpr
    (mirrors.valid.index_lt ((mirrors.mem_nodes node).mpr reachable))

theorem node_index {node : NodeId}
    (reachable : heap.Reachable iterators.graph node) :
    iterators.node (iterators.index node) = node :=
  mirrors.valid.node_index ((mirrors.mem_nodes node).mpr reachable)

theorem index_node {op : OpId} (member : op ∈ cg.body) :
    iterators.index (iterators.node op) = op :=
  mirrors.valid.index_node ((mirrors.mem_body op).mp member)

theorem placed_iff (node : NodeId) :
    Placed cg iterators.node node ↔
      heap.Reachable iterators.graph node := by
  constructor
  · rintro ⟨op, member, rfl⟩
    exact mirrors.reachable member
  · intro reachable
    exact
      ⟨iterators.index node, mirrors.index_mem reachable,
        mirrors.node_index reachable⟩

theorem isEntry_op {op : OpId} (member : op ∈ cg.body) :
    (cg.ops op).isEntry = true ↔
      op = iterators.index (heap.graphs iterators.graph).entry := by
  rw [mirrors.isEntry_iff op member]
  constructor
  · intro isEntry
    rw [← isEntry, mirrors.index_node member]
  · intro isEntry
    rw [isEntry, mirrors.node_index Heap.reachable_entry]

end Places

section Tokens

variable (formed : heap.WellFormed iterators.graph)
  (mirrors : Mirrors heap iterators cg)

include formed mirrors

/-- The operands of an op are the ops of the predecessors of its node. -/
theorem mem_operands {op pred : OpId} (member : op ∈ cg.body) :
    pred ∈ cg.operands op ↔ pred ∈ cg.body ∧
      heap.Link iterators.graph (iterators.node pred)
        (iterators.node op) := by
  have memPredecessors :=
    formed.mem_predecessors _ (mirrors.reachable member)
  rw [mirrors.operands_eq op member, List.mem_map]
  constructor
  · rintro ⟨node, isPred, rfl⟩
    have link := (memPredecessors node).mp isPred
    rw [mirrors.node_index link.1]
    exact ⟨mirrors.index_mem link.1, link⟩
  · rintro ⟨predMember, link⟩
    exact
      ⟨iterators.node pred, (memPredecessors _).mpr link,
        mirrors.index_node predMember⟩

theorem closed : ∀ op ∈ cg.body, ∀ pred ∈ cg.operands op,
    pred ∈ cg.body := by
  intro op member pred isOperand
  exact ((mirrors.mem_operands formed member).mp isOperand).1

/-- The nodes of the operands are the predecessors of the node, in order. -/
theorem operands_places {op : OpId} (member : op ∈ cg.body) :
    (cg.operands op).map iterators.node =
      heap.predecessors (iterators.node op) := by
  rw [mirrors.operands_eq op member, List.map_map]
  refine (List.map_congr_left ?_).trans (List.map_id _)
  intro pred isPred
  exact
    mirrors.node_index
      ((formed.mem_predecessors _ (mirrors.reachable member) pred).mp
        isPred).1

/-- No op uses its own token. -/
theorem not_mem_operands {op : OpId} (member : op ∈ cg.body) :
    op ∉ cg.operands op := by
  intro isOperand
  exact
    formed.acyclic _
      (TransGen.single ((mirrors.mem_operands formed member).mp isOperand).2)

theorem operands_nodup {op : OpId} (member : op ∈ cg.body) :
    (cg.operands op).Nodup := by
  apply List.Nodup.of_map iterators.node
  rw [mirrors.operands_places formed member]
  exact formed.predecessors_nodup _ (mirrors.reachable member)

theorem tokenEdge_iff (source target : NodeId) :
    TokenEdge cg iterators.node source target ↔
      heap.Link iterators.graph source target := by
  constructor
  · rintro ⟨op, member, pred, isOperand, rfl, rfl⟩
    exact ((mirrors.mem_operands formed member).mp isOperand).2
  · intro link
    refine
      ⟨iterators.index target, mirrors.index_mem link.reachable,
        iterators.index source, ?_, mirrors.node_index link.1,
        mirrors.node_index link.reachable⟩
    rw [mirrors.mem_operands formed (mirrors.index_mem link.reachable),
      mirrors.node_index link.1, mirrors.node_index link.reachable]
    exact ⟨mirrors.index_mem link.1, link⟩

/-- The op of the entry has no operands. -/
theorem operands_entry :
    cg.operands
      (iterators.index (heap.graphs iterators.graph).entry) = [] := by
  rw [mirrors.operands_eq _ (mirrors.index_mem Heap.reachable_entry),
    mirrors.node_index Heap.reachable_entry, formed.predecessors_entry]
  rfl

/-- No op uses the token of the exit. -/
theorem exit_unused {op : OpId} (member : op ∈ cg.body) :
    iterators.index (heap.graphs iterators.graph).exit ∉
      cg.operands op := by
  intro isOperand
  have link := ((mirrors.mem_operands formed member).mp isOperand).2
  rw [mirrors.node_index formed.reachable_exit] at link
  have edge := link.2
  rw [formed.successors_exit] at edge
  exact List.not_mem_nil edge

theorem isExit_op {op : OpId} (member : op ∈ cg.body) :
    (cg.ops op).isExit = true ↔
      op = iterators.index (heap.graphs iterators.graph).exit := by
  rw [mirrors.isExit_iff op member]
  constructor
  · intro isExit
    rw [← isExit, mirrors.index_node member]
  · intro isExit
    rw [isExit, mirrors.node_index formed.reachable_exit]

end Tokens

end Mirrors

/-! ## The round trip -/

/--
Import and export of a well-formed graph of control and command nodes keep its
nodes, the type, device and command of each, every predecessor list, every
successor list up to order, and the ends.
-/
theorem importThenExport_unchanged {heap : Heap} {graph : GraphId}
    (formed : heap.WellFormed graph) (ready : heap.WalkReady graph)
    (plain : Plain heap graph) :
    ∃ after, importThenExport heap graph = some after ∧
      (∀ node, after.Reachable graph node ↔ heap.Reachable graph node) ∧
      (∀ node, (after.nodes node).type = (heap.nodes node).type ∧
        (after.nodes node).deviceUniqueId =
            (heap.nodes node).deviceUniqueId ∧
          (after.nodes node).command = (heap.nodes node).command) ∧
      (∀ node, heap.Reachable graph node →
        after.predecessors node = heap.predecessors node ∧
          (after.successors node).Perm (heap.successors node)) ∧
      (after.graphs graph).entry = (heap.graphs graph).entry ∧
        (after.graphs graph).exit = (heap.graphs graph).exit := by
  obtain ⟨indexed, nodes, cg, imports, iterated, imported⟩ :=
    importCommandGraph_spec formed ready plain.importable
  have mirrors := imported.mirrors plain iterated
  let iterators : Iterators :=
    { heap := indexed, graph := graph, nodes := nodes }
  let place := iterators.node
  obtain ⟨state, after, exports, rewritten, linked⟩ :
      ∃ state after, exportCommandGraph cg indexed graph = some after ∧ _ :=
    exportSourced_spec _ _ _ mirrors.sourced mirrors.places_nodup
      (fun op member => ⟨_, mirrors.written op member⟩)
      (mirrors.index_mem Heap.reachable_entry)
      (mirrors.index_mem formed.reachable_exit)
      (fun op member => mirrors.isEntry_op member)
      (fun op member => mirrors.isExit_op formed member)
      (mirrors.closed formed) (mirrors.operands_entry formed)
      (fun op member => mirrors.exit_unused formed member)
  have nodeEq : ∀ node,
      (after.nodes node).unlinked = (indexed.nodes node).unlinked := by
    intro node
    rw [linked.unlinked_nodes]
    by_cases placed : node ∈ cg.body.map place
    · obtain ⟨op, member, rfl⟩ := List.mem_map.mp placed
      obtain ⟨object, written, stored⟩ := rewritten.node_eq op member
      rw [mirrors.written op member, Option.some.injEq] at written
      rw [stored, ← written]
      rfl
    · rw [rewritten.other_nodes node placed]
  have entryEq : (after.graphs graph).entry = (heap.graphs graph).entry := by
    rw [linked.graph_eq]
    exact mirrors.node_index Heap.reachable_entry
  have exitEq : (after.graphs graph).exit = (heap.graphs graph).exit := by
    rw [linked.graph_eq]
    exact mirrors.node_index formed.reachable_exit
  have represents : after.Represents (heap.Reachable graph)
      (heap.Link graph) := by
    have represents :=
      linked.represents
        (fun op member other => mirrors.injective member)
        (mirrors.closed formed)
        (fun op member => mirrors.operands_nodup formed member)
    have live : Placed cg place = heap.Reachable graph :=
      funext fun node => propext (mirrors.placed_iff node)
    exact
      (live ▸ represents).congr_edge fun source target =>
        (mirrors.tokenEdge_iff formed source target).symm
  refine
    ⟨after, ?_, ?_, ?_, ?_, entryEq, exitEq⟩
  · simp only [importThenExport, imports]
    exact exports
  · intro node
    rw [represents.reachable_iff (entryEq.symm ▸ Heap.reachable_entry),
      entryEq, Heap.reachable_iff_links]
  · intro node
    have same := nodeEq node
    exact
      ⟨(congrArg CommandGraphNode.type same :).trans
          (Heap.unmarked_type iterated.unmarked_eq node),
        (congrArg CommandGraphNode.deviceUniqueId same :).trans
          (Heap.unmarked_deviceUniqueId iterated.unmarked_eq node),
        (congrArg CommandGraphNode.command same :).trans
          (Heap.unmarked_command iterated.unmarked_eq node)⟩
  · intro node reachable
    constructor
    · have predecessorsEq :=
        linked.predecessors_eq _ (mirrors.index_mem reachable)
      rw [mirrors.operands_places formed (mirrors.index_mem reachable),
        mirrors.node_index reachable] at predecessorsEq
      exact predecessorsEq
    · rw [List.perm_ext_iff_of_nodup
        (represents.successors_nodup node reachable)
        (formed.successors_nodup node reachable)]
      intro next
      rw [represents.mem_successors node reachable,
        formed.represents.mem_successors node reachable]

/-- Two copies side by side, one at the far end of the address space. -/
def copies : Heap :=
  Heap.ofNodes
    [Heap.linkedNode unspecifiedDeviceUniqueId .empty [] [1, 2],
      { Heap.linkedNode 254 .command [0] [3] with
        command := some (.copy1D .d2d {
          srcDeviceUniqueId := 254
          dstDeviceUniqueId := 1
          srcDeviceAddr := 0xffffffffffffff00
          dstDeviceAddr := 4096
          size := 256 }) },
      { Heap.linkedNode 1 .command [0] [3] with
        command := some (.copy2D .h2d {
          srcDeviceUniqueId := 0
          dstDeviceUniqueId := 1
          srcAddr := 0x8000000000000000
          srcLd := 64
          dstAddr := 8192
          dstLd := 32
          m := 16
          n := 4
          sizeofType := 8 }) },
      Heap.linkedNode unspecifiedDeviceUniqueId .empty [1, 2] []]
    { entry := 0, exit := 3, walkId := 0, isSequence := false }

theorem copies_numbered : copies.Numbered 0 := by
  decide

theorem copies_plain : Plain copies 0 :=
  Plain.of_numbered copies_numbered (by decide) rfl rfl

theorem importThenExport_unchanged_copies :
    ∃ after, importThenExport copies 0 = some after ∧
      (after.nodes 1).command = (copies.nodes 1).command ∧
        after.predecessors 3 = [1, 2] := by
  obtain ⟨after, ran, -, objects, lists, -⟩ :=
    importThenExport_unchanged copies_numbered.wellFormed
      (copies_numbered.walkReady (by decide)) copies_plain
  exact
    ⟨after, ran, (objects 1).2.2,
      (lists 3 (copies_numbered.reachable 3 (by decide))).1⟩

end Cgir.Mlir
