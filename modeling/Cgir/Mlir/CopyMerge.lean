import Cgir.Mlir.Agreement
import Cgir.Mlir.CopyClasses
import Cgir.Pass.CopyFuse

/-!
# The copy-fuse pass on a graph

Import, the copy-fuse pass of the dialect and export leave the survivors of the
copies, linked as they were, and write into each of them a copy of the bytes of its
class (`CopiesMerged`).
-/

namespace Cgir.Mlir

open Relation
open Cgir.Library
open Cgir.Model
open Cgir.Pass.CopyFuse (CopyTransfers)

/-! ## Copies of nodes -/

/-- The 1-D copy of a command node. -/
def copyOf (node : CommandGraphNode) : Option (CopyDirection × CommandCopy1D) :=
  match node.type, node.command with
  | .command, some (.copy1D direction copy) => some (direction, copy)
  | _, _ => none

theorem copyOf_eq_some {node : CommandGraphNode} {direction : CopyDirection}
    {copy : CommandCopy1D} :
    copyOf node = some (direction, copy) ↔
      node.type = .command ∧ node.command = some (.copy1D direction copy) := by
  unfold copyOf
  split
  · rename_i type held
    simp [type, held]
  · rename_i other
    refine iff_of_false nofun ?_
    rintro ⟨type, held⟩
    exact other direction copy type held

theorem Op.copy1D?_eq_some {op : Op} {attrs : Copy1DAttrs} :
    op.copy1D? = some attrs ↔ op.kind = .copy1D attrs := by
  unfold Op.copy1D?
  split
  · rename_i kind
    simp [kind]
  · rename_i other
    exact iff_of_false nofun (other attrs)

/-- The copies of a block are those of the nodes. -/
theorem Imported.copy1D?_eq {iterators : Iterators} {cg : Graph}
    (imported : Imported iterators cg) {op : OpId} (member : op ∈ cg.body) :
    (cg.ops op).copy1D? =
      (copyOf (iterators.heap.nodes (iterators.node op))).map fun copy =>
        Copy1DAttrs.ofCopy copy.1 copy.2 := by
  rcases imported.kind_cases member with
    ⟨type, kind⟩ | ⟨type, command, held, kind⟩
  · simp [Op.copy1D?, copyOf, kind, type]
  · cases command <;> simp [Op.copy1D?, copyOf, kind, type, held, commandOpKind]

/-- The arguments that export writes. -/
def Copy1DAttrs.narrowed (attrs : Copy1DAttrs) : CommandCopy1D where
  srcDeviceUniqueId := narrowDuid attrs.srcDuid
  dstDeviceUniqueId := narrowDuid attrs.dstDuid
  srcDeviceAddr := attrs.srcAddr
  dstDeviceAddr := attrs.dstAddr
  size := attrs.size

/-- A transfer with the devices as they are stored in the attributes. -/
def widen (transfer : Pass.CopyFuse.Transfer) : Transfer :=
  (duidAttr transfer.1, transfer.2.1, duidAttr transfer.2.2.1, transfer.2.2.2)

theorem duidAttr_injective : Function.Injective duidAttr :=
  Function.LeftInverse.injective narrowDuid_attr

/-- Attributes that store devices move the bytes of the copy that is written. -/
theorem Copy1DAttrs.moves_widen {attrs : Copy1DAttrs}
    {src dst : DeviceUniqueId} (srcDuid : attrs.srcDuid = duidAttr src)
    (dstDuid : attrs.dstDuid = duidAttr dst)
    (transfer : Pass.CopyFuse.Transfer) :
    attrs.Moves (widen transfer) ↔ CopyTransfers attrs.narrowed transfer := by
  obtain ⟨srcDevice, srcByte, dstDevice, dstByte⟩ := transfer
  simp only [Moves, CopyTransfers, widen, narrowed, srcDuid, dstDuid,
    narrowDuid_attr, Prod.mk.injEq, duidAttr_injective.eq_iff]

theorem Copy1DAttrs.moves_ofCopy (direction : CopyDirection)
    (copy : CommandCopy1D) (transfer : Pass.CopyFuse.Transfer) :
    (ofCopy direction copy).Moves (widen transfer) ↔
      CopyTransfers copy transfer := by
  have narrowed : (ofCopy direction copy).narrowed = copy := by
    simp [Copy1DAttrs.narrowed, ofCopy]
  rw [moves_widen rfl rfl, narrowed]

/-! ## The result -/

/-- False twins whose copies have the same devices and the same bias. -/
structure KinNodes (heap : Heap) (graph : GraphId) (m n : NodeId) : Prop where
  copies : ∃ direction copy direction' copy',
    copyOf (heap.nodes m) = some (direction, copy) ∧
      copyOf (heap.nodes n) = some (direction', copy') ∧
        (Copy1DAttrs.ofCopy direction copy).Parallel
          (Copy1DAttrs.ofCopy direction' copy')
  predecessors : ∀ pred, heap.Link graph pred m ↔ heap.Link graph pred n
  successors : ∀ succ, heap.Link graph m succ ↔ heap.Link graph n succ

/-- The graph that is left when the copies of each class are merged. -/
structure CopiesMerged (heap : Heap) (graph : GraphId)
    (place : NodeId → NodeId) (after : Heap) : Prop where
  represents : after.Represents
    (fun n => heap.Reachable graph n ∧ place n = n)
    (fun source target => heap.Link graph source target ∧
      place source = source ∧ place target = target)
  entry_eq : (after.graphs graph).entry = (heap.graphs graph).entry
  exit_eq : (after.graphs graph).exit = (heap.graphs graph).exit
  nodeCount_eq : after.nodeCount = heap.nodeCount
  graphCount_eq : after.graphCount = heap.graphCount
  placed : ∀ n, heap.Reachable graph n →
    heap.Reachable graph (place n) ∧ place (place n) = place n
  kin : ∀ n, heap.Reachable graph n → place n ≠ n →
    KinNodes heap graph n (place n)
  object_eq : ∀ n, heap.Reachable graph n → place n = n →
    (after.nodes n).type = (heap.nodes n).type ∧
      (after.nodes n).deviceUniqueId = (heap.nodes n).deviceUniqueId
  other_eq : ∀ n, heap.Reachable graph n → place n = n →
    copyOf (heap.nodes n) = none →
      (after.nodes n).command = (heap.nodes n).command
  copy_eq : ∀ n, heap.Reachable graph n → place n = n → ∀ direction copy,
    copyOf (heap.nodes n) = some (direction, copy) → ∃ copy',
      (after.nodes n).command = some (.copy1D direction copy') ∧
        copy'.srcDeviceAddr.toNat + copy'.size.toNat < 2 ^ 64 ∧
          ∀ transfer, CopyTransfers copy' transfer ↔
            ∃ m, heap.Reachable graph m ∧ place m = n ∧
              ∃ direction absorbed,
                copyOf (heap.nodes m) = some (direction, absorbed) ∧
                  CopyTransfers absorbed transfer

namespace CopiesMerged

variable {heap after : Heap} {graph : GraphId} {place : NodeId → NodeId}
  (merged : CopiesMerged heap graph place after)

include merged

theorem twins {n : NodeId} (reachable : heap.Reachable graph n) :
    (∀ pred, heap.Link graph pred n ↔ heap.Link graph pred (place n)) ∧
      ∀ succ, heap.Link graph n succ ↔ heap.Link graph (place n) succ := by
  by_cases same : place n = n
  · rw [same]
    exact ⟨fun _ => Iff.rfl, fun _ => Iff.rfl⟩
  · have kin := merged.kin n reachable same
    exact ⟨kin.predecessors, kin.successors⟩

/-- A control node stays. -/
theorem place_control {n : NodeId} (reachable : heap.Reachable graph n)
    (control : (heap.nodes n).type = .empty) : place n = n := by
  by_contra moved
  obtain ⟨direction, copy, -, -, held, -⟩ :=
    (merged.kin n reachable moved).copies
  rw [(copyOf_eq_some.mp held).1] at control
  cases control

/-- The survivors are linked as the copies they stand for. -/
theorem link_place {source target : NodeId}
    (link : heap.Link graph source target) :
    heap.Link graph (place source) (place target) ∧
      place (place source) = place source ∧
        place (place target) = place target := by
  have next := ((merged.twins link.1).2 target).mp link
  exact
    ⟨((merged.twins link.reachable).1 (place source)).mp next,
      (merged.placed source link.1).2, (merged.placed target link.reachable).2⟩

theorem reflTransGen_place {source target : NodeId}
    (path : ReflTransGen (heap.Link graph) source target) :
    ReflTransGen
      (fun source target => heap.Link graph source target ∧
        place source = source ∧ place target = target)
      (place source) (place target) := by
  refine ReflTransGen.lift place ?_ source target path
  exact fun _ _ link => merged.link_place link

section Ends

variable (entryEmpty : (heap.nodes (heap.graphs graph).entry).type = .empty)

include entryEmpty

theorem spans :
    (heap.Reachable graph (after.graphs graph).entry ∧
        place (after.graphs graph).entry = (after.graphs graph).entry) ∧
      ∀ n, heap.Reachable graph n ∧ place n = n →
        ReflTransGen
          (fun source target => heap.Link graph source target ∧
            place source = source ∧ place target = target)
          (after.graphs graph).entry n := by
  have stays : place (heap.graphs graph).entry = (heap.graphs graph).entry :=
    merged.place_control Heap.reachable_entry entryEmpty
  rw [merged.entry_eq]
  refine ⟨⟨Heap.reachable_entry, stays⟩, ?_⟩
  rintro n ⟨reachable, same⟩
  have path :=
    merged.reflTransGen_place (Heap.reachable_entry.links reachable)
  rwa [stays, same] at path

theorem reachable_iff (n : NodeId) :
    after.Reachable graph n ↔ heap.Reachable graph n ∧ place n = n :=
  merged.represents.live_iff (merged.spans entryEmpty).1
    (merged.spans entryEmpty).2 n

theorem link_iff (source target : NodeId) :
    after.Link graph source target ↔ heap.Link graph source target ∧
      place source = source ∧ place target = target :=
  merged.represents.edge_iff (merged.spans entryEmpty).1
    (merged.spans entryEmpty).2 source target

/-- Paths lead to paths between the survivors. -/
theorem transGen_place {source target : NodeId}
    (path : TransGen (heap.Link graph) source target) :
    TransGen (after.Link graph) (place source) (place target) := by
  refine TransGen.lift place ?_ source target path
  intro upper lower link
  exact (merged.link_iff entryEmpty _ _).mpr (merged.link_place link)

theorem wellFormed (formed : heap.WellFormed graph)
    (exitEmpty : (heap.nodes (heap.graphs graph).exit).type = .empty) :
    after.WellFormed graph := by
  have stays : place (heap.graphs graph).exit = (heap.graphs graph).exit :=
    merged.place_control formed.reachable_exit exitEmpty
  apply Heap.WellFormed.of_represents merged.represents
  · exact merged.graphCount_eq.symm ▸ formed.graph_lt
  · intro n live
    exact merged.nodeCount_eq.symm ▸ formed.allocated n live.1
  · exact (merged.spans entryEmpty).1
  · exact (merged.spans entryEmpty).2
  · rintro n ⟨reachable, same⟩
    have path :=
      merged.reflTransGen_place
        (reachable.links (formed.reaches_exit n reachable))
    rw [stays, same] at path
    rwa [merged.exit_eq]
  · exact formed.acyclic.mono fun _ _ link => link.1

end Ends

end CopiesMerged

/-! ## Export -/

section Export

variable {heap : Heap} {iterators : Iterators} {cg after : Graph}
  {place : OpId → OpId} (merged : Merged cg place after)
  (mirrors : Mirrors heap iterators cg) (imported : Imported iterators cg)

include merged

/-- A fusion makes no end of a graph. -/
theorem Merged.flags_eq {op : OpId} (member : op ∈ after.body) :
    (after.ops op).isEntry = (cg.ops op).isEntry ∧
      (after.ops op).isExit = (cg.ops op).isExit := by
  cases isCopy : (cg.ops op).copy1D? with
  | none =>
      rw [Op.isEntry, Op.isEntry, Op.isExit, Op.isExit,
        merged.other_eq op member isCopy]
      exact ⟨rfl, rfl⟩
  | some copy =>
      obtain ⟨copy', isCopy', -⟩ := merged.copy_eq op member copy isCopy
      rw [Op.copy1D?_eq_some] at isCopy isCopy'
      rw [Op.isEntry, Op.isEntry, Op.isExit, Op.isExit, isCopy, isCopy']
      exact ⟨rfl, rfl⟩

/-- The node of the survivor. -/
def placeNode (iterators : Iterators) (place : OpId → OpId) (n : NodeId) :
    NodeId :=
  iterators.node (place (iterators.index n))

include mirrors

theorem Merged.placeNode_eq_iff {op : OpId} (member : op ∈ cg.body) :
    placeNode iterators place (iterators.node op) = iterators.node op ↔
      place op = op := by
  rw [placeNode, mirrors.index_node member]
  constructor
  · intro same
    have inBody := ((merged.mem_body _).mp (merged.placed op member)).1
    exact mirrors.injective inBody member same
  · intro same
    rw [same]

include imported

theorem Merged.kinNodes (formed : heap.WellFormed iterators.graph)
    {n : NodeId} (reachable : heap.Reachable iterators.graph n)
    (moved : placeNode iterators place n ≠ n) :
    KinNodes heap iterators.graph n (placeNode iterators place n) := by
  have member := mirrors.index_mem reachable
  have nodeEq := mirrors.node_index reachable
  have inBody :=
    ((merged.mem_body _).mp (merged.placed _ member)).1
  have apart : place (iterators.index n) ≠ iterators.index n := by
    intro same
    rw [placeNode, same] at moved
    exact moved nodeEq
  obtain ⟨copy, copy', isCopy, isCopy', parallel, twins⟩ :=
    merged.kin _ member apart
  obtain ⟨operands, users⟩ := Graph.falseTwins_iff.mp twins
  have copyOfEq : ∀ m, copyOf (iterators.heap.nodes m) =
      copyOf (heap.nodes m) := by
    intro m
    rw [copyOf, copyOf, Heap.unmarked_type mirrors.same,
      Heap.unmarked_command mirrors.same]
  rw [imported.copy1D?_eq member, Option.map_eq_some_iff, copyOfEq, nodeEq]
    at isCopy
  rw [imported.copy1D?_eq inBody, Option.map_eq_some_iff, copyOfEq]
    at isCopy'
  obtain ⟨⟨direction, original⟩, held, rfl⟩ := isCopy
  obtain ⟨⟨direction', original'⟩, held', rfl⟩ := isCopy'
  refine
    ⟨⟨direction, original, direction', original', held, held', parallel⟩,
      fun pred => ?_, fun succ => ?_⟩
  · have memOperands := operands (iterators.index pred)
    rw [mirrors.mem_operands formed member,
      mirrors.mem_operands formed inBody, nodeEq] at memOperands
    constructor
    · intro link
      rw [mirrors.node_index link.1] at memOperands
      exact (memOperands.mp ⟨mirrors.index_mem link.1, link⟩).2
    · intro link
      rw [mirrors.node_index link.1] at memOperands
      exact (memOperands.mpr ⟨mirrors.index_mem link.1, link⟩).2
  · have memUsers := users (iterators.index succ)
    constructor
    · intro link
      have below := mirrors.index_mem link.reachable
      have memUsers := memUsers below
      rw [mirrors.mem_operands formed below, mirrors.mem_operands formed below,
        mirrors.node_index link.reachable, nodeEq] at memUsers
      exact (memUsers.mp ⟨member, link⟩).2
    · intro link
      have below := mirrors.index_mem link.reachable
      have memUsers := memUsers below
      rw [mirrors.mem_operands formed below, mirrors.mem_operands formed below,
        mirrors.node_index link.reachable, nodeEq] at memUsers
      exact (memUsers.mpr ⟨inBody, link⟩).2

/-- What export writes into the node of a survivor. -/
theorem Merged.written {op : OpId} (member : op ∈ after.body) :
    ∃ object, (after.ops op).updateNode
        (iterators.heap.nodes (iterators.node op)) = some object ∧
      object.type = (heap.nodes (iterators.node op)).type ∧
        object.deviceUniqueId =
            (heap.nodes (iterators.node op)).deviceUniqueId ∧
          (copyOf (heap.nodes (iterators.node op)) = none →
            object.command = (heap.nodes (iterators.node op)).command) ∧
            ∀ direction copy,
              copyOf (heap.nodes (iterators.node op)) =
                  some (direction, copy) →
                ∃ copy', (after.ops op).copy1D? = some copy' ∧
                  object.command = some (.copy1D direction copy'.narrowed) := by
  have inBody := ((merged.mem_body op).mp member).1
  have before := mirrors.written op inBody
  have duid := (merged.header op member).2
  have isCopyIff := imported.copy1D?_eq inBody
  have typeEq := Heap.unmarked_type mirrors.same (iterators.node op)
  have deviceEq :=
    Heap.unmarked_deviceUniqueId mirrors.same (iterators.node op)
  have commandEq := Heap.unmarked_command mirrors.same (iterators.node op)
  have copyOfEq : copyOf (iterators.heap.nodes (iterators.node op)) =
      copyOf (heap.nodes (iterators.node op)) := by
    rw [copyOf, copyOf, typeEq, commandEq]
  rw [copyOfEq] at isCopyIff
  cases held : copyOf (heap.nodes (iterators.node op)) with
  | none =>
      rw [held, Option.map_none] at isCopyIff
      have same : (after.ops op).updateNode
          (iterators.heap.nodes (iterators.node op)) =
            (cg.ops op).updateNode
              (iterators.heap.nodes (iterators.node op)) := by
        simp only [Op.updateNode, Op.getDuid, duid,
          merged.other_eq op member isCopyIff]
      refine
        ⟨_, same.trans before, typeEq, deviceEq, fun _ => commandEq, ?_⟩
      intro direction copy absent
      cases absent
  | some copy =>
      obtain ⟨direction, copy⟩ := copy
      rw [held, Option.map_some] at isCopyIff
      obtain ⟨copy', isCopy', kindEq, -⟩ :=
        merged.copy_eq op member _ isCopyIff
      have kind := Op.copy1D?_eq_some.mp isCopy'
      obtain ⟨type, command⟩ := copyOf_eq_some.mp (copyOfEq.trans held)
      have device : (cg.ops op).getDuid =
          (iterators.heap.nodes (iterators.node op)).deviceUniqueId := by
        have same := congrArg (Option.map CommandGraphNode.deviceUniqueId) before
        rw [Op.updateNode, Op.copy1D?_eq_some.mp isCopyIff, command] at same
        simpa using same
      have narrow : copy'.command =
          some (.copy1D direction copy'.narrowed) := by
        simp [Copy1DAttrs.command, kindEq, Copy1DAttrs.ofCopy,
          Copy1DAttrs.narrowed]
      refine
        ⟨{ iterators.heap.nodes (iterators.node op) with
            deviceUniqueId := (after.ops op).getDuid
            command := some (.copy1D direction copy'.narrowed) }, ?_, typeEq,
          ?_, ?_, ?_⟩
      · simp only [Op.updateNode, kind, command, narrow, Option.map_some]
      · show (after.ops op).getDuid = _
        rw [Op.getDuid, duid]
        exact device.trans deviceEq
      · intro absent
        cases absent
      · intro direction' copy'' same
        cases same
        exact ⟨copy', isCopy', rfl⟩

/-- Export of the merged block merges the copies of the graph. -/
theorem Merged.export_spec (formed : heap.WellFormed iterators.graph)
    (plain : Plain heap iterators.graph) :
    ∃ result,
      exportCommandGraph after iterators.heap iterators.graph = some result ∧
        CopiesMerged heap iterators.graph (placeNode iterators place)
          result := by
  have old : ∀ {op}, op ∈ after.body → op ∈ cg.body := fun member =>
    merged.sublist.subset member
  have nodeStays : ∀ {op}, op ∈ after.body →
      placeNode iterators place (iterators.node op) = iterators.node op := by
    intro op member
    rw [merged.placeNode_eq_iff mirrors (old member)]
    exact ((merged.mem_body op).mp member).2
  have opStays : ∀ {n}, heap.Reachable iterators.graph n →
      placeNode iterators place n = n → iterators.index n ∈ after.body := by
    intro n reachable same
    have member := mirrors.index_mem reachable
    rw [merged.mem_body]
    refine ⟨member, (merged.placeNode_eq_iff mirrors member).mp ?_⟩
    rwa [mirrors.node_index reachable]
  have endStays : ∀ {n}, heap.Reachable iterators.graph n →
      (heap.nodes n).type = .empty → iterators.index n ∈ after.body := by
    intro n reachable isEmpty
    apply opStays reachable
    by_contra moved
    obtain ⟨direction, copy, -, -, held, -⟩ :=
      (merged.kinNodes mirrors imported formed reachable moved).copies
    rw [(copyOf_eq_some.mp held).1] at isEmpty
    cases isEmpty
  have entryMember := endStays Heap.reachable_entry plain.entry_empty
  have exitMember := endStays formed.reachable_exit plain.exit_empty
  have memOperands : ∀ {op}, op ∈ after.body → ∀ pred,
      pred ∈ after.operands op ↔
        pred ∈ after.body ∧ heap.Link iterators.graph (iterators.node pred)
          (iterators.node op) := by
    intro op member pred
    rw [merged.operands_eq op member, List.mem_filter, decide_eq_true_eq,
      mirrors.mem_operands formed (old member), merged.mem_body]
    tauto
  have distinct : (after.body.map iterators.node).Nodup :=
    mirrors.places_nodup.sublist (merged.sublist.map _)
  have injective := List.inj_on_of_nodup_map distinct
  have closed : ∀ op ∈ after.body, ∀ pred ∈ after.operands op,
      pred ∈ after.body := fun op member pred uses =>
    ((memOperands member pred).mp uses).1
  obtain ⟨state, result, exports, rewritten, linked⟩ :=
    exportSourced_spec iterators.heap iterators.graph iterators.node
      (fun op member =>
        (merged.header op member).1.trans (mirrors.sourced op (old member)))
      distinct
      (fun op member =>
        (merged.written mirrors imported member).imp fun _ wrote => wrote.1)
      entryMember exitMember
      (fun op member => by
        rw [(merged.flags_eq member).1]
        exact mirrors.isEntry_op (old member))
      (fun op member => by
        rw [(merged.flags_eq member).2]
        exact mirrors.isExit_op formed (old member))
      closed
      (by
        rw [merged.operands_eq _ entryMember, mirrors.operands_entry formed]
        rfl)
      (by
        intro op member uses
        rw [merged.operands_eq op member] at uses
        exact
          mirrors.exit_unused formed (old member) (List.mem_of_mem_filter uses))
  have objects : ∀ {n}, heap.Reachable iterators.graph n →
      placeNode iterators place n = n → ∃ object,
        (after.ops (iterators.index n)).updateNode (iterators.heap.nodes n) =
            some object ∧
          (result.nodes n).unlinked = object.unlinked := by
    intro n reachable same
    obtain ⟨object, wrote, stored⟩ :=
      rewritten.node_eq _ (opStays reachable same)
    rw [mirrors.node_index reachable] at wrote stored
    refine ⟨object, wrote, ?_⟩
    rw [linked.unlinked_nodes, stored]
    rfl
  refine ⟨result, exports, ?_⟩
  exact {
    represents := by
      have represents := linked.represents
        (fun op member other otherMember => injective member otherMember)
        closed
        (fun op member => by
          rw [merged.operands_eq op member]
          exact (mirrors.operands_nodup formed (old member)).filter _)
      refine (represents.congr_edge fun source target => ?_).congr_live
        fun n => ?_
      · constructor
        · rintro ⟨link, sourceStays, targetStays⟩
          have sourceIn := opStays link.1 sourceStays
          have targetIn := opStays link.reachable targetStays
          refine
            ⟨_, targetIn, _, ?_, mirrors.node_index link.1,
              mirrors.node_index link.reachable⟩
          rw [memOperands targetIn, mirrors.node_index link.1,
            mirrors.node_index link.reachable]
          exact ⟨sourceIn, link⟩
        · rintro ⟨op, member, pred, uses, rfl, rfl⟩
          obtain ⟨predMember, link⟩ := (memOperands member pred).mp uses
          exact ⟨link, nodeStays predMember, nodeStays member⟩
      · constructor
        · rintro ⟨reachable, same⟩
          exact ⟨_, opStays reachable same, mirrors.node_index reachable⟩
        · rintro ⟨op, member, rfl⟩
          exact ⟨mirrors.reachable (old member), nodeStays member⟩
    entry_eq := by
      rw [linked.graph_eq]
      exact mirrors.node_index Heap.reachable_entry
    exit_eq := by
      rw [linked.graph_eq]
      exact mirrors.node_index formed.reachable_exit
    nodeCount_eq := by
      rw [linked.nodeCount_eq, rewritten.nodeCount_eq]
      exact Heap.unmarked_nodeCount mirrors.same
    graphCount_eq := by
      rw [linked.graphCount_eq, rewritten.graphCount_eq]
      exact Heap.unmarked_graphCount mirrors.same
    placed := by
      intro n reachable
      have inAfter := merged.placed _ (mirrors.index_mem reachable)
      exact ⟨mirrors.reachable (old inAfter), nodeStays inAfter⟩
    kin := fun n reachable moved =>
      merged.kinNodes mirrors imported formed reachable moved
    object_eq := by
      intro n reachable same
      obtain ⟨object, wrote, stored⟩ := objects reachable same
      obtain ⟨object', wrote', type, device, -⟩ :=
        merged.written mirrors imported (opStays reachable same)
      rw [mirrors.node_index reachable] at wrote' type device
      rw [wrote, Option.some.injEq] at wrote'
      subst wrote'
      exact
        ⟨(congrArg CommandGraphNode.type stored :).trans type,
          (congrArg CommandGraphNode.deviceUniqueId stored :).trans device⟩
    other_eq := by
      intro n reachable same notCopy
      obtain ⟨object, wrote, stored⟩ := objects reachable same
      obtain ⟨object', wrote', -, -, kept, -⟩ :=
        merged.written mirrors imported (opStays reachable same)
      rw [mirrors.node_index reachable] at wrote' kept
      rw [wrote, Option.some.injEq] at wrote'
      subst wrote'
      exact (congrArg CommandGraphNode.command stored :).trans (kept notCopy)
    copy_eq := by
      intro n reachable same direction copy held
      have inAfter := opStays reachable same
      have member := old inAfter
      obtain ⟨object, wrote, stored⟩ := objects reachable same
      obtain ⟨object', wrote', -, -, -, copies⟩ :=
        merged.written mirrors imported inAfter
      rw [mirrors.node_index reachable] at wrote' copies
      rw [wrote, Option.some.injEq] at wrote'
      subst wrote'
      obtain ⟨copy', isCopy', command⟩ := copies direction copy held
      have copyOfEq : ∀ m, copyOf (iterators.heap.nodes m) =
          copyOf (heap.nodes m) := by
        intro m
        rw [copyOf, copyOf, Heap.unmarked_type mirrors.same,
          Heap.unmarked_command mirrors.same]
      have isCopy := imported.copy1D?_eq member
      rw [copyOfEq, mirrors.node_index reachable, held, Option.map_some]
        at isCopy
      obtain ⟨copy'', isCopy'', -, parallel, unwrapped, movesIff⟩ :=
        merged.copy_eq _ inAfter _ isCopy
      rw [isCopy', Option.some.injEq] at isCopy''
      subst isCopy''
      refine
        ⟨copy'.narrowed,
          (congrArg CommandGraphNode.command stored :).trans command,
          unwrapped, fun transfer => ?_⟩
      rw [← Copy1DAttrs.moves_widen parallel.srcDuid_eq parallel.dstDuid_eq,
        movesIff]
      constructor
      · rintro ⟨other, inBody, here, absorbed, isAbsorbed, moves⟩
        rw [imported.copy1D?_eq inBody, Option.map_eq_some_iff, copyOfEq]
          at isAbsorbed
        obtain ⟨⟨direction', original⟩, held', rfl⟩ := isAbsorbed
        refine
          ⟨iterators.node other, mirrors.reachable inBody, ?_, direction',
            original, held', (Copy1DAttrs.moves_ofCopy _ _ _).mp moves⟩
        rw [placeNode, mirrors.index_node inBody, here,
          mirrors.node_index reachable]
      · rintro ⟨m, mReachable, here, direction', original, held', moves⟩
        have inBody := mirrors.index_mem mReachable
        refine
          ⟨_, inBody, ?_, Copy1DAttrs.ofCopy direction' original, ?_,
            (Copy1DAttrs.moves_ofCopy _ _ _).mpr moves⟩
        · rw [placeNode] at here
          rw [← here, mirrors.index_node
            (old (merged.placed _ inBody))]
        · rw [imported.copy1D?_eq inBody, copyOfEq,
            mirrors.node_index mReachable, held', Option.map_some] }

end Export

/-- Import, the pass and export return, and merge the copies of each class. -/
theorem copyFuse_merged {heap : Heap} {graph : GraphId}
    (formed : heap.WellFormed graph) (ready : heap.WalkReady graph)
    (plain : Plain heap graph) (unwrapped : SourcesUnwrapped heap graph)
    {getUsers : Graph → OpId → List OpId}
    (usersPerm : ∀ cg token, (getUsers cg token).Perm (cg.users token)) :
    ∃ indexed cg fused after place,
      importCommandGraph heap graph = some (indexed, cg) ∧
        copyFuse getUsers cg = some fused ∧
          exportCommandGraph fused indexed graph = some after ∧
            CopiesMerged heap graph place after := by
  obtain ⟨indexed, nodes, cg, imports, iterated, imported⟩ :=
    importCommandGraph_spec formed ready plain.importable
  have same := iterated.unmarked_eq
  have mirrors := imported.mirrors plain iterated
  have unwrapped' : SourcesUnwrapped indexed graph := by
    intro node direction copy reachable held
    rw [Heap.reachable_congr same] at reachable
    rw [Heap.unmarked_command same] at held
    exact unwrapped node direction copy reachable held
  have fusible :=
    fusible_of_imported imported (Iterators.valid_of_iterated iterated)
      (formed.congr same) unwrapped'
  obtain ⟨fused, place, fuses, merged⟩ := copyFuse_merges fusible usersPerm
  obtain ⟨after, exports, result⟩ :=
    merged.export_spec mirrors imported formed plain
  exact ⟨indexed, cg, fused, after, _, imports, fuses, exports, result⟩

end Cgir.Mlir
