import Cgir.Mlir.BatchPass
import Cgir.Model.Expansion

/-!
# What the batch pass of the dialect keeps

After import, the batch pass and export, every node of the graph has an image:
itself, or the sub-node of its op.  The links of the top level are those between
different blocks of ops; the links of a sub-graph are those between its members
and those of its ends.
-/

namespace Cgir.Mlir

open Relation
open Cgir.Library
open Cgir.Model

/-- A graph after import, the batch pass and export. -/
structure Batched (heap : Heap) (iterators : Iterators) (cg : Graph)
    (rep : Nat → Nat) (scratch : Scratch) (after : Heap) : Prop where
  mirrors : Mirrors heap iterators cg
  opCount_eq : cg.opCount = iterators.count
  merges : Merges cg rep scratch
  grouped : Grouped heap iterators cg (scratch.groups cg)
  materialized : Materialized cg (scratch.groups cg)
    (materialize cg (scratch.groups cg))
  exported : BatchesExported heap iterators cg
    (materialize cg (scratch.groups cg)) (scratch.groups cg) after

/-- The batch pass returns on every well-formed graph that can be imported. -/
theorem optimizeBatch_batched {heap : Heap} {graph : GraphId}
    (formed : heap.WellFormed graph) (ready : heap.WalkReady graph)
    (plain : Plain heap graph) :
    ∃ iterators cg rep scratch after, iterators.graph = graph ∧
      importCommandGraph heap graph = some (iterators.heap, cg) ∧
        contracted cg = some scratch ∧
          optimizeBatch heap graph = some after ∧
            Batched heap iterators cg rep scratch after := by
  obtain ⟨indexed, nodes, cg, imports, iterated, imported⟩ :=
    importCommandGraph_spec formed ready plain.importable
  let iterators : Iterators :=
    { heap := indexed, graph := graph, nodes := nodes }
  have mirrors : Mirrors heap iterators cg := imported.mirrors plain iterated
  have encoded : ∀ op ∈ cg.body,
      Encoded (cg.ops op) (iterators.heap.nodes (iterators.node op)) := by
    intro op member
    rw [mirrors.mem_body] at member
    exact encoded_created (imported.encodes op member).created
  obtain ⟨rep, scratch, contracts, merges⟩ := contracted_merges cg
  have grouped :=
    merges.grouped formed mirrors imported.opCount_eq encoded
  have materialized := materialize_spec grouped.disjoint
  obtain ⟨after, exports, exported⟩ :=
    exportBatches_spec formed grouped materialized
  refine
    ⟨iterators, cg, rep, scratch, after, rfl, imports, contracts, ?_,
      { mirrors := mirrors
        opCount_eq := imported.opCount_eq
        merges := merges
        grouped := grouped
        materialized := materialized
        exported := exported }⟩
  have passes : batchPass cg =
      some (materialize cg (scratch.groups cg)) :=
    congrArg (Option.bind · _) contracts
  simp only [optimizeBatch, imports]
  exact (congrArg (Option.bind · _) passes).trans exports

/-! ## Places -/

/-- The node of the top level that stands for an op. -/
def topAt (iterators : Iterators) (cg : Graph) (scratch : Scratch)
    (op : OpId) : NodeId :=
  let groups := (scratch.groups cg).map Prod.fst
  placeAt cg.opCount iterators.heap.nodeCount groups iterators.node
    (blockOf cg.opCount groups op)

/-- The first node of the sub-graph of a group. -/
def baseAt (iterators : Iterators) (cg : Graph) (scratch : Scratch)
    (position : Nat) : Nat :=
  batchBase iterators.heap.nodeCount ((scratch.groups cg).map Prod.fst)
    position

/-- The batch node of a group. -/
def batchAt (iterators : Iterators) (cg : Graph) (scratch : Scratch)
    (position : Nat) : NodeId :=
  batchNode iterators.heap.nodeCount ((scratch.groups cg).map Prod.fst)
    position

/-- The node that carries the work of an op. -/
def imageAt (iterators : Iterators) (cg : Graph) (scratch : Scratch)
    (op : OpId) : NodeId :=
  let groups := (scratch.groups cg).map Prod.fst
  match groups.findIdx? fun members => op ∈ members with
  | some position =>
      memberAt (baseAt iterators cg scratch position + 2)
        (groups.getD position []) op
  | none => iterators.node op

namespace Batched

variable {heap : Heap} {iterators : Iterators} {cg : Graph}
  {rep : Nat → Nat} {scratch : Scratch} {after : Heap}
  (formed : heap.WellFormed iterators.graph)
  (batched : Batched heap iterators cg rep scratch after)

include batched

theorem nodeCount_eq : iterators.heap.nodeCount = heap.nodeCount :=
  Heap.unmarked_nodeCount batched.mirrors.same

theorem graphCount_eq : iterators.heap.graphCount = heap.graphCount :=
  Heap.unmarked_graphCount batched.mirrors.same

theorem op_lt {op : OpId} (member : op ∈ cg.body) : op < cg.opCount :=
  (batched.grouped.mem_body op).mp member

omit batched in
/-- An op lies outside all groups or in one of them. -/
theorem op_cases (iterators : Iterators) (op : OpId) :
    ((∀ group ∈ scratch.groups cg, op ∉ group.1) ∧
        imageAt iterators cg scratch op = iterators.node op) ∨
      ∃ (position : Nat) (group : List OpId × BitVec 32),
        (scratch.groups cg)[position]? = some group ∧ op ∈ group.1 := by
  by_cases inside : ∃ group ∈ scratch.groups cg, op ∈ group.1
  · obtain ⟨group, isGroup, member⟩ := inside
    obtain ⟨position, known⟩ := List.mem_iff_getElem?.mp isGroup
    exact Or.inr ⟨position, group, known, member⟩
  · have outside : ∀ group ∈ scratch.groups cg, op ∉ group.1 :=
      fun group isGroup member => inside ⟨group, isGroup, member⟩
    refine Or.inl ⟨outside, ?_⟩
    have none : ((scratch.groups cg).map Prod.fst).findIdx?
        (fun members => op ∈ members) = none := by
      rw [List.findIdx?_eq_none_iff]
      intro members listed
      obtain ⟨group, isGroup, rfl⟩ := List.mem_map.mp listed
      simpa using outside group isGroup
    simp only [imageAt, none]

section Group

variable {position : Nat} {group : List OpId × BitVec 32}
  (known : (scratch.groups cg)[position]? = some group) {op : OpId}

include known

omit batched in
theorem known_members :
    ((scratch.groups cg).map Prod.fst)[position]? = some group.1 := by
  simp [known]

theorem blockOf_member (member : op ∈ group.1) :
    blockOf cg.opCount ((scratch.groups cg).map Prod.fst) op =
      cg.opCount + position :=
  batched.grouped.disjoint.blockOf_mem (known_members known) member

theorem topAt_member (member : op ∈ group.1) :
    topAt iterators cg scratch op = batchAt iterators cg scratch position := by
  rw [topAt, batched.blockOf_member known member, placeAt_batch]
  rfl

theorem imageAt_member (member : op ∈ group.1) :
    imageAt iterators cg scratch op =
      memberAt (baseAt iterators cg scratch position + 2) group.1 op := by
  have found : ((scratch.groups cg).map Prod.fst).findIdx?
      (fun members => op ∈ members) = some position := by
    have block := batched.blockOf_member known member
    unfold blockOf at block
    split at block
    · rename_i other found
      rw [found, Nat.add_left_cancel block]
    · have old := batched.op_lt
        (batched.grouped.member_body (List.mem_of_getElem? known) member)
      rw [block] at old
      exact (Nat.not_lt.mpr (Nat.le_add_right _ _) old).elim
  simp only [imageAt, found]
  simp [known]

end Group

theorem topAt_outside {op : OpId} (member : op ∈ cg.body)
    (outside : ∀ group ∈ scratch.groups cg, op ∉ group.1) :
    topAt iterators cg scratch op = iterators.node op := by
  have block : blockOf cg.opCount ((scratch.groups cg).map Prod.fst) op =
      op := by
    apply blockOf_of_not_mem
    intro members listed
    obtain ⟨group, isGroup, rfl⟩ := List.mem_map.mp listed
    exact outside group isGroup
  rw [topAt, block, placeAt_old (batched.op_lt member)]

/-! ## The top level -/

include formed

theorem topAt_eq_iff {op other : OpId} (member : op ∈ cg.body)
    (otherMember : other ∈ cg.body) :
    topAt iterators cg scratch op = topAt iterators cg scratch other ↔
      blockOf cg.opCount ((scratch.groups cg).map Prod.fst) op =
        blockOf cg.opCount ((scratch.groups cg).map Prod.fst) other := by
  constructor
  · exact
      batched.grouped.placeAt_injective batched.materialized
        (fun _ inBody => batched.grouped.node_lt formed inBody)
        _ (batched.materialized.blockOf_mem_body member)
        _ (batched.materialized.blockOf_mem_body otherMember)
  · intro equal
    rw [topAt, topAt, equal]

/-- Every op at the top level is the block of an op of the graph. -/
theorem exists_op {block : OpId}
    (member : block ∈ (materialize cg (scratch.groups cg)).body) :
    ∃ op ∈ cg.body,
      blockOf cg.opCount ((scratch.groups cg).map Prod.fst) op = block := by
  rcases (batched.materialized.mem_body block).mp member with
    ⟨inBody, outside⟩ | ⟨position, bound, rfl⟩
  · refine ⟨block, inBody, blockOf_of_not_mem ?_⟩
    intro members listed
    obtain ⟨group, isGroup, rfl⟩ := List.mem_map.mp listed
    exact outside group isGroup
  · have known := List.getElem?_eq_getElem bound
    have isGroup := List.mem_of_getElem? known
    obtain ⟨op, inGroup⟩ :=
      List.exists_mem_of_ne_nil _
        (batched.merges.group_nonempty formed batched.mirrors isGroup)
    exact
      ⟨op, batched.grouped.member_body isGroup inGroup,
        batched.blockOf_member known inGroup⟩

/-- Successors at the top level are tokens between different blocks. -/
theorem mem_successors_iff {pred : OpId} (member : pred ∈ cg.body)
    (node : NodeId) :
    node ∈ after.successors (topAt iterators cg scratch pred) ↔
      Digraph.Contract (OpEdge cg) (topAt iterators cg scratch)
        (topAt iterators cg scratch pred) node := by
  obtain ⟨resolved, entry, exit, linked⟩ := batched.exported.linked
  have predTop := batched.materialized.blockOf_mem_body member
  have joined : ∀ op ∈ cg.body,
      topAt iterators cg scratch op ∈
          after.successors (topAt iterators cg scratch pred) ↔
        Digraph.Contract (OpEdge cg) (topAt iterators cg scratch)
          (topAt iterators cg scratch pred)
          (topAt iterators cg scratch op) := by
    intro op opMember
    have opTop := batched.materialized.blockOf_mem_body opMember
    have closed := batched.mirrors.closed formed
    refine (linked.mem_successors opTop predTop).trans ?_
    rw [batched.grouped.mem_operands formed batched.materialized opTop]
    constructor
    · rintro ⟨apart, lower, lowerMember, upper, isPred, upperEq, lowerEq⟩
      refine
        ⟨fun same =>
            apart ((batched.topAt_eq_iff formed member opMember).mp same),
          upper, lower, ⟨lowerMember, isPred⟩, ?_, ?_⟩
      · exact
          (batched.topAt_eq_iff formed
            (closed lower lowerMember upper isPred) member).mpr upperEq
      · exact
          (batched.topAt_eq_iff formed lowerMember opMember).mpr lowerEq
    · rintro ⟨apart, upper, lower, ⟨lowerMember, isPred⟩, upperEq, lowerEq⟩
      refine
        ⟨fun same =>
            apart ((batched.topAt_eq_iff formed member opMember).mpr same),
          lower, lowerMember, upper, isPred, ?_, ?_⟩
      · exact
          (batched.topAt_eq_iff formed
            (closed lower lowerMember upper isPred) member).mp upperEq
      · exact
          (batched.topAt_eq_iff formed lowerMember opMember).mp lowerEq
  constructor
  · intro isSuccessor
    obtain ⟨block, blockTop, rfl⟩ :=
      linked.successors_placed _ predTop node isSuccessor
    obtain ⟨op, opMember, rfl⟩ := batched.exists_op formed blockTop
    exact (joined op opMember).mp isSuccessor
  · intro contract
    obtain ⟨-, _, op, edge, -, rfl⟩ := id contract
    exact (joined op edge.1).mpr contract

omit formed in
theorem topAt_entry :
    topAt iterators cg scratch
        (iterators.index (heap.graphs iterators.graph).entry) =
      (after.graphs iterators.graph).entry := by
  have member := batched.mirrors.index_mem (Heap.reachable_entry)
  rw [batched.topAt_outside member
      (batched.grouped.outside_of_end
        (Or.inl ((batched.mirrors.isEntry_op member).mpr rfl))),
    batched.mirrors.node_index Heap.reachable_entry,
    batched.exported.entry_eq]

/-- The nodes of the top level stand for ops. -/
theorem reachable_iff (node : NodeId) :
    after.Reachable iterators.graph node ↔
      ∃ op ∈ cg.body, topAt iterators cg scratch op = node := by
  have entryEq := batched.topAt_entry
  constructor
  · intro path
    induction path with
    | refl =>
        exact ⟨_, batched.mirrors.index_mem Heap.reachable_entry, entryEq⟩
    | tail _ step induction =>
        obtain ⟨pred, member, rfl⟩ := induction
        obtain ⟨-, _, op, edge, -, same⟩ :=
          (batched.mem_successors_iff formed member _).mp step
        exact ⟨op, edge.1, same⟩
  · have reaches : ∀ original, heap.Reachable iterators.graph original →
        after.Reachable iterators.graph
          (topAt iterators cg scratch (iterators.index original)) := by
      intro original path
      induction path with
      | refl =>
          rw [entryEq]
          exact Heap.reachable_entry
      | @tail middle last path step induction =>
          have link : heap.Link iterators.graph middle last := ⟨path, step⟩
          have middleMember := batched.mirrors.index_mem path
          have lastMember := batched.mirrors.index_mem link.reachable
          by_cases same : topAt iterators cg scratch (iterators.index middle) =
              topAt iterators cg scratch (iterators.index last)
          · exact same ▸ induction
          · apply induction.tail
            apply (batched.mem_successors_iff formed middleMember _).mpr
            have edge : OpEdge cg (iterators.index middle)
                (iterators.index last) := by
              refine ⟨lastMember, ?_⟩
              rw [batched.mirrors.mem_operands formed lastMember,
                batched.mirrors.node_index path,
                batched.mirrors.node_index link.reachable]
              exact ⟨middleMember, link⟩
            exact ⟨same, _, _, edge, rfl, rfl⟩
    rintro ⟨op, member, rfl⟩
    have reached := reaches _ (batched.mirrors.reachable member)
    rwa [batched.mirrors.index_node member] at reached

theorem link_iff (source target : NodeId) :
    after.Link iterators.graph source target ↔
      Digraph.Contract (OpEdge cg) (topAt iterators cg scratch)
        source target := by
  unfold Heap.Link
  rw [batched.reachable_iff formed]
  constructor
  · rintro ⟨⟨op, member, rfl⟩, isSuccessor⟩
    exact (batched.mem_successors_iff formed member target).mp isSuccessor
  · intro contract
    obtain ⟨-, upper, lower, edge, rfl, -⟩ := id contract
    have member :=
      batched.mirrors.closed formed lower edge.1 upper edge.2
    exact
      ⟨⟨upper, member, rfl⟩,
        (batched.mem_successors_iff formed member target).mpr contract⟩

/-- The top level stays acyclic. -/
theorem acyclic : Digraph.Acyclic (after.Link iterators.graph) := by
  have blocks :=
    batched.merges.blocks_acyclic formed batched.mirrors batched.opCount_eq
  have renamed : Digraph.Acyclic (Digraph.Contract (OpEdge cg)
      (placeAt cg.opCount iterators.heap.nodeCount
        ((scratch.groups cg).map Prod.fst) iterators.node ∘
          blockOf cg.opCount ((scratch.groups cg).map Prod.fst))) :=
    Digraph.acyclic_contract_rename blocks
      (fun pred op edge =>
        ⟨batched.mirrors.closed formed op edge.1 pred edge.2, edge.1⟩)
      (fun op other member otherMember same =>
        (batched.topAt_eq_iff formed member otherMember).mp same)
  exact
    renamed.mono fun source target =>
      (batched.link_iff formed source target).mp

/-! ## Sub-graphs -/

section Sub

variable {position : Nat} {group : List OpId × BitVec 32}
  (known : (scratch.groups cg)[position]? = some group)

include known

omit formed in
theorem operands_member {op : OpId} (member : op ∈ group.1) :
    (materialize cg (scratch.groups cg)).operands op =
      (cg.operands op).filter (· ∈ group.1) := by
  rw [Graph.operands,
    batched.materialized.member_eq group (List.mem_of_getElem? known) op
      member]
  rfl

omit formed in
theorem region_closed :
    ∀ op ∈ group.1, ∀ pred ∈ (materialize cg (scratch.groups cg)).operands op,
      pred ∈ group.1 := by
  intro op member pred isPred
  rw [batched.operands_member known member] at isPred
  simpa using (List.mem_filter.mp isPred).2

theorem region_acyclic :
    Digraph.Acyclic
      (RegionEdge (materialize cg (scratch.groups cg)).operands group.1) := by
  refine (batched.mirrors.opEdge_acyclic formed).mono ?_
  intro pred op edge
  have isPred := edge.2
  rw [batched.operands_member known edge.1] at isPred
  exact
    ⟨batched.grouped.member_body (List.mem_of_getElem? known) edge.1,
      List.mem_of_mem_filter isPred⟩

omit formed in
/-- What the export stores in the sub-graph of a group. -/
theorem holds :
    Holds (materialize cg (scratch.groups cg)).operands
      (fun op => iterators.heap.nodes (iterators.node op)) group.1
      (duidOfAttr group.2) (baseAt iterators cg scratch position)
      (heap.graphCount + position) after := by
  rw [← batched.graphCount_eq]
  exact batched.exported.holds position group known

theorem sub_reachable_iff (node : NodeId) :
    after.Reachable (heap.graphCount + position) node ↔
      SubLive (baseAt iterators cg scratch position) group.1 node :=
  (batched.holds known).reachable_iff (batched.region_closed known)
    (batched.region_acyclic formed known)
    (batched.merges.group_nonempty formed batched.mirrors
      (List.mem_of_getElem? known)) node

theorem sub_link_iff (source target : NodeId) :
    after.Link (heap.graphCount + position) source target ↔
      SubEdge (materialize cg (scratch.groups cg)).operands
        (baseAt iterators cg scratch position) group.1 source target :=
  (batched.holds known).link_iff (batched.region_closed known)
    (batched.region_acyclic formed known)
    (batched.merges.group_nonempty formed batched.mirrors
      (List.mem_of_getElem? known)) source target

omit formed in
/-- The batch node of a group holds its sub-graph. -/
theorem createdSub_batch :
    Heap.createdSub heap after (batchAt iterators cg scratch position) =
      some (heap.graphCount + position) := by
  have batch := (batched.holds known).batch_eq
  have nodeEq : baseAt iterators cg scratch position + 2 + group.1.length =
      batchAt iterators cg scratch position :=
    (batchNode_eq (known_members known)).symm
  rw [nodeEq] at batch
  rw [Heap.createdSub_eq_some_iff, ← batched.nodeCount_eq]
  exact
    ⟨batchNode_ge position, (congrArg CommandGraphNode.type batch :),
      (congrArg CommandGraphNode.command batch :)⟩

omit formed in
theorem batch_device :
    (after.nodes (batchAt iterators cg scratch position)).deviceUniqueId =
      duidOfAttr group.2 := by
  have batch := (batched.holds known).batch_eq
  have nodeEq : baseAt iterators cg scratch position + 2 + group.1.length =
      batchAt iterators cg scratch position :=
    (batchNode_eq (known_members known)).symm
  rw [nodeEq] at batch
  exact (congrArg CommandGraphNode.deviceUniqueId batch :)

end Sub

end Batched

end Cgir.Mlir
