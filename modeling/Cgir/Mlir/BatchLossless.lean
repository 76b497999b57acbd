import Cgir.Mlir.BatchWork

/-!
# The batch pass of the dialect loses nothing

Every node keeps its payload in its image, which lies in one place; all members
of a batch share its device; and every path of the graph is a path of the result
in which the batches are expanded.
-/

namespace Cgir.Mlir

open Relation
open Cgir.Library
open Cgir.Model

namespace Batched

variable {heap : Heap} {iterators : Iterators} {cg : Graph}
  {rep : Nat → Nat} {scratch : Scratch} {after : Heap}
  (formed : heap.WellFormed iterators.graph)
  (batched : Batched heap iterators cg rep scratch after)

include batched

/-! ## Images -/

/-- The sub-graphs that the pass creates are those of its groups. -/
theorem created_iff (sub : GraphId) :
    Heap.Created heap after sub ↔
      ∃ (position : Nat) (group : List OpId × BitVec 32),
        (scratch.groups cg)[position]? = some group ∧
          sub = heap.graphCount + position := by
  rw [Heap.Created, batched.exported.graphCount_eq, batched.graphCount_eq]
  constructor
  · rintro ⟨ge, less⟩
    obtain ⟨position, rfl⟩ := Nat.exists_eq_add_of_le ge
    exact
      ⟨position, _,
        List.getElem?_eq_getElem (Nat.lt_of_add_lt_add_left less), rfl⟩
  · rintro ⟨position, group, known, rfl⟩
    exact
      ⟨Nat.le_add_right _ _,
        Nat.add_lt_add_left (List.getElem?_eq_some_iff.mp known).1 _⟩

section Group

variable {position : Nat} {group : List OpId × BitVec 32}
  (known : (scratch.groups cg)[position]? = some group) {op : OpId}

include known

omit batched in
/-- The nodes of different sub-graphs differ. -/
theorem position_unique {other : Nat} {others : List OpId × BitVec 32}
    (knownOther : (scratch.groups cg)[other]? = some others) {node : NodeId}
    (alive : SubLive (baseAt iterators cg scratch position) group.1 node)
    (alive' : SubLive (baseAt iterators cg scratch other) others.1 node) :
    position = other := by
  have below : ∀ {lower upper : Nat} {first second : List OpId × BitVec 32},
      (scratch.groups cg)[lower]? = some first → lower < upper →
        SubLive (baseAt iterators cg scratch lower) first.1 node →
          ¬ SubLive (baseAt iterators cg scratch upper) second.1 node := by
    intro lower upper first second knownFirst less inFirst inSecond
    have knownMembers := known_members knownFirst
    have last := subLive_lt inFirst
    rw [baseAt, ← batchNode_eq knownMembers] at last
    have next :
        batchNode iterators.heap.nodeCount
            ((scratch.groups cg).map Prod.fst) lower <
          batchBase iterators.heap.nodeCount
            ((scratch.groups cg).map Prod.fst) upper :=
      batchNode_lt less (List.getElem?_eq_some_iff.mp knownMembers).1
    exact
      Nat.not_lt.mpr (subLive_ge inSecond) (last.trans next)
  rcases Nat.lt_trichotomy position other with less | same | greater
  · exact (below known less alive alive').elim
  · exact same
  · exact (below knownOther greater alive' alive).elim

theorem image_live (member : op ∈ group.1) :
    SubLive (baseAt iterators cg scratch position) group.1
      (imageAt iterators cg scratch op) := by
  rw [batched.imageAt_member known member]
  exact Or.inr (Or.inr ⟨op, member, rfl⟩)

omit known in
/-- The nodes of a sub-graph are new. -/
theorem sub_new {node : NodeId}
    (alive : SubLive (baseAt iterators cg scratch position) group.1 node) :
    heap.nodeCount ≤ node := by
  rw [← batched.nodeCount_eq]
  exact (first_le_batchBase position).trans (subLive_ge alive)

include formed

omit known in
theorem node_lt (member : op ∈ cg.body) :
    iterators.node op < heap.nodeCount :=
  formed.allocated _ (batched.mirrors.reachable member)

/-- An image lies in a sub-graph when its op is a member of the group. -/
theorem image_sub_iff (member : op ∈ cg.body) :
    after.Reachable (heap.graphCount + position)
        (imageAt iterators cg scratch op) ↔ op ∈ group.1 := by
  rw [batched.sub_reachable_iff formed known]
  constructor
  · intro alive
    rcases op_cases iterators op with
      ⟨-, self⟩ | ⟨other, others, knownOther, inOther⟩
    · have new := batched.sub_new alive
      rw [self] at new
      exact (Nat.not_lt.mpr new (batched.node_lt formed member)).elim
    · have same := position_unique known knownOther alive
        (batched.image_live knownOther inOther)
      subst same
      rw [known, Option.some.injEq] at knownOther
      exact knownOther ▸ inOther
  · exact batched.image_live known

/-- The nodes of a sub-graph are not at the top level. -/
theorem sub_not_top {node : NodeId}
    (alive : SubLive (baseAt iterators cg scratch position) group.1 node) :
    ¬ after.Reachable iterators.graph node := by
  rw [batched.reachable_iff formed]
  rintro ⟨op, member, same⟩
  exact
    batched.grouped.placeAt_ne_sub batched.materialized
      (fun _ inBody => batched.grouped.node_lt formed inBody) known alive _
      (batched.materialized.blockOf_mem_body member) same

end Group

include formed

/-- The payload of an image is that of its node. -/
theorem image_kept {op : OpId} (member : op ∈ cg.body) :
    (after.nodes (imageAt iterators cg scratch op)).deviceUniqueId =
        (heap.nodes (iterators.node op)).deviceUniqueId ∧
      (after.nodes (imageAt iterators cg scratch op)).type =
          (heap.nodes (iterators.node op)).type ∧
        ((heap.nodes (iterators.node op)).type = .command →
          (after.nodes (imageAt iterators cg scratch op)).command =
            (heap.nodes (iterators.node op)).command) := by
  have marked := batched.mirrors.same
  rw [← Heap.unmarked_deviceUniqueId marked, ← Heap.unmarked_type marked,
    ← Heap.unmarked_command marked]
  rcases op_cases iterators op with
    ⟨-, self⟩ | ⟨position, group, known, inGroup⟩
  · have same := batched.exported.old_unlinked _
      (batched.grouped.node_lt formed member)
    rw [self]
    exact
      ⟨(congrArg CommandGraphNode.deviceUniqueId same :),
        (congrArg CommandGraphNode.type same :),
        fun _ => (congrArg CommandGraphNode.command same :)⟩
  · have same := (batched.holds known).member_eq op inGroup
    rw [batched.imageAt_member known inGroup]
    refine
      ⟨(congrArg CommandGraphNode.deviceUniqueId same :),
        (congrArg CommandGraphNode.type same :), ?_⟩
    intro isCommand
    exact
      (congrArg CommandGraphNode.command same :).trans (if_pos isCommand)

theorem image_injective {op other : OpId} (member : op ∈ cg.body)
    (otherMember : other ∈ cg.body)
    (equal : imageAt iterators cg scratch op =
      imageAt iterators cg scratch other) : op = other := by
  rcases op_cases iterators op with
    ⟨-, self⟩ | ⟨position, group, known, inGroup⟩ <;>
  rcases op_cases iterators other with
    ⟨-, self'⟩ | ⟨position', group', known', inGroup'⟩
  · rw [self, self'] at equal
    exact batched.mirrors.injective member otherMember equal
  · have new := batched.sub_new (batched.image_live known' inGroup')
    rw [← equal, self] at new
    exact (Nat.not_lt.mpr new (batched.node_lt formed member)).elim
  · have new := batched.sub_new (batched.image_live known inGroup)
    rw [equal, self'] at new
    exact (Nat.not_lt.mpr new (batched.node_lt formed otherMember)).elim
  · have same := position_unique known known'
      (batched.image_live known inGroup)
      (equal ▸ batched.image_live known' inGroup')
    subst same
    rw [known, Option.some.injEq] at known'
    subst known'
    rw [batched.imageAt_member known inGroup,
      batched.imageAt_member known inGroup'] at equal
    exact memberAt_injective inGroup equal

/-- The image of an op is at the top level when no group holds the op. -/
theorem image_placed {op : OpId} (member : op ∈ cg.body) :
    (after.Reachable iterators.graph (imageAt iterators cg scratch op) ∧
        ∀ sub, Heap.Created heap after sub →
          ¬ after.Reachable sub (imageAt iterators cg scratch op)) ∨
      (¬ after.Reachable iterators.graph
          (imageAt iterators cg scratch op) ∧
        ∃! sub, Heap.Created heap after sub ∧
          after.Reachable sub (imageAt iterators cg scratch op)) := by
  rcases op_cases iterators op with
    ⟨outside, self⟩ | ⟨position, group, known, inGroup⟩
  · refine Or.inl ⟨?_, ?_⟩
    · rw [self, batched.reachable_iff formed]
      exact ⟨op, member, batched.topAt_outside member outside⟩
    · intro sub created inside
      obtain ⟨position, group, known, rfl⟩ :=
        (batched.created_iff sub).mp created
      rw [batched.image_sub_iff formed known member] at inside
      exact outside group (List.mem_of_getElem? known) inside
  · refine
      Or.inr
        ⟨batched.sub_not_top formed known (batched.image_live known inGroup),
          heap.graphCount + position, ⟨?_, ?_⟩, ?_⟩
    · exact
        (batched.created_iff _).mpr ⟨position, group, known, rfl⟩
    · exact (batched.image_sub_iff formed known member).mpr inGroup
    · rintro sub ⟨created, inside⟩
      obtain ⟨other, others, knownOther, rfl⟩ :=
        (batched.created_iff sub).mp created
      rw [batched.image_sub_iff formed knownOther member] at inside
      rw [position_unique knownOther known
        (batched.image_live knownOther inside)
        (batched.image_live known inGroup)]

/-- A node of the top level is an original node or a batch node. -/
theorem top_cases {node : NodeId}
    (top : after.Reachable iterators.graph node) :
    (∃ op ∈ cg.body, (∀ group ∈ scratch.groups cg, op ∉ group.1) ∧
        imageAt iterators cg scratch op = node ∧
          iterators.node op = node) ∨
      ∃ (position : Nat) (group : List OpId × BitVec 32),
        (scratch.groups cg)[position]? = some group ∧
          node = batchAt iterators cg scratch position := by
  obtain ⟨op, member, rfl⟩ := (batched.reachable_iff formed node).mp top
  rcases op_cases iterators op with
    ⟨outside, self⟩ | ⟨position, group, known, inGroup⟩
  · have same := batched.topAt_outside member outside
    exact
      Or.inl
        ⟨op, member, outside, self.trans same.symm, same.symm⟩
  · exact
      Or.inr
        ⟨position, group, known, batched.topAt_member known inGroup⟩

/-- The batch node at the top level that holds a sub-graph. -/
theorem createdSub_top {node : NodeId} {sub : GraphId}
    (top : after.Reachable iterators.graph node)
    (holds : Heap.createdSub heap after node = some sub) :
    ∃ (position : Nat) (group : List OpId × BitVec 32),
      (scratch.groups cg)[position]? = some group ∧
        node = batchAt iterators cg scratch position ∧
          sub = heap.graphCount + position := by
  rcases batched.top_cases formed top with
    ⟨op, member, -, -, rfl⟩ | ⟨position, group, known, rfl⟩
  · rw [Heap.createdSub_old (batched.node_lt formed member)] at holds
    cases holds
  · rw [batched.createdSub_batch known, Option.some.injEq] at holds
    exact ⟨position, group, known, rfl, holds.symm⟩

theorem batch_top {position : Nat} {group : List OpId × BitVec 32}
    (known : (scratch.groups cg)[position]? = some group) :
    after.Reachable iterators.graph
      (batchAt iterators cg scratch position) := by
  have isGroup := List.mem_of_getElem? known
  obtain ⟨op, inGroup⟩ :=
    List.exists_mem_of_ne_nil _
      (batched.merges.group_nonempty formed batched.mirrors isGroup)
  rw [batched.reachable_iff formed]
  exact
    ⟨op, batched.grouped.member_body isGroup inGroup,
      batched.topAt_member known inGroup⟩

/-- Every node of the graph has its work in one place of the result. -/
theorem rehouses :
    Heap.Rehouses heap after iterators.graph
      (fun node => imageAt iterators cg scratch (iterators.index node)) where
  kept := by
    intro node reachable
    have kept :=
      batched.image_kept formed (batched.mirrors.index_mem reachable)
    rwa [batched.mirrors.node_index reachable] at kept
  injective := by
    intro node other reachable otherReachable equal
    have same :=
      batched.image_injective formed (batched.mirrors.index_mem reachable)
        (batched.mirrors.index_mem otherReachable) equal
    rw [← batched.mirrors.node_index reachable, same,
      batched.mirrors.node_index otherReachable]
  placed := fun node reachable =>
    batched.image_placed formed (batched.mirrors.index_mem reachable)
  top := by
    intro node top
    rcases batched.top_cases formed top with
      ⟨op, member, -, image, -⟩ | ⟨position, group, known, rfl⟩
    · refine
        Or.inl ⟨iterators.node op, batched.mirrors.reachable member, ?_⟩
      rw [batched.mirrors.index_node member]
      exact image
    · exact
        Or.inr
          ⟨heap.graphCount + position,
            (batched.created_iff _).mpr ⟨position, group, known, rfl⟩,
            batched.createdSub_batch known⟩
  inside := by
    intro sub node created inside
    obtain ⟨position, group, known, rfl⟩ :=
      (batched.created_iff sub).mp created
    have holds := batched.holds known
    rw [holds.graph_eq]
    rcases (batched.sub_reachable_iff formed known node).mp inside with
      rfl | rfl | ⟨op, inGroup, rfl⟩
    · exact
        Or.inr
          ⟨Or.inl rfl, (congrArg CommandGraphNode.type holds.entry_eq :)⟩
    · exact
        Or.inr
          ⟨Or.inr rfl, (congrArg CommandGraphNode.type holds.exit_eq :)⟩
    · have member :=
        batched.grouped.member_body (List.mem_of_getElem? known) inGroup
      refine
        Or.inl ⟨iterators.node op, batched.mirrors.reachable member, ?_⟩
      rw [batched.mirrors.index_node member]
      exact batched.imageAt_member known inGroup
  held := by
    intro sub created
    obtain ⟨position, group, known, rfl⟩ :=
      (batched.created_iff sub).mp created
    refine
      ⟨batchAt iterators cg scratch position,
        ⟨batched.batch_top formed known, batched.createdSub_batch known⟩,
        ?_⟩
    rintro node ⟨top, holds⟩
    obtain ⟨other, others, knownOther, rfl, same⟩ :=
      batched.createdSub_top formed top holds
    rw [Nat.add_left_cancel same]
  device_eq := by
    intro batch sub node top holds reachable inside
    obtain ⟨position, group, known, rfl, rfl⟩ :=
      batched.createdSub_top formed top holds
    have member := batched.mirrors.index_mem reachable
    rw [batched.image_sub_iff formed known member] at inside
    rw [(batched.image_kept formed member).1, batched.batch_device known,
      ← batched.merges.group_device formed batched.mirrors
        (List.mem_of_getElem? known) inside,
      (batched.grouped.encoded _ member).duid_eq, duidOfAttr_attr,
      Heap.unmarked_deviceUniqueId batched.mirrors.same]

/-! ## Order -/

/-- The links of a sub-graph are links of the expanded graph. -/
theorem sub_path {position : Nat} {group : List OpId × BitVec 32}
    (known : (scratch.groups cg)[position]? = some group)
    {source target : NodeId}
    (path : ReflTransGen
      (SubEdge (materialize cg (scratch.groups cg)).operands
        (baseAt iterators cg scratch position) group.1) source target) :
    ReflTransGen (Heap.SubLink heap after) source target := by
  refine ReflTransGen.mono ?_ _ _ path
  intro upper lower edge
  exact
    ⟨heap.graphCount + position,
      (batched.created_iff _).mpr ⟨position, group, known, rfl⟩,
      (batched.sub_link_iff formed known upper lower).mpr edge⟩

/-- An image lies between the head and the tail of the block of its op. -/
theorem image_between {op : OpId} (member : op ∈ cg.body) :
    ReflTransGen (Heap.SubLink heap after)
        (Heap.head heap after (topAt iterators cg scratch op))
        (imageAt iterators cg scratch op) ∧
      ReflTransGen (Heap.SubLink heap after)
        (imageAt iterators cg scratch op)
        (Heap.tail heap after (topAt iterators cg scratch op)) := by
  rcases op_cases iterators op with
    ⟨outside, self⟩ | ⟨position, group, known, inGroup⟩
  · have old := batched.node_lt formed member
    rw [self, batched.topAt_outside member outside, Heap.head_old old,
      Heap.tail_old old]
    exact ⟨ReflTransGen.refl, ReflTransGen.refl⟩
  · have created := batched.createdSub_batch known
    have between :=
      member_between
        (batched.region_closed known) (batched.region_acyclic formed known)
        (baseAt iterators cg scratch position) inGroup
    rw [batched.topAt_member known inGroup, Heap.head_created created,
      Heap.tail_created created, (batched.holds known).graph_eq,
      batched.imageAt_member known inGroup]
    exact
      ⟨batched.sub_path formed known between.1,
        batched.sub_path formed known between.2⟩

/-- A token between members of one block is a link of its sub-graph. -/
theorem within {pred op : OpId} (edge : OpEdge cg pred op)
    (same : topAt iterators cg scratch pred =
      topAt iterators cg scratch op) :
    Heap.SubLink heap after (imageAt iterators cg scratch pred)
      (imageAt iterators cg scratch op) := by
  have predMember := batched.mirrors.closed formed op edge.1 pred edge.2
  have blockEq := (batched.topAt_eq_iff formed predMember edge.1).mp same
  rcases op_cases iterators op with
    ⟨outside, -⟩ | ⟨position, group, known, inGroup⟩
  · have self : blockOf cg.opCount ((scratch.groups cg).map Prod.fst) op =
        op := by
      apply blockOf_of_not_mem
      intro members listed
      obtain ⟨group, isGroup, rfl⟩ := List.mem_map.mp listed
      exact outside group isGroup
    obtain ⟨rfl, -⟩ :=
      blockOf_eq_old (batched.op_lt edge.1) (blockEq.trans self)
    exact
      (batched.mirrors.not_mem_operands formed edge.1 edge.2).elim
  · rw [batched.blockOf_member known inGroup,
      batched.grouped.disjoint.blockOf_eq_batch_iff (known_members known)
        (batched.op_lt predMember)] at blockEq
    refine
      ⟨heap.graphCount + position,
        (batched.created_iff _).mpr ⟨position, group, known, rfl⟩, ?_⟩
    rw [batched.sub_link_iff formed known,
      batched.imageAt_member known blockEq,
      batched.imageAt_member known inGroup]
    refine subEdge_iff.mpr (Or.inl ⟨op, inGroup, pred, ?_, rfl, rfl⟩)
    rw [batched.operands_member known inGroup]
    simpa [blockEq] using edge.2

/-- No path of the graph is lost. -/
theorem ordered {source target : NodeId}
    (reachable : heap.Reachable iterators.graph source)
    (path : MarkSearch.Reach heap.successors source target) :
    ReflTransGen (Heap.Expanded heap after iterators.graph)
      (imageAt iterators cg scratch (iterators.index source))
      (imageAt iterators cg scratch (iterators.index target)) := by
  have opEdge : ∀ upper lower, heap.Link iterators.graph upper lower →
      OpEdge cg (iterators.index upper) (iterators.index lower) := by
    intro upper lower link
    have lowerMember := batched.mirrors.index_mem link.reachable
    refine ⟨lowerMember, ?_⟩
    rw [batched.mirrors.mem_operands formed lowerMember,
      batched.mirrors.node_index link.1,
      batched.mirrors.node_index link.reachable]
    exact ⟨batched.mirrors.index_mem link.1, link⟩
  exact
    Digraph.reach_expand_image
      (fun upper lower link same =>
        batched.within formed (opEdge upper lower link) same)
      (fun upper lower link apart =>
        (batched.link_iff formed _ _).mpr
          ⟨apart, _, _, opEdge upper lower link, rfl, rfl⟩)
      (fun _ _ link _ =>
        (batched.image_between formed
          (batched.mirrors.index_mem link.1)).2)
      (fun _ _ link _ =>
        (batched.image_between formed
          (batched.mirrors.index_mem link.reachable)).1)
      (reachable.links path)

end Batched

/--
After import, the batch pass and export the top level is acyclic, the work of
every node is in one place, and no path is lost.
-/
theorem optimizeBatch_lossless {heap : Heap} {graph : GraphId}
    (formed : heap.WellFormed graph) (ready : heap.WalkReady graph)
    (plain : Plain heap graph) :
    ∃ after, optimizeBatch heap graph = some after ∧
      Digraph.Acyclic (after.Link graph) ∧
        ∃ image, heap.Rehouses after graph image ∧
          ∀ source target, heap.Reachable graph source →
            MarkSearch.Reach heap.successors source target →
              ReflTransGen (heap.Expanded after graph) (image source)
                (image target) := by
  obtain ⟨iterators, cg, rep, scratch, after, rfl, -, -, ran, batched⟩ :=
    optimizeBatch_batched formed ready plain
  exact
    ⟨after, ran, batched.acyclic formed, _, batched.rehouses formed,
      fun _ _ reachable path => batched.ordered formed reachable path⟩

/-- Two reads in a row on one device. -/
def readRow : Heap :=
  Heap.ofNodes
    [Heap.linkedNode unspecifiedDeviceUniqueId .empty [] [1],
      Heap.readNode 1 [0] [2],
      Heap.readNode 1 [1] [3],
      Heap.linkedNode unspecifiedDeviceUniqueId .empty [2] []]
    { entry := 0, exit := 3, walkId := 0, isSequence := false }

theorem optimizeBatch_lossless_readRow :
    ∃ after, optimizeBatch readRow 0 = some after ∧
      Digraph.Acyclic (after.Link 0) ∧
        ∃ image, readRow.Rehouses after 0 image := by
  have numbered : readRow.Numbered 0 := by decide
  obtain ⟨after, ran, acyclic, image, rehouses, -⟩ :=
    optimizeBatch_lossless numbered.wellFormed
      (numbered.walkReady (by decide))
      (Plain.of_numbered numbered (by decide) rfl rfl)
  exact ⟨after, ran, acyclic, image, rehouses⟩

/-- The reads become the nodes 6 and 7 between the ends 4 and 5 of node 8. -/
example :
    (optimizeBatch readRow 0).map (fun heap =>
        (heap.successors 0, heap.successors 8, heap.successors 4,
          heap.successors 6, heap.successors 7)) =
      some ([8], [3], [6], [7], [5]) := by
  decide

end Cgir.Mlir
