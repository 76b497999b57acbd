import Cgir.Model.Expansion
import Cgir.Model.Numbered
import Cgir.Pass.BatchBuild

/-!
# The batch pass keeps all work and all ordering

The top level after the pass is the contraction of the links by the batches
(`Batched.top_link_iff`), and a sub-graph holds the links between the members
of its batch and the edges of its ends (`Batched.sub_link_iff`).  No original
node is lost or duplicated, and no path is lost in the graph that expands every
batch node (`passBatch_lossless`).
-/

namespace Cgir.Pass.Batch

open Relation
open Cgir.Library
open Cgir.Model

/-- The links of the sub-graph of a batch. -/
def SubEdge (iterators : Iterators) (members : Nat → List NodeId)
    (plan : List Nat) (state : Materialized) (p : Nat)
    (source target : NodeId) : Prop :=
  (Inside iterators state source target ∧
      InBatch members plan p source ∧ InBatch members plan p target) ∨
    (source = entryAt iterators.heap p ∧ InBatch members plan p target ∧
      ∀ pred, ¬ Inside iterators state pred target) ∨
    (InBatch members plan p source ∧ target = exitAt iterators.heap p ∧
      ∀ next, ¬ Inside iterators state source next)

namespace Batched

variable {heap after : Heap} {iterators : Iterators} {islands : Islands}
  {plan : List Nat} {state : Materialized} {node : NodeId} {p : Nat}
  (batched : Batched heap after iterators islands plan state)

include batched

/-! ## Objects before and after -/

theorem valid : iterators.Valid :=
  Iterators.valid_of_iterated batched.iterated

theorem link_eq :
    iterators.heap.Link iterators.graph = heap.Link iterators.graph :=
  Heap.link_congr batched.iterated.unmarked_eq

theorem mem_nodes_iff :
    node ∈ iterators.nodes ↔ heap.Reachable iterators.graph node := by
  rw [batched.valid.mem_iff,
    Heap.reachable_congr batched.iterated.unmarked_eq]

theorem heap_nodeCount : iterators.heap.nodeCount = heap.nodeCount :=
  Heap.unmarked_nodeCount batched.iterated.unmarked_eq

theorem nodeCount_eq : after.nodeCount = heap.nodeCount + 3 * plan.length := by
  rw [Heap.unlinked_nodeCount batched.unlinked_eq,
    batched.materializes.nodeCount_eq, batched.heap_nodeCount]

theorem graphCount_eq : after.graphCount = heap.graphCount + plan.length := by
  rw [Heap.unlinked_graphCount batched.unlinked_eq,
    batched.materializes.graphCount_eq,
    Heap.unmarked_graphCount batched.iterated.unmarked_eq]

/-- The graphs allocated by the pass are the sub-graphs of the batches. -/
theorem created_iff (sub : GraphId) :
    Heap.Created heap after sub ↔
      ∃ p < plan.length, sub = subAt iterators.heap p := by
  unfold Heap.Created subAt
  rw [batched.graphCount_eq,
    Heap.unmarked_graphCount batched.iterated.unmarked_eq]
  constructor
  · rintro ⟨low, high⟩
    obtain ⟨p, rfl⟩ := Nat.exists_eq_add_of_le low
    exact ⟨p, Nat.lt_of_add_lt_add_left high, rfl⟩
  · rintro ⟨p, bound, rfl⟩
    exact ⟨Nat.le_add_right _ _, Nat.add_lt_add_left bound _⟩

theorem graphs_sub (bound : p < plan.length) :
    after.graphs (subAt iterators.heap p) =
      { entry := entryAt iterators.heap p
        exit := exitAt iterators.heap p
        walkId := 0
        isSequence := false } := by
  rw [Heap.unlinked_graphs batched.unlinked_eq,
    batched.materializes.graphs_sub p bound]

theorem graphs_old {graph : GraphId} (old : graph < heap.graphCount) :
    (after.graphs graph).entry = (heap.graphs graph).entry ∧
      (after.graphs graph).exit = (heap.graphs graph).exit := by
  rw [Heap.unlinked_graphs batched.unlinked_eq,
    batched.materializes.graphs_old graph
      (by rwa [Heap.unmarked_graphCount batched.iterated.unmarked_eq])]
  obtain ⟨entry, exit, -⟩ :=
    Heap.unmarked_graphs batched.iterated.unmarked_eq graph
  exact ⟨entry, exit⟩

/-- The pass changes only the lists and the marks of the original nodes. -/
theorem node_kept (old : node < heap.nodeCount) :
    (after.nodes node).deviceUniqueId = (heap.nodes node).deviceUniqueId ∧
      (after.nodes node).type = (heap.nodes node).type ∧
        (after.nodes node).command = (heap.nodes node).command := by
  have old' : node < iterators.heap.nodeCount := by
    rwa [batched.heap_nodeCount]
  have same := batched.iterated.unmarked_eq
  rw [Heap.unlinked_deviceUniqueId batched.unlinked_eq,
    Heap.unlinked_type batched.unlinked_eq,
    Heap.unlinked_command batched.unlinked_eq,
    batched.materializes.nodes_old node old',
    Heap.unmarked_deviceUniqueId same, Heap.unmarked_type same,
    Heap.unmarked_command same]
  exact ⟨rfl, rfl, rfl⟩

/-! ## The top level -/

section Top

variable (formed : heap.WellFormed iterators.graph)

include formed

theorem lt_of_mem (member : node ∈ iterators.nodes) :
    node < iterators.heap.nodeCount := by
  rw [batched.heap_nodeCount]
  exact formed.allocated node (batched.mem_nodes_iff.mp member)

omit formed in
theorem inBatch_mem (member : InBatch islands.members plan p node) :
    node ∈ iterators.nodes := by
  obtain ⟨key, -, known⟩ := member
  exact
    (batched.valid.mem_iff node).mpr (batched.detected.candidate known).1

theorem inBatch_iff (member : node ∈ iterators.nodes) :
    InBatch islands.members plan p node ↔
      block iterators state node = batchAt iterators.heap p := by
  constructor
  · exact batched.materializes.block_batch member
  · intro isBatch
    rcases batched.materializes.block_cases member with ⟨q, inside⟩ | ⟨-, self⟩
    · rw [batched.materializes.block_batch member inside, batchAt_inj]
        at isBatch
      exact isBatch ▸ inside
    · rw [self] at isBatch
      have old := batched.lt_of_mem formed member
      exact (Nat.not_lt.mpr batchAt_ge (isBatch ▸ old)).elim

/-- The links are irreflexive, also when read after the walk. -/
theorem indexed_acyclic :
    Digraph.Acyclic (iterators.heap.Link iterators.graph) := by
  rw [batched.link_eq]
  exact formed.acyclic

omit formed in
theorem link_mem {source target : NodeId}
    (link : iterators.heap.Link iterators.graph source target) :
    source ∈ iterators.nodes ∧ target ∈ iterators.nodes :=
  ⟨(batched.valid.mem_iff source).mpr link.1,
    (batched.valid.mem_iff target).mpr link.reachable⟩

/-- A node and itself are not linked, so a link inside is in a batch. -/
theorem inside_inBatch {source target : NodeId}
    (inside : Inside iterators state source target) :
    ∃ p, InBatch islands.members plan p source ∧
      InBatch islands.members plan p target := by
  obtain ⟨link, same⟩ := inside
  obtain ⟨sourceMember, targetMember⟩ := batched.link_mem link
  have fromBlock : ∀ {node other}, node ∈ iterators.nodes →
      other ∈ iterators.nodes → node ≠ other →
        block iterators state node = block iterators state other →
          ∃ p, InBatch islands.members plan p node := by
    intro node other member otherMember apart equal
    rcases batched.materializes.block_cases member with found | ⟨-, self⟩
    · exact found
    · rw [self] at equal
      have old := batched.lt_of_mem formed member
      rw [equal] at old
      rw [batched.materializes.eq_of_block_lt otherMember old] at equal
      exact (apart equal).elim
  have apart := (batched.indexed_acyclic formed).ne (TransGen.single link)
  obtain ⟨p, sourceIn⟩ := fromBlock sourceMember targetMember apart same
  refine ⟨p, sourceIn, ?_⟩
  rw [batched.inBatch_iff formed targetMember, ← same,
    ← batched.inBatch_iff formed sourceMember]
  exact sourceIn

omit formed in
/-- The entry and the exit are never in a batch. -/
theorem block_boundary (member : node ∈ iterators.nodes)
    (isBoundary : boundary iterators.heap iterators.graph node = true) :
    block iterators state node = node := by
  rcases batched.materializes.block_cases member with
    ⟨p, key, -, known⟩ | ⟨-, self⟩
  · have inner := (batched.detected.candidate known).2
    rw [isBoundary] at inner
    exact (Bool.noConfusion inner :)
  · exact self

omit formed in
theorem block_entry :
    block iterators state (heap.graphs iterators.graph).entry =
      (heap.graphs iterators.graph).entry := by
  refine batched.block_boundary
    (batched.mem_nodes_iff.mpr Heap.reachable_entry) ?_
  simp [boundary,
    (Heap.unmarked_graphs batched.iterated.unmarked_eq iterators.graph).1]

/-- From a representative, the lists lead to representatives only. -/
theorem built_block {target : NodeId} (member : node ∈ iterators.nodes)
    (built : Built iterators islands.members plan state
      (block iterators state node) target) :
    Outside iterators state (block iterators state node) target := by
  have self :
      block iterators state node ∈ iterators.nodes →
        block iterators state node = node :=
    fun inNodes =>
      batched.materializes.eq_of_block_lt member
        (batched.lt_of_mem formed inNodes)
  have notMember : ∀ {p},
      ¬ InBatch islands.members plan p (block iterators state node) := by
    intro p inside
    have inNodes := batched.inBatch_mem inside
    have old := batched.lt_of_mem formed inNodes
    rw [self inNodes] at inside
    rw [(batched.inBatch_iff formed member).mp inside] at old
    exact Nat.not_lt.mpr batchAt_ge old
  rcases built with (outside | inside) | ⟨q, other, inside, connects⟩
  · exact outside
  · obtain ⟨p, fromIn, -⟩ := batched.inside_inBatch formed inside
    exact (notMember fromIn).elim
  · rcases connects with ⟨isEntry, -⟩ | ⟨isMember, -⟩
    · change _ = entryAt iterators.heap q at isEntry
      rcases batched.materializes.block_cases member with
        ⟨p, inBatch⟩ | ⟨-, same⟩
      · rw [batched.materializes.block_batch member inBatch] at isEntry
        exact (entryAt_ne_batchAt isEntry.symm).elim
      · rw [same] at isEntry
        have old := batched.lt_of_mem formed member
        exact (Nat.not_lt.mpr entryAt_ge (isEntry ▸ old)).elim
    · rw [isMember] at notMember
      exact (notMember inside).elim

theorem entry_eq :
    (after.graphs iterators.graph).entry =
      (heap.graphs iterators.graph).entry :=
  (batched.graphs_old formed.graph_lt).1

theorem live_entry :
    Live iterators plan (after.graphs iterators.graph).entry := by
  rw [batched.entry_eq formed]
  exact
    Or.inl
      ((batched.valid.mem_iff _).mp
        (batched.mem_nodes_iff.mpr Heap.reachable_entry))

/-- The top level consists of the representatives. -/
theorem top_reachable_iff :
    after.Reachable iterators.graph node ↔
      ∃ original, heap.Reachable iterators.graph original ∧
        block iterators state original = node := by
  rw [batched.represents.reachable_iff (batched.live_entry formed),
    batched.entry_eq formed]
  constructor
  · intro path
    induction path with
    | refl =>
        exact ⟨_, Heap.reachable_entry, batched.block_entry⟩
    | tail _ step induction =>
        obtain ⟨original, reachable, rfl⟩ := induction
        obtain ⟨-, from', to', link, -, rfl⟩ :=
          batched.built_block formed (batched.mem_nodes_iff.mpr reachable)
            step
        exact
          ⟨to', batched.mem_nodes_iff.mp (batched.link_mem link).2, rfl⟩
  · rintro ⟨original, reachable, rfl⟩
    have path :
        ReflTransGen
          (Digraph.Contract (heap.Link iterators.graph)
            (block iterators state))
          (block iterators state (heap.graphs iterators.graph).entry)
          (block iterators state original) :=
      Digraph.reach_contract
        (Heap.Reachable.links Heap.reachable_entry reachable)
    rw [batched.block_entry, ← batched.link_eq] at path
    exact ReflTransGen.mono (fun _ _ step => Or.inl (Or.inl step)) _ _ path

/-- The links of the top level are the contracted links. -/
theorem top_link_iff (source target : NodeId) :
    after.Link iterators.graph source target ↔
      Outside iterators state source target := by
  have linkIff :=
    batched.represents.link_iff (batched.live_entry formed) source target
  have reachIff :=
    batched.represents.reachable_iff (batched.live_entry formed) source
  rw [linkIff, ← reachIff, batched.top_reachable_iff formed]
  constructor
  · rintro ⟨⟨original, reachable, rfl⟩, built⟩
    exact
      batched.built_block formed (batched.mem_nodes_iff.mpr reachable) built
  · intro outside
    refine ⟨?_, Or.inl (Or.inl outside)⟩
    obtain ⟨-, from', to', link, rfl, -⟩ := outside
    exact ⟨from', batched.mem_nodes_iff.mp (batched.link_mem link).1, rfl⟩

end Top

/-! ## The sub-graphs -/

section Sub

variable (formed : heap.WellFormed iterators.graph)

include formed

theorem inBatch_lt (member : InBatch islands.members plan p node) :
    node < iterators.heap.nodeCount :=
  batched.lt_of_mem formed (batched.inBatch_mem member)

theorem inBatch_unique {q : Nat} (first : InBatch islands.members plan p node)
    (second : InBatch islands.members plan q node) : p = q := by
  have member := batched.inBatch_mem first
  rw [batched.inBatch_iff formed member] at first second
  exact batchAt_inj.mp (first.symm.trans second)

/-- The links inside stay in one batch. -/
theorem inside_inBatch_iff {source target : NodeId}
    (inside : Inside iterators state source target) :
    InBatch islands.members plan p source ↔
      InBatch islands.members plan p target := by
  obtain ⟨q, sourceIn, targetIn⟩ := batched.inside_inBatch formed inside
  constructor
  · intro member
    rwa [batched.inBatch_unique formed member sourceIn]
  · intro member
    rwa [batched.inBatch_unique formed member targetIn]

theorem path_inBatch_iff {source target : NodeId}
    (path : ReflTransGen (Inside iterators state) source target) :
    InBatch islands.members plan p source ↔
      InBatch islands.members plan p target := by
  induction path with
  | refl => exact Iff.rfl
  | tail _ step induction =>
      exact induction.trans (batched.inside_inBatch_iff formed step)

/-- The end of a sub-graph is no member and no representative. -/
private theorem not_outside_end {fresh : NodeId}
    (low : iterators.heap.nodeCount ≤ fresh)
    (notBatch : ∀ q, fresh ≠ batchAt iterators.heap q) (other : NodeId) :
    ¬ Outside iterators state fresh other := by
  rintro ⟨-, from', to', link, equal, -⟩
  have member := (batched.link_mem link).1
  rcases batched.materializes.block_cases member with ⟨q, inBatch⟩ | ⟨-, self⟩
  · rw [batched.materializes.block_batch member inBatch] at equal
    exact notBatch q equal.symm
  · rw [self] at equal
    exact
      Nat.not_lt.mpr low (equal ▸ batched.lt_of_mem formed member)

/-- From the entry of a sub-graph, the lists lead to its sources. -/
theorem built_entry {target : NodeId} :
    Built iterators islands.members plan state (entryAt iterators.heap p)
        target ↔
      InBatch islands.members plan p target ∧
        ∀ pred, ¬ Inside iterators state pred target := by
  constructor
  · rintro ((outside | inside) | ⟨q, other, member, connects⟩)
    · exact
        (batched.not_outside_end formed entryAt_ge
          (fun q => entryAt_ne_batchAt) target outside).elim
    · obtain ⟨q, fromIn, -⟩ := batched.inside_inBatch formed inside
      exact
        (Nat.not_lt.mpr entryAt_ge (batched.inBatch_lt formed fromIn)).elim
    · rcases connects with ⟨isEntry, rfl, isSource⟩ | ⟨isMember, -⟩
      · rw [entryAt_inj.mp isEntry]
        exact ⟨member, isSource⟩
      · have old := batched.inBatch_lt formed member
        change _ = other at isMember
        exact (Nat.not_lt.mpr entryAt_ge (isMember ▸ old)).elim
  · rintro ⟨member, isSource⟩
    exact Or.inr ⟨p, target, member, Or.inl ⟨rfl, rfl, isSource⟩⟩

/-- From a member, the lists lead to members and to the exit. -/
theorem built_member {target : NodeId}
    (member : InBatch islands.members plan p node) :
    Built iterators islands.members plan state node target ↔
      Inside iterators state node target ∨
        (target = exitAt iterators.heap p ∧
          ∀ next, ¬ Inside iterators state node next) := by
  have old := batched.inBatch_lt formed member
  constructor
  · rintro ((outside | inside) | ⟨q, other, otherMember, connects⟩)
    · obtain ⟨-, from', to', link, equal, -⟩ := outside
      have fromMember := (batched.link_mem link).1
      have self :=
        batched.materializes.eq_of_block_lt fromMember (equal ▸ old)
      rw [self] at equal
      subst equal
      rw [(batched.inBatch_iff formed fromMember).mp member] at self
      exact (Nat.not_lt.mpr batchAt_ge (self ▸ old)).elim
    · exact Or.inl inside
    · rcases connects with ⟨isEntry, -⟩ | ⟨rfl, isExit, isSink⟩
      · change node = entryAt iterators.heap q at isEntry
        exact (Nat.not_lt.mpr entryAt_ge (isEntry ▸ old)).elim
      · rw [batched.inBatch_unique formed member otherMember]
        exact Or.inr ⟨isExit, isSink⟩
  · rintro (inside | ⟨rfl, isSink⟩)
    · exact Or.inl (Or.inr inside)
    · exact Or.inr ⟨p, node, member, Or.inr ⟨rfl, rfl, isSink⟩⟩

/-- The exit of a sub-graph has no successor. -/
theorem built_exit (target : NodeId) :
    ¬ Built iterators islands.members plan state (exitAt iterators.heap p)
      target := by
  rintro ((outside | inside) | ⟨q, other, member, connects⟩)
  · exact
      batched.not_outside_end formed exitAt_ge
        (fun q => exitAt_ne_batchAt) target outside
  · obtain ⟨q, fromIn, -⟩ := batched.inside_inBatch formed inside
    exact Nat.not_lt.mpr exitAt_ge (batched.inBatch_lt formed fromIn)
  · rcases connects with ⟨isEntry, -⟩ | ⟨isMember, -⟩
    · exact entryAt_ne_exitAt isEntry.symm
    · have old := batched.inBatch_lt formed member
      change _ = other at isMember
      exact Nat.not_lt.mpr exitAt_ge (isMember ▸ old)

/-- Every member is between the ends of its sub-graph. -/
theorem member_between (member : InBatch islands.members plan p node) :
    ReflTransGen (SubEdge iterators islands.members plan state p)
        (entryAt iterators.heap p) node ∧
      ReflTransGen (SubEdge iterators islands.members plan state p)
        node (exitAt iterators.heap p) := by
  have acyclic : Digraph.Acyclic (Inside iterators state) :=
    (batched.indexed_acyclic formed).mono fun _ _ => And.left
  have lift : ∀ {source target},
      ReflTransGen (Inside iterators state) source target →
        InBatch islands.members plan p source →
          ReflTransGen (SubEdge iterators islands.members plan state p)
            source target := by
    intro source target path sourceIn
    induction path with
    | refl => exact ReflTransGen.refl
    | @tail middle last before step induction =>
        have middleIn := (batched.path_inBatch_iff formed before).mp sourceIn
        have lastIn := (batched.inside_inBatch_iff formed step).mp middleIn
        exact induction.tail (Or.inl ⟨step, middleIn, lastIn⟩)
  have listed : ∀ source target, Inside iterators state source target →
      source ∈ iterators.nodes.toFinset ∧
        target ∈ iterators.nodes.toFinset := by
    intro source target inside
    rw [List.mem_toFinset, List.mem_toFinset]
    exact batched.link_mem inside.1
  constructor
  · obtain ⟨source, isSource, path⟩ :=
      acyclic.exists_source iterators.nodes.toFinset
        (fun source target inside => (listed source target inside).1) node
    have sourceIn := (batched.path_inBatch_iff formed path).mpr member
    exact
      ReflTransGen.head (Or.inr (Or.inl ⟨rfl, sourceIn, isSource⟩))
        (lift path sourceIn)
  · obtain ⟨sink, isSink, path⟩ :=
      acyclic.exists_sink iterators.nodes.toFinset
        (fun source target inside => (listed source target inside).2) node
    have sinkIn := (batched.path_inBatch_iff formed path).mp member
    exact (lift path member).tail (Or.inr (Or.inr ⟨sinkIn, rfl, isSink⟩))

omit formed in
/-- Every batch has a member. -/
theorem exists_member (bound : p < plan.length) :
    ∃ node, InBatch islands.members plan p node := by
  have position := List.getElem?_eq_getElem bound
  have many :=
    (batched.mem_plan_iff _).mp (List.mem_of_getElem? position)
  obtain ⟨node, member⟩ :=
    List.exists_mem_of_ne_nil _ (ne_nil_of_isBatched many)
  exact ⟨node, plan[p], position, member⟩

omit batched formed in
/-- The links of a sub-graph are edges of the lists. -/
theorem SubEdge.built {source target : NodeId}
    (edge : SubEdge iterators islands.members plan state p source target) :
    Built iterators islands.members plan state source target := by
  rcases edge with ⟨inside, -, -⟩ | ⟨rfl, member, isSource⟩ |
    ⟨member, rfl, isSink⟩
  · exact Or.inl (Or.inr inside)
  · exact Or.inr ⟨p, target, member, Or.inl ⟨rfl, rfl, isSource⟩⟩
  · exact Or.inr ⟨p, source, member, Or.inr ⟨rfl, rfl, isSink⟩⟩

omit formed in
theorem live_sub_entry (bound : p < plan.length) :
    Live iterators plan
      (after.graphs (subAt iterators.heap p)).entry := by
  rw [batched.graphs_sub bound]
  exact live_entryAt bound

/-- A sub-graph consists of its members and its ends. -/
theorem sub_reachable_iff (bound : p < plan.length) :
    after.Reachable (subAt iterators.heap p) node ↔
      node = entryAt iterators.heap p ∨
        InBatch islands.members plan p node ∨
          node = exitAt iterators.heap p := by
  rw [batched.represents.reachable_iff (batched.live_sub_entry bound),
    batched.graphs_sub bound]
  have lift : ∀ {target},
      ReflTransGen (SubEdge iterators islands.members plan state p)
          (entryAt iterators.heap p) target →
        ReflTransGen (Built iterators islands.members plan state)
          (entryAt iterators.heap p) target :=
    fun path =>
      ReflTransGen.mono
        (fun _ _ step => SubEdge.built step) _ _ path
  constructor
  · intro path
    induction path with
    | refl => exact Or.inl rfl
    | tail _ step induction =>
        rcases induction with rfl | member | rfl
        · exact Or.inr (Or.inl ((batched.built_entry formed).mp step).1)
        · rcases (batched.built_member formed member).mp step with
            inside | ⟨isExit, -⟩
          · exact
              Or.inr (Or.inl
                ((batched.inside_inBatch_iff formed inside).mp member))
          · exact Or.inr (Or.inr isExit)
        · exact (batched.built_exit formed _ step).elim
  · rintro (rfl | member | rfl)
    · exact ReflTransGen.refl
    · exact lift (batched.member_between formed member).1
    · obtain ⟨other, member⟩ := batched.exists_member bound
      obtain ⟨above, below⟩ := batched.member_between formed member
      exact lift (above.trans below)

theorem sub_link_iff (bound : p < plan.length) (source target : NodeId) :
    after.Link (subAt iterators.heap p) source target ↔
      SubEdge iterators islands.members plan state p source target := by
  have alive := batched.live_sub_entry bound
  rw [batched.represents.link_iff alive source target,
    ← batched.represents.reachable_iff alive source,
    batched.sub_reachable_iff formed bound]
  constructor
  · rintro ⟨rfl | member | rfl, built⟩
    · obtain ⟨targetIn, isSource⟩ := (batched.built_entry formed).mp built
      exact Or.inr (Or.inl ⟨rfl, targetIn, isSource⟩)
    · rcases (batched.built_member formed member).mp built with
        inside | ⟨isExit, isSink⟩
      · exact
          Or.inl ⟨inside, member,
            (batched.inside_inBatch_iff formed inside).mp member⟩
      · exact Or.inr (Or.inr ⟨member, isExit, isSink⟩)
    · exact (batched.built_exit formed _ built).elim
  · intro edge
    refine ⟨?_, SubEdge.built edge⟩
    rcases edge with ⟨-, member, -⟩ | ⟨rfl, -, -⟩ | ⟨member, -, -⟩
    · exact Or.inr (Or.inl member)
    · exact Or.inl rfl
    · exact Or.inr (Or.inl member)

end Sub

end Batched

/-! ## Batch nodes -/

namespace Batched

variable {heap after : Heap} {iterators : Iterators} {islands : Islands}
  {plan : List Nat} {state : Materialized} {node : NodeId} {p : Nat}
  (batched : Batched heap after iterators islands plan state)

include batched

theorem node_batch {key : Nat} (position : plan[p]? = some key) :
    (after.nodes (batchAt iterators.heap p)).deviceUniqueId =
        islandDevice iterators key (islands.members key) ∧
      (after.nodes (batchAt iterators.heap p)).type = .command ∧
        (after.nodes (batchAt iterators.heap p)).command =
          some (.batch (subAt iterators.heap p)) := by
  rw [Heap.unlinked_deviceUniqueId batched.unlinked_eq,
    Heap.unlinked_type batched.unlinked_eq,
    Heap.unlinked_command batched.unlinked_eq,
    batched.materializes.nodes_batch p key position]
  exact ⟨rfl, rfl, rfl⟩

theorem createdSub_batch (bound : p < plan.length) :
    Heap.createdSub heap after (batchAt iterators.heap p) =
      some (subAt iterators.heap p) := by
  have position := List.getElem?_eq_getElem bound
  rw [Heap.createdSub_eq_some_iff, ← batched.heap_nodeCount]
  exact ⟨batchAt_ge, (batched.node_batch position).2⟩

/-- A fresh node of the top level is the batch node of a batch. -/
theorem top_createdSub (formed : heap.WellFormed iterators.graph)
    (top : after.Reachable iterators.graph node)
    (fresh : heap.nodeCount ≤ node) :
    ∃ p < plan.length, node = batchAt iterators.heap p := by
  obtain ⟨original, reachable, rfl⟩ :=
    (batched.top_reachable_iff formed).mp top
  have member := batched.mem_nodes_iff.mpr reachable
  rcases batched.materializes.block_cases member with ⟨p, inBatch⟩ | ⟨-, self⟩
  · exact
      ⟨p, inBatch.lt, batched.materializes.block_batch member inBatch⟩
  · rw [self] at fresh
    exact (Nat.not_lt.mpr fresh (formed.allocated original reachable)).elim

/-- The batch node has the device of its members. -/
theorem device_eq (member : InBatch islands.members plan p node) :
    (after.nodes (batchAt iterators.heap p)).deviceUniqueId =
      (iterators.heap.nodes node).deviceUniqueId := by
  obtain ⟨key, position, known⟩ := member
  rw [(batched.node_batch position).1, islandDevice]
  have many :=
    (batched.mem_plan_iff key).mp (List.mem_of_getElem? position)
  have enough := isBatched_iff.mp many
  cases first : (islands.members key).find? (isCommand iterators.heap) with
  | none =>
      rw [List.find?_eq_none] at first
      rw [List.countP_eq_zero.mpr (by simpa using first)] at enough
      omega
  | some command =>
      exact
        batched.detected.color_eq (List.mem_of_find?_eq_some first) known

end Batched

/-! ## Losslessness -/

/--
The graph was regrouped without loss: the links of a sub-graph are those between
its members and those of its ends, and no path is lost.
-/
structure Lossless (before : Heap) (graph : GraphId) (after : Heap) :
    Prop extends Heap.Regroups before after graph where
  sub_nodes : ∀ sub node, Heap.Created before after sub →
    after.Reachable sub node →
      before.Reachable graph node ∨ node = (after.graphs sub).entry ∨
        node = (after.graphs sub).exit
  sub_link_iff : ∀ sub, Heap.Created before after sub →
    ∀ source target, after.Link sub source target ↔
      (before.Link graph source target ∧
          after.Reachable sub source ∧ after.Reachable sub target) ∨
        (source = (after.graphs sub).entry ∧
          (before.Reachable graph target ∧ after.Reachable sub target) ∧
          ∀ pred, before.Link graph pred target →
            ¬ after.Reachable sub pred) ∨
        ((before.Reachable graph source ∧ after.Reachable sub source) ∧
          target = (after.graphs sub).exit ∧
          ∀ next, before.Link graph source next →
            ¬ after.Reachable sub next)
  between : ∀ sub node, Heap.Created before after sub →
    after.Reachable sub node →
      MarkSearch.Reach after.successors node (after.graphs sub).exit
  ordered : ∀ source target, before.Reachable graph source →
    MarkSearch.Reach before.successors source target →
      ReflTransGen (Heap.Expanded before after graph) source target

namespace Batched

variable {heap after : Heap} {iterators : Iterators} {islands : Islands}
  {plan : List Nat} {state : Materialized} {node : NodeId} {p : Nat}
  (batched : Batched heap after iterators islands plan state)
  (formed : heap.WellFormed iterators.graph)

include batched formed

/-- An original node is in a sub-graph when it is a member of the batch. -/
theorem sub_original_iff (bound : p < plan.length)
    (reachable : heap.Reachable iterators.graph node) :
    after.Reachable (subAt iterators.heap p) node ↔
      InBatch islands.members plan p node := by
  have old := batched.lt_of_mem formed (batched.mem_nodes_iff.mpr reachable)
  rw [batched.sub_reachable_iff formed bound]
  constructor
  · rintro (rfl | member | rfl)
    · exact (Nat.not_lt.mpr entryAt_ge old).elim
    · exact member
    · exact (Nat.not_lt.mpr exitAt_ge old).elim
  · exact fun member => Or.inr (Or.inl member)

theorem placed (reachable : heap.Reachable iterators.graph node) :
    (after.Reachable iterators.graph node ∧
        ∀ sub, Heap.Created heap after sub → ¬ after.Reachable sub node) ∨
      (¬ after.Reachable iterators.graph node ∧
        ∃! sub, Heap.Created heap after sub ∧ after.Reachable sub node) := by
  have member := batched.mem_nodes_iff.mpr reachable
  rcases batched.materializes.block_cases member with
    ⟨p, inBatch⟩ | ⟨outside, self⟩
  · refine Or.inr ⟨?_, subAt iterators.heap p, ⟨?_, ?_⟩, ?_⟩
    · rw [batched.top_reachable_iff formed]
      rintro ⟨original, reachable', equal⟩
      have old := batched.lt_of_mem formed member
      have self :=
        batched.materializes.eq_of_block_lt
          (batched.mem_nodes_iff.mpr reachable') (equal ▸ old)
      rw [self] at equal
      subst equal
      rw [batched.materializes.block_batch member inBatch] at self
      exact Nat.not_lt.mpr batchAt_ge (self ▸ old)
    · exact (batched.created_iff _).mpr ⟨p, inBatch.lt, rfl⟩
    · exact (batched.sub_original_iff formed inBatch.lt reachable).mpr inBatch
    · rintro sub ⟨created, inside⟩
      obtain ⟨q, bound, rfl⟩ := (batched.created_iff sub).mp created
      rw [batched.sub_original_iff formed bound reachable] at inside
      rw [batched.inBatch_unique formed inside inBatch]
  · refine Or.inl ⟨?_, ?_⟩
    · exact (batched.top_reachable_iff formed).mpr ⟨node, reachable, self⟩
    · intro sub created inside
      obtain ⟨q, bound, rfl⟩ := (batched.created_iff sub).mp created
      rw [batched.sub_original_iff formed bound reachable] at inside
      exact outside q inside

theorem top_cases (top : after.Reachable iterators.graph node) :
    heap.Reachable iterators.graph node ∨
      ∃ sub, Heap.Created heap after sub ∧
        Heap.createdSub heap after node = some sub := by
  obtain ⟨original, reachable, rfl⟩ :=
    (batched.top_reachable_iff formed).mp top
  have member := batched.mem_nodes_iff.mpr reachable
  rcases batched.materializes.block_cases member with ⟨p, inBatch⟩ | ⟨-, self⟩
  · rw [batched.materializes.block_batch member inBatch]
    exact
      Or.inr
        ⟨subAt iterators.heap p,
          (batched.created_iff _).mpr ⟨p, inBatch.lt, rfl⟩,
          batched.createdSub_batch inBatch.lt⟩
  · rw [self]
    exact Or.inl reachable

/-- A node of the top level that holds the sub-graph is its batch node. -/
theorem eq_batchAt (top : after.Reachable iterators.graph node)
    (holds : Heap.createdSub heap after node =
      some (subAt iterators.heap p)) :
    node = batchAt iterators.heap p := by
  have fresh := (Heap.createdSub_eq_some_iff.mp holds).1
  obtain ⟨q, bound', rfl⟩ := batched.top_createdSub formed top fresh
  rw [batched.createdSub_batch bound', Option.some.injEq, subAt_inj] at holds
  rw [holds]

theorem held (bound : p < plan.length) :
    ∃! node, after.Reachable iterators.graph node ∧
      Heap.createdSub heap after node = some (subAt iterators.heap p) := by
  obtain ⟨node, member⟩ := batched.exists_member bound
  have inNodes := batched.inBatch_mem member
  refine
    ⟨batchAt iterators.heap p, ⟨?_, batched.createdSub_batch bound⟩, ?_⟩
  · exact
      (batched.top_reachable_iff formed).mpr
        ⟨node, batched.mem_nodes_iff.mp inNodes,
          batched.materializes.block_batch inNodes member⟩
  · rintro other ⟨top, holds⟩
    exact batched.eq_batchAt formed top holds

theorem members_device {batch : NodeId} {sub : GraphId}
    (top : after.Reachable iterators.graph batch)
    (holds : Heap.createdSub heap after batch = some sub)
    (reachable : heap.Reachable iterators.graph node)
    (inside : after.Reachable sub node) :
    (after.nodes node).deviceUniqueId =
      (after.nodes batch).deviceUniqueId := by
  have fresh := (Heap.createdSub_eq_some_iff.mp holds).1
  obtain ⟨p, bound, rfl⟩ := batched.top_createdSub formed top fresh
  rw [batched.createdSub_batch bound, Option.some.injEq] at holds
  subst holds
  rw [batched.sub_original_iff formed bound reachable] at inside
  rw [batched.device_eq inside,
    (batched.node_kept (formed.allocated node reachable)).1,
    Heap.unmarked_deviceUniqueId batched.iterated.unmarked_eq]

/-- The links of a sub-graph, by the links of the original graph. -/
theorem sub_link_original_iff (bound : p < plan.length)
    (source target : NodeId) :
    after.Link (subAt iterators.heap p) source target ↔
      (heap.Link iterators.graph source target ∧
          after.Reachable (subAt iterators.heap p) source ∧
            after.Reachable (subAt iterators.heap p) target) ∨
        (source = entryAt iterators.heap p ∧
          (heap.Reachable iterators.graph target ∧
            after.Reachable (subAt iterators.heap p) target) ∧
          ∀ pred, heap.Link iterators.graph pred target →
            ¬ after.Reachable (subAt iterators.heap p) pred) ∨
        ((heap.Reachable iterators.graph source ∧
            after.Reachable (subAt iterators.heap p) source) ∧
          target = exitAt iterators.heap p ∧
          ∀ next, heap.Link iterators.graph source next →
            ¬ after.Reachable (subAt iterators.heap p) next) := by
  have inBatchIff : ∀ node,
      (heap.Reachable iterators.graph node ∧
          after.Reachable (subAt iterators.heap p) node) ↔
        InBatch islands.members plan p node := by
    intro node
    constructor
    · rintro ⟨reachable, inside⟩
      exact (batched.sub_original_iff formed bound reachable).mp inside
    · intro member
      have reachable := batched.mem_nodes_iff.mp (batched.inBatch_mem member)
      exact
        ⟨reachable,
          (batched.sub_original_iff formed bound reachable).mpr member⟩
  -- A link between two members of one batch is a link inside.
  have insideIff : ∀ source target,
      heap.Link iterators.graph source target →
        InBatch islands.members plan p source →
          (after.Reachable (subAt iterators.heap p) target ↔
            Inside iterators state source target) := by
    intro source target link member
    rw [← batched.link_eq] at link
    obtain ⟨sourceMember, targetMember⟩ := batched.link_mem link
    rw [batched.sub_original_iff formed bound
        (batched.mem_nodes_iff.mp targetMember),
      batched.inBatch_iff formed targetMember,
      ← (batched.inBatch_iff formed sourceMember).mp member]
    exact ⟨fun same => ⟨link, same.symm⟩, fun inside => inside.2.symm⟩
  have insideIff' : ∀ source target,
      heap.Link iterators.graph source target →
        InBatch islands.members plan p target →
          (after.Reachable (subAt iterators.heap p) source ↔
            Inside iterators state source target) := by
    intro source target link member
    rw [← batched.link_eq] at link
    obtain ⟨sourceMember, targetMember⟩ := batched.link_mem link
    rw [batched.sub_original_iff formed bound
        (batched.mem_nodes_iff.mp sourceMember),
      batched.inBatch_iff formed sourceMember,
      ← (batched.inBatch_iff formed targetMember).mp member]
    exact ⟨fun same => ⟨link, same⟩, fun inside => inside.2⟩
  have linkOf : ∀ {source target}, Inside iterators state source target →
      heap.Link iterators.graph source target := by
    intro source target inside
    rw [← batched.link_eq]
    exact inside.1
  rw [batched.sub_link_iff formed bound, SubEdge]
  simp only [inBatchIff]
  refine or_congr ?_ (or_congr ?_ ?_)
  · constructor
    · rintro ⟨inside, sourceIn, targetIn⟩
      exact
        ⟨linkOf inside, ((inBatchIff source).mpr sourceIn).2,
          ((inBatchIff target).mpr targetIn).2⟩
    · rintro ⟨link, sourceIn, targetIn⟩
      have sourceIn' := (inBatchIff source).mp ⟨link.1, sourceIn⟩
      have targetIn' := (inBatchIff target).mp ⟨link.reachable, targetIn⟩
      exact
        ⟨(insideIff source target link sourceIn').mp targetIn, sourceIn',
          targetIn'⟩
  · refine and_congr_right fun _ => and_congr_right fun member => ?_
    constructor
    · intro isSource pred link inside
      exact isSource pred ((insideIff' pred target link member).mp inside)
    · intro isSource pred inside
      exact
        isSource pred (linkOf inside)
          ((insideIff' pred target (linkOf inside) member).mpr inside)
  · refine and_congr_right fun member => and_congr_right fun _ => ?_
    constructor
    · intro isSink next link inside
      exact isSink next ((insideIff source next link member).mp inside)
    · intro isSink next inside
      exact
        isSink next (linkOf inside)
          ((insideIff source next (linkOf inside) member).mpr inside)

/-- Every path survives the expansion of the batch nodes. -/
theorem ordered {source target : NodeId}
    (reachable : heap.Reachable iterators.graph source)
    (path : MarkSearch.Reach heap.successors source target) :
    ReflTransGen (Heap.Expanded heap after iterators.graph) source target := by
  have oldOf : ∀ {node}, node ∈ iterators.nodes → node < heap.nodeCount :=
    fun member => formed.allocated _ (batched.mem_nodes_iff.mp member)
  have sub : ∀ {p source target}, p < plan.length →
      ReflTransGen (SubEdge iterators islands.members plan state p)
          source target →
        ReflTransGen (Heap.SubLink heap after) source target := by
    intro p source target bound path
    refine ReflTransGen.mono (fun upper lower edge => ?_) _ _ path
    exact
      ⟨subAt iterators.heap p, (batched.created_iff _).mpr ⟨p, bound, rfl⟩,
        (batched.sub_link_iff formed bound upper lower).mpr edge⟩
  have links := reachable.links path
  rw [← batched.link_eq] at links
  have top : after.Link iterators.graph = Outside iterators state := by
    funext upper lower
    exact propext (batched.top_link_iff formed upper lower)
  rw [Heap.Expanded, top]
  refine Digraph.reach_expand ?_ ?_ ?_ links
  · intro upper lower link same
    have inside : Inside iterators state upper lower := ⟨link, same⟩
    obtain ⟨p, upperIn, lowerIn⟩ := batched.inside_inBatch formed inside
    exact
      ⟨subAt iterators.heap p,
        (batched.created_iff _).mpr ⟨p, upperIn.lt, rfl⟩,
        (batched.sub_link_iff formed upperIn.lt upper lower).mpr
          (Or.inl ⟨inside, upperIn, lowerIn⟩)⟩
  · intro upper lower link _
    have member := (batched.link_mem link).1
    rcases batched.materializes.block_cases member with ⟨p, inBatch⟩ | ⟨-, self⟩
    · rw [batched.materializes.block_batch member inBatch,
        Heap.tail_created (batched.createdSub_batch inBatch.lt),
        batched.graphs_sub inBatch.lt]
      exact sub inBatch.lt (batched.member_between formed inBatch).2
    · rw [self, Heap.tail_old (oldOf member)]
  · intro upper lower link _
    have member := (batched.link_mem link).2
    rcases batched.materializes.block_cases member with ⟨p, inBatch⟩ | ⟨-, self⟩
    · rw [batched.materializes.block_batch member inBatch,
        Heap.head_created (batched.createdSub_batch inBatch.lt),
        batched.graphs_sub inBatch.lt]
      exact sub inBatch.lt (batched.member_between formed inBatch).1
    · rw [self, Heap.head_old (oldOf member)]

/-- Every node of a sub-graph reaches its exit. -/
theorem sub_between (bound : p < plan.length)
    (inside : after.Reachable (subAt iterators.heap p) node) :
    MarkSearch.Reach after.successors node (exitAt iterators.heap p) := by
  have down : ∀ {source target},
      ReflTransGen (SubEdge iterators islands.members plan state p)
          source target →
        MarkSearch.Reach after.successors source target := by
    intro source target path
    refine ReflTransGen.mono (fun upper lower edge => ?_) _ _ path
    exact ((batched.sub_link_iff formed bound upper lower).mpr edge).2
  rw [batched.sub_reachable_iff formed bound] at inside
  rcases inside with rfl | member | rfl
  · obtain ⟨other, member⟩ := batched.exists_member bound
    obtain ⟨above, below⟩ := batched.member_between formed member
    exact down (above.trans below)
  · exact down (batched.member_between formed member).2
  · exact ReflTransGen.refl

theorem lossless : Lossless heap iterators.graph after where
  kept := fun node reachable =>
    batched.node_kept (formed.allocated node reachable)
  placed := fun _ reachable => batched.placed formed reachable
  top := fun _ top => batched.top_cases formed top
  held := by
    intro sub created
    obtain ⟨p, bound, rfl⟩ := (batched.created_iff sub).mp created
    exact batched.held formed bound
  device_eq := fun _ _ _ top holds reachable inside =>
    batched.members_device formed top holds reachable inside
  sub_nodes := by
    intro sub node created inside
    obtain ⟨p, bound, rfl⟩ := (batched.created_iff sub).mp created
    rw [batched.graphs_sub bound]
    rcases (batched.sub_reachable_iff formed bound).mp inside with
      isEntry | member | isExit
    · exact Or.inr (Or.inl isEntry)
    · exact Or.inl (batched.mem_nodes_iff.mp (batched.inBatch_mem member))
    · exact Or.inr (Or.inr isExit)
  sub_link_iff := by
    intro sub created source target
    obtain ⟨p, bound, rfl⟩ := (batched.created_iff sub).mp created
    rw [batched.graphs_sub bound]
    exact batched.sub_link_original_iff formed bound source target
  between := by
    intro sub node created inside
    obtain ⟨p, bound, rfl⟩ := (batched.created_iff sub).mp created
    rw [batched.graphs_sub bound]
    exact batched.sub_between formed bound inside
  ordered := fun _ _ reachable path => batched.ordered formed reachable path

end Batched

/-- The batch pass returns, and loses neither work nor ordering. -/
theorem passBatch_lossless (heap : Heap) (graph : GraphId)
    (formed : heap.WellFormed graph) (ready : heap.WalkReady graph)
    (islandOrder : List Nat → List Nat)
    (islandPerm : ∀ list, (islandOrder list).Perm list)
    (matOrder : List (Nat × IslandMat) → List (Nat × IslandMat))
    (matPerm : ∀ list, (matOrder list).Perm list) :
    ∃ after, passBatch islandOrder matOrder heap graph = some after ∧
      Lossless heap graph after := by
  obtain ⟨after, iterators, islands, plan, state, ran, rfl, batched⟩ :=
    passBatch_batched formed ready islandPerm matPerm
  exact ⟨after, ran, batched.lossless formed⟩

/-- Two reads on one device between the entry and the exit. -/
def siblings : Heap :=
  Heap.ofNodes
    [Heap.linkedNode unspecifiedDeviceUniqueId .empty [] [1, 2],
      Heap.readNode 0 [0] [3],
      Heap.readNode 0 [0] [3],
      Heap.linkedNode unspecifiedDeviceUniqueId .empty [1, 2] []]
    { entry := 0, exit := 3, walkId := 0, isSequence := false }

theorem passBatch_lossless_siblings :
    ∃ after, passBatch id id siblings 0 = some after ∧
      Lossless siblings 0 after := by
  have numbered : siblings.Numbered 0 := by decide
  exact
    passBatch_lossless siblings 0 numbered.wellFormed
      (numbered.walkReady (by decide)) id (fun _ => .refl _) id
      (fun _ => .refl _)

/-- The two reads become the members of the batch node 6. -/
example :
    (passBatch id id siblings 0).map (fun heap =>
        (heap.successors 0, heap.successors 6, heap.successors 4)) =
      some ([6], [3], [1, 2]) := by
  decide

end Cgir.Pass.Batch
