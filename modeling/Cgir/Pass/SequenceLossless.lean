import Cgir.Model.Expansion
import Cgir.Model.Numbered
import Cgir.Pass.SequenceBuild

/-!
# The sequence pass is a lossless regrouping

The top level after the pass is the contraction of the links by the chains
(`Sequenced.top_represents`), and every sub-graph is a chain on its own
(`Sequenced.sub_represents`).  Edges enter a chain at its head and leave it at
its tail, so expanding the batch nodes gives the original edges back
(`passSequence_lossless`).
-/

namespace Cgir.Pass.Sequence

open Relation
open Cgir.Library
open Cgir.Model

/-- The sub-graph is the linear path of its original nodes. -/
structure Linear (before : Heap) (graph : GraphId) (after : Heap)
    (sub : GraphId) (path : List NodeId) : Prop where
  nodup : path.Nodup
  head? : path.head? = some (after.graphs sub).entry
  getLast? : path.getLast? = some (after.graphs sub).exit
  original : ∀ node ∈ path, before.Reachable graph node
  reachable_iff : ∀ node, after.Reachable sub node ↔ node ∈ path
  link_iff : ∀ source target,
    after.Link sub source target ↔ [source, target] <:+: path

/--
The graph was regrouped without loss: the top level and the sub-graphs are well
formed, the sub-graphs are paths, and expanding the batch nodes gives the
original edges back.
-/
structure Lossless (before : Heap) (graph : GraphId) (after : Heap) :
    Prop extends Heap.Regroups before after graph where
  formed : after.WellFormed graph
  entry_eq : (after.graphs graph).entry = (before.graphs graph).entry
  exit_eq : (after.graphs graph).exit = (before.graphs graph).exit
  sub_formed : ∀ sub, Heap.Created before after sub → after.WellFormed sub
  linear : ∀ sub, Heap.Created before after sub →
    ∃ path, Linear before graph after sub path
  expanded_iff : ∀ source target,
    Heap.Expanded before after graph source target ↔
      before.Link graph source target

/-- A scan that contracted some chains, and the heap the pass started from. -/
structure Outcome (heap : Heap) (iterators : Iterators) (chains : List Chain)
    (block : NodeId → NodeId) (state : Scan) : Prop
    extends Sequenced iterators chains block state where
  iterated :
    heap.Iterated iterators.graph true iterators.heap iterators.nodes
  formed : heap.WellFormed iterators.graph

namespace Outcome

variable {heap : Heap} {iterators : Iterators} {chains : List Chain}
  {block : NodeId → NodeId} {state : Scan} {node : NodeId} {p : Nat}
  {chain : Chain} (outcome : Outcome heap iterators chains block state)

include outcome

/-! ## Objects before and after -/

theorem indexed_formed : iterators.heap.WellFormed iterators.graph :=
  outcome.formed.congr outcome.iterated.unmarked_eq

theorem link_eq :
    iterators.heap.Link iterators.graph = heap.Link iterators.graph :=
  Heap.link_congr outcome.iterated.unmarked_eq

theorem reachable_eq :
    iterators.heap.Reachable iterators.graph =
      heap.Reachable iterators.graph :=
  Heap.reachable_congr outcome.iterated.unmarked_eq

theorem heap_nodeCount : iterators.heap.nodeCount = heap.nodeCount :=
  Heap.unmarked_nodeCount outcome.iterated.unmarked_eq

theorem heap_graphCount : iterators.heap.graphCount = heap.graphCount :=
  Heap.unmarked_graphCount outcome.iterated.unmarked_eq

/-- The graphs allocated by the pass are the sub-graphs of the chains. -/
theorem created_iff (sub : GraphId) :
    Heap.Created heap state.heap sub ↔
      ∃ (p : Nat) (chain : Chain), chains[p]? = some chain ∧
        sub = subAt iterators.heap p := by
  unfold Heap.Created subAt
  rw [outcome.graphCount_eq, outcome.heap_graphCount]
  constructor
  · rintro ⟨low, high⟩
    obtain ⟨p, rfl⟩ := Nat.exists_eq_add_of_le low
    have bound : p < chains.length := Nat.lt_of_add_lt_add_left high
    exact ⟨p, chains[p], List.getElem?_eq_getElem bound, rfl⟩
  · rintro ⟨p, chain, position, rfl⟩
    have bound := (List.getElem?_eq_some_iff.mp position).1
    exact ⟨Nat.le_add_right _ _, Nat.add_lt_add_left bound _⟩

/-- The pass changes only the lists and the marks of the original nodes. -/
theorem node_kept (reachable : heap.Reachable iterators.graph node) :
    (state.heap.nodes node).deviceUniqueId =
        (heap.nodes node).deviceUniqueId ∧
      (state.heap.nodes node).type = (heap.nodes node).type ∧
        (state.heap.nodes node).command = (heap.nodes node).command := by
  have old := outcome.formed.allocated node reachable
  rw [← outcome.heap_nodeCount] at old
  have object := outcome.node_old node old
  have same := outcome.iterated.unmarked_eq
  rw [← Heap.unmarked_deviceUniqueId same, ← Heap.unmarked_type same,
    ← Heap.unmarked_command same]
  exact
    ⟨(congrArg CommandGraphNode.deviceUniqueId object :),
      (congrArg CommandGraphNode.type object :),
      (congrArg CommandGraphNode.command object :)⟩

theorem graph_kept :
    (state.heap.graphs iterators.graph).entry =
        (heap.graphs iterators.graph).entry ∧
      (state.heap.graphs iterators.graph).exit =
        (heap.graphs iterators.graph).exit := by
  rw [outcome.graphs_old _ outcome.indexed_formed.graph_lt]
  obtain ⟨entry, exit, -⟩ :=
    Heap.unmarked_graphs outcome.iterated.unmarked_eq iterators.graph
  exact ⟨entry, exit⟩

theorem batch_object (position : chains[p]? = some chain) :
    (state.heap.nodes (batchAt iterators.heap p)).deviceUniqueId =
        iterators.device chain.head ∧
      (state.heap.nodes (batchAt iterators.heap p)).type = .command ∧
        (state.heap.nodes (batchAt iterators.heap p)).command =
          some (.batch (subAt iterators.heap p)) := by
  have object := outcome.toSequenced.node_batch p chain position
  exact
    ⟨(congrArg CommandGraphNode.deviceUniqueId object :),
      (congrArg CommandGraphNode.type object :),
      (congrArg CommandGraphNode.command object :)⟩

theorem createdSub_batch (position : chains[p]? = some chain) :
    Heap.createdSub heap state.heap (batchAt iterators.heap p) =
      some (subAt iterators.heap p) := by
  rw [Heap.createdSub_eq_some_iff, ← outcome.heap_nodeCount]
  exact ⟨Nat.le_add_right _ _, (outcome.batch_object position).2⟩

theorem head_batch (position : chains[p]? = some chain) :
    Heap.head heap state.heap (batchAt iterators.heap p) = chain.head := by
  rw [Heap.head_created (outcome.createdSub_batch position),
    outcome.graphs_sub p chain position]

theorem tail_batch (position : chains[p]? = some chain) :
    Heap.tail heap state.heap (batchAt iterators.heap p) = chain.tail := by
  rw [Heap.tail_created (outcome.createdSub_batch position),
    outcome.graphs_sub p chain position]

theorem lt_of_reachable (reachable : heap.Reachable iterators.graph node) :
    node < iterators.heap.nodeCount := by
  rw [outcome.heap_nodeCount]
  exact outcome.formed.allocated node reachable

theorem inChain_reachable (member : InChain chains p node) :
    heap.Reachable iterators.graph node := by
  rw [← outcome.reachable_eq]
  exact outcome.reachable p node member

theorem inChain_iff (reachable : heap.Reachable iterators.graph node) :
    InChain chains p node ↔ block node = batchAt iterators.heap p := by
  constructor
  · exact outcome.block_chain p node
  · intro isBatch
    rcases outcome.block_cases node with ⟨q, member, same⟩ | ⟨-, self⟩
    · rw [same] at isBatch
      exact Nat.add_left_cancel isBatch ▸ member
    · rw [self] at isBatch
      have old := outcome.lt_of_reachable reachable
      rw [isBatch] at old
      exact (Nat.not_lt.mpr (Nat.le_add_right _ _) old).elim

/-- The ends of the links between two blocks are the ends of the blocks. -/
theorem ends :
    Digraph.Ends (heap.Link iterators.graph) block
      (Heap.head heap state.heap) (Heap.tail heap state.heap) := by
  have oldOf : ∀ {node}, heap.Reachable iterators.graph node →
      node < heap.nodeCount := outcome.formed.allocated _
  constructor
  · intro source target link apart
    rcases outcome.block_cases source with
      ⟨p, ⟨chain, position, member⟩, isBatch⟩ | ⟨-, self⟩
    · rw [isBatch, outcome.tail_batch position]
      by_contra notTail
      rw [← outcome.link_eq] at link
      have inside :=
        (outcome.straight p chain position).next_mem member
          (Ne.symm notTail) link
      rw [isBatch, outcome.block_chain p target ⟨chain, position, inside⟩]
        at apart
      exact apart rfl
    · rw [self, Heap.tail_old (oldOf link.1)]
  · intro source target link apart
    rcases outcome.block_cases target with
      ⟨p, ⟨chain, position, member⟩, isBatch⟩ | ⟨-, self⟩
    · rw [isBatch, outcome.head_batch position]
      by_contra notHead
      rw [← outcome.link_eq] at link
      have inside :=
        (outcome.straight p chain position).prev_mem member
          (Ne.symm notHead) link
      rw [isBatch, outcome.block_chain p source ⟨chain, position, inside⟩]
        at apart
      exact apart rfl
    · rw [self, Heap.head_old (oldOf link.reachable)]

/-- A link within a block is a link within a chain. -/
theorem link_inChain {source target : NodeId}
    (link : heap.Link iterators.graph source target)
    (same : block source = block target) :
    ∃ p, InChain chains p source ∧ InChain chains p target := by
  rcases outcome.block_cases source with ⟨p, member, isBatch⟩ | ⟨-, self⟩
  · refine ⟨p, member, ?_⟩
    rw [outcome.inChain_iff link.reachable, ← same]
    exact isBatch
  · rw [self] at same
    have old := outcome.lt_of_reachable link.1
    rw [same] at old
    have equal := outcome.eq_of_block_lt old
    rw [← same] at equal
    subst equal
    exact (outcome.formed.acyclic _ (TransGen.single link)).elim

/-! ## The top level -/

/-- The lists of the representatives record the contracted links. -/
theorem top_represents :
    state.heap.Represents
      (fun node => ∃ original, heap.Reachable iterators.graph original ∧
        block original = node)
      (Digraph.Contract (heap.Link iterators.graph) block) := by
  have notInChain : ∀ {original : NodeId} {p : Nat},
      heap.Reachable iterators.graph original →
        ¬ InChain chains p (block original) := by
    intro original p reachable member
    have old := outcome.lt_of_reachable (outcome.inChain_reachable member)
    have self := outcome.eq_of_block_lt old
    rw [← self] at member old
    rw [outcome.block_chain p original member] at self
    rw [self] at old
    exact Nat.not_lt.mpr (Nat.le_add_right _ _) old
  refine
    (outcome.represents.restrict ?_ ?_).congr_edge fun source target => ?_
  · rintro _ ⟨original, reachable, rfl⟩
    rcases outcome.block_cases original with ⟨p, member, isBatch⟩ | ⟨-, self⟩
    · exact Or.inr ⟨p, member.lt, isBatch⟩
    · rw [self]
      exact Or.inl (outcome.reachable_eq ▸ reachable)
  · rintro source target (⟨-, from', to', link, rfl, rfl⟩ | ⟨link, same⟩)
    · rw [outcome.link_eq] at link
      exact
        iff_of_true ⟨from', link.1, rfl⟩ ⟨to', link.reachable, rfl⟩
    · rw [outcome.link_eq] at link
      obtain ⟨p, sourceIn, targetIn⟩ := outcome.link_inChain link same
      refine iff_of_false ?_ ?_
      · rintro ⟨original, reachable, rfl⟩
        exact notInChain reachable sourceIn
      · rintro ⟨original, reachable, rfl⟩
        exact notInChain reachable targetIn
  · rw [StraightPath.Regroup, outcome.link_eq]
    constructor
    · intro contract
      obtain ⟨-, from', to', link, rfl, -⟩ := id contract
      exact ⟨Or.inl contract, from', link.1, rfl⟩
    · rintro ⟨contract | ⟨link, same⟩, original, reachable, rfl⟩
      · exact contract
      · obtain ⟨p, sourceIn, -⟩ := outcome.link_inChain link same
        exact (notInChain reachable sourceIn).elim

/-- The entry and the exit are in no chain. -/
theorem block_boundary
    (isBoundary : node = (heap.graphs iterators.graph).entry ∨
      node = (heap.graphs iterators.graph).exit) :
    block node = node := by
  refine outcome.block_other node fun p member => ?_
  have candidate := outcome.candidate p node member
  obtain ⟨entry, exit, -⟩ :=
    Heap.unmarked_graphs outcome.iterated.unmarked_eq iterators.graph
  rw [isCand, entry, exit] at candidate
  rcases isBoundary with isEntry | isExit
  · simp [isEntry] at candidate
  · simp [isExit] at candidate

theorem top_entry :
    ∃ original, heap.Reachable iterators.graph original ∧
      block original = (state.heap.graphs iterators.graph).entry := by
  rw [outcome.graph_kept.1]
  exact
    ⟨_, Heap.reachable_entry, outcome.block_boundary (Or.inl rfl)⟩

/-- The entry reaches every representative. -/
theorem top_spans (node : NodeId)
    (top : ∃ original, heap.Reachable iterators.graph original ∧
      block original = node) :
    ReflTransGen (Digraph.Contract (heap.Link iterators.graph) block)
      (state.heap.graphs iterators.graph).entry node := by
  obtain ⟨original, reachable, rfl⟩ := top
  have path : ReflTransGen _ (block _) (block original) :=
    Digraph.reach_contract
      (Heap.Reachable.links Heap.reachable_entry reachable)
  rw [outcome.block_boundary (Or.inl rfl)] at path
  rw [outcome.graph_kept.1]
  exact path

theorem top_reachable_iff :
    state.heap.Reachable iterators.graph node ↔
      ∃ original, heap.Reachable iterators.graph original ∧
        block original = node :=
  outcome.top_represents.live_iff outcome.top_entry outcome.top_spans node

theorem top_link_eq :
    state.heap.Link iterators.graph =
      Digraph.Contract (heap.Link iterators.graph) block := by
  funext source target
  exact
    propext
      (outcome.top_represents.edge_iff outcome.top_entry outcome.top_spans
        source target)

/-- A path leads through every chain. -/
private theorem through {source target : NodeId}
    (link : heap.Link iterators.graph source target) :
    ReflTransGen (heap.Link iterators.graph)
      (Heap.head heap state.heap (block target))
      (Heap.tail heap state.heap (block target)) := by
  rcases outcome.block_cases target with
    ⟨p, ⟨chain, position, member⟩, isBatch⟩ | ⟨-, self⟩
  · have straight := outcome.straight p chain position
    rw [isBatch, outcome.head_batch position, outcome.tail_batch position,
      ← outcome.link_eq]
    exact (straight.between straight.last_mem).1
  · have old := outcome.formed.allocated _ link.reachable
    rw [self, Heap.head_old old, Heap.tail_old old]

/-- The top level is well formed. -/
theorem top_formed : state.heap.WellFormed iterators.graph := by
  refine
    Heap.WellFormed.of_represents outcome.top_represents ?_ ?_
      outcome.top_entry outcome.top_spans ?_
      (outcome.ends.acyclic_contract outcome.formed.acyclic
        fun _ _ link => outcome.through link)
  · rw [outcome.graphCount_eq, outcome.heap_graphCount]
    exact Nat.lt_add_right _ outcome.formed.graph_lt
  · rintro _ ⟨original, reachable, rfl⟩
    rw [outcome.nodeCount_eq]
    rcases outcome.block_cases original with ⟨p, member, isBatch⟩ | ⟨-, self⟩
    · rw [isBatch]
      exact Nat.add_lt_add_left member.lt _
    · rw [self]
      exact Nat.lt_add_right _ (outcome.lt_of_reachable reachable)
  · rintro _ ⟨original, reachable, rfl⟩
    have path : ReflTransGen _ (block original) (block _) :=
      Digraph.reach_contract
        (reachable.links (outcome.formed.reaches_exit original reachable))
    rw [outcome.block_boundary (Or.inr rfl)] at path
    rw [outcome.graph_kept.2]
    exact path

/-! ## The sub-graphs -/

section Sub

variable (position : chains[p]? = some chain)

include position

/-- The lists of the members of a chain record the links between them. -/
theorem sub_represents :
    state.heap.Represents (fun node => node ∈ chain.members)
      (fun source target => iterators.heap.Link iterators.graph source target ∧
        source ∈ chain.members ∧ target ∈ chain.members) := by
  have block_mem : ∀ {node}, node ∈ chain.members →
      block node = batchAt iterators.heap p :=
    fun member => outcome.block_chain p _ ⟨chain, position, member⟩
  -- A member represents no node, itself included.
  have block_ne : ∀ {node other}, node ∈ chain.members →
      block other ≠ node := by
    rintro _ other member rfl
    have reachable :=
      outcome.inChain_reachable ⟨chain, position, member⟩
    have old := outcome.lt_of_reachable reachable
    have self := outcome.eq_of_block_lt old
    rw [← self] at member old
    rw [block_mem member] at self
    rw [self] at old
    exact Nat.not_lt.mpr (Nat.le_add_right _ _) old
  have mem_iff : ∀ {source target},
      iterators.heap.Link iterators.graph source target →
        block source = block target →
          (source ∈ chain.members ↔ target ∈ chain.members) := by
    intro source target link same
    rw [outcome.link_eq] at link
    rw [← inChain_iff_mem position, ← inChain_iff_mem position, outcome.inChain_iff link.1,
      outcome.inChain_iff link.reachable, same]
  refine
    (outcome.represents.restrict ?_ ?_).congr_edge fun source target => ?_
  · intro node member
    exact Or.inl (outcome.reachable p node ⟨chain, position, member⟩)
  · rintro source target (⟨-, from', to', -, rfl, rfl⟩ | ⟨link, same⟩)
    · exact iff_of_false (fun member => block_ne member rfl)
        (fun member => block_ne member rfl)
    · exact mem_iff link same
  · constructor
    · rintro ⟨link, sourceMem, targetMem⟩
      refine ⟨Or.inr ⟨link, ?_⟩, sourceMem⟩
      rw [block_mem sourceMem, block_mem targetMem]
    · rintro ⟨⟨-, from', to', -, rfl, rfl⟩ | ⟨link, same⟩, sourceMem⟩
      · exact (block_ne sourceMem rfl).elim
      · exact ⟨link, sourceMem, (mem_iff link same).mp sourceMem⟩

theorem sub_entry :
    (state.heap.graphs (subAt iterators.heap p)).entry ∈ chain.members := by
  rw [outcome.graphs_sub p chain position]
  exact (outcome.straight p chain position).first_mem

theorem sub_spans (node : NodeId) (member : node ∈ chain.members) :
    ReflTransGen
      (fun source target => iterators.heap.Link iterators.graph source target ∧
        source ∈ chain.members ∧ target ∈ chain.members)
      (state.heap.graphs (subAt iterators.heap p)).entry node := by
  rw [outcome.graphs_sub p chain position]
  exact ((outcome.straight p chain position).between_within member).1

theorem sub_reachable_iff :
    state.heap.Reachable (subAt iterators.heap p) node ↔
      node ∈ chain.members :=
  (outcome.sub_represents position).live_iff (outcome.sub_entry position)
    (outcome.sub_spans position) node

theorem sub_link_iff (source target : NodeId) :
    state.heap.Link (subAt iterators.heap p) source target ↔
      iterators.heap.Link iterators.graph source target ∧
        source ∈ chain.members ∧ target ∈ chain.members :=
  (outcome.sub_represents position).edge_iff (outcome.sub_entry position)
    (outcome.sub_spans position) source target

theorem sub_formed : state.heap.WellFormed (subAt iterators.heap p) := by
  refine
    Heap.WellFormed.of_represents (outcome.sub_represents position) ?_ ?_
      (outcome.sub_entry position) (outcome.sub_spans position) ?_
      (outcome.indexed_formed.acyclic.mono fun _ _ => And.left)
  · rw [outcome.graphCount_eq]
    exact Nat.add_lt_add_left (List.getElem?_eq_some_iff.mp position).1 _
  · intro node member
    rw [outcome.nodeCount_eq]
    exact
      Nat.lt_add_right _
        (outcome.lt_of_reachable
          (outcome.inChain_reachable ⟨chain, position, member⟩))
  · intro node member
    rw [outcome.graphs_sub p chain position]
    exact ((outcome.straight p chain position).between_within member).2

theorem linear :
    Linear heap iterators.graph state.heap (subAt iterators.heap p)
      chain.members where
  nodup :=
    (outcome.straight p chain position).nodup outcome.indexed_formed.acyclic
  head? := by
    rw [outcome.graphs_sub p chain position]
    exact (outcome.straight p chain position).head?
  getLast? := by
    rw [outcome.graphs_sub p chain position]
    exact (outcome.straight p chain position).getLast?
  original := fun _ member =>
    outcome.inChain_reachable ⟨chain, position, member⟩
  reachable_iff := fun _ => outcome.sub_reachable_iff position
  link_iff := by
    intro source target
    rw [outcome.sub_link_iff position,
      (outcome.straight p chain position).infix_iff
        outcome.indexed_formed.acyclic]

/-- The batch node of a chain is the only one that holds its sub-graph. -/
theorem held :
    ∃! node, state.heap.Reachable iterators.graph node ∧
      Heap.createdSub heap state.heap node =
        some (subAt iterators.heap p) := by
  have headIn : InChain chains p chain.head :=
    ⟨chain, position, (outcome.straight p chain position).first_mem⟩
  refine
    ⟨batchAt iterators.heap p, ⟨?_, outcome.createdSub_batch position⟩, ?_⟩
  · exact
      outcome.top_reachable_iff.mpr
        ⟨chain.head, outcome.inChain_reachable headIn,
          outcome.block_chain p _ headIn⟩
  · rintro other ⟨top, holds⟩
    obtain ⟨original, reachable, rfl⟩ := outcome.top_reachable_iff.mp top
    rcases outcome.block_cases original with
      ⟨q, ⟨chain', position', member⟩, isBatch⟩ | ⟨-, self⟩
    · rw [isBatch, outcome.createdSub_batch position', Option.some.injEq]
        at holds
      rw [isBatch, Nat.add_left_cancel holds]
    · rw [self, Heap.createdSub_old (outcome.formed.allocated _ reachable)]
        at holds
      exact (Option.some_ne_none _ holds.symm).elim

end Sub

/-! ## Losslessness -/

theorem placed (reachable : heap.Reachable iterators.graph node) :
    (state.heap.Reachable iterators.graph node ∧
        ∀ sub, Heap.Created heap state.heap sub →
          ¬ state.heap.Reachable sub node) ∨
      (¬ state.heap.Reachable iterators.graph node ∧
        ∃! sub, Heap.Created heap state.heap sub ∧
          state.heap.Reachable sub node) := by
  rcases outcome.block_cases node with
    ⟨p, ⟨chain, position, member⟩, isBatch⟩ | ⟨outside, self⟩
  · refine Or.inr ⟨?_, subAt iterators.heap p, ⟨?_, ?_⟩, ?_⟩
    · rw [outcome.top_reachable_iff]
      rintro ⟨original, -, equal⟩
      have old := outcome.lt_of_reachable reachable
      have same := outcome.eq_of_block_lt (equal.symm ▸ old)
      rw [equal] at same
      subst same
      rw [equal] at isBatch
      rw [isBatch] at old
      exact Nat.not_lt.mpr (Nat.le_add_right _ _) old
    · exact (outcome.created_iff _).mpr ⟨p, chain, position, rfl⟩
    · exact (outcome.sub_reachable_iff position).mpr member
    · rintro sub ⟨created, inside⟩
      obtain ⟨q, chain', position', rfl⟩ := (outcome.created_iff sub).mp created
      rw [outcome.sub_reachable_iff position'] at inside
      have same :=
        outcome.inChain_unique ⟨chain', position', inside⟩
          ⟨chain, position, member⟩
      rw [same]
  · refine Or.inl ⟨?_, ?_⟩
    · exact outcome.top_reachable_iff.mpr ⟨node, reachable, self⟩
    · intro sub created inside
      obtain ⟨q, chain, position, rfl⟩ := (outcome.created_iff sub).mp created
      rw [outcome.sub_reachable_iff position] at inside
      exact outside q ⟨chain, position, inside⟩

theorem top_cases (top : state.heap.Reachable iterators.graph node) :
    heap.Reachable iterators.graph node ∨
      ∃ sub, Heap.Created heap state.heap sub ∧
        Heap.createdSub heap state.heap node = some sub := by
  obtain ⟨original, reachable, rfl⟩ := outcome.top_reachable_iff.mp top
  rcases outcome.block_cases original with
    ⟨p, ⟨chain, position, -⟩, isBatch⟩ | ⟨-, self⟩
  · rw [isBatch]
    exact
      Or.inr
        ⟨subAt iterators.heap p,
          (outcome.created_iff _).mpr ⟨p, chain, position, rfl⟩,
          outcome.createdSub_batch position⟩
  · rw [self]
    exact Or.inl reachable

theorem members_device {batch : NodeId} {sub : GraphId}
    (top : state.heap.Reachable iterators.graph batch)
    (holds : Heap.createdSub heap state.heap batch = some sub)
    (reachable : heap.Reachable iterators.graph node)
    (inside : state.heap.Reachable sub node) :
    (state.heap.nodes node).deviceUniqueId =
      (state.heap.nodes batch).deviceUniqueId := by
  obtain ⟨original, reachable', rfl⟩ := outcome.top_reachable_iff.mp top
  rcases outcome.block_cases original with
    ⟨p, ⟨chain, position, -⟩, isBatch⟩ | ⟨-, self⟩
  · rw [isBatch, outcome.createdSub_batch position, Option.some.injEq]
      at holds
    subst holds
    rw [outcome.sub_reachable_iff position] at inside
    rw [isBatch, (outcome.batch_object position).1,
      (outcome.node_kept reachable).1,
      ← outcome.device_eq p chain position node inside, Iterators.device,
      Heap.unmarked_deviceUniqueId outcome.iterated.unmarked_eq]
  · rw [self, Heap.createdSub_old (outcome.formed.allocated _ reachable')]
      at holds
    exact (Option.some_ne_none _ holds.symm).elim

/-- The links of the sub-graphs are the links within the blocks. -/
theorem subLink_iff (source target : NodeId) :
    Heap.SubLink heap state.heap source target ↔
      heap.Link iterators.graph source target ∧
        block source = block target := by
  constructor
  · rintro ⟨sub, created, link⟩
    obtain ⟨p, chain, position, rfl⟩ := (outcome.created_iff sub).mp created
    rw [outcome.sub_link_iff position, outcome.link_eq] at link
    obtain ⟨original, sourceMem, targetMem⟩ := link
    refine ⟨original, ?_⟩
    rw [outcome.block_chain p source ⟨chain, position, sourceMem⟩,
      outcome.block_chain p target ⟨chain, position, targetMem⟩]
  · rintro ⟨link, same⟩
    obtain ⟨p, ⟨chain, position, sourceMem⟩, targetIn⟩ :=
      outcome.link_inChain link same
    have targetMem := (inChain_iff_mem position).mp targetIn
    refine
      ⟨subAt iterators.heap p,
        (outcome.created_iff _).mpr ⟨p, chain, position, rfl⟩, ?_⟩
    rw [outcome.sub_link_iff position, outcome.link_eq]
    exact ⟨link, sourceMem, targetMem⟩

theorem lossless : Lossless heap iterators.graph state.heap where
  kept := fun _ reachable => outcome.node_kept reachable
  placed := fun _ reachable => outcome.placed reachable
  top := fun _ top => outcome.top_cases top
  held := by
    intro sub created
    obtain ⟨p, chain, position, rfl⟩ := (outcome.created_iff sub).mp created
    exact outcome.held position
  device_eq := fun _ _ _ top holds reachable inside =>
    outcome.members_device top holds reachable inside
  formed := outcome.top_formed
  entry_eq := outcome.graph_kept.1
  exit_eq := outcome.graph_kept.2
  sub_formed := by
    intro sub created
    obtain ⟨p, chain, position, rfl⟩ := (outcome.created_iff sub).mp created
    exact outcome.sub_formed position
  linear := by
    intro sub created
    obtain ⟨p, chain, position, rfl⟩ := (outcome.created_iff sub).mp created
    exact ⟨chain.members, outcome.linear position⟩
  expanded_iff := by
    intro source target
    rw [Heap.Expanded, outcome.top_link_eq]
    exact outcome.ends.expand_iff outcome.subLink_iff source target

end Outcome

/-- The sequence pass returns, and is a lossless regrouping. -/
theorem passSequence_lossless (heap : Heap) (graph : GraphId)
    (formed : heap.WellFormed graph) (ready : heap.WalkReady graph) :
    ∃ after, passSequence heap graph = some after ∧
      Lossless heap graph after := by
  obtain ⟨iterators, chains, block, state, -, ran, rfl, -, iterated,
      sequenced, -⟩ :=
    passSequence_sequenced formed ready
  have outcome : Outcome heap iterators chains block state :=
    { sequenced with iterated := iterated, formed := formed }
  exact ⟨state.heap, ran, outcome.lossless⟩

/-- Three tasks in a row on one device, between the entry and the exit. -/
def taskRow : Heap :=
  Heap.ofNodes
    [Heap.linkedNode unspecifiedDeviceUniqueId .empty [] [1],
      Heap.taskNode 0 [0] [2],
      Heap.taskNode 0 [1] [3],
      Heap.taskNode 0 [2] [4],
      Heap.linkedNode unspecifiedDeviceUniqueId .empty [3] []]
    { entry := 0, exit := 4, walkId := 0, isSequence := false }

theorem passSequence_lossless_taskRow :
    ∃ after, passSequence taskRow 0 = some after ∧
      Lossless taskRow 0 after := by
  have numbered : taskRow.Numbered 0 := by decide
  exact
    passSequence_lossless taskRow 0 numbered.wellFormed
      (numbered.walkReady (by decide))

/-- The three tasks become the sub-graph of the batch node 5. -/
example :
    (passSequence taskRow 0).map (fun heap =>
        (heap.successors 0, heap.successors 5, (heap.graphs 1).entry,
          (heap.graphs 1).exit)) =
      some ([5], [4], 1, 3) := by
  decide

end Cgir.Pass.Sequence
