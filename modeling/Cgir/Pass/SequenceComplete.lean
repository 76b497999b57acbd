import Cgir.Pass.SequenceChains
import Mathlib.Algebra.Order.BigOperators.Group.List
import Mathlib.Algebra.Order.Group.Nat

/-!
# The sequence pass finds all sequences

After the scan the contracted chains are the components of the sequence edges
with two or more commands (`Scanned.of_run`), so the batch nodes correspond to
these components one to one.  A sequence edge of the result is one of the
original graph, so a second run finds nothing to contract
(`passSequence_complete`).
-/

namespace Cgir.Pass.Sequence

open Relation
open Cgir.Library
open Cgir.Model

/-! ## Heaps that differ in their marks -/

section Unmarked

variable {heap heap' : Heap} (same : heap'.unmarked = heap.unmarked)

include same

theorem isCand_congr : isCand heap' = isCand heap := by
  funext graph x
  obtain ⟨entry, exit, -⟩ := Heap.unmarked_graphs same graph
  unfold isCand nodeIsSeqable
  rw [entry, exit, Heap.unmarked_type same, Heap.unmarked_command same]

theorem seqEdge_congr : SeqEdge heap' = SeqEdge heap := by
  funext graph u v
  apply propext
  constructor <;> intro edge
  · exact {
      sole := Heap.link_congr same ▸ edge.sole
      source := isCand_congr same ▸ edge.source
      target := isCand_congr same ▸ edge.target
      device_eq := by
        have device := edge.device_eq
        rwa [Heap.unmarked_deviceUniqueId same,
          Heap.unmarked_deviceUniqueId same] at device }
  · exact {
      sole := (Heap.link_congr same).symm ▸ edge.sole
      source := (isCand_congr same).symm ▸ edge.source
      target := (isCand_congr same).symm ▸ edge.target
      device_eq := by
        rw [Heap.unmarked_deviceUniqueId same,
          Heap.unmarked_deviceUniqueId same]
        exact edge.device_eq }

theorem commands_congr : commands heap' = commands heap := by
  funext run
  unfold commands commandCount
  simp only [Heap.unmarked_type same]

end Unmarked

/-- A part of a list has no more commands than the list. -/
theorem commands_mono (heap : Heap) {part run : List NodeId}
    (nodup : part.Nodup) (subset : part ⊆ run) :
    commands heap part ≤ commands heap run := by
  obtain ⟨list, perm, sublist⟩ := nodup.subperm subset
  calc commands heap part
      = commands heap list := (perm.map _).sum_eq.symm
    _ ≤ commands heap run :=
        (sublist.map _).sum_le_sum fun _ _ => Nat.zero_le _

/-- A list along sequence edges has no duplicates. -/
theorem nodup_of_seqEdges {heap : Heap} {graph : GraphId}
    (acyclic : Digraph.Acyclic (heap.Link graph)) {run : List NodeId}
    (inOrder : List.IsChain (SeqEdge heap graph) run) : run.Nodup := by
  have paths : List.IsChain (TransGen (heap.Link graph)) run :=
    inOrder.imp fun _ _ edge => TransGen.single edge.sole.step
  apply paths.pairwise.imp
  rintro u v path rfl
  exact acyclic u path

/-! ## The whole scan -/

/-- A whole scan finds the strands that its nodes meet. -/
theorem Scanned.of_run {iterators : Iterators} {k : Nat}
    {chains : List Chain} {state : Scan} (valid : iterators.Valid)
    (sorted : MarkSearch.PreSorted iterators.heap.successors
      (iterators.heap.graphs iterators.graph).entry iterators.nodes)
    (formed : iterators.heap.WellFormed iterators.graph)
    (run : ScanRun iterators k chains state) :
    Scanned iterators k chains state := by
  induction run with
  | start =>
      have unmet : ∀ run, ¬ Met iterators 0 run := by
        rintro run ⟨h, -, before⟩
        exact Nat.not_lt_zero _ before
      exact {
        strand := by simp
        found := fun run _ _ met => (unmet run met).elim
        contracted_iff := by
          intro n reachable
          refine iff_of_false Bool.false_ne_true ?_
          rintro ⟨run, -, -, -, met⟩
          exact unmet run met
        idle := fun _ => rfl }
  | step run bound sequenced scans induction =>
      exact scanned_step valid sorted formed bound sequenced induction scans

/-- A sequence of two or more needs a vector of three or more. -/
theorem count_of_long {iterators : Iterators} (valid : iterators.Valid)
    (acyclic : Digraph.Acyclic (iterators.heap.Link iterators.graph))
    {run : List NodeId} (strand : SeqStrand iterators run)
    (long : 2 ≤ run.length) : 2 < iterators.count := by
  have nodup := nodup_of_seqEdges acyclic strand.inOrder
  have noEntry :
      (iterators.heap.graphs iterators.graph).entry ∉ run := by
    intro member
    have candidate := (mem_of_seqEdges strand.inOrder long member).2
    simp [isCand] at candidate
  have subset :
      (iterators.heap.graphs iterators.graph).entry :: run ⊆
        iterators.nodes := by
    intro n member
    rw [valid.mem_iff]
    rcases List.mem_cons.mp member with rfl | inside
    · exact Heap.reachable_entry
    · exact (mem_of_seqEdges strand.inOrder long inside).1
  have length :=
    ((List.nodup_cons.mpr ⟨noEntry, nodup⟩).subperm subset).length_le
  rw [List.length_cons] at length
  exact Nat.lt_of_lt_of_le (Nat.succ_lt_succ_iff.mpr long) length

/-! ## Sequences and batch nodes -/

/-- A component of the sequence edges with two or more commands. -/
structure TaskSequence (heap : Heap) (graph : GraphId) (run : List NodeId) :
    Prop where
  strand : Strand (SeqEdge heap graph) run
  enough : 2 ≤ commands heap run

/--
The sub-graphs are the sequences, one each, in order, and the other nodes and
the edges between them stay where they are.
-/
structure Complete (before : Heap) (graph : GraphId) (after : Heap) :
    Prop where
  sequence : ∀ sub, Heap.Created before after sub →
    ∃! run, TaskSequence before graph run ∧ Linear before graph after sub run
  batch : ∀ run, TaskSequence before graph run →
    ∃! sub, Heap.Created before after sub ∧
      Linear before graph after sub run
  moved_iff : ∀ node, before.Reachable graph node →
    (¬ after.Reachable graph node ↔
      ∃ run, TaskSequence before graph run ∧ node ∈ run)
  link_iff : ∀ source target, before.Reachable graph source →
    before.Reachable graph target → after.Reachable graph source →
      after.Reachable graph target →
        (after.Link graph source target ↔ before.Link graph source target)

/-- A scan that contracted all sequences. -/
structure Found (heap : Heap) (iterators : Iterators) (chains : List Chain)
    (block : NodeId → NodeId) (state : Scan) : Prop
    extends Outcome heap iterators chains block state where
  chain_sequence : ∀ (p : Nat) (chain : Chain), chains[p]? = some chain →
    TaskSequence heap iterators.graph chain.members
  sequence_chain : ∀ run, TaskSequence heap iterators.graph run →
    ∃ (p : Nat) (chain : Chain), chains[p]? = some chain ∧
      chain.members = run
  unique : ∀ run other, TaskSequence heap iterators.graph run →
    Strand (SeqEdge heap iterators.graph) other → ∀ u ∈ run, u ∈ other →
      run = other
  covered : ∀ u, ∃ run, Strand (SeqEdge heap iterators.graph) run ∧ u ∈ run
  idle : chains = [] → state.heap = iterators.heap

/-- The pass finds all sequences. -/
theorem passSequence_found {heap : Heap} {graph : GraphId}
    (formed : heap.WellFormed graph) (ready : heap.WalkReady graph) :
    ∃ iterators chains block state,
      passSequence heap graph = some state.heap ∧
        iterators.graph = graph ∧
          Found heap iterators chains block state := by
  obtain ⟨iterators, chains, block, state, k, ran, rfl, made, iterated,
      sequenced, run, whole⟩ :=
    passSequence_sequenced formed ready
  have same := iterated.unmarked_eq
  have valid : iterators.Valid := Iterators.valid_of_iterated iterated
  have formed' := formed.congr same
  have sorted : MarkSearch.PreSorted iterators.heap.successors
      (iterators.heap.graphs iterators.graph).entry iterators.nodes := by
    obtain ⟨visited, all, -, made', -, sorted⟩ :=
      Heap.createNodeIterators_order formed.allocated ready
    rw [made, Option.some.injEq, Prod.mk.injEq] at made'
    rw [Heap.unmarked_successors same, (Heap.unmarked_graphs same _).1,
      made'.2]
    exact sorted
  have scanned := Scanned.of_run valid sorted formed' run
  have sequence_iff : ∀ {members : List NodeId},
      TaskSequence heap iterators.graph members ↔
        SeqStrand iterators members ∧
          2 ≤ commands iterators.heap members := by
    intro members
    rw [SeqStrand, seqEdge_congr same, commands_congr same]
    exact ⟨fun sequence => ⟨sequence.1, sequence.2⟩,
      fun both => ⟨both.1, both.2⟩⟩
  refine ⟨iterators, chains, block, state, ran, rfl, ?_⟩
  exact {
    sequenced with
    iterated := iterated
    formed := formed
    chain_sequence := fun p chain position =>
      sequence_iff.mpr (scanned.strand p chain position)
    sequence_chain := by
      intro members sequence
      obtain ⟨strand, enough⟩ := sequence_iff.mp sequence
      have long := enough.trans (commands_le_length _ members)
      have scannedAll : k = iterators.count :=
        whole.resolve_left
          (Nat.not_le.mpr (count_of_long valid formed'.acyclic strand long))
      apply scanned.found members strand enough
      obtain ⟨u, rest, rfl⟩ := List.exists_cons_of_ne_nil strand.nonempty
      refine ⟨u, List.mem_cons_self, ?_⟩
      rw [scannedAll]
      exact
        valid.index_lt
          ((valid.mem_iff u).mpr
            (mem_of_seqEdges strand.inOrder long List.mem_cons_self).1)
    unique := by
      intro members other sequence strand u member member'
      rw [← seqEdge_congr same] at strand
      exact
        SeqStrand.unique valid sorted (sequence_iff.mp sequence).1 strand
          member member'
    covered := by
      intro u
      rw [← seqEdge_congr same]
      exact exists_seqStrand valid sorted u
    idle := scanned.idle }

namespace Found

variable {heap : Heap} {iterators : Iterators} {chains : List Chain}
  {block : NodeId → NodeId} {state : Scan}
  (found : Found heap iterators chains block state)

include found

/-- A node is in a chain when it is in a sequence. -/
theorem inChain_iff_sequence (n : NodeId) :
    (∃ p, InChain chains p n) ↔
      ∃ run, TaskSequence heap iterators.graph run ∧ n ∈ run := by
  constructor
  · rintro ⟨p, chain, position, member⟩
    exact ⟨chain.members, found.chain_sequence p chain position, member⟩
  · rintro ⟨run, sequence, member⟩
    obtain ⟨p, chain, position, rfl⟩ := found.sequence_chain run sequence
    exact ⟨p, chain, position, member⟩

/-- An original node leaves the top level when it is in a chain. -/
theorem moved_iff {n : NodeId} (reachable : heap.Reachable iterators.graph n) :
    ¬ state.heap.Reachable iterators.graph n ↔ ∃ p, InChain chains p n := by
  rw [found.top_reachable_iff]
  constructor
  · intro moved
    rcases found.block_cases n with ⟨p, inside, -⟩ | ⟨-, self⟩
    · exact ⟨p, inside⟩
    · exact (moved ⟨n, reachable, self⟩).elim
  · rintro ⟨p, inside⟩ ⟨original, -, isNode⟩
    have old := found.lt_of_reachable reachable
    have same := found.eq_of_block_lt (isNode.symm ▸ old)
    rw [isNode] at same
    rw [same, found.block_chain p n inside] at isNode
    rw [← isNode] at old
    exact Nat.not_lt.mpr (Nat.le_add_right _ _) old

/-- An original node at the top level stands for itself. -/
theorem block_self {n : NodeId} (reachable : heap.Reachable iterators.graph n)
    (top : state.heap.Reachable iterators.graph n) : block n = n := by
  apply found.block_other
  intro p inside
  exact (found.moved_iff reachable).mpr ⟨p, inside⟩ top

/-- Links into and out of nodes that stay are as before. -/
theorem link_iff {source target : NodeId}
    (sourceOld : heap.Reachable iterators.graph source)
    (targetOld : heap.Reachable iterators.graph target)
    (sourceTop : state.heap.Reachable iterators.graph source)
    (targetTop : state.heap.Reachable iterators.graph target) :
    state.heap.Link iterators.graph source target ↔
      heap.Link iterators.graph source target := by
  have sourceSelf := found.block_self sourceOld sourceTop
  have targetSelf := found.block_self targetOld targetTop
  rw [found.top_link_eq]
  constructor
  · rintro ⟨-, from', to', link, fromEq, toEq⟩
    have fromSelf :=
      found.eq_of_block_lt (fromEq.symm ▸ found.lt_of_reachable sourceOld)
    have toSelf :=
      found.eq_of_block_lt (toEq.symm ▸ found.lt_of_reachable targetOld)
    rwa [fromSelf, fromEq, toSelf, toEq] at link
  · intro link
    have apart := found.formed.acyclic.ne (TransGen.single link)
    exact ⟨apart, source, target, link, sourceSelf, targetSelf⟩

theorem complete : Complete heap iterators.graph state.heap where
  sequence := by
    intro sub created
    obtain ⟨p, chain, position, rfl⟩ := (found.created_iff sub).mp created
    have sequence := found.chain_sequence p chain position
    have linear := found.linear position
    refine ⟨chain.members, ⟨sequence, linear⟩, ?_⟩
    rintro other ⟨sequence', linear'⟩
    have member := (found.straight p chain position).first_mem
    have member' : chain.head ∈ other := by
      rw [← linear'.reachable_iff, found.sub_reachable_iff position]
      exact member
    exact
      (found.unique chain.members other sequence sequence'.strand chain.head
        member member').symm
  batch := by
    intro run sequence
    obtain ⟨p, chain, position, rfl⟩ := found.sequence_chain run sequence
    refine
      ⟨subAt iterators.heap p,
        ⟨(found.created_iff _).mpr ⟨p, chain, position, rfl⟩,
          found.linear position⟩, ?_⟩
    rintro other ⟨created, linear⟩
    obtain ⟨q, chain', position', rfl⟩ := (found.created_iff other).mp created
    have member := (found.straight p chain position).first_mem
    have member' : chain.head ∈ chain'.members := by
      rw [← found.sub_reachable_iff position', linear.reachable_iff]
      exact member
    have same : q = p :=
      found.inChain_unique ⟨chain', position', member'⟩
        ⟨chain, position, member⟩
    rw [same]
  moved_iff := fun n reachable => by
    rw [found.moved_iff reachable, found.inChain_iff_sequence]
  link_iff := fun _ _ sourceOld targetOld sourceTop targetTop =>
    found.link_iff sourceOld targetOld sourceTop targetTop

/-! ## A second run -/

/-- A node that may share a sequence is an original node that stays. -/
theorem original_of_isCand {n : NodeId}
    (top : state.heap.Reachable iterators.graph n)
    (candidate : isCand state.heap iterators.graph n = true) :
    heap.Reachable iterators.graph n ∧
      isCand heap iterators.graph n = true := by
  rcases found.top_cases top with original | ⟨sub, -, isBatch⟩
  · refine ⟨original, ?_⟩
    obtain ⟨-, type, command⟩ := found.node_kept original
    rwa [isCand, nodeIsSeqable, found.graph_kept.1, found.graph_kept.2, type,
      command] at candidate
  · obtain ⟨-, type, command⟩ := Heap.createdSub_eq_some_iff.mp isBatch
    simp [isCand, nodeIsSeqable, type, command] at candidate

/-- A sequence edge of the result is an original one. -/
theorem seqEdge_of_after {u v : NodeId}
    (edge : SeqEdge state.heap iterators.graph u v) :
    SeqEdge heap iterators.graph u v := by
  have link := edge.sole.step
  obtain ⟨uOld, uCand⟩ := found.original_of_isCand link.1 edge.source
  obtain ⟨vOld, vCand⟩ :=
    found.original_of_isCand link.reachable edge.target
  have uSelf := found.block_self uOld link.1
  have vSelf := found.block_self vOld link.reachable
  -- a link out of a node that stays leads out of its block
  have apart : ∀ {a b}, heap.Link iterators.graph a b →
      (block a = a ∧ state.heap.Reachable iterators.graph a ∨
        block b = b ∧ state.heap.Reachable iterators.graph b) →
        block a ≠ block b := by
    intro a b step stays same
    obtain ⟨p, aIn, bIn⟩ := found.link_inChain step same
    rcases stays with ⟨-, top⟩ | ⟨-, top⟩
    · exact (found.moved_iff step.1).mpr ⟨p, aIn⟩ top
    · exact (found.moved_iff step.reachable).mpr ⟨p, bIn⟩ top
  exact {
    sole := {
      step := (found.link_iff uOld vOld link.1 link.reachable).mp link
      only_next := by
        intro other step
        have lifted : state.heap.Link iterators.graph u (block other) := by
          rw [found.top_link_eq]
          exact
            ⟨uSelf ▸ apart step (.inl ⟨uSelf, link.1⟩), u, other, step,
              uSelf, rfl⟩
        have isTarget := edge.sole.only_next _ lifted
        have self :=
          found.eq_of_block_lt
            (isTarget.symm ▸ found.lt_of_reachable vOld)
        rw [self, isTarget]
      only_prev := by
        intro other step
        have lifted : state.heap.Link iterators.graph (block other) v := by
          rw [found.top_link_eq]
          exact
            ⟨vSelf ▸ apart step (.inr ⟨vSelf, link.reachable⟩), other, v,
              step, rfl, vSelf⟩
        have isSource := edge.sole.only_prev _ lifted
        have self :=
          found.eq_of_block_lt
            (isSource.symm ▸ found.lt_of_reachable uOld)
        rw [self, isSource] }
    source := uCand
    target := vCand
    device_eq := by
      have device := edge.device_eq
      rwa [(found.node_kept uOld).1, (found.node_kept vOld).1] at device }

/-- No sequence is left. -/
theorem no_sequence_after (run : List NodeId) :
    ¬ TaskSequence state.heap iterators.graph run := by
  intro sequence
  have inOrder := sequence.strand.inOrder
  have long := sequence.enough.trans (commands_le_length _ run)
  have members : ∀ n ∈ run, heap.Reachable iterators.graph n ∧
      state.heap.Reachable iterators.graph n := by
    intro n member
    obtain ⟨top, candidate⟩ := mem_of_seqEdges inOrder long member
    exact ⟨(found.original_of_isCand top candidate).1, top⟩
  obtain ⟨u, member⟩ := List.exists_mem_of_ne_nil run sequence.strand.nonempty
  obtain ⟨whole, strand, member'⟩ := found.covered u
  have joined :=
    Strand.connected_of_inOrder
      (inOrder.imp fun _ _ edge => found.seqEdge_of_after edge)
  have subset : run ⊆ whole := fun n inside =>
    (strand.whole u member' n).mpr (joined u member n inside)
  have sameCommands : commands state.heap run = commands heap run := by
    unfold commands commandCount
    congr 1
    apply List.map_congr_left
    intro n inside
    rw [(found.node_kept (members n inside).1).2.1]
  have enough :=
    commands_mono heap
      (nodup_of_seqEdges found.top_formed.acyclic inOrder) subset
  rw [← sameCommands] at enough
  have large : TaskSequence heap iterators.graph whole :=
    { strand := strand, enough := sequence.enough.trans enough }
  have old := members u member
  exact
    (found.moved_iff old.1).mpr
      ((found.inChain_iff_sequence u).mpr ⟨whole, large, member'⟩) old.2

/-- The next walk meets no stale mark, unless its identifier wraps around. -/
theorem ready_after
    (noWrap : (heap.graphs iterators.graph).walkId + 2 ≠ 0) :
    state.heap.WalkReady iterators.graph := by
  have walkId : (state.heap.graphs iterators.graph).walkId + 1 =
      (heap.graphs iterators.graph).walkId + 2 := by
    rw [found.graphs_old _ found.indexed_formed.graph_lt,
      found.iterated.walkId_eq, BitVec.add_assoc]
    rfl
  rw [Heap.WalkReady, walkId]
  intro n top _
  obtain ⟨original, reachable, rfl⟩ := found.top_reachable_iff.mp top
  rcases found.block_cases original with
    ⟨p, ⟨chain, position, -⟩, isBatch⟩ | ⟨-, self⟩
  · have mark :=
      (congrArg CommandGraphNode.walkId
        (found.node_batch p chain position) :)
    rw [isBatch]
    exact mark ▸ noWrap.symm
  · have mark :=
      (congrArg CommandGraphNode.walkId
        (found.node_old original (found.lt_of_reachable reachable)) :)
    simp only [CommandGraphNode.unlinked] at mark
    rw [self, mark, found.iterated.mark_reachable original reachable]
    intro equal
    have different : (1 : WalkId) ≠ 2 := by decide
    exact different ((BitVec.add_right_inj _).mp equal)

end Found

/--
The pass contracts exactly the sequences.  A second run, if no stale mark stops
its walk, changes nothing but the marks.
-/
theorem passSequence_complete (heap : Heap) (graph : GraphId)
    (formed : heap.WellFormed graph) (ready : heap.WalkReady graph) :
    ∃ after, passSequence heap graph = some after ∧
      Lossless heap graph after ∧ Complete heap graph after ∧
      ((heap.graphs graph).walkId + 2 ≠ 0 → after.WalkReady graph) ∧
      (after.WalkReady graph →
        ∃ again, passSequence after graph = some again ∧
          again.unmarked = after.unmarked) := by
  obtain ⟨iterators, chains, block, state, ran, rfl, found⟩ :=
    passSequence_found formed ready
  refine
    ⟨state.heap, ran, found.lossless, found.complete, found.ready_after, ?_⟩
  intro ready'
  obtain ⟨iterators', chains', block', state', ran', same, found'⟩ :=
    passSequence_found found.top_formed ready'
  refine ⟨state'.heap, ran', ?_⟩
  have none : chains' = [] := by
    rw [List.eq_nil_iff_forall_not_mem]
    intro chain member
    obtain ⟨p, position⟩ := List.mem_iff_getElem?.mp member
    have sequence := found'.chain_sequence p chain position
    rw [same] at sequence
    exact found.no_sequence_after chain.members sequence
  rw [found'.idle none]
  exact found'.iterated.unmarked_eq

/-- The row of tasks is one sequence. -/
theorem passSequence_complete_taskRow :
    ∃ after, passSequence taskRow 0 = some after ∧
      Lossless taskRow 0 after ∧ Complete taskRow 0 after ∧
      ((taskRow.graphs 0).walkId + 2 ≠ 0 → after.WalkReady 0) ∧
      (after.WalkReady 0 →
        ∃ again, passSequence after 0 = some again ∧
          again.unmarked = after.unmarked) := by
  have numbered : taskRow.Numbered 0 := by decide
  exact
    passSequence_complete taskRow 0 numbered.wellFormed
      (numbered.walkReady (by decide))

end Cgir.Pass.Sequence
