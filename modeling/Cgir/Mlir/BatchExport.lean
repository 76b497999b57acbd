import Mathlib.Algebra.Ring.Nat
import Cgir.Mlir.BatchOps
import Cgir.Mlir.SubGraph

/-!
# Exporting batches

Pass 1 of the export rewrites the nodes of the ops outside the groups, then
allocates the sub-graph and the node of every batch in order.  Pass 2 links the
nodes of the top level.
-/

namespace Cgir.Mlir

open Relation
open Cgir.Library
open Cgir.Model

/-! ## Numbering -/

/-- The first node that the batch at a position allocates. -/
def batchBase (first : Nat) (groups : List (List OpId)) (position : Nat) :
    Nat :=
  first + ((groups.take position).map fun members => members.length + 3).sum

/-- The batch node at a position. -/
def batchNode (first : Nat) (groups : List (List OpId)) (position : Nat) :
    NodeId :=
  batchBase first groups position + 2 + (groups.getD position []).length

/-- The node of an op: its source node, or the node of its batch. -/
def placeAt (base first : Nat) (groups : List (List OpId))
    (source : OpId → NodeId) (op : OpId) : NodeId :=
  if op < base then source op else batchNode first groups (op - base)

section Numbering

variable {base first : Nat} {groups : List (List OpId)}
  {source : OpId → NodeId} {position : Nat} {members : List OpId}

theorem batchNode_eq (known : groups[position]? = some members) :
    batchNode first groups position =
      batchBase first groups position + 2 + members.length := by
  simp [batchNode, known]

theorem batchBase_succ (known : groups[position]? = some members) :
    batchBase first groups (position + 1) =
      batchBase first groups position + 2 + members.length + 1 := by
  simp only [batchBase, List.take_add_one, known, Option.toList_some,
    List.map_append, List.sum_append, List.map_cons, List.map_nil,
    List.sum_cons, List.sum_nil]
  omega

theorem first_le_batchBase (position : Nat) :
    first ≤ batchBase first groups position :=
  Nat.le_add_right _ _

/-- A batch starts after the node of every earlier one. -/
theorem batchNode_lt {later : Nat} (before : position < later)
    (bound : position < groups.length) :
    batchNode first groups position < batchBase first groups later := by
  have known : groups[position]? = some groups[position] :=
    List.getElem?_eq_getElem bound
  induction later with
  | zero => exact (Nat.not_lt_zero _ before).elim
  | succ later induction =>
      rcases Nat.lt_succ_iff_lt_or_eq.mp before with earlier | rfl
      · refine Nat.lt_of_lt_of_le (induction earlier) ?_
        by_cases inside : later < groups.length
        · have step : batchBase first groups (later + 1) = _ :=
            batchBase_succ (List.getElem?_eq_getElem inside)
          omega
        · rw [Nat.not_lt] at inside
          simp [batchBase, List.take_of_length_le inside,
            List.take_of_length_le (Nat.le_succ_of_le inside)]
      · rw [batchBase_succ known, batchNode_eq known]
        exact Nat.lt_succ_self _

theorem batchNode_ge (position : Nat) :
    first ≤ batchNode first groups position :=
  Nat.le_trans (first_le_batchBase position)
    (Nat.le_trans (Nat.le_add_right _ 2) (Nat.le_add_right _ _))

theorem batchNode_injective {other : Nat} (bound : position < groups.length)
    (otherBound : other < groups.length)
    (equal : batchNode first groups position = batchNode first groups other) :
    position = other := by
  have below : ∀ {lower upper : Nat}, lower < upper →
      lower < groups.length → upper < groups.length →
        batchNode first groups lower < batchNode first groups upper := by
    intro lower upper less lowerBound _
    refine Nat.lt_of_lt_of_le (batchNode_lt less lowerBound) ?_
    exact Nat.le_trans (Nat.le_add_right _ 2) (Nat.le_add_right _ _)
  rcases Nat.lt_trichotomy position other with less | same | greater
  · exact absurd equal (Nat.ne_of_lt (below less bound otherBound))
  · exact same
  · exact absurd equal.symm (Nat.ne_of_lt (below greater otherBound bound))

theorem placeAt_old {op : OpId} (old : op < base) :
    placeAt base first groups source op = source op :=
  if_pos old

theorem placeAt_batch (position : Nat) :
    placeAt base first groups source (base + position) =
      batchNode first groups position := by
  rw [placeAt, if_neg (Nat.not_lt.mpr (Nat.le_add_right _ _)),
    Nat.add_sub_cancel_left]

end Numbering

/-! ## Pass 1 on batches -/

/-- The state after the first batches are resolved. -/
structure BatchesMade (out : Graph) (base : Nat) (source : OpId → NodeId)
    (groups : List (List OpId × BitVec 32)) (start : ExportState)
    (count : Nat) (state : ExportState) : Prop where
  nodeCount_eq : state.heap.nodeCount =
    batchBase start.heap.nodeCount (groups.map Prod.fst) count
  graphCount_eq : state.heap.graphCount = start.heap.graphCount + count
  old_graphs : ∀ graph < start.heap.graphCount,
    state.heap.graphs graph = start.heap.graphs graph
  old_nodes : ∀ node < start.heap.nodeCount,
    state.heap.nodes node = start.heap.nodes node
  holds : ∀ (position : Nat) (group : List OpId × BitVec 32),
    groups[position]? = some group → position < count →
      Holds out.operands (fun op => start.heap.nodes (source op)) group.1
        (duidOfAttr group.2)
        (batchBase start.heap.nodeCount (groups.map Prod.fst) position)
        (start.heap.graphCount + position) state.heap
  cleared : ∀ position < count,
    let node := batchNode start.heap.nodeCount (groups.map Prod.fst) position
    state.heap.successors node = [] ∧ state.heap.predecessors node = []
  out_eq : ∀ op, state.out op =
    if base ≤ op ∧ op < base + count then
      some
        (batchNode start.heap.nodeCount (groups.map Prod.fst) (op - base))
    else start.out op
  entryNode_eq : state.entryNode = start.entryNode
  exitNode_eq : state.exitNode = start.exitNode

/--
Groups of ops of an imported graph that have no op in common and hold neither
end of the graph.
-/
structure Grouped (heap : Heap) (iterators : Iterators) (cg : Graph)
    (groups : List (List OpId × BitVec 32)) : Prop where
  mirrors : Mirrors heap iterators cg
  opCount_eq : cg.opCount = iterators.count
  encoded : ∀ op ∈ cg.body,
    Encoded (cg.ops op) (iterators.heap.nodes (iterators.node op))
  disjoint : Disjoint cg.opCount (groups.map Prod.fst)
  nodup : ∀ group ∈ groups, group.1.Nodup
  candidates : ∀ group ∈ groups, ∀ op ∈ group.1,
    (cg.ops op).isEntry = false ∧ (cg.ops op).isExit = false

section Resolving

variable {heap : Heap} {iterators : Iterators} {cg out : Graph}
  {groups : List (List OpId × BitVec 32)} {start : ExportState}

theorem Grouped.mem_body (grouped : Grouped heap iterators cg groups)
    (op : OpId) : op ∈ cg.body ↔ op < cg.opCount := by
  rw [grouped.mirrors.mem_body, grouped.opCount_eq]

theorem Grouped.member_body (grouped : Grouped heap iterators cg groups)
    {group : List OpId × BitVec 32} (isGroup : group ∈ groups) {op : OpId}
    (member : op ∈ group.1) : op ∈ cg.body :=
  (grouped.mem_body op).mpr
    (grouped.disjoint.bounded group.1 (List.mem_map_of_mem isGroup) op member)

/-- The members of a group form the region of a sub-graph. -/
theorem Grouped.region (formed : heap.WellFormed iterators.graph)
    (grouped : Grouped heap iterators cg groups)
    (materialized : Materialized cg groups out)
    {group : List OpId × BitVec 32} (isGroup : group ∈ groups)
    {current : Heap}
    (old : ∀ op ∈ group.1, iterators.node op < current.nodeCount)
    (same : ∀ op ∈ group.1, current.nodes (iterators.node op) =
      iterators.heap.nodes (iterators.node op)) :
    Region out.ops iterators.node current group.1 where
  nodup := grouped.nodup group isGroup
  sourced := by
    intro op member
    rw [materialized.member_eq group isGroup op member]
    exact grouped.mirrors.sourced op (grouped.member_body isGroup member)
  old := old
  encoded := by
    intro op member
    have encoded := grouped.encoded op (grouped.member_body isGroup member)
    rw [materialized.member_eq group isGroup op member, same op member]
    exact ⟨encoded.duid_eq, encoded.kind⟩
  closed := by
    intro op member pred isPred
    rw [materialized.member_eq group isGroup op member,
      Op.withOperands_operands] at isPred
    simpa using (List.mem_filter.mp isPred).2
  operands_nodup := by
    intro op member
    rw [materialized.member_eq group isGroup op member,
      Op.withOperands_operands]
    exact
      (grouped.mirrors.operands_nodup formed
        (grouped.member_body isGroup member)).filter _

/-- Pass 1 on one batch. -/
theorem BatchesMade.step (formed : heap.WellFormed iterators.graph)
    (grouped : Grouped heap iterators cg groups)
    (materialized : Materialized cg groups out)
    (old : ∀ op ∈ cg.body, iterators.node op < start.heap.nodeCount)
    (same : ∀ group ∈ groups, ∀ op ∈ group.1,
      start.heap.nodes (iterators.node op) =
        iterators.heap.nodes (iterators.node op))
    {position : Nat} {group : List OpId × BitVec 32} {state : ExportState}
    (known : groups[position]? = some group)
    (made : BatchesMade out cg.opCount iterators.node groups start position
      state) :
    ∃ after, resolveOp out state (cg.opCount + position) = some after ∧
      BatchesMade out cg.opCount iterators.node groups start (position + 1)
        after := by
  have isGroup : group ∈ groups := List.mem_of_getElem? known
  have known' : (groups.map Prod.fst)[position]? = some group.1 := by
    simp [known]
  have memberOld : ∀ op ∈ group.1,
      iterators.node op < start.heap.nodeCount :=
    fun op member => old op (grouped.member_body isGroup member)
  have countGe : start.heap.nodeCount ≤ state.heap.nodeCount := by
    rw [made.nodeCount_eq]
    exact first_le_batchBase position
  have region := grouped.region formed materialized isGroup
    (fun op member => Nat.lt_of_lt_of_le (memberOld op member) countGe)
    (fun op member =>
      (made.old_nodes _ (memberOld op member)).trans
        (same group isGroup op member))
  have batchEq := materialized.batch_eq position group known
  obtain ⟨depth, depthEq⟩ : ∃ depth, out.opCount = depth + 1 := by
    apply Nat.exists_eq_succ_of_ne_zero
    rw [materialized.opCount_eq]
    have nonempty : groups.length ≠ 0 :=
      Nat.ne_of_gt (Nat.lt_of_le_of_lt (Nat.zero_le _)
        (List.getElem?_eq_some_iff.mp known).1)
    omega
  obtain ⟨node, built, ran, isBuilt⟩ :=
    buildBatchNode_spec region
      (duidOfAttr group.2)
  have nodeEq : node =
      batchNode start.heap.nodeCount (groups.map Prod.fst) position := by
    rw [isBuilt.node_eq, made.nodeCount_eq, batchNode_eq known']
  refine
    ⟨{ heap := clearLists built node
       out :=
        Function.update state.out (cg.opCount + position) (some node)
       entryNode := state.entryNode
       exitNode := state.exitNode }, ?_, ?_⟩
  · simp only [resolveOp, resolveNode, batchEq, createPodNodeFromOp,
      depthEq]
    refine (congrArg (Option.bind · _) ran).trans ?_
    rfl
  · have otherEq : ∀ other, other ≠ node →
        (clearLists built node).nodes other = built.nodes other := by
      intro other different
      simp [clearLists, different]
    have before : ∀ other < state.heap.nodeCount, other ≠ node := by
      intro other less
      rw [isBuilt.node_eq]
      exact Nat.ne_of_lt (Nat.lt_add_right _ (Nat.lt_add_right _ less))
    have earlierEq : ∀ other < state.heap.nodeCount,
        (clearLists built node).nodes other = state.heap.nodes other :=
      fun other less =>
        (otherEq other (before other less)).trans
          (isBuilt.old_eq other less)
    have earlierNode : ∀ earlier < position,
        batchNode start.heap.nodeCount (groups.map Prod.fst) earlier <
          state.heap.nodeCount := by
      intro earlier less
      rw [made.nodeCount_eq]
      refine batchNode_lt less (less.trans ?_)
      exact (List.getElem?_eq_some_iff.mp known').1
    exact {
      nodeCount_eq := by
        rw [batchBase_succ known', ← made.nodeCount_eq]
        exact isBuilt.nodeCount_eq
      graphCount_eq := by
        refine (isBuilt.graphCount_eq).trans ?_
        rw [made.graphCount_eq, Nat.add_assoc]
      old_graphs := by
        intro graph bound
        have apart : graph ≠ state.heap.graphCount := by
          rw [made.graphCount_eq]
          exact Nat.ne_of_lt (Nat.lt_add_right _ bound)
        exact
          (isBuilt.other_graphs graph apart).trans
            (made.old_graphs graph bound)
      old_nodes := by
        intro other bound
        rw [earlierEq other (Nat.lt_of_lt_of_le bound countGe),
          made.old_nodes other bound]
      holds := by
        intro earlier other knownOther bound
        have knownOther' : (groups.map Prod.fst)[earlier]? =
            some other.1 := by
          simp [knownOther]
        rcases Nat.lt_succ_iff_lt_or_eq.mp bound with less | rfl
        · have nodeLt := earlierNode earlier less
          rw [batchNode_eq knownOther'] at nodeLt
          refine (made.holds earlier other knownOther less).congr
            (fun _ _ => rfl) ?_ ?_ ?_
          · refine isBuilt.other_graphs _ ?_
            rw [made.graphCount_eq]
            exact Nat.ne_of_lt (Nat.add_lt_add_left less _)
          · intro inner alive
            exact earlierEq inner ((subLive_lt alive).trans nodeLt)
          · rw [earlierEq _ nodeLt]
        · rw [known, Option.some.injEq] at knownOther
          subst knownOther
          rw [← made.nodeCount_eq, ← made.graphCount_eq]
          refine isBuilt.holds.congr ?_ rfl ?_ ?_
          · intro op member
            exact (made.old_nodes _ (memberOld op member)).symm
          · intro inner alive
            apply otherEq
            rw [isBuilt.node_eq]
            exact Nat.ne_of_lt (subLive_lt alive)
          · rw [← isBuilt.node_eq]
            simp only [clearLists, Heap.updateNode_nodes, if_pos]
            rfl
      cleared := by
        intro earlier bound
        rcases Nat.lt_succ_iff_lt_or_eq.mp bound with less | rfl
        · simp only [Heap.successors, Heap.predecessors]
          rw [earlierEq _ (earlierNode earlier less)]
          exact made.cleared earlier less
        · simp [← nodeEq, Heap.successors, Heap.predecessors, clearLists,
            CommandGraphNode.unlinked]
      out_eq := by
        intro op
        simp only [Function.update_apply]
        by_cases last : op = cg.opCount + position
        · subst last
          rw [if_pos rfl, Nat.add_sub_cancel_left, nodeEq, if_pos]
          exact
            ⟨Nat.le_add_right _ _,
              Nat.add_lt_add_left (Nat.lt_succ_self _) _⟩
        · have range : (cg.opCount ≤ op ∧ op < cg.opCount + (position + 1)) ↔
              cg.opCount ≤ op ∧ op < cg.opCount + position := by
            constructor
            · rintro ⟨ge, less⟩
              exact
                ⟨ge, Nat.lt_of_le_of_ne (Nat.le_of_lt_succ less) last⟩
            · rintro ⟨ge, less⟩
              exact ⟨ge, Nat.lt_succ_of_lt less⟩
          rw [if_neg last, made.out_eq]
          simp only [range]
      entryNode_eq := made.entryNode_eq
      exitNode_eq := made.exitNode_eq }

/-- Pass 1 on the batches allocates their sub-graphs in order. -/
theorem resolveBatches_spec (formed : heap.WellFormed iterators.graph)
    (grouped : Grouped heap iterators cg groups)
    (materialized : Materialized cg groups out)
    (old : ∀ op ∈ cg.body, iterators.node op < start.heap.nodeCount)
    (same : ∀ group ∈ groups, ∀ op ∈ group.1,
      start.heap.nodes (iterators.node op) =
        iterators.heap.nodes (iterators.node op)) :
    ∃ after, ((List.range groups.length).map (cg.opCount + ·)).foldlM
        (resolveOp out) start = some after ∧
      BatchesMade out cg.opCount iterators.node groups start groups.length
        after := by
  have lengthEq : ((List.range groups.length).map
      (cg.opCount + ·)).length = groups.length := by simp
  let invariant : List OpId → ExportState → Prop := fun done =>
    BatchesMade out cg.opCount iterators.node groups start done.length
  suffices loop : ∃ after, ((List.range groups.length).map
      (cg.opCount + ·)).foldlM (resolveOp out) start = some after ∧
        invariant ((List.range groups.length).map (cg.opCount + ·)) after by
    obtain ⟨after, ran, made⟩ := loop
    exact ⟨after, ran, lengthEq ▸ made⟩
  apply Loop.foldlM_invariant
  · intro done id rest state split made
    have bound : done.length < groups.length := by
      have lengths := congrArg List.length split
      simp at lengths
      omega
    have idEq : id = cg.opCount + done.length := by
      have at_ := congrArg (·[done.length]?) split
      simpa [bound] using at_.symm
    obtain ⟨after, ran, made⟩ :=
      made.step formed grouped materialized old same
        (List.getElem?_eq_getElem bound)
    refine ⟨after, idEq ▸ ran, ?_⟩
    change BatchesMade _ _ _ _ _ (done ++ [id]).length _
    rwa [List.length_append, List.length_singleton]
  · exact {
      nodeCount_eq := by simp [batchBase]
      graphCount_eq := rfl
      old_graphs := fun _ _ => rfl
      old_nodes := fun _ _ => rfl
      holds := fun _ _ _ bound => absurd bound (Nat.not_lt_zero _)
      cleared := fun _ bound => absurd bound (Nat.not_lt_zero _)
      out_eq := fun op => by
        rw [if_neg]
        rintro ⟨ge, less⟩
        exact Nat.not_lt.mpr ge less
      entryNode_eq := rfl
      exitNode_eq := rfl }

end Resolving

/-! ## The whole export -/

/-- What the export of a graph with materialized groups makes. -/
structure BatchesExported (heap : Heap) (iterators : Iterators)
    (cg out : Graph) (groups : List (List OpId × BitVec 32)) (after : Heap) :
    Prop where
  nodeCount_eq : after.nodeCount =
    batchBase iterators.heap.nodeCount (groups.map Prod.fst) groups.length
  graphCount_eq :
    after.graphCount = iterators.heap.graphCount + groups.length
  entry_eq : (after.graphs iterators.graph).entry =
    (heap.graphs iterators.graph).entry
  exit_eq : (after.graphs iterators.graph).exit =
    (heap.graphs iterators.graph).exit
  other_graphs : ∀ graph < iterators.heap.graphCount,
    graph ≠ iterators.graph →
      after.graphs graph = iterators.heap.graphs graph
  old_unlinked : ∀ node < iterators.heap.nodeCount,
    (after.nodes node).unlinked = (iterators.heap.nodes node).unlinked
  holds : ∀ (position : Nat) (group : List OpId × BitVec 32),
    groups[position]? = some group →
      Holds out.operands
        (fun op => iterators.heap.nodes (iterators.node op)) group.1
        (duidOfAttr group.2)
        (batchBase iterators.heap.nodeCount (groups.map Prod.fst) position)
        (iterators.heap.graphCount + position) after
  linked : ∃ resolved entry exit,
    Linked out
      (placeAt cg.opCount iterators.heap.nodeCount (groups.map Prod.fst)
        iterators.node)
      resolved iterators.graph entry exit after

section Exporting

variable {heap : Heap} {iterators : Iterators} {cg out : Graph}
  {groups : List (List OpId × BitVec 32)}
  (formed : heap.WellFormed iterators.graph)
  (grouped : Grouped heap iterators cg groups)
  (materialized : Materialized cg groups out)

include formed grouped

theorem Grouped.node_lt {op : OpId} (member : op ∈ cg.body) :
    iterators.node op < iterators.heap.nodeCount := by
  rw [(Heap.unmarked_nodeCount grouped.mirrors.same :)]
  exact formed.allocated _ (grouped.mirrors.reachable member)

omit formed in
/-- No group holds the op of an end. -/
theorem Grouped.outside_of_end {op : OpId}
    (isEnd : (cg.ops op).isEntry = true ∨ (cg.ops op).isExit = true) :
    ∀ group ∈ groups, op ∉ group.1 := by
  intro group isGroup member
  obtain ⟨notEntry, notExit⟩ := grouped.candidates group isGroup op member
  rcases isEnd with isEntry | isExit
  · rw [notEntry] at isEntry
    cases isEntry
  · rw [notExit] at isExit
    cases isExit

include materialized

omit formed in
/-- Distinct ops of the top level have distinct nodes. -/
theorem Grouped.placeAt_injective
    (old : ∀ op ∈ cg.body, iterators.node op < iterators.heap.nodeCount) :
    ∀ op ∈ out.body, ∀ other ∈ out.body,
      placeAt cg.opCount iterators.heap.nodeCount (groups.map Prod.fst)
          iterators.node op =
        placeAt cg.opCount iterators.heap.nodeCount (groups.map Prod.fst)
          iterators.node other → op = other := by
  intro op member other otherMember equal
  rcases (materialized.mem_body op).mp member with
    ⟨opOld, -⟩ | ⟨position, bound, rfl⟩ <;>
  rcases (materialized.mem_body other).mp otherMember with
    ⟨otherOld, -⟩ | ⟨position', bound', rfl⟩
  · rw [placeAt_old ((grouped.mem_body op).mp opOld),
      placeAt_old ((grouped.mem_body other).mp otherOld)] at equal
    exact grouped.mirrors.injective opOld otherOld equal
  · rw [placeAt_old ((grouped.mem_body op).mp opOld),
      placeAt_batch] at equal
    have less := old op opOld
    rw [equal] at less
    exact (Nat.not_lt.mpr (batchNode_ge position') less).elim
  · rw [placeAt_old ((grouped.mem_body other).mp otherOld),
      placeAt_batch] at equal
    have less := old other otherOld
    rw [← equal] at less
    exact (Nat.not_lt.mpr (batchNode_ge position) less).elim
  · rw [placeAt_batch, placeAt_batch] at equal
    rw [batchNode_injective (by simpa using bound) (by simpa using bound')
      equal]

omit formed in
/-- The nodes of a sub-graph belong to no op of the top level. -/
theorem Grouped.placeAt_ne_sub
    (old : ∀ op ∈ cg.body, iterators.node op < iterators.heap.nodeCount)
    {position : Nat} {group : List OpId × BitVec 32}
    (known : groups[position]? = some group) {node : NodeId}
    (alive : SubLive
      (batchBase iterators.heap.nodeCount (groups.map Prod.fst) position)
      group.1 node) :
    ∀ op ∈ out.body,
      placeAt cg.opCount iterators.heap.nodeCount (groups.map Prod.fst)
        iterators.node op ≠ node := by
  intro op member
  have known' : (groups.map Prod.fst)[position]? = some group.1 := by
    simp [known]
  have ge := subLive_ge alive
  have less := subLive_lt alive
  rw [← batchNode_eq known'] at less
  rcases (materialized.mem_body op).mp member with
    ⟨opBody, -⟩ | ⟨other, bound, rfl⟩
  · rw [placeAt_old ((grouped.mem_body op).mp opBody)]
    exact
      Nat.ne_of_lt
        (Nat.lt_of_lt_of_le (old op opBody)
          ((first_le_batchBase position).trans ge))
  · rw [placeAt_batch]
    rw [← List.length_map (f := Prod.fst)] at bound
    rcases Nat.lt_trichotomy other position with before | rfl | later
    · exact
        Nat.ne_of_lt (Nat.lt_of_lt_of_le (batchNode_lt before bound) ge)
    · exact Nat.ne_of_gt less
    · have start :
          batchNode iterators.heap.nodeCount (groups.map Prod.fst) position <
            batchBase iterators.heap.nodeCount (groups.map Prod.fst) other :=
        batchNode_lt later (List.getElem?_eq_some_iff.mp known').1
      have startLe : batchBase iterators.heap.nodeCount
          (groups.map Prod.fst) other ≤
            batchNode iterators.heap.nodeCount (groups.map Prod.fst)
              other :=
        Nat.le_trans (Nat.le_add_right _ 2) (Nat.le_add_right _ _)
      exact
        Nat.ne_of_gt
          (Nat.lt_of_lt_of_le (less.trans start) startLe)

/-- The operands at the top level, in terms of the imported graph. -/
theorem Grouped.mem_operands {block : OpId} (member : block ∈ out.body)
    (token : OpId) :
    token ∈ out.operands block ↔ token ≠ block ∧
      ∃ op ∈ cg.body, ∃ pred ∈ cg.operands op,
        blockOf cg.opCount (groups.map Prod.fst) pred = token ∧
          blockOf cg.opCount (groups.map Prod.fst) op = block :=
  materialized.mem_operands
    (fun op member => (grouped.mem_body op).mp member)
    (fun _ isGroup _ member => grouped.member_body isGroup member)
    grouped.disjoint (grouped.mirrors.closed formed)
    (fun _ member => grouped.mirrors.not_mem_operands formed member) member
    token

theorem Grouped.operands_closed :
    ∀ op ∈ out.body, ∀ pred ∈ out.operands op, pred ∈ out.body := by
  intro block member token isOperand
  obtain ⟨-, op, opMember, pred, isPred, rfl, -⟩ :=
    (grouped.mem_operands formed materialized member token).mp isOperand
  exact
    materialized.blockOf_mem_body
      (grouped.mirrors.closed formed op opMember pred isPred)

/-- Export of a graph with materialized groups. -/
theorem exportBatches_spec :
    ∃ after, exportCommandGraph out iterators.heap iterators.graph =
        some after ∧
      BatchesExported heap iterators cg out groups after := by
  let mirrors := grouped.mirrors
  let unbatched :=
    cg.body.filter fun op => ∀ group ∈ groups, op ∉ group.1
  let place :=
    placeAt cg.opCount iterators.heap.nodeCount (groups.map Prod.fst)
      iterators.node
  let entry := iterators.index (heap.graphs iterators.graph).entry
  let exit := iterators.index (heap.graphs iterators.graph).exit
  have bodyEq : out.body =
      unbatched ++ (List.range groups.length).map (cg.opCount + ·) :=
    materialized.body_eq
  have mem_unbatched : ∀ op, op ∈ unbatched ↔
      op ∈ cg.body ∧ ∀ group ∈ groups, op ∉ group.1 := by
    intro op
    simp [unbatched]
  have opEq : ∀ op ∈ unbatched, ∃ operands,
      out.ops op = (cg.ops op).withOperands operands := by
    intro op member
    obtain ⟨inBody, outside⟩ := (mem_unbatched op).mp member
    exact
      ⟨_, materialized.top_eq op ((grouped.mem_body op).mp inBody) outside⟩
  have old : ∀ op ∈ cg.body, iterators.node op < iterators.heap.nodeCount :=
    fun op member => grouped.node_lt formed member
  have distinct :=
    grouped.placeAt_injective materialized old
  -- pass 1 on the ops that keep their node
  obtain ⟨first, firstRan, rewritten⟩ :=
    resolveSourced_spec
      { heap := iterators.heap
        out := fun _ => none
        entryNode := none
        exitNode := none }
      (by
        intro op member
        obtain ⟨operands, equal⟩ := opEq op member
        rw [equal]
        exact mirrors.sourced op ((mem_unbatched op).mp member).1)
      (mirrors.places_nodup.sublist
        (List.filter_sublist.map iterators.node))
      (by
        intro op member
        obtain ⟨operands, equal⟩ := opEq op member
        rw [equal]
        exact
          ⟨_, mirrors.written op ((mem_unbatched op).mp member).1⟩)
  have memberSame : ∀ group ∈ groups, ∀ op ∈ group.1,
      first.heap.nodes (iterators.node op) =
        iterators.heap.nodes (iterators.node op) := by
    intro group isGroup op member
    apply rewritten.other_nodes
    intro isUnbatched
    obtain ⟨other, otherMember, equal⟩ := List.mem_map.mp isUnbatched
    obtain ⟨otherBody, outside⟩ := (mem_unbatched other).mp otherMember
    have same :=
      mirrors.injective otherBody (grouped.member_body isGroup member)
        equal
    exact outside group isGroup (same ▸ member)
  -- pass 1 on the batches
  obtain ⟨state, secondRan, made⟩ :=
    resolveBatches_spec formed grouped materialized
      (fun op member => by
        rw [rewritten.nodeCount_eq]
        exact old op member)
      memberSame
  have countEq : first.heap.nodeCount = iterators.heap.nodeCount :=
    rewritten.nodeCount_eq
  have graphCountEq : first.heap.graphCount = iterators.heap.graphCount :=
    rewritten.graphCount_eq
  have ran : out.body.foldlM (resolveOp out)
      { heap := iterators.heap
        out := fun _ => none
        entryNode := none
        exitNode := none } = some state := by
    rw [bodyEq, List.foldlM_append, firstRan]
    exact secondRan
  have entryBody : entry ∈ cg.body := mirrors.index_mem Heap.reachable_entry
  have exitBody : exit ∈ cg.body := mirrors.index_mem formed.reachable_exit
  have entryOutside : ∀ group ∈ groups, entry ∉ group.1 :=
    grouped.outside_of_end
      (Or.inl ((mirrors.isEntry_op entryBody).mpr rfl))
  have exitOutside : ∀ group ∈ groups, exit ∉ group.1 :=
    grouped.outside_of_end
      (Or.inr ((mirrors.isExit_op formed exitBody).mpr rfl))
  have placeOld : ∀ op ∈ cg.body, place op = iterators.node op :=
    fun op member => placeAt_old ((grouped.mem_body op).mp member)
  have entryTop := materialized.mem_body_of_outside entryBody entryOutside
  have exitTop := materialized.mem_body_of_outside exitBody exitOutside
  have known : ∀ op ∈ out.body, state.out op = some (place op) := by
    intro op member
    rw [made.out_eq]
    rcases (materialized.mem_body op).mp member with
      ⟨opBody, outside⟩ | ⟨position, bound, rfl⟩
    · have less := (grouped.mem_body op).mp opBody
      rw [if_neg fun range => Nat.not_lt.mpr range.1 less,
        rewritten.out_eq,
        if_pos ((mem_unbatched op).mpr ⟨opBody, outside⟩),
        placeOld op opBody]
    · rw [if_pos
          ⟨Nat.le_add_right _ _, Nat.add_lt_add_left bound _⟩,
        Nat.add_sub_cancel_left, countEq]
      exact congrArg some (placeAt_batch position).symm
  have endNode : ∀ (test : Op → Bool) (op : OpId), op ∈ cg.body →
      (∀ group ∈ groups, op ∉ group.1) →
      (∀ other ∈ cg.body, test (cg.ops other) = true ↔ other = op) →
      (∀ other operands, test ((cg.ops other).withOperands operands) =
        test (cg.ops other)) →
      lastPlace out iterators.node test unbatched none =
        some (place op) := by
    intro test op opBody outside unique indifferent
    rw [placeOld op opBody]
    apply lastPlace_of_unique
    · exact mirrors.body_nodup.filter _
    · exact (mem_unbatched op).mpr ⟨opBody, outside⟩
    · intro other member
      obtain ⟨operands, equal⟩ := opEq other member
      rw [equal, indifferent]
      exact unique other ((mem_unbatched other).mp member).1
  have bodyNodup : out.body.Nodup := by
    rw [bodyEq, List.nodup_append]
    refine ⟨mirrors.body_nodup.filter _, ?_, ?_⟩
    · exact List.nodup_range.map fun _ _ equal => Nat.add_left_cancel equal
    · rintro op isUnbatched _ isBatch rfl
      obtain ⟨position, -, rfl⟩ := List.mem_map.mp isBatch
      have less :=
        (grouped.mem_body _).mp ((mem_unbatched _).mp isUnbatched).1
      exact Nat.not_lt.mpr (Nat.le_add_right _ _) less
  have cleared : ∀ op ∈ out.body,
      state.heap.successors (place op) = [] ∧
        state.heap.predecessors (place op) = [] := by
    intro op member
    rcases (materialized.mem_body op).mp member with
      ⟨opBody, outside⟩ | ⟨position, bound, rfl⟩
    · obtain ⟨object, -, stored⟩ :=
        rewritten.node_eq op ((mem_unbatched op).mpr ⟨opBody, outside⟩)
      rw [placeOld op opBody, Heap.successors, Heap.predecessors,
        made.old_nodes _ (countEq.symm ▸ old op opBody), stored]
      exact ⟨rfl, rfl⟩
    · have lists := made.cleared position bound
      rw [countEq] at lists
      rw [show place (cg.opCount + position) = _ from
        placeAt_batch position]
      exact lists
  obtain ⟨after, exported, linked⟩ :=
    export_of_resolved ran known
      (made.entryNode_eq.trans
        (rewritten.entryNode_eq.trans
          (endNode Op.isEntry entry entryBody entryOutside
            (fun other member => mirrors.isEntry_op member)
            (fun _ _ => rfl))))
      (made.exitNode_eq.trans
        (rewritten.exitNode_eq.trans
          (endNode Op.isExit exit exitBody exitOutside
            (fun other member => mirrors.isExit_op formed member)
            (fun _ _ => rfl))))
      entryTop exitTop bodyNodup distinct
      (grouped.operands_closed formed materialized) cleared
      (by
        apply List.eq_nil_iff_forall_not_mem.mpr
        intro token isOperand
        obtain ⟨-, op, opMember, pred, isPred, -, equal⟩ :=
          (grouped.mem_operands formed materialized entryTop token).mp
            isOperand
        obtain ⟨rfl, -⟩ :=
          blockOf_eq_old ((grouped.mem_body _).mp entryBody) equal
        rw [mirrors.operands_entry formed] at isPred
        exact List.not_mem_nil isPred)
      (by
        intro block member isOperand
        obtain ⟨-, op, opMember, pred, isPred, equal, -⟩ :=
          (grouped.mem_operands formed materialized member exit).mp isOperand
        obtain ⟨rfl, -⟩ :=
          blockOf_eq_old ((grouped.mem_body _).mp exitBody) equal
        exact mirrors.exit_unused formed opMember isPred)
  have graphLt : iterators.graph < iterators.heap.graphCount := by
    rw [(Heap.unmarked_graphCount mirrors.same :)]
    exact formed.graph_lt
  refine ⟨after, exported, ?_⟩
  exact {
    nodeCount_eq := by
      rw [linked.nodeCount_eq, made.nodeCount_eq, countEq]
    graphCount_eq := by
      rw [linked.graphCount_eq, made.graphCount_eq, graphCountEq]
    entry_eq := by
      rw [linked.graph_eq]
      exact
        (placeOld entry entryBody).trans
          (mirrors.node_index Heap.reachable_entry)
    exit_eq := by
      rw [linked.graph_eq]
      exact
        (placeOld exit exitBody).trans
          (mirrors.node_index formed.reachable_exit)
    other_graphs := by
      intro graph bound different
      rw [linked.other_graphs graph different,
        made.old_graphs graph (graphCountEq.symm ▸ bound),
        rewritten.graphs_eq]
    old_unlinked := by
      intro node bound
      rw [linked.unlinked_nodes, made.old_nodes node (countEq.symm ▸ bound)]
      by_cases isUnbatched : node ∈ unbatched.map iterators.node
      · obtain ⟨op, member, rfl⟩ := List.mem_map.mp isUnbatched
        obtain ⟨object, written, stored⟩ := rewritten.node_eq op member
        obtain ⟨operands, equal⟩ := opEq op member
        rw [equal] at written
        have same :=
          (mirrors.written op ((mem_unbatched op).mp member).1).symm.trans
            written
        rw [Option.some.injEq] at same
        rw [stored, ← same]
        rfl
      · rw [rewritten.other_nodes node isUnbatched]
    holds := by
      intro position group knownGroup
      have isGroup : group ∈ groups := List.mem_of_getElem? knownGroup
      have holds := made.holds position group knownGroup
        (List.getElem?_eq_some_iff.mp knownGroup).1
      rw [countEq, graphCountEq] at holds
      refine holds.congr ?_ ?_ ?_ ?_
      · exact fun op member => (memberSame group isGroup op member).symm
      · refine linked.other_graphs _ ?_
        exact Nat.ne_of_gt (Nat.lt_add_right _ graphLt)
      · intro node alive
        exact
          linked.other_nodes node
            (grouped.placeAt_ne_sub materialized old knownGroup alive)
      · exact linked.unlinked_nodes _
    linked := ⟨_, _, _, linked⟩ }

end Exporting

end Cgir.Mlir
