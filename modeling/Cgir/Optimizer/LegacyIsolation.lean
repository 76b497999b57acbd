import Cgir.Model.Confined
import Cgir.Optimizer.Dispatch
import Cgir.Pass.BatchIslands

/-!
# Passes stay in their graph

A pass follows adjacency lists from the entry of its graph.  It writes the nodes
that it meets there and those that it allocates, and leaves all other nodes and
graphs of the heap as they are, whichever optimizer runs it.
-/

namespace Cgir.Optimizer

open Relation
open Cgir.Library
open Cgir.Model
open Cgir.Model.Heap

section Legacy

variable {inside : NodeId → Prop} {graph : GraphId}
  {start base heap after : Heap}

/-! ## Commands -/

theorem normalizeNode_confined
    (confined : Confined inside graph start base heap) {u : NodeId}
    (owned : Owned inside start heap u)
    (ran : Pass.CopyNormalize.normalizeNode heap u = some after) :
    Confined inside graph start base after ∧
      after.nodeCount = heap.nodeCount := by
  unfold Pass.CopyNormalize.normalizeNode at ran
  split at ran
  · cases ran
  · cases ran
    exact ⟨confined.setCommand owned _, rfl⟩
  · cases ran
    exact ⟨confined, rfl⟩

theorem jitNode_confined (jit : CommandProg → CommandProg)
    (confined : Confined inside graph start base heap) {u : NodeId}
    (owned : Owned inside start heap u) :
    Confined inside graph start base (Pass.Jit.jitNode jit heap u) ∧
      (Pass.Jit.jitNode jit heap u).nodeCount = heap.nodeCount := by
  unfold Pass.Jit.jitNode
  split
  · exact ⟨confined.setCommand owned _, rfl⟩
  · exact ⟨confined, rfl⟩

/-! ## Nodes and edges -/

/-- One node is erased from the successors of the predecessors of another. -/
theorem eraseSuccessors_confined
    (confined : Confined inside graph start base heap) {u : NodeId}
    (owned : Owned inside start heap u) (v : NodeId) :
    Confined inside graph start base
        ((heap.predecessors u).foldl
          (fun heap pred => heap.eraseSuccessor pred v) heap) ∧
      ((heap.predecessors u).foldl
        (fun heap pred => heap.eraseSuccessor pred v) heap).nodeCount =
        heap.nodeCount := by
  apply confined.foldl
  intro pred member heap' kept same
  have predOwned := confined.predecessors u owned pred member
  exact
    ⟨kept.eraseSuccessor (Owned.of_le same.ge predOwned) v, same⟩

/-- One node is erased from the predecessors of the given nodes. -/
theorem erasePredecessors_confined
    (confined : Confined inside graph start base heap)
    (list : List NodeId)
    (owned : ∀ succ ∈ list, Owned inside start heap succ) (v : NodeId) :
    Confined inside graph start base
        (list.foldl (fun heap succ => heap.erasePredecessor succ v) heap) ∧
      (list.foldl
        (fun heap succ => heap.erasePredecessor succ v) heap).nodeCount =
        heap.nodeCount := by
  apply confined.foldl
  intro succ member heap' kept same
  exact
    ⟨kept.erasePredecessor
      (Owned.of_le same.ge (owned succ member)) v, same⟩

theorem contractFalseTwins_confined
    (confined : Confined inside graph start base heap) {u : NodeId}
    (owned : Owned inside start heap u) (v : NodeId) :
    Confined inside graph start base
        (Pass.CopyFuse.contractFalseTwins heap u v) ∧
      (Pass.CopyFuse.contractFalseTwins heap u v).nodeCount =
        heap.nodeCount := by
  obtain ⟨first, same⟩ := eraseSuccessors_confined confined owned v
  have owned' := Owned.of_le same.ge owned
  obtain ⟨second, same'⟩ :=
    erasePredecessors_confined first _ (first.successors u owned') v
  exact ⟨second, same'.trans same⟩

theorem tryFuseCopy_confined
    (confined : Confined inside graph start base heap) {u v : NodeId}
    (owned : Owned inside start heap u)
    (ran : Pass.CopyFuse.tryFuseCopy heap u v = some (some after)) :
    Confined inside graph start base after ∧
      after.nodeCount = heap.nodeCount := by
  obtain ⟨contracted, same⟩ := contractFalseTwins_confined confined owned v
  have owned' := Owned.of_le same.ge owned
  unfold Pass.CopyFuse.tryFuseCopy at ran
  split at ran
  · split at ran
    · cases ran
    · cases ran
    · split at ran
      · cases ran
        exact ⟨contracted.setCommand owned' _, same⟩
      · cases ran
    · cases ran
    · cases ran
    · split at ran <;> cases ran
    · cases ran
  · cases ran

theorem scanSiblings_confined
    (confined : Confined inside graph start base heap) {u : NodeId}
    (owned : Owned inside start heap u) {list : List NodeId}
    (ran : Pass.CopyFuse.scanSiblings heap u list = some (some after)) :
    Confined inside graph start base after ∧
      after.nodeCount = heap.nodeCount := by
  induction list with
  | nil => cases ran
  | cons v rest induction =>
      unfold Pass.CopyFuse.scanSiblings at ran
      split at ran
      · cases ran
      · cases ran
        rename_i fuses
        exact tryFuseCopy_confined confined owned fuses
      · exact induction ran

theorem retryNode_confined
    (confined : Confined inside graph start base heap) {u : NodeId}
    (owned : Owned inside start heap u) {fuel : Nat}
    (ran : Pass.CopyFuse.retryNode u fuel heap = some after) :
    Confined inside graph start base after ∧
      after.nodeCount = heap.nodeCount := by
  induction fuel generalizing heap with
  | zero => cases ran
  | succ fuel induction =>
      unfold Pass.CopyFuse.retryNode at ran
      split at ran
      · cases ran
      · rename_i fused fuses
        obtain ⟨kept, same⟩ := scanSiblings_confined confined owned fuses
        obtain ⟨kept', same'⟩ :=
          induction kept (Owned.of_le same.ge owned) ran
        exact ⟨kept', same'.trans same⟩
      · cases ran
        exact ⟨confined, rfl⟩

theorem remove_confined
    (confined : Confined inside graph start base heap) {u : NodeId}
    (owned : Owned inside start heap u) :
    Confined inside graph start base (Pass.ReduceNode.remove heap u) ∧
      (Pass.ReduceNode.remove heap u).nodeCount = heap.nodeCount := by
  obtain ⟨first, same⟩ := eraseSuccessors_confined confined owned u
  obtain ⟨second, same'⟩ :=
    erasePredecessors_confined first (heap.successors u)
      (fun succ member =>
        Owned.of_le same.ge
          (confined.successors u owned succ member)) u
  have count := same'.trans same
  obtain ⟨joined, count'⟩ :=
    second.foldl
      (fun state pred =>
        (heap.successors u).foldl
          (fun state succ => Pass.ReduceNode.connect state pred succ)
          state)
      (heap.predecessors u) (by
        intro pred member heap' kept same'
        have predOwned : Owned inside start heap' pred :=
          Owned.of_le (same'.trans count).ge
            (confined.predecessors u owned pred member)
        have inner :=
          kept.foldl
            (fun state succ => Pass.ReduceNode.connect state pred succ)
            (heap.successors u) (by
              intro succ member state kept' same''
              have succOwned : Owned inside start state succ :=
                Owned.of_le (same''.trans (same'.trans count)).ge
                  (confined.successors u owned succ member)
              unfold Pass.ReduceNode.connect
              split
              · exact
                  ⟨kept'.precedes (Owned.of_le same''.ge predOwned)
                    succOwned, same''⟩
              · exact ⟨kept', same''⟩)
        exact ⟨inner.1, inner.2.trans same'⟩)
  exact ⟨joined, count'.trans count⟩

/-- The scan of a successor list only drops successors. -/
theorem reduceFrom_confined (r : Pass.ReduceEdge.Reachability) {u : NodeId}
    (rest : List NodeId) :
    ∀ (kept : List NodeId) {heap : Heap},
      Confined inside graph start base heap → Owned inside start heap u →
        (∀ v ∈ kept ++ rest, Owned inside start heap v) →
          Confined inside graph start base
              (Pass.ReduceEdge.reduceFrom r u kept rest heap) ∧
            (Pass.ReduceEdge.reduceFrom r u kept rest heap).nodeCount =
              heap.nodeCount := by
  induction rest with
  | nil => exact fun _ _ confined _ _ => ⟨confined, rfl⟩
  | cons v rest induction =>
      intro kept heap confined owned listed
      unfold Pass.ReduceEdge.reduceFrom
      split
      · have dropped : ∀ w ∈ kept ++ rest, Owned inside start heap w := by
          intro w member
          apply listed
          rcases List.mem_append.mp member with before | behind
          · exact List.mem_append_left _ before
          · exact List.mem_append_right _ (List.mem_cons_of_mem _ behind)
        exact
          induction kept
            ((confined.setSuccessors owned dropped).erasePredecessor
              (listed v (by simp)) u) owned dropped
      · refine induction (kept ++ [v]) confined owned ?_
        rwa [List.append_assoc, List.singleton_append]

/-! ## Chains -/

theorem contractSequence_confined
    (confined : Confined inside graph start base heap) {u v : NodeId}
    (uOwned : Owned inside start heap u) (vOwned : Owned inside start heap v)
    (ran : Pass.ProgFuse.contractSequence heap u v = some after) :
    Confined inside graph start base after ∧
      after.nodeCount = heap.nodeCount := by
  unfold Pass.ProgFuse.contractSequence at ran
  split at ran
  · obtain ⟨redirected, redirects, same⟩ := Option.bind_eq_some_iff.mp ran
    cases same
    obtain ⟨kept, count⟩ :=
      confined.foldlM (by
        intro succ member heap' next kept same stepped
        have succOwned :=
          Owned.of_le same.ge
            (confined.successors v vOwned succ member)
        unfold Pass.ProgFuse.redirectPredecessor at stepped
        split at stepped
        · cases stepped
          refine ⟨kept.setPredecessors succOwned ?_, same⟩
          intro pred isPred
          obtain ⟨p, listed, rfl⟩ := List.mem_map.mp isPred
          split
          · exact Owned.of_le same.ge uOwned
          · exact kept.predecessors succ succOwned p listed
        · cases stepped) redirects
    have moved : ∀ next ∈ heap.successors v,
        Owned inside start redirected next := fun next member =>
      Owned.of_le count.ge
        (confined.successors v vOwned next member)
    exact
      ⟨(kept.setSuccessors (Owned.of_le count.ge uOwned)
          moved).setSuccessors (Owned.of_le count.ge vOwned)
          (fun next member => (List.not_mem_nil member).elim), count⟩
  · cases ran

/-- The members of a chain are met along successor lists. -/
theorem follow_owned (confined : Confined inside graph start base heap)
    {u : NodeId} (owned : Owned inside start heap u) {prog : CommandProg}
    {fuel : Nat} {chain : List NodeId}
    (ran : follow (Pass.ProgFuse.nextOf heap prog) fuel u = some chain) :
    ∀ v ∈ chain, Owned inside start heap v := by
  intro v member
  have path := (mem_follow_iff fuel ran v).mp member
  refine confined.owned_of_reach owned (ReflTransGen.mono ?_ u v path)
  intro cur next step
  unfold Steps Pass.ProgFuse.nextOf at step
  split at step
  · rename_i w alone
    split at step
    · split at step
      · cases step
        show next ∈ heap.successors cur
        rw [alone]
        exact List.mem_singleton_self _
      · cases step
    · cases step
  · cases step

theorem fuseNode_confined (fuse : List CommandProg → CommandProg)
    {nodes : List NodeId} {state next : Pass.ProgFuse.FuseState}
    (confined : Confined inside graph start base state.heap)
    {item : NodeId × Nat} (owned : Owned inside start state.heap item.1)
    (ran : Pass.ProgFuse.fuseNode fuse nodes state item = some next) :
    Confined inside graph start base next.heap ∧
      next.heap.nodeCount = state.heap.nodeCount := by
  obtain ⟨u, i⟩ := item
  simp only [Pass.ProgFuse.fuseNode] at ran
  split at ran
  · cases ran
    exact ⟨confined, rfl⟩
  · split at ran
    · cases ran
      exact ⟨confined, rfl⟩
    · obtain ⟨chain, collects, fuses⟩ := Option.bind_eq_some_iff.mp ran
      have members := follow_owned confined owned collects
      split at fuses
      · cases fuses
        exact ⟨confined, rfl⟩
      · refine
          Loop.foldlM_some_invariant
            (fun _ state' => Confined inside graph start base state'.heap ∧
              state'.heap.nodeCount = state.heap.nodeCount) fuses ?_
            ⟨confined.setCommand owned _, rfl⟩
        rintro done v rest state' after split ⟨kept, count⟩ absorbed
        have member : v ∈ chain :=
          List.mem_of_mem_tail (split ▸ (by simp))
        obtain ⟨heap', contracts, marked⟩ :=
          Option.bind_eq_some_iff.mp absorbed
        obtain ⟨kept', same⟩ :=
          contractSequence_confined kept
            (Owned.of_le count.ge owned)
            (Owned.of_le count.ge (members v member)) contracts
        dsimp only at marked
        split at marked
        · cases marked
          exact ⟨kept', same.trans count⟩
        · cases marked

/-! ## Sequences -/

/-- A replaced list holds what it held, and the new node. -/
theorem replace_owned {list : List NodeId} {old new : NodeId}
    (owned : ∀ n ∈ list, Owned inside start heap n)
    (newOwned : Owned inside start heap new) :
    ∀ n ∈ list.replace old new, Owned inside start heap n := by
  induction list with
  | nil => exact owned
  | cons head rest induction =>
      intro n member
      rw [List.replace_cons] at member
      split at member
      · rcases List.mem_cons.mp member with rfl | behind
        · exact newOwned
        · exact owned n (List.mem_cons_of_mem _ behind)
      · rcases List.mem_cons.mp member with rfl | behind
        · exact owned n List.mem_cons_self
        · exact
            induction
              (fun m listed => owned m (List.mem_cons_of_mem _ listed)) n
              behind

theorem detachHead_confined
    (confined : Confined inside graph start base heap) {batch head : NodeId}
    (batchOwned : Owned inside start heap batch)
    (owned : Owned inside start heap head) :
    Confined inside graph start base
        (Pass.Sequence.detachHead batch head heap) ∧
      (Pass.Sequence.detachHead batch head heap).nodeCount =
        heap.nodeCount := by
  have preds := confined.predecessors head owned
  obtain ⟨moved, count⟩ :=
    confined.foldl (Pass.Sequence.moveSuccessor batch head)
      (heap.predecessors head) (by
        intro p member heap' kept same
        have pOwned := Owned.of_le same.ge (preds p member)
        have batchOwned' := Owned.of_le same.ge batchOwned
        unfold Pass.Sequence.moveSuccessor
        split
        · exact ⟨kept.eraseSuccessor pOwned head, same⟩
        · exact
            ⟨kept.setSuccessors pOwned
              (replace_owned (kept.successors p pOwned) batchOwned'), same⟩)
  have batched :=
    moved.setPredecessors (Owned.of_le count.ge batchOwned)
      (fun p member => Owned.of_le count.ge (preds p member))
  exact
    ⟨batched.setPredecessors (Owned.of_le count.ge owned)
      (fun p member => (List.not_mem_nil member).elim), count⟩

theorem detachTail_confined
    (confined : Confined inside graph start base heap) {batch tail : NodeId}
    (batchOwned : Owned inside start heap batch)
    (owned : Owned inside start heap tail) :
    Confined inside graph start base
        (Pass.Sequence.detachTail batch tail heap) ∧
      (Pass.Sequence.detachTail batch tail heap).nodeCount =
        heap.nodeCount := by
  have succs := confined.successors tail owned
  obtain ⟨moved, count⟩ :=
    confined.foldl (Pass.Sequence.movePredecessor batch tail)
      (heap.successors tail) (by
        intro s member heap' kept same
        have sOwned := Owned.of_le same.ge (succs s member)
        have batchOwned' := Owned.of_le same.ge batchOwned
        unfold Pass.Sequence.movePredecessor
        split
        · exact ⟨kept.erasePredecessor sOwned tail, same⟩
        · exact
            ⟨kept.setPredecessors sOwned
              (replace_owned (kept.predecessors s sOwned) batchOwned'), same⟩)
  have batched :=
    moved.setSuccessors (Owned.of_le count.ge batchOwned)
      (fun s member => Owned.of_le count.ge (succs s member))
  exact
    ⟨batched.setSuccessors (Owned.of_le count.ge owned)
      (fun s member => (List.not_mem_nil member).elim), count⟩

theorem contract_confined
    (confined : Confined inside graph start base heap)
    (graphOld : graph < start.graphCount) {u tail : NodeId}
    (uOwned : Owned inside start heap u)
    (tailOwned : Owned inside start heap tail) :
    Confined inside graph start base (Pass.Sequence.contract u tail heap) ∧
      heap.nodeCount ≤ (Pass.Sequence.contract u tail heap).nodeCount := by
  have created :=
    confined.commandGraphNodeNew (heap.nodes u).deviceUniqueId .command
  have more :
      heap.nodeCount ≤
        (heap.commandGraphNodeNew (heap.nodes u).deviceUniqueId
          .command).2.nodeCount := by
    simp
  have batchOwned :=
    confined.owned_new (heap.nodes u).deviceUniqueId .command
  obtain ⟨first, count⟩ :=
    detachHead_confined created batchOwned (Owned.of_le more uOwned)
  obtain ⟨second, count'⟩ :=
    detachTail_confined first (Owned.of_le count.ge batchOwned)
      (Owned.of_le (more.trans count.ge) tailOwned)
  have allocated := second.allocateGraph graphOld u tail
  refine ⟨?_, more.trans (count'.trans count).ge⟩
  unfold Pass.Sequence.contract
  apply Confined.updateGraph_new _ graphOld second.graphCount_le
  · rfl
  · apply allocated.setCommand
    exact Owned.of_le (count'.trans count).ge batchOwned

theorem walkChain_owned (confined : Confined inside graph start base heap)
    {iterators : Iterators} {fuel : Nat}
    {state last : Pass.Sequence.ChainWalk}
    (owned : Owned inside start heap state.tail)
    (ran : Pass.Sequence.walkChain iterators heap fuel state = some last) :
    Owned inside start heap last.tail := by
  induction fuel generalizing state with
  | zero => cases ran
  | succ fuel induction =>
      unfold Pass.Sequence.walkChain at ran
      split at ran
      · rename_i nxt alone
        split at ran
        · refine induction ?_ ran
          exact
            confined.successors state.tail owned nxt
              (alone ▸ List.mem_singleton_self _)
        · cases ran
          exact owned
      · cases ran
        exact owned

theorem scanNode_confined {iterators : Iterators}
    {state next : Pass.Sequence.Scan}
    (confined : Confined inside graph start base state.heap)
    (graphOld : graph < start.graphCount) {i : Nat}
    (owned : Owned inside start state.heap (iterators.node i))
    (ran : Pass.Sequence.scanNode iterators state i = some next) :
    Confined inside graph start base next.heap ∧
      state.heap.nodeCount ≤ next.heap.nodeCount := by
  simp only [Pass.Sequence.scanNode] at ran
  split at ran
  · cases ran
    exact ⟨confined, le_rfl⟩
  · split at ran
    · split at ran
      · cases ran
        exact ⟨confined, le_rfl⟩
      · obtain ⟨walk, walks, contracts⟩ := Option.bind_eq_some_iff.mp ran
        have tailOwned := walkChain_owned confined owned walks
        split at contracts
        · cases contracts
          exact ⟨confined, le_rfl⟩
        · cases contracts
          exact contract_confined confined graphOld owned tailOwned
    · cases ran
      exact ⟨confined, le_rfl⟩

/-! ## Batches -/

/-- The representatives and the ends of the islands that were made so far. -/
structure PlacedIslands (inside : NodeId → Prop) (graph : GraphId)
    (start base : Heap) (iterators : Iterators)
    (state : Pass.Batch.Materialized) : Prop where
  confined : Confined inside graph start base state.heap
  nodeCount_le : iterators.heap.nodeCount ≤ state.heap.nodeCount
  successors_eq : ∀ n < iterators.heap.nodeCount,
    state.heap.successors n = iterators.heap.successors n
  rep : ∀ i < iterators.count, Owned inside start state.heap (state.rep i)
  ends : ∀ island ∈ state.mat,
    Owned inside start state.heap island.2.sEntry ∧
      Owned inside start state.heap island.2.sExit

theorem materialize_confined {iterators : Iterators}
    {members : Nat → List NodeId} {state : Pass.Batch.Materialized}
    (graphOld : graph < start.graphCount)
    (placed : PlacedIslands inside graph start base iterators state)
    (key : Nat) :
    PlacedIslands inside graph start base iterators
      (Pass.Batch.materialize iterators members state key) := by
  unfold Pass.Batch.materialize
  split
  · exact placed
  · obtain ⟨cut, entryOwned, exitOwned⟩ :=
      placed.confined.newSubGraph graphOld
    have created :=
      cut.commandGraphNodeNew
        (Pass.Batch.islandDevice iterators key (members key)) .command
    have batchOwned :=
      cut.owned_new
        (Pass.Batch.islandDevice iterators key (members key)) .command
    have grown : ∀ {n}, Owned inside start state.heap n →
        inside n ∨ start.nodeCount ≤ n ∧ n < state.heap.nodeCount + 3 :=
      fun owned => owned.imp_right fun ⟨fresh, below⟩ =>
        ⟨fresh, Nat.lt_add_right 3 below⟩
    have updated : ∀ (list : List NodeId) (rep : Nat → NodeId),
        (∀ i < iterators.count,
          inside (rep i) ∨ start.nodeCount ≤ rep i ∧
            rep i < state.heap.nodeCount + 3) →
          ∀ i < iterators.count,
            let rep' := list.foldl (fun rep m =>
              Function.update rep (iterators.index m)
                (state.heap.nodeCount + 2)) rep
            inside (rep' i) ∨ start.nodeCount ≤ rep' i ∧
              rep' i < state.heap.nodeCount + 3 := by
      intro list
      induction list with
      | nil => exact fun rep owned => owned
      | cons m rest induction =>
          intro rep owned
          apply induction
          intro i bound
          dsimp only
          rw [Function.update_apply]
          split
          · exact batchOwned
          · exact owned i bound
    exact {
      confined := created.setCommand batchOwned _
      nodeCount_le := placed.nodeCount_le.trans (Nat.le_add_right _ 3)
      successors_eq := by
        intro n old
        rw [← placed.successors_eq n old]
        have below := old.trans_le placed.nodeCount_le
        have notEntry : n ≠ state.heap.nodeCount := below.ne
        have notExit : n ≠ state.heap.nodeCount + 1 := by omega
        have notBatch : n ≠ state.heap.nodeCount + 2 := by omega
        simp [Heap.successors, Heap.setCommand, Heap.setSuccessors,
          Heap.setPredecessors, Heap.commandGraphNew_none_nodes,
          Heap.commandGraphNew_none_graphs, notEntry, notExit, notBatch]
      rep := updated _ _ fun i bound => grown (placed.rep i bound)
      ends := by
        intro island member
        rcases List.mem_append.mp member with old | new
        · exact (placed.ends island old).imp grown grown
        · rw [List.mem_singleton.mp new]
          exact
            ⟨Owned.of_le (Nat.le_succ _) entryOwned,
              Owned.of_le (Nat.le_succ _) exitOwned⟩ }

theorem rewireEdge_confined (iterators : Iterators) (rep : Nat → NodeId)
    (confined : Confined inside graph start base heap)
    (edge : NodeId × NodeId) (source : Owned inside start heap edge.1)
    (target : Owned inside start heap edge.2)
    (repSource : Owned inside start heap (rep (iterators.index edge.1)))
    (repTarget : Owned inside start heap (rep (iterators.index edge.2))) :
    Confined inside graph start base
        (Pass.Batch.rewireEdge iterators rep heap edge) ∧
      (Pass.Batch.rewireEdge iterators rep heap edge).nodeCount =
        heap.nodeCount := by
  have detached := confined.detach source target
  simp only [Pass.Batch.rewireEdge]
  split
  · exact ⟨confined, rfl⟩
  · split
    · exact ⟨confined, rfl⟩
    · split
      · exact ⟨detached, rfl⟩
      · exact ⟨detached.precedes repSource repTarget, rfl⟩

theorem precedesIf_confined
    (confined : Confined inside graph start base heap) (test : Prop)
    [Decidable test] {n succ : NodeId} (owned : Owned inside start heap n)
    (succOwned : Owned inside start heap succ) :
    Confined inside graph start base
        (if test then heap.precedes n succ else heap) ∧
      (if test then heap.precedes n succ else heap).nodeCount =
        heap.nodeCount := by
  split
  · exact ⟨confined.precedes owned succOwned, rfl⟩
  · exact ⟨confined, rfl⟩

theorem connectIsland_confined (members : Nat → List NodeId)
    (confined : Confined inside graph start base heap)
    (island : Nat × Pass.Batch.IslandMat)
    (inner : ∀ m ∈ members island.1, Owned inside start heap m)
    (entryOwned : Owned inside start heap island.2.sEntry)
    (exitOwned : Owned inside start heap island.2.sExit) :
    Confined inside graph start base
        (Pass.Batch.connectIsland members heap island) ∧
      (Pass.Batch.connectIsland members heap island).nodeCount =
        heap.nodeCount := by
  refine
    confined.foldl (Pass.Batch.connectMember island.2) (members island.1) ?_
  intro m member heap' kept same
  have mOwned := Owned.of_le same.ge (inner m member)
  have entryOwned' := Owned.of_le same.ge entryOwned
  have exitOwned' := Owned.of_le same.ge exitOwned
  obtain ⟨first, count⟩ :=
    precedesIf_confined kept (heap'.predecessors m = []) entryOwned' mOwned
  obtain ⟨second, count'⟩ :=
    precedesIf_confined first
      ((if heap'.predecessors m = [] then heap'.precedes island.2.sEntry m
        else heap').successors m = [])
      (Owned.of_le count.ge mOwned)
      (Owned.of_le count.ge exitOwned')
  exact ⟨second, count'.trans (count.trans same)⟩

/-- The islands are made of nodes of the vector, all of them at their index. -/
theorem build_confined {islandOrder : List Nat → List Nat}
    {matOrder : List (Nat × Pass.Batch.IslandMat) →
      List (Nat × Pass.Batch.IslandMat)}
    (matPerm : ∀ list, (matOrder list).Perm list)
    (graphOld : graph < start.graphCount) {iterators : Iterators}
    {islands : Pass.Batch.Islands}
    (confined : Confined inside graph start base iterators.heap)
    (owned : ∀ node ∈ iterators.nodes,
      Owned inside start iterators.heap node)
    (indexed : ∀ node ∈ iterators.nodes,
      iterators.index node < iterators.count)
    (closed : ∀ node ∈ iterators.nodes,
      ∀ s ∈ iterators.heap.successors node, s ∈ iterators.nodes)
    (members : ∀ key, ∀ m ∈ islands.members key, m ∈ iterators.nodes)
    (allocated : ∀ node ∈ iterators.nodes,
      node < iterators.heap.nodeCount) :
    Confined inside graph start base
      (Pass.Batch.build islandOrder matOrder iterators islands) := by
  unfold Pass.Batch.build
  have placed :=
    Loop.foldl_invariant
      (Pass.Batch.materialize iterators islands.members)
      (fun _ => PlacedIslands inside graph start base iterators)
      (islandOrder islands.keys)
      { heap := iterators.heap, rep := iterators.node, mat := [] }
      (fun _ key _ _ _ placed => materialize_confined graphOld placed key)
      { confined := confined
        nodeCount_le := le_rfl
        successors_eq := fun _ _ => rfl
        rep := fun i bound => owned _ (Iterators.node_mem bound)
        ends := fun island member => (List.not_mem_nil member).elim }
  generalize (islandOrder islands.keys).foldl
    (Pass.Batch.materialize iterators islands.members)
    { heap := iterators.heap, rep := iterators.node, mat := [] } = state
    at placed ⊢
  have nodeOwned : ∀ node ∈ iterators.nodes,
      Owned inside start state.heap node := fun node member =>
    Owned.of_le placed.nodeCount_le (owned node member)
  obtain ⟨rewired, count⟩ :=
    placed.confined.foldl (Pass.Batch.rewireEdge iterators state.rep)
      (Pass.Batch.edges state.heap iterators.nodes) (by
        intro edge member heap' kept same
        obtain ⟨u, uMember, listed⟩ := List.mem_flatMap.mp member
        obtain ⟨v, isSucc, rfl⟩ := List.mem_map.mp listed
        rw [placed.successors_eq u (allocated u uMember)] at isSucc
        have vMember := closed u uMember v isSucc
        have grown : ∀ {n}, Owned inside start state.heap n →
            Owned inside start heap' n :=
          fun owned => Owned.of_le same.ge owned
        obtain ⟨kept', count⟩ :=
          rewireEdge_confined iterators state.rep kept (u, v) (grown (nodeOwned u uMember))
            (grown (nodeOwned v vMember))
            (grown (placed.rep _ (indexed u uMember)))
            (grown (placed.rep _ (indexed v vMember)))
        exact ⟨kept', count.trans same⟩)
  refine
    (rewired.foldl (Pass.Batch.connectIsland islands.members)
      (matOrder state.mat) ?_).1
  intro island member heap' kept same
  have made := (matPerm state.mat).mem_iff.mp member
  have grown : ∀ {n}, Owned inside start state.heap n →
      Owned inside start heap' n :=
    fun owned => Owned.of_le (same.trans count).ge owned
  obtain ⟨kept', count'⟩ :=
    connectIsland_confined islands.members kept island
      (fun m inner => grown (nodeOwned m (members island.1 m inner)))
      (grown (placed.ends island made).1) (grown (placed.ends island made).2)
  exact ⟨kept', count'.trans same⟩

/-! ## The passes -/

/--
A pass stays in its graph after at most two walks, the last of which marked the
whole graph if walks are complete.
-/
def Stays (inside : NodeId → Prop) (graph : GraphId)
    (start heap after : Heap) : Prop :=
  ∃ walked walks, Settles graph heap walked ∧
    Counts graph walks heap walked ∧ walks ≤ 2 ∧
      Confined inside graph start walked after

variable (confined : Confined inside graph start base heap)

include confined

theorem passCopyNormalize_stays
    (ran : Pass.CopyNormalize.passCopyNormalize heap graph = some after) :
    Stays inside graph start heap after := by
  obtain ⟨⟨indexed, nodes⟩, iterates, loops⟩ :=
    Option.bind_eq_some_iff.mp ran
  obtain ⟨first, owned⟩ := confined.createNodeIterators iterates
  refine
    ⟨indexed, 1, .of_createNodeIterators iterates,
      .of_createNodeIterators iterates, Nat.le_succ 1, ?_⟩
  refine (first.foldlM ?_ loops).1
  intro u member heap' next kept same normalizes
  obtain ⟨kept', count⟩ :=
    normalizeNode_confined kept
      (Owned.of_le same.ge (owned u member)) normalizes
  exact ⟨kept', count.trans same⟩

theorem passCopyFuse_stays
    (ran : Pass.CopyFuse.passCopyFuse heap graph = some after) :
    Stays inside graph start heap after := by
  obtain ⟨⟨indexed, nodes⟩, iterates, loops⟩ :=
    Option.bind_eq_some_iff.mp ran
  obtain ⟨first, owned⟩ := confined.createNodeIterators iterates
  refine
    ⟨indexed, 1, .of_createNodeIterators iterates,
      .of_createNodeIterators iterates, Nat.le_succ 1, ?_⟩
  refine (first.foldlM ?_ loops).1
  intro u member heap' next kept same fuses
  obtain ⟨kept', count⟩ :=
    retryNode_confined kept
      (Owned.of_le same.ge (owned u member)) fuses
  exact ⟨kept', count.trans same⟩

theorem passReduceNode_stays
    (ran : Pass.ReduceNode.passReduceNode heap graph = some after) :
    Stays inside graph start heap after := by
  obtain ⟨⟨indexed, nodes⟩, iterates, same⟩ :=
    Option.bind_eq_some_iff.mp ran
  cases same
  obtain ⟨first, owned⟩ := confined.createNodeIterators iterates
  refine
    ⟨indexed, 1, .of_createNodeIterators iterates,
      .of_createNodeIterators iterates, Nat.le_succ 1, ?_⟩
  refine (first.foldl Pass.ReduceNode.reduceNode nodes ?_).1
  intro u member heap' kept same
  unfold Pass.ReduceNode.reduceNode
  split
  · obtain ⟨kept', count⟩ :=
      remove_confined kept (Owned.of_le same.ge (owned u member))
    exact ⟨kept', count.trans same⟩
  · exact ⟨kept, same⟩

theorem passReduceEdge_stays
    (ran : Pass.ReduceEdge.passReduceEdge heap graph = some after) :
    Stays inside graph start heap after := by
  obtain ⟨⟨indexed, nodes⟩, iterates, rest⟩ :=
    Option.bind_eq_some_iff.mp ran
  obtain ⟨⟨walked, visited⟩, walks, same⟩ := Option.bind_eq_some_iff.mp rest
  cases same
  obtain ⟨first, owned⟩ := confined.createNodeIterators iterates
  obtain ⟨second, -⟩ := first.walk walks
  have count : walked.nodeCount = indexed.nodeCount := by
    obtain ⟨result, -, same⟩ := Option.bind_eq_some_iff.mp walks
    cases same
    rfl
  refine
    ⟨walked, 1 + 1,
      (Settles.of_createNodeIterators iterates).trans (.of_walk walks),
      (Counts.of_createNodeIterators iterates).trans (.of_walk walks),
      le_rfl, ?_⟩
  refine (second.foldl (Pass.ReduceEdge.reduceNode _) nodes ?_).1
  intro u member heap' kept same
  have uOwned : Owned inside start heap' u :=
    Owned.of_le same.ge
      (Owned.of_le count.ge (owned u member))
  obtain ⟨kept', count'⟩ :=
    reduceFrom_confined (visited.foldl _ _) (heap'.successors u) [] kept
      uOwned (kept.successors u uOwned)
  exact ⟨kept', count'.trans same⟩

theorem passProgFuse_stays (fuse : List CommandProg → CommandProg)
    {fused : List (List NodeId)}
    (ran : Pass.ProgFuse.passProgFuse fuse heap graph =
      some (after, fused)) :
    Stays inside graph start heap after := by
  obtain ⟨⟨indexed, nodes⟩, iterates, rest⟩ :=
    Option.bind_eq_some_iff.mp ran
  obtain ⟨state, loops, same⟩ := Option.bind_eq_some_iff.mp rest
  cases same
  obtain ⟨first, owned⟩ := confined.createNodeIterators iterates
  refine
    ⟨indexed, 1, .of_createNodeIterators iterates,
      .of_createNodeIterators iterates, Nat.le_succ 1, ?_⟩
  refine (first.foldlM_le Pass.ProgFuse.FuseState.heap rfl ?_ loops).1
  intro item member state next kept more fuses
  have listed : item.1 ∈ nodes := by
    obtain ⟨-, bound, same⟩ := List.mem_zipIdx member
    rw [same]
    exact List.getElem_mem _
  obtain ⟨kept', count⟩ :=
    fuseNode_confined fuse kept
      (Owned.of_le more (owned item.1 listed)) fuses
  exact ⟨kept', count.ge⟩

theorem passJit_stays (jit : CommandProg → CommandProg)
    (ran : Pass.Jit.passJit jit heap graph = some after) :
    Stays inside graph start heap after := by
  obtain ⟨⟨walked, visited⟩, walks, same⟩ := Option.bind_eq_some_iff.mp ran
  cases same
  obtain ⟨first, owned⟩ := confined.walk walks
  refine
    ⟨walked, 1, .of_walk walks, .of_walk walks, Nat.le_succ 1, ?_⟩
  refine (first.foldl (Pass.Jit.jitNode jit) visited ?_).1
  intro u member heap' kept same
  obtain ⟨kept', count⟩ :=
    jitNode_confined jit kept (Owned.of_le same.ge (owned u member))
  exact ⟨kept', count.trans same⟩

theorem passSequence_stays (graphOld : graph < start.graphCount)
    (ran : Pass.Sequence.passSequence heap graph = some after) :
    Stays inside graph start heap after := by
  obtain ⟨⟨indexed, nodes⟩, iterates, rest⟩ :=
    Option.bind_eq_some_iff.mp ran
  obtain ⟨first, owned⟩ := confined.createNodeIterators iterates
  refine
    ⟨indexed, 1, .of_createNodeIterators iterates,
      .of_createNodeIterators iterates, Nat.le_succ 1, ?_⟩
  dsimp only at rest
  split at rest
  · cases rest
    exact first
  · obtain ⟨state, loops, same⟩ := Option.bind_eq_some_iff.mp rest
    cases same
    refine (first.foldlM_le Pass.Sequence.Scan.heap rfl ?_ loops).1
    intro i member state next kept more scans
    rw [List.mem_range] at member
    exact
      scanNode_confined kept graphOld
        (Owned.of_le more
          (owned _ (Iterators.node_mem member))) scans

/-- The islands and the indices of a batch are those of a complete walk. -/
theorem passBatch_stays {islandOrder : List Nat → List Nat}
    {matOrder : List (Nat × Pass.Batch.IslandMat) →
      List (Nat × Pass.Batch.IslandMat)}
    (matPerm : ∀ list, (matOrder list).Perm list)
    (graphOld : graph < start.graphCount)
    (allocated : ∀ n, heap.Reachable graph n → n < heap.nodeCount)
    (ready : heap.WalkReady graph)
    (ran : Pass.Batch.passBatch islandOrder matOrder heap graph =
      some after) :
    Stays inside graph start heap after := by
  obtain ⟨indexed, nodes, iterates, iterated⟩ :=
    Heap.createNodeIterators_spec allocated ready true
  obtain ⟨first, owned⟩ := confined.createNodeIterators iterates
  refine
    ⟨indexed, 1, .of_createNodeIterators iterates,
      .of_createNodeIterators iterates, Nat.le_succ 1, ?_⟩
  have valid : Iterators.Valid ⟨indexed, graph, nodes⟩ :=
    Iterators.valid_of_iterated iterated
  obtain ⟨islands, detects, detected⟩ := Pass.Batch.detect_spec valid
  simp only [Pass.Batch.passBatch, iterates, Option.bind_eq_bind,
    Option.bind_some] at ran
  split at ran
  · cases ran
    exact first
  · rw [detects] at ran
    cases ran
    apply build_confined matPerm graphOld first owned
    · exact fun node member => valid.index_lt member
    · exact fun node member s edge => valid.closed member edge
    · intro key m member
      exact (valid.mem_iff m).mpr (detected.candidate member).1
    · intro node member
      rw [Heap.unmarked_nodeCount iterated.unmarked_eq]
      exact
        allocated node ((iterated.mem_iff node).mp member).1

end Legacy

end Cgir.Optimizer
