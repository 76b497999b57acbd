import Cgir.Library.Kahn
import Cgir.Mlir.Agreement
import Cgir.Mlir.Batch
import Cgir.Mlir.Reachability
import Cgir.Pass.ReduceEdge

/-!
# The reduce-edge pass of the dialect

`ReduceEdgePass` orders the ops of the block topologically, fills the
reachability matrix backwards along this order and drops every token operand
that another user of the token reaches.  Unlike the pass on the heap it tests
against the users from before the pass; both leave the transitive reduction.  The
matrix has `int` indices, and the pass goes wrong on blocks for which they
overflow.

The order in which a token lists its users is a parameter.
-/

namespace Cgir.Mlir.ReduceEdge

open Relation
open Cgir.Library
open Cgir.Model

/-! ## The source functions -/

/-- `succ[i]`. -/
def succAt (getUsers : Graph → OpId → List OpId) (cg : Graph) (i : Nat) :
    List Nat :=
  (SetVector.insertAll [] (getUsers cg (cg.opAt i))).filterMap cg.position

/-- `indeg[j]`. -/
def indegAt (cg : Graph) (j : Nat) : Int :=
  ((SetVector.insertAll [] (cg.operands (cg.opAt j))).filterMap
    cg.position).length

/-- `topo`. -/
def topo (getUsers : Graph → OpId → List OpId) (cg : Graph) :
    Option (List Nat) := do
  let queue := (List.range cg.count).filter fun i => indegAt cg i = 0
  let state ←
    Kahn.drain (succAt getUsers cg) (cg.count + 1)
      { degree := indegAt cg, stack := queue, order := [] }
  return state.order

/-- `redundant`. -/
def redundant (succ : Nat → List Nat) (r : Bitset2d 6) (i v : Nat) : Bool :=
  (succ i).any fun w => w ≠ v && r.test w v

/-- Drop the redundant edges of the op at position `i` of the given block. -/
def reduceAt (start : Graph) (succ : Nat → List Nat) (r : Bitset2d 6)
    (cg : Graph) (i : Nat) : Graph :=
  (succ i).foldl
    (fun cg v =>
      if redundant succ r i v then
        cg.setOperands (start.opAt v)
          ((cg.operands (start.opAt v)).erase (start.opAt i))
      else cg)
    cg

/-- `ReduceEdgePass::runOnOperation`. -/
def reduceEdge (getUsers : Graph → OpId → List OpId) (cg : Graph) :
    Option Graph := do
  let succ := succAt getUsers cg
  let order ← topo getUsers cg
  -- Beyond this size the matrix is not the one that is indexed below.
  let _ ← Reachability.allocated cg.count
  let r :=
    order.reverse.foldl (ReachRows.fill succ id) (Bitset2d.new 6 cg.count)
  return (List.range cg.count).foldl (reduceAt cg succ r) cg

/-- `command_graph_optimize_mlir` with the reduce-edge pass. -/
def optimizeReduceEdge (getUsers : Graph → OpId → List OpId) (heap : Heap)
    (graph : GraphId) : Option Heap := do
  let (heap, cg) ← importCommandGraph heap graph
  let cg ← reduceEdge getUsers cg
  exportCommandGraph cg heap graph

/-! ## Positions -/

section Positions

variable {getUsers : Graph → OpId → List OpId}
  (usersPerm : ∀ cg token, (getUsers cg token).Perm (cg.users token))
  {cg : Graph} {live : OpId → Prop} {edge : OpId → OpId → Prop} {n : Nat}
  (bodyEq : cg.body = List.range n)
  (represents : cg.Represents live edge)

include bodyEq

theorem count_eq : cg.count = n := by
  rw [Graph.count, bodyEq, List.length_range]

/-- In an imported block an op is its own position. -/
theorem opAt_eq {i : Nat} (bound : i < n) : cg.opAt i = i := by
  rw [Graph.opAt, bodyEq, List.getD_eq_getElem?_getD,
    List.getElem?_range bound]
  rfl

theorem position_eq {op : OpId} (bound : op < n) :
    cg.position op = some op := by
  rw [Graph.position, bodyEq, List.idxOf?_eq_some_iff]
  refine ⟨by simpa using bound, by simp, ?_⟩
  intro j earlier
  simpa using earlier.ne

theorem filterMap_position {ops : List OpId} (inside : ∀ op ∈ ops, op < n) :
    ops.filterMap cg.position = ops := by
  refine (List.filterMap_congr ?_).trans List.filterMap_some
  exact fun op member => position_eq bodyEq (inside op member)

include represents

theorem live_iff (op : OpId) : live op ↔ op < n := by
  rw [← represents.mem_body, bodyEq, List.mem_range]

include usersPerm

/-- All users of a token are in the block. -/
theorem succAt_eq (i : Nat) : succAt getUsers cg i =
    SetVector.insertAll [] (getUsers cg (cg.opAt i)) := by
  apply filterMap_position bodyEq
  intro op member
  rw [SetVector.mem_insertAll, (usersPerm _ _).mem_iff, represents.mem_users]
    at member
  rcases member with none | step
  · cases none
  · exact (live_iff bodyEq represents op).mp (represents.inside _ op step).2

theorem mem_succAt {i : Nat} (bound : i < n) (j : Nat) :
    j ∈ succAt getUsers cg i ↔ edge i j := by
  rw [succAt_eq usersPerm bodyEq represents, SetVector.mem_insertAll,
    (usersPerm _ _).mem_iff, represents.mem_users, opAt_eq bodyEq bound]
  exact or_iff_right List.not_mem_nil

theorem succAt_nodup (i : Nat) : (succAt getUsers cg i).Nodup := by
  rw [succAt_eq usersPerm bodyEq represents]
  exact SetVector.nodup_insertAll List.nodup_nil _

theorem succAt_lt {i : Nat} (bound : i < n) :
    ∀ next ∈ succAt getUsers cg i, next < n := by
  intro next member
  have step := (mem_succAt usersPerm bodyEq represents bound next).mp member
  exact (live_iff bodyEq represents next).mp (represents.inside i next step).2

/-- The counts before the first op is ordered. -/
theorem indegAt_eq {j : Nat} (bound : j < n) :
    indegAt cg j =
      (Kahn.pending (succAt getUsers cg) (Finset.range n) [] j).card := by
  have live := (live_iff bodyEq represents j).mpr bound
  have nodup := represents.operands_nodup j live
  have memOperands := represents.mem_operands j live
  have below : ∀ pred ∈ cg.operands j, pred < n := by
    intro pred uses
    exact
      (live_iff bodyEq represents pred).mp
        (represents.inside pred j ((memOperands pred).mp uses)).1
  have pendingEq : Kahn.pending (succAt getUsers cg) (Finset.range n) [] j =
      (cg.operands j).toFinset := by
    ext pred
    rw [Kahn.mem_pending, List.mem_toFinset, memOperands, Finset.mem_range]
    constructor
    · rintro ⟨predBound, -, member⟩
      exact (mem_succAt usersPerm bodyEq represents predBound j).mp member
    · intro step
      have predBound := below pred ((memOperands pred).mpr step)
      exact
        ⟨predBound, List.not_mem_nil,
          (mem_succAt usersPerm bodyEq represents predBound j).mpr step⟩
  rw [pendingEq, List.toFinset_card_of_nodup nodup, indegAt,
    opAt_eq bodyEq bound,
    SetVector.insertAll_of_nodup (by simpa using nodup), List.nil_append,
    filterMap_position bodyEq below]

/-! ## The matrix -/

/-- The topological order lists the whole block. -/
theorem topo_spec (acyclic : Digraph.Acyclic edge) :
    ∃ order, topo getUsers cg = some order ∧ order.Nodup ∧
      (∀ i, i ∈ order ↔ i < n) ∧
      MarkSearch.PostSorted (succAt getUsers cg) (fun _ => False)
        order.reverse := by
  have memSucc : ∀ i ∈ Finset.range n, ∀ j,
      j ∈ succAt getUsers cg i ↔ edge i j := fun i bound j =>
    mem_succAt usersPerm bodyEq represents (Finset.mem_range.mp bound) j
  have closed : ∀ i ∈ Finset.range n, ∀ next ∈ succAt getUsers cg i,
      next ∈ Finset.range n := fun i bound next member =>
    Finset.mem_range.mpr
      (succAt_lt usersPerm bodyEq represents (Finset.mem_range.mp bound) next
        member)
  have counted := count_eq bodyEq
  obtain ⟨final, ran, nodup, memOrder, ordered⟩ :=
    Kahn.drain_spec
      (fun i _ => succAt_nodup usersPerm bodyEq represents i) closed
      (acyclic.mono fun source target step =>
        (memSucc source step.1 target).mp step.2)
      (fun j bound =>
        indegAt_eq usersPerm bodyEq represents (Finset.mem_range.mp bound))
      (List.nodup_range.filter fun i => decide (indegAt cg i = 0))
      (fun i => by
        rw [List.mem_filter, List.mem_range, decide_eq_true_eq,
          Finset.mem_range])
      (by rw [Finset.card_range]; exact Nat.lt_succ_self n)
  refine ⟨final.order, ?_, nodup, ?_, ?_⟩
  · rw [topo, counted]
    simp only [ran, Option.bind_eq_bind, Option.bind_some, Option.pure_def]
  · intro i
    rw [memOrder, Finset.mem_range]
  · exact ordered.postSorted nodup memOrder closed

/-- Paths along `succ` are paths of the represented relation. -/
theorem reach_iff {w : Nat} (bound : w < n) (v : Nat) :
    MarkSearch.Reach (succAt getUsers cg) w v ↔
      ReflTransGen edge w v := by
  constructor
  · intro path
    have both : ReflTransGen edge w v ∧ v < n := by
      induction path with
      | refl => exact ⟨ReflTransGen.refl, bound⟩
      | tail _ step induction =>
          obtain ⟨before, inside⟩ := induction
          have next :=
            (mem_succAt usersPerm bodyEq represents inside _).mp step
          exact
            ⟨before.tail next,
              succAt_lt usersPerm bodyEq represents inside _ step⟩
    exact both.1
  · intro path
    induction path with
    | refl => exact ReflTransGen.refl
    | @tail middle last _ step induction =>
        have inside : middle < n :=
          (live_iff bodyEq represents middle).mp
            (represents.inside middle last step).1
        exact
          induction.tail
            ((mem_succAt usersPerm bodyEq represents inside last).mpr step)

/-- The matrix holds the paths between the ops. -/
theorem matrix_spec {order : List Nat} (nodup : order.Nodup)
    (memOrder : ∀ i, i ∈ order ↔ i < n)
    (sorted : MarkSearch.PostSorted (succAt getUsers cg) (fun _ => False)
      order.reverse) {w v : Nat} (wBound : w < n) (vBound : v < n) :
    (order.reverse.foldl (ReachRows.fill (succAt getUsers cg) id)
        (Bitset2d.new 6 cg.count)).test w v = true ↔
      ReflTransGen edge w v := by
  have indexed : ReachRows.Indexed id (List.range n) := by
    intro i member
    rw [id_eq, List.getElem?_range (List.mem_range.mp member)]
  have rows : ReachRows.Rows (succAt getUsers cg) id (List.range n)
      order.reverse
      (order.reverse.foldl (ReachRows.fill (succAt getUsers cg) id)
        (Bitset2d.new 6 cg.count)) := by
    have start :=
      ReachRows.Rows.nil 6 (succAt getUsers cg) id (List.range n)
    rw [List.length_range] at start
    rw [count_eq bodyEq]
    refine
      ReachRows.Rows.foldl indexed ?_ (List.nodup_reverse.mpr nodup) ?_ sorted
        order.reverse [] _ rfl start
    · intro i member next step
      rw [List.mem_range] at member ⊢
      exact succAt_lt usersPerm bodyEq represents member next step
    · intro i member
      rw [List.mem_reverse, memOrder] at member
      exact List.mem_range.mpr member
  have tested :=
    rows.test_iff w (List.mem_range.mpr wBound) v (List.mem_range.mpr vBound)
  rw [id_eq, id_eq] at tested
  rw [tested, reach_iff usersPerm bodyEq represents wBound v]
  apply and_iff_right
  rw [List.mem_reverse, memOrder]
  exact wBound

end Positions

/-! ## Dropping edges -/

section Drop

variable {cg now : Graph} {live : OpId → Prop} {edge : OpId → OpId → Prop}

/-- Erasing an operand removes one edge. -/
theorem erase_operand (represents : now.Represents live edge) (i v : OpId) :
    (now.setOperands v ((now.operands v).erase i)).Represents live
      fun source target => edge source target ∧ ¬ (source = i ∧ target = v) where
  nodup := represents.nodup
  mem_body := represents.mem_body
  operands_nodup := by
    intro op alive
    rw [Graph.setOperands_operands]
    split
    · rename_i same
      rw [same] at alive
      exact (represents.operands_nodup v alive).erase i
    · exact represents.operands_nodup op alive
  mem_operands := by
    intro op alive pred
    rw [Graph.setOperands_operands]
    split
    · rename_i same
      subst same
      rw [(represents.operands_nodup op alive).mem_erase_iff,
        represents.mem_operands op alive]
      simp [and_comm]
    · rename_i other
      rw [represents.mem_operands op alive]
      simp [other]
  inside := fun source target step => represents.inside source target step.1

variable {succ : Nat → List Nat} {r : Bitset2d 6} {i n : Nat}
  (bodyEq : cg.body = List.range n)
  (succ_lt : ∀ v ∈ succ i, v < n)

include bodyEq succ_lt

/-- The redundant successors of one op are dropped. -/
theorem reduceAt_represents (bound : i < n)
    (represents : now.Represents live edge) :
    Pruned now (reduceAt cg succ r now i) ∧
      (reduceAt cg succ r now i).Represents live fun source target =>
        edge source target ∧
          ¬ (source = i ∧ target ∈ succ i ∧
            redundant succ r i target = true) := by
  refine
    Loop.foldl_invariant _
      (fun done (after : Graph) => Pruned now after ∧
        after.Represents live fun source target =>
          edge source target ∧
            ¬ (source = i ∧ target ∈ done ∧
              redundant succ r i target = true))
      (succ i) now ?_ ?_
  · rintro done v rest after split ⟨pruned, before⟩
    have vBound : v < n := succ_lt v (by simp [split])
    by_cases drops : redundant succ r i v = true
    · rw [if_pos drops, opAt_eq bodyEq vBound, opAt_eq bodyEq bound]
      refine ⟨pruned.trans ⟨.refl _, ?_⟩, ?_⟩
      · intro op
        rw [Graph.setOperands_ops]
        split
        · rename_i same
          rw [same]
          rfl
        · rfl
      · refine (erase_operand before i v).congr (fun _ => Iff.rfl)
          fun source target => ?_
        rw [List.mem_append, List.mem_singleton, and_assoc]
        apply and_congr_right
        intro _
        constructor
        · intro kept
          refine ⟨?_, ?_⟩
          · rintro ⟨isSource, inDone, isRedundant⟩
            exact kept ⟨isSource, Or.inl inDone, isRedundant⟩
          · rintro ⟨isSource, isTarget⟩
            exact kept ⟨isSource, Or.inr isTarget, isTarget ▸ drops⟩
        · rintro ⟨kept, apart⟩ ⟨isSource, inDone | isTarget, isRedundant⟩
          · exact kept ⟨isSource, inDone, isRedundant⟩
          · exact apart ⟨isSource, isTarget⟩
    · rw [if_neg drops]
      refine ⟨pruned, before.congr (fun _ => Iff.rfl) fun source target => ?_⟩
      rw [List.mem_append, List.mem_singleton]
      apply and_congr_right
      intro _
      apply not_congr
      constructor
      · rintro ⟨isSource, inDone | isTarget, isRedundant⟩
        · exact ⟨isSource, inDone, isRedundant⟩
        · exact (drops (isTarget ▸ isRedundant)).elim
      · rintro ⟨isSource, inDone, isRedundant⟩
        exact ⟨isSource, Or.inl inDone, isRedundant⟩
  · refine ⟨.refl now, represents.congr (fun _ => Iff.rfl) fun _ _ => ?_⟩
    simp

end Drop

/-! ## The whole pass -/

section Pass

variable {getUsers : Graph → OpId → List OpId}
  (usersPerm : ∀ cg token, (getUsers cg token).Perm (cg.users token))
  {cg : Graph} {live : OpId → Prop} {edge : OpId → OpId → Prop} {n : Nat}
  (bodyEq : cg.body = List.range n)
  (represents : cg.Represents live edge) (acyclic : Digraph.Acyclic edge)

include acyclic

/-- A successor is redundant unless its edge is reduced. -/
theorem redundant_iff {succ : Nat → List Nat} {r : Bitset2d 6} {i v : Nat}
    (mem_succ : ∀ v, v ∈ succ i ↔ edge i v)
    (matrix : ∀ w ∈ succ i, ∀ v ∈ succ i,
      r.test w v = true ↔ ReflTransGen edge w v) (step : edge i v) :
    redundant succ r i v = true ↔ ¬ Digraph.Reduced edge i v := by
  rw [← Digraph.unbypassed_iff acyclic mem_succ matrix, redundant,
    List.any_eq_true, Digraph.Unbypassed, and_iff_right ((mem_succ v).mpr step)]
  simp only [Bool.and_eq_true, decide_eq_true_eq, ne_eq, not_forall,
    exists_prop, Bool.not_eq_false]

include usersPerm bodyEq represents

/-- The pass leaves the transitive reduction of a block that is not too large. -/
theorem reduceEdge_spec (bound : n ≤ Reachability.maxOps) :
    ∃ after, reduceEdge getUsers cg = some after ∧ Pruned cg after ∧
      after.Represents live (Digraph.Reduced edge) := by
  obtain ⟨order, ran, nodup, memOrder, sorted⟩ :=
    topo_spec usersPerm bodyEq represents acyclic
  have matrix := fun {w v : Nat} =>
    @matrix_spec getUsers usersPerm cg live edge n bodyEq represents order
      nodup memOrder sorted w v
  have liveIff := live_iff bodyEq represents
  let r :=
    order.reverse.foldl (ReachRows.fill (succAt getUsers cg) id)
      (Bitset2d.new 6 cg.count)
  obtain ⟨pruned, reduced⟩ :=
    Loop.foldl_invariant (reduceAt cg (succAt getUsers cg) r)
      (fun done (now : Graph) => Pruned cg now ∧
        now.Represents live (Pass.ReduceEdge.ReducedAt edge done))
      (List.range cg.count) cg
      (by
        rintro done i rest now split ⟨pruned, before⟩
        have listed : i ∈ List.range cg.count := by simp [split]
        rw [List.mem_range, count_eq bodyEq] at listed
        have memSucc := mem_succAt usersPerm bodyEq represents listed
        have below := succAt_lt usersPerm bodyEq represents listed
        have fresh : i ∉ done := by
          intro earlier
          have distinct := split ▸ List.nodup_range
          exact
            (List.nodup_append.mp distinct).2.2 i earlier i
              List.mem_cons_self rfl
        obtain ⟨dropped, kept⟩ :=
          reduceAt_represents (r := r) bodyEq below listed before
        refine ⟨pruned.trans dropped, ?_⟩
        refine kept.congr (fun _ => Iff.rfl) fun source target => ?_
        unfold Pass.ReduceEdge.ReducedAt
        by_cases isSource : source = i
        · subst isSource
          have test := fun step : edge source target =>
            redundant_iff acyclic memSucc
              (fun w wMember v vMember =>
                matrix (below w wMember) (below v vMember)) step
          simp only [fresh, List.mem_append, List.mem_singleton, or_true,
            true_and, forall_const, false_implies, and_true]
          constructor
          · rintro ⟨step, reduces⟩
            refine ⟨step, ?_⟩
            rintro ⟨-, isRedundant⟩
            exact (test step).mp isRedundant reduces
          · rintro ⟨step, apart⟩
            refine ⟨step, ?_⟩
            by_contra bypassed
            exact
              apart ⟨(memSucc target).mpr step, (test step).mpr bypassed⟩
        · simp [isSource])
      (by
        refine
          ⟨.refl cg, represents.congr (fun _ => Iff.rfl) fun _ _ => ?_⟩
        simp [Pass.ReduceEdge.ReducedAt])
  refine
    ⟨(List.range cg.count).foldl (reduceAt cg (succAt getUsers cg) r) cg, ?_,
      pruned, reduced.congr (fun _ => Iff.rfl) fun source target => ?_⟩
  · have allocated := Reachability.allocated_eq bound
    rw [← count_eq bodyEq] at allocated
    simp only [reduceEdge, ran, allocated, Option.bind_eq_bind,
      Option.bind_some, Option.pure_def]
    rfl
  · constructor
    · intro step
      exact ⟨step.1, fun _ => step⟩
    · rintro ⟨step, reduces⟩
      apply reduces
      rw [List.mem_range, count_eq bodyEq]
      exact (liveIff source).mp (represents.inside source target step).1

end Pass

/-- An edge between ops is reduced when the link of their nodes is. -/
theorem reduced_linkOp_iff {heap : Heap} {iterators : Iterators} {cg : Graph}
    (mirrors : Mirrors heap iterators cg) (pred op : OpId) :
    Digraph.Reduced (LinkOp iterators cg heap) pred op ↔
      pred ∈ cg.body ∧ op ∈ cg.body ∧
        Digraph.Reduced (heap.Link iterators.graph) (iterators.node pred)
          (iterators.node op) := by
  constructor
  · rintro ⟨⟨predMember, member, link⟩, direct⟩
    refine ⟨predMember, member, link, ?_⟩
    rintro ⟨middle, upper, lower⟩
    have reachable : heap.Reachable iterators.graph middle := by
      rcases TransGen.head'_iff.mp lower with ⟨_, step, -⟩
      exact step.1
    have inside := mirrors.index_mem reachable
    rw [← mirrors.node_index reachable] at upper lower
    exact
      direct
        ⟨_, (mirrors.transGen_linkOp_iff predMember inside).mpr upper,
          (mirrors.transGen_linkOp_iff inside member).mpr lower⟩
  · rintro ⟨predMember, member, link, direct⟩
    refine ⟨⟨predMember, member, link⟩, ?_⟩
    rintro ⟨middle, upper, lower⟩
    have inside : middle ∈ cg.body := by
      rcases TransGen.head'_iff.mp lower with ⟨_, step, -⟩
      exact step.1
    exact
      direct
        ⟨_, (mirrors.transGen_linkOp_iff predMember inside).mp upper,
          (mirrors.transGen_linkOp_iff inside member).mp lower⟩

/--
Import, the pass of the dialect and export make the graph that the legacy pass
makes.
-/
theorem optimizeReduceEdge_agrees {getUsers : Graph → OpId → List OpId}
    (usersPerm : ∀ cg token, (getUsers cg token).Perm (cg.users token))
    {heap : Heap} {graph : GraphId} (formed : heap.WellFormed graph)
    (ready : heap.WalkReady graph) (plain : Plain heap graph)
    (few : heap.NodesAtMost graph Reachability.maxOps) :
    ∃ legacy result,
      Pass.ReduceEdge.passReduceEdge heap graph = some legacy ∧
        optimizeReduceEdge getUsers heap graph = some result ∧
          SameGraph graph legacy result := by
  obtain ⟨indexed, nodes, cg, imports, iterated, imported⟩ :=
    importCommandGraph_spec formed ready plain.importable
  have mirrors := imported.mirrors plain iterated
  let iterators : Iterators :=
    { heap := indexed, graph := graph, nodes := nodes }
  obtain ⟨legacy, ran, legacyFormed, unchanged, entryEq, exitEq, reachableIff,
      -⟩ := Pass.ReduceEdge.passReduceEdge_transitive_reduction formed ready
  obtain ⟨legacy', ran', -, reduced⟩ :=
    Pass.ReduceEdge.passReduceEdge_spec formed ready
  obtain rfl := Option.some.inj (ran'.symm.trans ran)
  have inside : ∀ n, legacy'.Reachable graph n → heap.Reachable graph n :=
    fun n => (reachableIff n).mp
  have linkIff : ∀ source target, legacy'.Link graph source target ↔
      Digraph.Reduced (heap.Link graph) source target := by
    intro source target
    constructor
    · rintro ⟨reachable, edge⟩
      exact
        (reduced.mem_successors source (inside source reachable) target).mp
          edge
    · intro step
      have reachable := step.1.1
      exact
        ⟨(reachableIff source).mpr reachable,
          (reduced.mem_successors source reachable target).mpr step⟩
  have acyclic : Digraph.Acyclic (LinkOp iterators cg heap) := by
    intro op cycle
    have member : op ∈ cg.body := by
      rcases TransGen.head'_iff.mp cycle with ⟨_, step, -⟩
      exact step.1
    exact
      formed.acyclic _
        ((mirrors.transGen_linkOp_iff member member).mp cycle)
  obtain ⟨pruned, represents⟩ := mirrors.follows formed
  obtain ⟨after, reduces, pruned', represents'⟩ :=
    reduceEdge_spec usersPerm mirrors.body_eq represents acyclic
      (few.length_le mirrors.valid.nodup fun n member =>
        (Heap.reachable_congr mirrors.same).symm ▸
          (mirrors.valid.mem_iff n).mp member)
  have follows : Follows iterators cg legacy' after := {
    pruned := pruned'
    represents := by
      refine represents'.congr (fun op => ?_) fun pred op => ?_
      · exact and_congr_right' (reachableIff _)
      · rw [reduced_linkOp_iff mirrors]
        exact and_congr_right' (and_congr_right' (linkIff _ _)) }
  obtain ⟨result, exports, agrees⟩ :=
    follows.export_spec formed mirrors legacyFormed inside entryEq exitEq
      (by
        intro n
        have object := Heap.unmarked_nodes unchanged n
        exact
          ⟨(congrArg CommandGraphNode.type object :),
            (congrArg CommandGraphNode.deviceUniqueId object :),
            (congrArg CommandGraphNode.command object :)⟩)
  refine ⟨legacy', result, ran, ?_, agrees⟩
  have exports' : exportCommandGraph after indexed graph = some result :=
    exports
  simp only [optimizeReduceEdge, imports, Option.bind_eq_bind,
    Option.bind_some, reduces, exports']

/-- The pass of the dialect returns only when its matrix is allocated. -/
theorem optimizeReduceEdge_nodesAtMost {getUsers : Graph → OpId → List OpId}
    {heap result : Heap} {graph : GraphId} (formed : heap.WellFormed graph)
    (ready : heap.WalkReady graph) (plain : Plain heap graph)
    (ran : optimizeReduceEdge getUsers heap graph = some result) :
    heap.NodesAtMost graph Reachability.maxOps := by
  obtain ⟨indexed, nodes, cg, imports, iterated, imported⟩ :=
    importCommandGraph_spec formed ready plain.importable
  have mirrors := imported.mirrors plain iterated
  simp only [optimizeReduceEdge, imports, reduceEdge, Option.bind_eq_bind,
    Option.bind_some, Option.bind_eq_some_iff] at ran
  obtain ⟨_, ⟨_, -, size, isSize, -⟩, -⟩ := ran
  have bound := Reachability.exists_allocated_iff.mp ⟨size, isSize⟩
  rw [count_eq mirrors.body_eq] at bound
  refine ⟨nodes, bound, fun node reachable => ?_⟩
  refine (mirrors.valid.mem_iff node).mpr ?_
  rwa [Heap.reachable_congr mirrors.same]

end Cgir.Mlir.ReduceEdge
