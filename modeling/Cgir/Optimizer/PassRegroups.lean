import Cgir.Optimizer.Regrouping

/-!
# The passes that regroup

The sequence pass and the two batch passes, each as a regrouping.
-/

namespace Cgir.Optimizer

open Relation
open Cgir.Library
open Cgir.Model
open Cgir.Model.Heap

/-! ## The sequence pass -/

section Sequence

open Cgir.Pass.Sequence

variable {heap : Heap} {iterators : Iterators} {chains : List Chain}
  {block : NodeId → NodeId} {state : Scan}
  (outcome : Pass.Sequence.Outcome heap iterators chains block state)

include outcome

/-- The batch nodes of the top level are those of the chains. -/
theorem chain_of_createdSub {node : NodeId} {sub : GraphId}
    (top : state.heap.Reachable iterators.graph node)
    (holds : createdSub heap state.heap node = some sub) :
    ∃ (p : Nat) (chain : Chain), chains[p]? = some chain ∧
      node = batchAt iterators.heap p ∧ sub = subAt iterators.heap p := by
  obtain ⟨original, reachable, rfl⟩ := outcome.top_reachable_iff.mp top
  rcases outcome.block_cases original with
    ⟨p, ⟨chain, position, -⟩, isBatch⟩ | ⟨-, self⟩
  · rw [isBatch, outcome.createdSub_batch position, Option.some.injEq]
      at holds
    exact ⟨p, chain, position, isBatch, holds.symm⟩
  · rw [self, createdSub_old (outcome.formed.allocated _ reachable)] at holds
    cases holds

theorem sequence_regrouped :
    Regrouped heap state.heap iterators.graph id block where
  kept := by
    intro n reachable
    obtain ⟨device, type, command⟩ := outcome.node_kept reachable
    exact ⟨device, type, fun _ => command⟩
  injective := fun _ _ _ _ same => same
  placed := fun n reachable =>
    outcome.top_reachable_iff.mpr ⟨n, reachable, rfl⟩
  top := by
    intro node top
    obtain ⟨original, reachable, rfl⟩ := outcome.top_reachable_iff.mp top
    rcases outcome.block_cases original with
      ⟨p, ⟨chain, position, -⟩, isBatch⟩ | ⟨-, self⟩
    · right
      rw [isBatch]
      exact
        ⟨subAt iterators.heap p,
          (outcome.created_iff _).mpr ⟨p, chain, position, rfl⟩,
          outcome.createdSub_batch position⟩
    · left
      refine ⟨original, reachable, self.symm, fun other _ => ?_⟩
      constructor
      · intro here
        rw [self] at here
        have old := outcome.lt_of_reachable reachable
        exact (outcome.eq_of_block_lt (here.symm ▸ old)).trans here
      · rintro rfl
        rfl
  member_iff := by
    intro node sub top holds n reachable
    obtain ⟨p, chain, position, rfl, rfl⟩ :=
      chain_of_createdSub outcome top holds
    rw [id, outcome.sub_reachable_iff position, ← inChain_iff_mem position]
    exact outcome.inChain_iff reachable
  rest := by
    intro sub node created inside
    obtain ⟨p, chain, position, rfl⟩ := (outcome.created_iff sub).mp created
    rw [outcome.sub_reachable_iff position] at inside
    exact
      Or.inl
        ⟨node, outcome.inChain_reachable ⟨chain, position, inside⟩, rfl⟩
  across := by
    intro source target link apart
    rw [outcome.top_link_eq]
    exact ⟨apart, source, target, link, rfl, rfl⟩
  within := by
    intro node sub top holds source target link here there
    obtain ⟨p, chain, position, rfl, rfl⟩ :=
      chain_of_createdSub outcome top holds
    have member : ∀ n, heap.Reachable iterators.graph n →
        block n = batchAt iterators.heap p → n ∈ chain.members :=
      fun n reachable inBlock =>
        (inChain_iff_mem position).mp
          ((outcome.inChain_iff reachable).mpr inBlock)
    rw [id, id, outcome.sub_link_iff position, outcome.link_eq]
    exact
      ⟨link, member source link.1 here, member target link.reachable there⟩

end Sequence

/-! ## The batch pass -/

section Batch

open Cgir.Pass.Batch

variable {heap after : Heap} {iterators : Iterators} {islands : Islands}
  {plan : List Nat} {state : Materialized}

theorem batch_regrouped
    (batched : Batched heap after iterators islands plan state)
    (formed : heap.WellFormed iterators.graph) :
    Regrouped heap after iterators.graph id (block iterators state) where
  kept := by
    intro n reachable
    obtain ⟨device, type, command⟩ :=
      batched.node_kept (formed.allocated n reachable)
    exact ⟨device, type, fun _ => command⟩
  injective := fun _ _ _ _ same => same
  placed := fun n reachable =>
    (batched.top_reachable_iff formed).mpr ⟨n, reachable, rfl⟩
  top := by
    intro node top
    obtain ⟨original, reachable, rfl⟩ :=
      (batched.top_reachable_iff formed).mp top
    have member := batched.mem_nodes_iff.mpr reachable
    rcases batched.materializes.block_cases member with
      ⟨p, inBatch⟩ | ⟨-, self⟩
    · right
      rw [batched.materializes.block_batch member inBatch]
      exact
        ⟨subAt iterators.heap p,
          (batched.created_iff _).mpr ⟨p, inBatch.lt, rfl⟩,
          batched.createdSub_batch inBatch.lt⟩
    · left
      refine ⟨original, reachable, self.symm, fun other otherReachable => ?_⟩
      have otherMember := batched.mem_nodes_iff.mpr otherReachable
      constructor
      · intro here
        rw [self] at here
        have old := batched.lt_of_mem formed member
        exact
          (batched.materializes.eq_of_block_lt otherMember
            (here.symm ▸ old)).symm.trans here
      · rintro rfl
        rfl
  member_iff := by
    intro node sub top holds n reachable
    have fresh := (createdSub_eq_some_iff.mp holds).1
    obtain ⟨p, bound, rfl⟩ := batched.top_createdSub formed top fresh
    rw [batched.createdSub_batch bound, Option.some.injEq] at holds
    subst holds
    rw [id, batched.sub_original_iff formed bound reachable]
    exact batched.inBatch_iff formed (batched.mem_nodes_iff.mpr reachable)
  rest := by
    intro sub node created inside
    obtain ⟨p, bound, rfl⟩ := (batched.created_iff sub).mp created
    have ends := batched.materializes.nodes_end p bound
    rcases (batched.sub_reachable_iff formed bound).mp inside with
      rfl | member | rfl
    · right
      rw [Heap.unlinked_type batched.unlinked_eq, ends.1]
      nofun
    · exact
        Or.inl
          ⟨node, batched.mem_nodes_iff.mp (batched.inBatch_mem member), rfl⟩
    · right
      rw [Heap.unlinked_type batched.unlinked_eq, ends.2]
      nofun
  across := by
    intro source target link apart
    rw [batched.top_link_iff formed]
    rw [← batched.link_eq] at link
    exact ⟨apart, source, target, link, rfl, rfl⟩
  within := by
    intro node sub top holds source target link here there
    have fresh := (createdSub_eq_some_iff.mp holds).1
    obtain ⟨p, bound, rfl⟩ := batched.top_createdSub formed top fresh
    rw [batched.createdSub_batch bound, Option.some.injEq] at holds
    subst holds
    have member : ∀ n, heap.Reachable iterators.graph n →
        block iterators state n = batchAt iterators.heap p →
          InBatch islands.members plan p n := fun n reachable =>
      (batched.inBatch_iff formed (batched.mem_nodes_iff.mpr reachable)).mpr
    rw [id, id, batched.sub_link_iff formed bound]
    left
    refine
      ⟨⟨?_, here.trans there.symm⟩, member source link.1 here,
        member target link.reachable there⟩
    rw [batched.link_eq]
    exact link

end Batch

/-! ## The batch pass of the dialect -/

section MlirBatch

open Cgir.Mlir

variable {heap after : Heap} {iterators : Iterators} {cg : Graph}
  {rep : Nat → Nat} {scratch : Scratch}
  (formed : heap.WellFormed iterators.graph)
  (batched : Mlir.Batched heap iterators cg rep scratch after)

include formed batched

/-- The place of an op is a batch node when the op is in its group. -/
theorem topAt_eq_batchAt_iff {position : Nat}
    {group : List OpId × BitVec 32}
    (known : (scratch.groups cg)[position]? = some group) {op : OpId}
    (member : op ∈ cg.body) :
    topAt iterators cg scratch op = Mlir.batchAt iterators cg scratch position ↔
      op ∈ group.1 := by
  constructor
  · intro here
    have holds := batched.createdSub_batch known
    rw [← here] at holds
    rcases Mlir.Batched.op_cases iterators op with
      ⟨outside, -⟩ | ⟨other, others, knownOther, inOther⟩
    · rw [batched.topAt_outside member outside,
        createdSub_old (batched.node_lt formed member)] at holds
      cases holds
    · rw [batched.topAt_member knownOther inOther,
        batched.createdSub_batch knownOther, Option.some.injEq] at holds
      have same := Nat.add_left_cancel holds
      subst same
      rw [known, Option.some.injEq] at knownOther
      exact knownOther ▸ inOther
  · exact batched.topAt_member known

theorem mlirBatch_regrouped :
    Regrouped heap after iterators.graph
      (fun n => imageAt iterators cg scratch (iterators.index n))
      (fun n => topAt iterators cg scratch (iterators.index n)) where
  kept := (batched.rehouses formed).kept
  injective := (batched.rehouses formed).injective
  placed := fun n reachable =>
    (batched.reachable_iff formed _).mpr
      ⟨_, batched.mirrors.index_mem reachable, rfl⟩
  top := by
    intro node top
    rcases batched.top_cases formed top with
      ⟨op, member, outside, image, rfl⟩ | ⟨position, group, known, rfl⟩
    · left
      refine ⟨_, batched.mirrors.reachable member, ?_, ?_⟩
      · rw [batched.mirrors.index_node member]
        exact image
      · intro other reachable
        have otherMember := batched.mirrors.index_mem reachable
        have self := batched.topAt_outside member outside
        constructor
        · intro here
          rw [← self, batched.topAt_eq_iff formed otherMember member] at here
          have same : blockOf cg.opCount
              ((scratch.groups cg).map Prod.fst) op = op := by
            apply blockOf_of_not_mem
            intro members listed
            obtain ⟨group, isGroup, rfl⟩ := List.mem_map.mp listed
            exact outside group isGroup
          obtain ⟨equal, -⟩ :=
            blockOf_eq_old (batched.op_lt member) (here.trans same)
          rw [← equal, batched.mirrors.node_index reachable]
        · rintro rfl
          rw [batched.mirrors.index_node member]
          exact self
    · right
      exact
        ⟨heap.graphCount + position,
          (batched.created_iff _).mpr ⟨position, group, known, rfl⟩,
          batched.createdSub_batch known⟩
  member_iff := by
    intro node sub top holds n reachable
    obtain ⟨position, group, known, rfl, rfl⟩ :=
      batched.createdSub_top formed top holds
    have member := batched.mirrors.index_mem reachable
    rw [batched.image_sub_iff formed known member,
      topAt_eq_batchAt_iff formed batched known member]
  rest := by
    intro sub node created inside
    refine ((batched.rehouses formed).inside sub node created inside).imp id ?_
    rintro ⟨-, control⟩
    rw [control]
    nofun
  across := by
    intro source target link apart
    have member := batched.mirrors.index_mem link.reachable
    refine (batched.link_iff formed _ _).mpr ⟨apart, _, _, ⟨member, ?_⟩, rfl, rfl⟩
    rw [batched.mirrors.mem_operands formed member,
      batched.mirrors.node_index link.1,
      batched.mirrors.node_index link.reachable]
    exact ⟨batched.mirrors.index_mem link.1, link⟩
  within := by
    intro node sub top holds source target link here there
    obtain ⟨position, group, known, rfl, rfl⟩ :=
      batched.createdSub_top formed top holds
    have sourceMember := batched.mirrors.index_mem link.1
    have targetMember := batched.mirrors.index_mem link.reachable
    rw [topAt_eq_batchAt_iff formed batched known sourceMember] at here
    rw [topAt_eq_batchAt_iff formed batched known targetMember] at there
    rw [batched.sub_link_iff formed known, batched.imageAt_member known here,
      batched.imageAt_member known there]
    refine subEdge_iff.mpr (Or.inl ⟨_, there, _, ?_, rfl, rfl⟩)
    rw [batched.operands_member known there, List.mem_filter,
      batched.mirrors.mem_operands formed targetMember,
      batched.mirrors.node_index link.1,
      batched.mirrors.node_index link.reachable]
    exact ⟨⟨sourceMember, link⟩, by simpa using here⟩

end MlirBatch

end Cgir.Optimizer
