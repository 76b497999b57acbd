import Cgir.Mlir.BatchExport
import Cgir.Mlir.BatchGroups

/-!
# Groups of the batch pass

The groups that the contraction collects have no op in common, hold neither end
of the graph and share one device, and materializing them keeps the block
acyclic.
-/

namespace Cgir.Mlir

open Relation
open Cgir.Library
open Cgir.Model

/-- A token, as an edge between ops. -/
def OpEdge (cg : Graph) (pred op : OpId) : Prop :=
  op ∈ cg.body ∧ pred ∈ cg.operands op

section Imported

variable {heap : Heap} {iterators : Iterators} {cg : Graph}
  (formed : heap.WellFormed iterators.graph)
  (mirrors : Mirrors heap iterators cg)

include mirrors

theorem Mirrors.count_eq : cg.count = iterators.count := by
  rw [Graph.count, mirrors.body_eq, List.length_range]

theorem Mirrors.opAt_eq {i : Nat} (bound : i < cg.count) : cg.opAt i = i := by
  rw [mirrors.count_eq] at bound
  simp [Graph.opAt, mirrors.body_eq, bound]

theorem Mirrors.position_eq {op : OpId} (member : op ∈ cg.body) :
    cg.position op = some op := by
  rw [mirrors.mem_body] at member
  rw [Graph.position, mirrors.body_eq, List.idxOf?_eq_some_iff]
  refine ⟨by simpa using member, by simp, ?_⟩
  intro earlier less
  simpa using Nat.ne_of_lt less

include formed

/-- The positions of the scratch graph are the ops. -/
theorem Mirrors.indexEdge_iff (i j : Nat) :
    IndexEdge cg i j ↔ OpEdge cg i j := by
  have bodyIff : j < cg.count ↔ j ∈ cg.body := by
    rw [mirrors.count_eq, mirrors.mem_body]
  unfold IndexEdge OpEdge
  rw [← bodyIff]
  apply and_congr_right
  intro bound
  simp only [Graph.predsAt, mirrors.opAt_eq bound, List.mem_toFinset,
    List.mem_filterMap]
  have closed := mirrors.closed formed j (bodyIff.mp bound)
  constructor
  · rintro ⟨pred, isPred, positionEq⟩
    rw [mirrors.position_eq (closed pred isPred), Option.some.injEq]
      at positionEq
    exact positionEq ▸ isPred
  · intro isPred
    exact ⟨i, isPred, mirrors.position_eq (closed i isPred)⟩

/-- The imported block is acyclic. -/
theorem Mirrors.opEdge_acyclic : Digraph.Acyclic (OpEdge cg) := by
  intro op cycle
  refine formed.acyclic (iterators.node op)
    (TransGen.lift iterators.node ?_ _ _ cycle)
  intro pred op edge
  exact ((mirrors.mem_operands formed edge.1).mp edge.2).2

theorem Mirrors.indexEdge_acyclic : Digraph.Acyclic (IndexEdge cg) :=
  (mirrors.opEdge_acyclic formed).mono
    fun i j => (mirrors.indexEdge_iff formed i j).mp

end Imported

/-! ## Groups -/

theorem Scratch.mem_groups {cg : Graph} {scratch : Scratch}
    {group : List OpId × BitVec 32} :
    group ∈ scratch.groups cg ↔
      ∃ i < cg.count, scratch.isGroup cg i = true ∧
        group = (scratch.members i, groupDevice cg scratch i) := by
  simp only [Scratch.groups, List.mem_map, List.mem_filter, List.mem_range,
    and_assoc]
  constructor
  · rintro ⟨i, bound, isGroup, rfl⟩
    exact ⟨i, bound, isGroup, rfl⟩
  · rintro ⟨i, bound, isGroup, rfl⟩
    exact ⟨i, bound, isGroup, rfl⟩

theorem Scratch.isGroup_iff {cg : Graph} {scratch : Scratch} {i : Nat} :
    scratch.isGroup cg i = true ↔
      scratch.alive i = true ∧ cg.candAt i = true ∧
        2 ≤ (scratch.members i).length ∧
          2 ≤ (commands cg scratch i).length := by
  simp [Scratch.isGroup, and_assoc]

section Groups

variable {heap : Heap} {iterators : Iterators} {cg : Graph}
  {rep : Nat → Nat} {scratch : Scratch}
  (formed : heap.WellFormed iterators.graph)
  (mirrors : Mirrors heap iterators cg) (merges : Merges cg rep scratch)

include formed mirrors merges

/-- The members of a scratch node are the ops of its class. -/
theorem Merges.mem_members {i : Nat} (bound : i < cg.count)
    (self : rep i = i) (op : OpId) :
    op ∈ scratch.members i ↔ op ∈ cg.body ∧ rep op = i := by
  have collected :=
    merges.collected (mirrors.indexEdge_acyclic formed) mirrors.body_nodup
  rw [collected.mem_iff i bound self, mirrors.mem_body,
    ← mirrors.count_eq]
  constructor
  · rintro ⟨j, jBound, inClass, rfl⟩
    rw [mirrors.opAt_eq jBound]
    exact ⟨jBound, inClass⟩
  · rintro ⟨opBound, inClass⟩
    exact ⟨op, opBound, inClass, mirrors.opAt_eq opBound⟩

/-- A group is the class of a scratch node. -/
theorem Merges.mem_group {group : List OpId × BitVec 32}
    (isGroup : group ∈ scratch.groups cg) :
    ∃ i < cg.count, rep i = i ∧ scratch.isGroup cg i = true ∧
      group = (scratch.members i, Scratch.groupDevice cg scratch i) ∧
        ∀ op, op ∈ group.1 ↔ op ∈ cg.body ∧ rep op = i := by
  have represented := merges.represented (mirrors.indexEdge_acyclic formed)
  obtain ⟨i, bound, qualifies, rfl⟩ := Scratch.mem_groups.mp isGroup
  have self :=
    (represented.alive_iff i).mp (Scratch.isGroup_iff.mp qualifies).1
  exact
    ⟨i, bound, self, qualifies, rfl,
      merges.mem_members formed mirrors bound self⟩

/-- Different groups have no op in common. -/
theorem Merges.disjoint (opCount_eq : cg.opCount = iterators.count) :
    Disjoint cg.opCount ((scratch.groups cg).map Prod.fst) where
  bounded := by
    intro members isGroup op member
    obtain ⟨group, listed, rfl⟩ := List.mem_map.mp isGroup
    obtain ⟨i, -, -, -, -, mem_iff⟩ := merges.mem_group formed mirrors listed
    rw [opCount_eq, ← mirrors.mem_body]
    exact ((mem_iff op).mp member).1
  apart := by
    have represented :=
      merges.represented (mirrors.indexEdge_acyclic formed)
    rw [Scratch.groups, List.map_map, List.pairwise_map]
    have distinct : ((List.range cg.count).filter
        (scratch.isGroup cg)).Pairwise (· ≠ ·) :=
      List.nodup_range.filter _
    apply distinct.imp_of_mem
    intro i j inFirst inSecond different op member member'
    obtain ⟨iRange, iGroup⟩ := List.mem_filter.mp inFirst
    obtain ⟨jRange, jGroup⟩ := List.mem_filter.mp inSecond
    have members := fun k (bound : k < cg.count)
        (qualifies : scratch.isGroup cg k = true) =>
      merges.mem_members formed mirrors bound
        ((represented.alive_iff k).mp
          (Scratch.isGroup_iff.mp qualifies).1) op
    have first :=
      ((members i (List.mem_range.mp iRange) iGroup).mp member).2
    have second :=
      ((members j (List.mem_range.mp jRange) jGroup).mp member').2
    exact different (first.symm.trans second)

/-- The groups of the contraction of an imported graph. -/
theorem Merges.grouped (opCount_eq : cg.opCount = iterators.count)
    (encoded : ∀ op ∈ cg.body,
      Encoded (cg.ops op) (iterators.heap.nodes (iterators.node op))) :
    Grouped heap iterators cg (scratch.groups cg) where
  mirrors := mirrors
  opCount_eq := opCount_eq
  encoded := encoded
  disjoint := merges.disjoint formed mirrors opCount_eq
  nodup := by
    intro group isGroup
    obtain ⟨i, bound, self, -, rfl, -⟩ :=
      merges.mem_group formed mirrors isGroup
    exact
      (merges.collected (mirrors.indexEdge_acyclic formed)
        mirrors.body_nodup).nodup i bound self
  candidates := by
    intro group isGroup op member
    obtain ⟨i, bound, self, qualifies, -, mem_iff⟩ :=
      merges.mem_group formed mirrors isGroup
    obtain ⟨inBody, inClass⟩ := (mem_iff op).mp member
    have represented :=
      merges.represented (mirrors.indexEdge_acyclic formed)
    have candidate : cg.candAt op = true := by
      by_cases isRep : rep op = op
      · rw [← isRep, inClass]
        exact (Scratch.isGroup_iff.mp qualifies).2.1
      · exact (represented.cand op isRep).1
    have opBound : op < cg.count := by
      rwa [mirrors.count_eq, ← mirrors.mem_body]
    rw [Graph.candAt, mirrors.opAt_eq opBound] at candidate
    simpa using candidate

/-- All members of a group have its device. -/
theorem Merges.group_device {group : List OpId × BitVec 32}
    (isGroup : group ∈ scratch.groups cg) {op : OpId}
    (member : op ∈ group.1) : (cg.ops op).duid = group.2 := by
  obtain ⟨i, bound, self, qualifies, rfl, mem_iff⟩ :=
    merges.mem_group formed mirrors isGroup
  have represented :=
    merges.represented (mirrors.indexEdge_acyclic formed)
  have classDevice : ∀ other ∈ scratch.members i,
      (cg.ops other).duid = cg.deviceAt i := by
    intro other otherMember
    obtain ⟨inBody, inClass⟩ := (mem_iff other).mp otherMember
    have otherBound : other < cg.count := by
      rwa [mirrors.count_eq, ← mirrors.mem_body]
    have device := represented.device_eq other
    rw [inClass] at device
    rw [device, Graph.deviceAt, mirrors.opAt_eq otherBound, Op.device_eq]
  rw [classDevice op member]
  unfold Scratch.groupDevice
  split
  · rfl
  · rename_i first rest listed
    have first_mem : first ∈ Scratch.commands cg scratch i := by
      rw [listed]
      exact List.mem_cons_self
    rw [Op.device_eq]
    exact (classDevice first (List.mem_of_mem_filter first_mem)).symm

/-- No group is empty. -/
theorem Merges.group_nonempty {group : List OpId × BitVec 32}
    (isGroup : group ∈ scratch.groups cg) : group.1 ≠ [] := by
  obtain ⟨i, -, -, qualifies, rfl, -⟩ :=
    merges.mem_group formed mirrors isGroup
  have many := (Scratch.isGroup_iff.mp qualifies).2.2.1
  intro empty
  have none : (scratch.members i).length = 0 :=
    List.length_eq_zero_iff.mpr empty
  rw [none] at many
  exact Nat.not_succ_le_zero _ many

/-- Contracting the groups alone creates no cycle either. -/
theorem Merges.blocks_acyclic (opCount_eq : cg.opCount = iterators.count) :
    Digraph.Acyclic
      (Digraph.Contract (OpEdge cg)
        (blockOf cg.opCount ((scratch.groups cg).map Prod.fst))) := by
  have represented := merges.represented (mirrors.indexEdge_acyclic formed)
  have disjoint := merges.disjoint formed mirrors opCount_eq
  let groups := (scratch.groups cg).map Prod.fst
  let block := blockOf cg.opCount groups
  have small : ∀ op ∈ cg.body, op < cg.opCount := by
    intro op member
    rwa [opCount_eq, ← mirrors.mem_body]
  have inGroup : ∀ {position : Nat} {members : List OpId},
      groups[position]? = some members →
        ∃ i, ∀ op, op ∈ members ↔ op ∈ cg.body ∧ rep op = i := by
    intro position members known
    obtain ⟨group, isGroup, rfl⟩ :=
      List.mem_map.mp (List.mem_of_getElem? known)
    obtain ⟨i, -, -, -, -, mem_iff⟩ := merges.mem_group formed mirrors isGroup
    exact ⟨i, mem_iff⟩
  let edge : {op // op ∈ cg.body} → {op // op ∈ cg.body} → Prop :=
    fun pred op => OpEdge cg pred.1 op.1
  have acyclic : Digraph.Acyclic edge := by
    intro op cycle
    exact
      mirrors.opEdge_acyclic formed op.1
        (TransGen.lift Subtype.val (fun _ _ step => step) _ _ cycle)
  have contracted : Digraph.Acyclic
      (Digraph.Contract edge fun op => rep op.1) := by
    refine represented.acyclic.mono ?_
    rintro source target ⟨apart, upper, lower, step, upperEq, lowerEq⟩
    exact
      ⟨apart, upper.1, lower.1, (mirrors.indexEdge_iff formed _ _).mpr step,
        upperEq, lowerEq⟩
  have partition :=
    Digraph.acyclic_of_partial acyclic
      contracted
      (by
        intro op other same
        by_cases equal : op.1 = other.1
        · rw [equal]
        · obtain ⟨position, members, known, first, second⟩ :=
            disjoint.together (small op.1 op.2) (small other.1 other.2) same
              equal
          obtain ⟨i, mem_iff⟩ := inGroup known
          exact
            ((mem_iff op.1).mp first).2.trans
              ((mem_iff other.1).mp second).2.symm)
      (by
        intro op other same different third inClass
        obtain ⟨position, members, known, first, -⟩ :=
          disjoint.together (small op.1 op.2) (small other.1 other.2) same
            fun equal => different (Subtype.ext equal)
        obtain ⟨i, mem_iff⟩ := inGroup known
        have thirdMember : third.1 ∈ members :=
          (mem_iff third.1).mpr
            ⟨third.2, inClass.trans ((mem_iff op.1).mp first).2⟩
        exact
          (disjoint.blockOf_mem known thirdMember).trans
            (disjoint.blockOf_mem known first).symm)
  refine partition.mono ?_
  rintro source target ⟨apart, upper, lower, step, rfl, rfl⟩
  exact
    ⟨apart, ⟨upper, mirrors.closed formed lower step.1 upper step.2⟩,
      ⟨lower, step.1⟩, step, rfl, rfl⟩

end Groups

end Cgir.Mlir
