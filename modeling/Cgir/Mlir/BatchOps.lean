import Cgir.Library.Loop
import Cgir.Mlir.BatchGroups

/-!
# Materialized batches

What `materialize_batch` makes of a block with numbered ops: a member keeps its
operands within the group, every other use of a member becomes the token of the
batch, and the batch collects the external operands of its members.
-/

namespace Cgir.Mlir

open Cgir.Library
open Cgir.Model

/-! ## One batch -/

/-- A use of a member becomes the token of the batch. -/
def redirect (members : List OpId) (batch token : OpId) : OpId :=
  if token ∈ members then batch else token

/-- An op with other operands. -/
def Op.withOperands (op : Op) (operands : List OpId) : Op :=
  { op with operands := operands }

@[simp]
theorem Op.withOperands_operands (op : Op) (operands : List OpId) :
    (op.withOperands operands).operands = operands :=
  rfl

@[simp]
theorem Op.withOperands_withOperands (op : Op)
    (operands others : List OpId) :
    (op.withOperands operands).withOperands others = op.withOperands others :=
  rfl

section One

variable {cg : Graph} {members : List OpId} {device : BitVec 32}

theorem materializeBatch_ops (fresh : cg.opCount ∉ members) (op : OpId) :
    (cg.materializeBatch members device).ops op =
      if op = cg.opCount then
        { duid := device
          kind := .batch members
          operands := cg.externalPreds members
          srcNode := none }
      else if op ∈ members then
        (cg.ops op).withOperands
          ((cg.operands op).filter (· ∈ members))
      else
        (cg.ops op).withOperands
          ((cg.operands op).map (redirect members cg.opCount)) := by
  by_cases isBatch : op = cg.opCount
  · subst isBatch
    simp [Graph.materializeBatch, Graph.stripOperands, Graph.moveMembers,
      Graph.redirectUses, Graph.mapOperands, Graph.create, Graph.updateOp,
      fresh]
  · by_cases isMember : op ∈ members
    · simp [Graph.materializeBatch, Graph.stripOperands, Graph.moveMembers,
        Graph.redirectUses, Graph.mapOperands, Graph.create, Graph.updateOp,
        Graph.operands, Op.withOperands, isBatch, isMember]
    · simp [Graph.materializeBatch, Graph.stripOperands, Graph.moveMembers,
        Graph.redirectUses, Graph.mapOperands, Graph.create, Graph.updateOp,
        Graph.operands, Op.withOperands, isBatch, isMember]
      exact fun _ _ => rfl

@[simp]
theorem materializeBatch_body :
    (cg.materializeBatch members device).body =
      (cg.body ++ [cg.opCount]).filter (· ∉ members) :=
  rfl

@[simp]
theorem materializeBatch_opCount :
    (cg.materializeBatch members device).opCount = cg.opCount + 1 :=
  rfl

end One

/-! ## Several batches -/

/--
The op at the top level that stands for an op, when the batches of the given
groups are numbered from `base`.
-/
def blockOf (base : Nat) (groups : List (List OpId)) (op : OpId) : OpId :=
  match groups.findIdx? fun members => op ∈ members with
  | some position => base + position
  | none => op

/-- Groups of ops below `base` that have no op in common. -/
structure Disjoint (base : Nat) (groups : List (List OpId)) : Prop where
  bounded : ∀ members ∈ groups, ∀ op ∈ members, op < base
  apart : groups.Pairwise fun members others =>
    ∀ op ∈ members, op ∉ others

section Blocks

variable {base : Nat} {groups : List (List OpId)}

theorem blockOf_of_not_mem {op : OpId}
    (outside : ∀ members ∈ groups, op ∉ members) :
    blockOf base groups op = op := by
  have none : groups.findIdx? (fun members => op ∈ members) = none := by
    rw [List.findIdx?_eq_none_iff]
    intro members member
    simpa using outside members member
  rw [blockOf, none]

/-- A member is represented by its batch. -/
theorem Disjoint.blockOf_mem (disjoint : Disjoint base groups)
    {position : Nat} {members : List OpId}
    (known : groups[position]? = some members) {op : OpId}
    (member : op ∈ members) :
    blockOf base groups op = base + position := by
  obtain ⟨bound, equal⟩ := List.getElem?_eq_some_iff.mp known
  have found : groups.findIdx? (fun members => op ∈ members) =
      some position := by
    rw [List.findIdx?_eq_some_iff_getElem]
    refine ⟨bound, by simpa [equal] using member, ?_⟩
    intro earlier before
    have distinct :=
      List.pairwise_iff_getElem.mp disjoint.apart earlier position
        (before.trans bound) bound before
    rw [equal] at distinct
    simpa using fun inEarlier => distinct op inEarlier member
  rw [blockOf, found]

theorem blockOf_append (more : List (List OpId)) (op : OpId) :
    blockOf base (groups ++ more) op =
      if ∃ members ∈ groups, op ∈ members then blockOf base groups op
      else blockOf (base + groups.length) more op := by
  unfold blockOf
  rw [List.findIdx?_append]
  cases found : groups.findIdx? (fun members => op ∈ members) with
  | none =>
      have outside : ¬ ∃ members ∈ groups, op ∈ members := by
        rw [List.findIdx?_eq_none_iff] at found
        rintro ⟨members, isGroup, member⟩
        simpa [member] using found members isGroup
      rw [if_neg outside]
      cases more.findIdx? (fun members => op ∈ members) with
      | none => rfl
      | some position =>
          simp [Nat.add_comm, Nat.add_left_comm]
  | some position =>
      have inside : ∃ members ∈ groups, op ∈ members := by
        obtain ⟨bound, member, -⟩ :=
          List.findIdx?_eq_some_iff_getElem.mp found
        exact ⟨groups[position], List.getElem_mem bound, by simpa using member⟩
      rw [if_pos inside]
      rfl

/-- One more group redirects the blocks of its members. -/
theorem Disjoint.blockOf_concat {members : List OpId}
    (disjoint : Disjoint base (groups ++ [members])) (op : OpId) :
    blockOf base (groups ++ [members]) op =
      redirect members (base + groups.length) (blockOf base groups op) := by
  rw [blockOf_append]
  have last : ∀ op ∈ members, op < base :=
    disjoint.bounded members (by simp)
  split
  · rename_i inside
    obtain ⟨others, isGroup, member⟩ := inside
    obtain ⟨position, known⟩ := List.mem_iff_getElem?.mp isGroup
    have earlier : Disjoint base groups :=
      ⟨fun others isGroup => disjoint.bounded others (by simp [isGroup]),
        (List.pairwise_append.mp disjoint.apart).1⟩
    rw [earlier.blockOf_mem known member, redirect, if_neg]
    intro inMembers
    exact Nat.not_lt.mpr (Nat.le_add_right _ _) (last _ inMembers)
  · rename_i outside
    have outside : ∀ others ∈ groups, op ∉ others :=
      fun others isGroup member => outside ⟨others, isGroup, member⟩
    rw [blockOf_of_not_mem outside]
    by_cases member : op ∈ members
    · simp [blockOf, redirect, List.findIdx?_cons, member]
    · simp [blockOf, redirect, List.findIdx?_cons, member]

/-- A block is its own block. -/
theorem Disjoint.blockOf_idem (disjoint : Disjoint base groups)
    (op : OpId) :
    blockOf base groups (blockOf base groups op) =
      blockOf base groups op := by
  by_cases inside : ∃ members ∈ groups, op ∈ members
  · obtain ⟨members, isGroup, member⟩ := inside
    obtain ⟨position, known⟩ := List.mem_iff_getElem?.mp isGroup
    rw [disjoint.blockOf_mem known member]
    apply blockOf_of_not_mem
    intro others isOther inOther
    exact
      Nat.not_lt.mpr (Nat.le_add_right _ _)
        (disjoint.bounded others isOther _ inOther)
  · have outside : ∀ members ∈ groups, op ∉ members :=
      fun members isGroup member => inside ⟨members, isGroup, member⟩
    rw [blockOf_of_not_mem outside, blockOf_of_not_mem outside]

/-- Blocks of other ops are no members of a later group. -/
theorem Disjoint.blockOf_mem_iff {members : List OpId}
    (disjoint : Disjoint base (groups ++ [members])) (op : OpId) :
    (blockOf base groups op ∈ members ↔ op ∈ members) ∧
      (op ∈ members → blockOf base groups op = op) := by
  by_cases inside : ∃ others ∈ groups, op ∈ others
  · obtain ⟨others, isGroup, member⟩ := inside
    obtain ⟨position, known⟩ := List.mem_iff_getElem?.mp isGroup
    have earlier : Disjoint base groups :=
      ⟨fun others isGroup => disjoint.bounded others (by simp [isGroup]),
        (List.pairwise_append.mp disjoint.apart).1⟩
    have absent : op ∉ members :=
      (List.pairwise_append.mp disjoint.apart).2.2 others isGroup members
        (by simp) op member
    have large : base + position ∉ members := by
      intro inMembers
      exact
        Nat.not_lt.mpr (Nat.le_add_right _ _)
          (disjoint.bounded members (by simp) _ inMembers)
    rw [earlier.blockOf_mem known member]
    exact
      ⟨⟨fun inMembers => (large inMembers).elim,
          fun inMembers => (absent inMembers).elim⟩,
        fun inMembers => (absent inMembers).elim⟩
  · have outside : ∀ others ∈ groups, op ∉ others :=
      fun others isGroup member => inside ⟨others, isGroup, member⟩
    rw [blockOf_of_not_mem outside]
    exact ⟨Iff.rfl, fun _ => rfl⟩

end Blocks

/-! ## The block after materialization -/

/-- The operands of a batch when it is made, after the batches of `before`. -/
def batchOperands (cg : Graph) (before : List (List OpId))
    (members : List OpId) : List OpId :=
  SetVector.insertAll []
    ((members.flatMap fun op =>
      (cg.operands op).map (blockOf cg.opCount before)).filter
        fun token => token ∉ members)

/-- `after` is `cg` with the groups of `done` materialized. -/
structure Materialized (cg : Graph) (done : List (List OpId × BitVec 32))
    (after : Graph) : Prop where
  opCount_eq : after.opCount = cg.opCount + done.length
  body_eq : after.body =
    (cg.body.filter fun op => ∀ group ∈ done, op ∉ group.1) ++
      (List.range done.length).map (cg.opCount + ·)
  top_eq : ∀ op < cg.opCount, (∀ group ∈ done, op ∉ group.1) →
    after.ops op =
      (cg.ops op).withOperands
        ((cg.operands op).map (blockOf cg.opCount (done.map Prod.fst)))
  member_eq : ∀ group ∈ done, ∀ op ∈ group.1,
    after.ops op =
      (cg.ops op).withOperands
        ((cg.operands op).filter (· ∈ group.1))
  batch_eq : ∀ (position : Nat) (group : List OpId × BitVec 32),
    done[position]? = some group →
      after.ops (cg.opCount + position) =
        { duid := group.2
          kind := .batch group.1
          operands :=
            (batchOperands cg ((done.map Prod.fst).take position)
              group.1).map (blockOf cg.opCount (done.map Prod.fst))
          srcNode := none }

theorem mem_batchOperands {cg : Graph} {before : List (List OpId)}
    {members : List OpId} {token : OpId} :
    token ∈ batchOperands cg before members ↔ token ∉ members ∧
      ∃ op ∈ members, ∃ pred ∈ cg.operands op,
        blockOf cg.opCount before pred = token := by
  simp [batchOperands, and_comm]

theorem batchOperands_nodup (cg : Graph) (before : List (List OpId))
    (members : List OpId) : (batchOperands cg before members).Nodup :=
  SetVector.nodup_insertAll List.nodup_nil _

section Several

variable {cg : Graph} {groups : List (List OpId × BitVec 32)}

/-- Materializing one more group. -/
theorem Materialized.step {done : List (List OpId × BitVec 32)}
    {group : List OpId × BitVec 32} {state : Graph}
    (disjoint : Disjoint cg.opCount ((done ++ [group]).map Prod.fst))
    (materialized : Materialized cg done state) :
    Materialized cg (done ++ [group])
      (state.materializeBatch group.1 group.2) := by
  rw [List.map_append, List.map_singleton] at disjoint
  have small : ∀ op ∈ group.1, op < cg.opCount :=
    disjoint.bounded group.1 (by simp)
  have large : ∀ position, cg.opCount + position ∉ group.1 := by
    intro position member
    exact Nat.not_lt.mpr (Nat.le_add_right _ _) (small _ member)
  have notBatch : ∀ op < cg.opCount, op ≠ state.opCount := by
    intro op bound equal
    rw [equal, materialized.opCount_eq] at bound
    exact Nat.not_lt.mpr (Nat.le_add_right _ _) bound
  have opsEq : ∀ op,
      (state.materializeBatch group.1 group.2).ops op = _ :=
    materializeBatch_ops (by rw [materialized.opCount_eq]; exact large _)
  have concat : redirect group.1 state.opCount ∘
        blockOf cg.opCount (done.map Prod.fst) =
      blockOf cg.opCount ((done ++ [group]).map Prod.fst) := by
    funext op
    rw [List.map_append, List.map_singleton, disjoint.blockOf_concat,
      List.length_map, materialized.opCount_eq]
    rfl
  have absent : ∀ earlier ∈ done, ∀ op ∈ earlier.1, op ∉ group.1 := by
    intro earlier isDone op member
    exact
      (List.pairwise_append.mp disjoint.apart).2.2 earlier.1
        (List.mem_map_of_mem isDone) group.1 (by simp) op member
  have groupOps : ∀ op ∈ group.1, state.ops op =
      (cg.ops op).withOperands
        ((cg.operands op).map
          (blockOf cg.opCount (done.map Prod.fst))) := by
    intro op member
    exact
      materialized.top_eq op (small op member)
        fun earlier isDone inside => absent earlier isDone op inside member
  exact {
    opCount_eq := by
      simp [materialized.opCount_eq, Nat.add_assoc]
    body_eq := by
      rw [materializeBatch_body, materialized.body_eq,
        materialized.opCount_eq, List.append_assoc, List.filter_append,
        List.filter_filter, List.length_append, List.length_singleton,
        List.range_succ, List.map_append]
      congr 1
      · apply List.filter_congr
        intro op _
        simp only [List.forall_mem_append, List.forall_mem_singleton]
        rw [Bool.eq_iff_iff]
        simp [and_comm]
      · apply List.filter_eq_self.mpr
        intro op member
        simp only [List.mem_append, List.mem_map, List.mem_singleton]
          at member
        rcases member with ⟨position, -, rfl⟩ | rfl
        · simpa using large position
        · simpa using large done.length
    top_eq := by
      intro op bound outside
      rw [opsEq, if_neg (notBatch op bound),
        if_neg (outside group (by simp)), Graph.operands,
        materialized.top_eq op bound
          fun earlier isDone => outside earlier (by simp [isDone]),
        Op.withOperands_operands, Op.withOperands_withOperands,
        List.map_map, concat]
    member_eq := by
      intro other isDone op member
      rcases List.mem_append.mp isDone with earlier | isLast
      · have bound : op < cg.opCount :=
          disjoint.bounded other.1
            (List.mem_append_left _ (List.mem_map_of_mem earlier)) op member
        rw [opsEq, if_neg (notBatch op bound),
          if_neg (absent other earlier op member), Graph.operands,
          materialized.member_eq other earlier op member]
        refine congrArg (Op.withOperands _)
          ((List.map_congr_left ?_).trans (List.map_id _))
        intro token kept
        have inside : token ∈ other.1 := by
          simpa using (List.mem_filter.mp kept).2
        exact if_neg (absent other earlier token inside)
      · rw [List.mem_singleton] at isLast
        subst isLast
        rw [opsEq, if_neg (notBatch op (small op member)), if_pos member,
          Graph.operands, groupOps op member]
        refine congrArg (Op.withOperands _) ?_
        rw [Op.withOperands_operands, List.filter_map]
        refine (congrArg (List.map _) (List.filter_congr ?_)).trans
          ((List.map_congr_left ?_).trans (List.map_id _))
        · intro token _
          simp [(disjoint.blockOf_mem_iff token).1]
        · intro token kept
          exact
            (disjoint.blockOf_mem_iff token).2
              (by simpa using (List.mem_filter.mp kept).2)
    batch_eq := by
      intro position other known
      by_cases earlier : position < done.length
      · rw [List.getElem?_append_left earlier] at known
        have notLast : cg.opCount + position ≠ state.opCount := by
          rw [materialized.opCount_eq]
          omega
        rw [opsEq, if_neg notLast, if_neg (large position), Graph.operands,
          materialized.batch_eq position other known, Op.withOperands,
          List.map_map, concat, List.map_append,
          List.take_append_of_le_length (by simpa using earlier.le)]
      · have last : position = done.length := by
          have bound := (List.getElem?_eq_some_iff.mp known).1
          rw [List.length_append, List.length_singleton] at bound
          omega
        subst last
        rw [List.getElem?_concat_length, Option.some.injEq] at known
        subst known
        rw [opsEq, if_pos materialized.opCount_eq.symm]
        have created : state.externalPreds group.1 =
            batchOperands cg (done.map Prod.fst) group.1 := by
          unfold Graph.externalPreds batchOperands
          congr 2
          rw [List.flatMap_def, List.flatMap_def]
          refine congrArg List.flatten (List.map_congr_left ?_)
          intro op member
          rw [Graph.operands, groupOps op member, Op.withOperands_operands]
        have before : ((done ++ [group]).map Prod.fst).take done.length =
            done.map Prod.fst := by
          rw [List.map_append, List.take_left' (List.length_map _)]
        refine congrArg
          (Op.mk group.2 (.batch group.1) · none) ?_
        rw [before, created]
        refine ((List.map_congr_left ?_).trans (List.map_id _)).symm
        intro token member
        obtain ⟨outside, op, opMember, pred, isPred, rfl⟩ :=
          mem_batchOperands.mp member
        have earlier : Disjoint cg.opCount (done.map Prod.fst) :=
          ⟨fun members isGroup =>
              disjoint.bounded members (List.mem_append_left _ isGroup),
            (List.pairwise_append.mp disjoint.apart).1⟩
        rw [← concat, Function.comp_apply, earlier.blockOf_idem]
        exact if_neg outside }

/-- Materializing all groups. -/
theorem materialize_spec
    (disjoint : Disjoint cg.opCount (groups.map Prod.fst)) :
    Materialized cg groups (materialize cg groups) := by
  apply Loop.foldl_invariant _ (Materialized cg)
  · intro done group rest state split materialized
    apply materialized.step
    rw [split, List.append_cons, List.map_append] at disjoint
    exact
      ⟨fun members isGroup =>
          disjoint.bounded members (List.mem_append_left _ isGroup),
        (List.pairwise_append.mp disjoint.apart).1⟩
  · exact {
      opCount_eq := rfl
      body_eq := by simp
      top_eq := by
        intro op _ _
        have same : blockOf cg.opCount [] = id :=
          funext fun op => blockOf_of_not_mem (by simp)
        simp [same, Graph.operands, Op.withOperands]
      member_eq := by simp
      batch_eq := by simp }

end Several

/-! ## The top level -/

section Top

variable {cg after : Graph} {groups : List (List OpId × BitVec 32)}

/-- The block of an op does not change when later groups are added. -/
theorem Disjoint.blockOf_take {base : Nat} {groups : List (List OpId)}
    (disjoint : Disjoint base groups) (position : Nat) (op : OpId) :
    blockOf base groups (blockOf base (groups.take position) op) =
      blockOf base groups op := by
  have split :
      blockOf base (groups.take position ++ groups.drop position) op = _ :=
    blockOf_append (groups.drop position) op
  rw [List.take_append_drop] at split
  by_cases inside : ∃ members ∈ groups.take position, op ∈ members
  · rw [if_pos inside] at split
    rw [← split, disjoint.blockOf_idem]
  · have outside : ∀ members ∈ groups.take position, op ∉ members :=
      fun members isGroup member => inside ⟨members, isGroup, member⟩
    rw [blockOf_of_not_mem outside]

/-- An op is its own block or a member of the group of its block. -/
theorem blockOf_cases (base : Nat) (groups : List (List OpId)) (op : OpId) :
    ((∀ members ∈ groups, op ∉ members) ∧ blockOf base groups op = op) ∨
      ∃ (position : Nat) (members : List OpId),
        groups[position]? = some members ∧ op ∈ members ∧
          blockOf base groups op = base + position := by
  unfold blockOf
  cases found : groups.findIdx? fun members => op ∈ members with
  | none =>
      rw [List.findIdx?_eq_none_iff] at found
      refine Or.inl ⟨?_, rfl⟩
      intro members isGroup
      simpa using found members isGroup
  | some position =>
      obtain ⟨bound, member, -⟩ :=
        List.findIdx?_eq_some_iff_getElem.mp found
      exact
        Or.inr
          ⟨position, groups[position], List.getElem?_eq_getElem bound,
            by simpa using member, rfl⟩

/-- The members of the block of a batch are those of its group. -/
theorem Disjoint.blockOf_eq_batch_iff {base : Nat}
    {groups : List (List OpId)} (disjoint : Disjoint base groups)
    {position : Nat} {members : List OpId}
    (known : groups[position]? = some members) {op : OpId}
    (old : op < base) :
    blockOf base groups op = base + position ↔ op ∈ members := by
  constructor
  · intro equal
    rcases blockOf_cases base groups op with
      ⟨-, same⟩ | ⟨other, others, knownOther, member, same⟩
    · rw [same] at equal
      subst equal
      exact (Nat.not_lt.mpr (Nat.le_add_right _ _) old).elim
    · rw [same] at equal
      obtain rfl : other = position := Nat.add_left_cancel equal
      rw [knownOther, Option.some.injEq] at known
      exact known ▸ member
  · exact disjoint.blockOf_mem known

/-- Below the batches, a block is a single op. -/
theorem blockOf_eq_old {base : Nat} {groups : List (List OpId)}
    {op block : OpId} (old : block < base)
    (equal : blockOf base groups op = block) :
    op = block ∧ ∀ members ∈ groups, op ∉ members := by
  rcases blockOf_cases base groups op with
    ⟨outside, same⟩ | ⟨position, -, -, -, same⟩
  · exact ⟨same.symm.trans equal, outside⟩
  · rw [same] at equal
    subst equal
    exact (Nat.not_lt.mpr (Nat.le_add_right _ _) old).elim

/-- Different ops of one block are members of one group. -/
theorem Disjoint.together {base : Nat} {groups : List (List OpId)}
    (disjoint : Disjoint base groups) {op other : OpId} (bound : op < base)
    (otherBound : other < base)
    (same : blockOf base groups op = blockOf base groups other)
    (different : op ≠ other) :
    ∃ (position : Nat) (members : List OpId),
      groups[position]? = some members ∧ op ∈ members ∧ other ∈ members := by
  rcases blockOf_cases base groups other with
    ⟨-, self⟩ | ⟨position, members, known, inMembers, blockEq⟩
  · exact absurd (blockOf_eq_old otherBound (same.trans self)).1 different
  · exact
      ⟨position, members, known,
        (disjoint.blockOf_eq_batch_iff known bound).mp (same.trans blockEq),
        inMembers⟩

variable (bounded : ∀ op ∈ cg.body, op < cg.opCount)
  (inBody : ∀ group ∈ groups, ∀ op ∈ group.1, op ∈ cg.body)
  (materialized : Materialized cg groups after)

include materialized

theorem Materialized.mem_body (block : OpId) :
    block ∈ after.body ↔
      (block ∈ cg.body ∧ ∀ group ∈ groups, block ∉ group.1) ∨
        ∃ position < groups.length, cg.opCount + position = block := by
  rw [materialized.body_eq]
  simp

theorem Materialized.mem_body_of_outside {op : OpId}
    (member : op ∈ cg.body) (outside : ∀ group ∈ groups, op ∉ group.1) :
    op ∈ after.body :=
  (materialized.mem_body op).mpr (Or.inl ⟨member, outside⟩)

/-- The block of every op is at the top level. -/
theorem Materialized.blockOf_mem_body {op : OpId} (member : op ∈ cg.body) :
    blockOf cg.opCount (groups.map Prod.fst) op ∈ after.body := by
  rw [materialized.mem_body]
  rcases blockOf_cases cg.opCount (groups.map Prod.fst) op with
    ⟨outside, same⟩ | ⟨position, members, known, -, same⟩
  · rw [same]
    refine Or.inl ⟨member, ?_⟩
    intro group isGroup
    exact outside group.1 (List.mem_map_of_mem isGroup)
  · rw [same]
    have bound := (List.getElem?_eq_some_iff.mp known).1
    rw [List.length_map] at bound
    exact Or.inr ⟨position, bound, rfl⟩

include bounded inBody

/-- The operands at the top level are the edges between different blocks. -/
theorem Materialized.mem_operands
    (disjoint : Disjoint cg.opCount (groups.map Prod.fst))
    (closed : ∀ op ∈ cg.body, ∀ pred ∈ cg.operands op, pred ∈ cg.body)
    (irreflexive : ∀ op ∈ cg.body, op ∉ cg.operands op)
    {block : OpId} (member : block ∈ after.body) (token : OpId) :
    token ∈ after.operands block ↔ token ≠ block ∧
      ∃ op ∈ cg.body, ∃ pred ∈ cg.operands op,
        blockOf cg.opCount (groups.map Prod.fst) pred = token ∧
          blockOf cg.opCount (groups.map Prod.fst) op = block := by
  let blockOfAll := blockOf cg.opCount (groups.map Prod.fst)
  rcases (materialized.mem_body block).mp member with
    ⟨old, outside⟩ | ⟨position, bound, rfl⟩
  · have less := bounded block old
    have self : blockOfAll block = block := by
      apply blockOf_of_not_mem
      intro members isGroup
      obtain ⟨group, listed, rfl⟩ := List.mem_map.mp isGroup
      exact outside group listed
    rw [Graph.operands, materialized.top_eq block less outside,
      Op.withOperands_operands, List.mem_map]
    constructor
    · rintro ⟨pred, isPred, rfl⟩
      refine ⟨?_, block, old, pred, isPred, rfl, self⟩
      intro equal
      have same := (blockOf_eq_old less equal).1
      exact irreflexive block old (same ▸ isPred)
    · rintro ⟨-, op, -, pred, isPred, rfl, equal⟩
      obtain ⟨rfl, -⟩ := blockOf_eq_old less equal
      exact ⟨pred, isPred, rfl⟩
  · obtain ⟨group, known⟩ :
        ∃ group, groups[position]? = some group :=
      ⟨_, List.getElem?_eq_getElem bound⟩
    have known' : (groups.map Prod.fst)[position]? = some group.1 := by
      simp [known]
    have isGroup : group ∈ groups := List.mem_of_getElem? known
    have batch : ∀ op ∈ cg.body,
        blockOfAll op = cg.opCount + position ↔ op ∈ group.1 :=
      fun op old => disjoint.blockOf_eq_batch_iff known' (bounded op old)
    have taken := disjoint.blockOf_take position
    rw [Graph.operands, materialized.batch_eq position group known,
      List.mem_map]
    constructor
    · rintro ⟨first, isFirst, rfl⟩
      obtain ⟨notMember, op, opMember, pred, isPred, rfl⟩ :=
        mem_batchOperands.mp isFirst
      have opOld := inBody group isGroup op opMember
      have predOld := closed op opOld pred isPred
      refine
        ⟨?_, op, opOld, pred, isPred, (taken pred).symm,
          (batch op opOld).mpr opMember⟩
      rw [taken]
      intro equal
      apply notMember
      have predMember := (batch pred predOld).mp equal
      rcases blockOf_cases cg.opCount
          ((groups.map Prod.fst).take position) pred with
        ⟨-, same⟩ | ⟨earlier, members, knownEarlier, inEarlier, -⟩
      · rwa [same]
      · have less : earlier < position := by
          have bound := (List.getElem?_eq_some_iff.mp knownEarlier).1
          rw [List.length_take] at bound
          omega
        rw [List.getElem?_take_of_lt less] at knownEarlier
        have first := disjoint.blockOf_mem knownEarlier inEarlier
        rw [disjoint.blockOf_mem known' predMember] at first
        exact (Nat.ne_of_gt less (Nat.add_left_cancel first)).elim
    · rintro ⟨different, op, opOld, pred, isPred, rfl, equal⟩
      refine
        ⟨blockOf cg.opCount ((groups.map Prod.fst).take position) pred,
          mem_batchOperands.mpr
            ⟨?_, op, (batch op opOld).mp equal, pred, isPred, rfl⟩,
          taken pred⟩
      intro inGroup
      apply different
      have predOld := closed op opOld pred isPred
      rw [← taken pred]
      exact disjoint.blockOf_mem known' inGroup

end Top

end Cgir.Mlir
