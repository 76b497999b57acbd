import Cgir.Mlir.BatchWork

/-!
# When the batch pass of the dialect keeps a graph simple

The operands of a batch are deduplicated when it is made, but the uses of its
members are redirected one by one.  A node outside the groups that depends on
two members of one group thus depends twice on its batch, and so does a batch
whose members depend on two members of a group that is materialized later.
-/

namespace Cgir.Mlir

open Relation
open Cgir.Library
open Cgir.Model

/-- No node appears twice in an adjacency list of the graph. -/
def Simple (heap : Heap) (graph : GraphId) : Prop :=
  ∀ node, heap.Reachable graph node →
    (heap.successors node).Nodup ∧ (heap.predecessors node).Nodup

/--
No op outside the groups depends on two members of one group, and no group
depends on two members of one later group.
-/
structure Spread (cg : Graph) (groups : List (List OpId)) : Prop where
  outside : ∀ op ∈ cg.body, (∀ members ∈ groups, op ∉ members) →
    ∀ members ∈ groups, ∀ pred ∈ members, ∀ other ∈ members,
      pred ∈ cg.operands op → other ∈ cg.operands op → pred = other
  later : groups.Pairwise fun members later =>
    ∀ pred ∈ later, ∀ other ∈ later,
      (∃ op ∈ members, pred ∈ cg.operands op) →
        (∃ op ∈ members, other ∈ cg.operands op) → pred = other

section Operands

variable {cg : Graph} {groups : List (List OpId)}
  (disjoint : Disjoint cg.opCount groups)

include disjoint

/-- Members of one group have one block. -/
theorem Disjoint.blockOf_eq {members : List OpId} (isGroup : members ∈ groups)
    {op other : OpId} (member : op ∈ members) (otherMember : other ∈ members) :
    blockOf cg.opCount groups op = blockOf cg.opCount groups other := by
  obtain ⟨position, known⟩ := List.mem_iff_getElem?.mp isGroup
  rw [disjoint.blockOf_mem known member,
    disjoint.blockOf_mem known otherMember]

/-- Redirected operands repeat when two of them are members of one group. -/
theorem Disjoint.redirected_nodup_iff {operands : List OpId}
    (nodup : operands.Nodup) (bounded : ∀ pred ∈ operands, pred < cg.opCount) :
    (operands.map (blockOf cg.opCount groups)).Nodup ↔
      ∀ members ∈ groups, ∀ pred ∈ members, ∀ other ∈ members,
        pred ∈ operands → other ∈ operands → pred = other := by
  rw [List.nodup_map_iff_inj_on nodup]
  constructor
  · intro injective members isGroup pred inGroup other otherGroup isPred
      isOther
    exact
      injective pred isPred other isOther
        (disjoint.blockOf_eq isGroup inGroup otherGroup)
  · intro spread pred isPred other isOther same
    by_contra different
    obtain ⟨position, members, known, inGroup, otherGroup⟩ :=
      disjoint.together (bounded pred isPred) (bounded other isOther) same
        different
    exact
      different
        (spread members (List.mem_of_getElem? known) pred inGroup other
          otherGroup isPred isOther)

/-- The operands of a batch repeat when two of them are in one later group. -/
theorem Disjoint.batchOperands_nodup_iff {position : Nat}
    {members : List OpId} (known : groups[position]? = some members)
    (bounded : ∀ op ∈ members, ∀ pred ∈ cg.operands op, pred < cg.opCount) :
    ((batchOperands cg (groups.take position) members).map
        (blockOf cg.opCount groups)).Nodup ↔
      ∀ (next : Nat) (later : List OpId), groups[next]? = some later →
        position < next → ∀ pred ∈ later, ∀ other ∈ later,
          (∃ op ∈ members, pred ∈ cg.operands op) →
            (∃ op ∈ members, other ∈ cg.operands op) → pred = other := by
  let early := blockOf cg.opCount (groups.take position)
  have earlyOf : ∀ {next : Nat} {later : List OpId},
      groups[next]? = some later → position ≤ next → ∀ pred ∈ later,
        early pred = pred := by
    intro next later knownLater bound pred inLater
    apply blockOf_of_not_mem
    intro others isEarlier inOthers
    obtain ⟨earlier, knownEarlier⟩ := List.mem_iff_getElem?.mp isEarlier
    have less : earlier < position := by
      have bound := (List.getElem?_eq_some_iff.mp knownEarlier).1
      rw [List.length_take] at bound
      exact Nat.lt_of_lt_of_le bound (Nat.min_le_left _ _)
    rw [List.getElem?_take_of_lt less] at knownEarlier
    have first := disjoint.blockOf_mem knownEarlier inOthers
    rw [disjoint.blockOf_mem knownLater inLater] at first
    exact
      Nat.ne_of_gt (Nat.lt_of_lt_of_le less bound) (Nat.add_left_cancel first)
  rw [List.nodup_map_iff_inj_on (batchOperands_nodup _ _ _)]
  constructor
  · rintro injective next later knownLater bound pred inLater other
      otherLater isPred isOther
    have token : ∀ op ∈ later, (∃ user ∈ members, op ∈ cg.operands user) →
        op ∈ batchOperands cg (groups.take position) members := by
      rintro op inLater ⟨user, userMember, isOperand⟩
      refine mem_batchOperands.mpr
        ⟨?_, user, userMember, op, isOperand,
          earlyOf knownLater bound.le op inLater⟩
      intro inMembers
      have first := disjoint.blockOf_mem known inMembers
      rw [disjoint.blockOf_mem knownLater inLater] at first
      exact Nat.ne_of_gt bound (Nat.add_left_cancel first)
    exact
      injective pred (token pred inLater isPred) other
        (token other otherLater isOther)
        (disjoint.blockOf_eq (List.mem_of_getElem? knownLater) inLater
          otherLater)
  · rintro spread first isFirst second isSecond same
    obtain ⟨firstOutside, user, userMember, pred, isPred, rfl⟩ :=
      mem_batchOperands.mp isFirst
    obtain ⟨-, user', userMember', other, isOther, rfl⟩ :=
      mem_batchOperands.mp isSecond
    rw [disjoint.blockOf_take, disjoint.blockOf_take] at same
    by_cases equal : pred = other
    · rw [equal]
    · obtain ⟨next, later, knownLater, inLater, otherLater⟩ :=
        disjoint.together (bounded user userMember pred isPred)
          (bounded user' userMember' other isOther) same equal
      rcases Nat.lt_trichotomy next position with before | rfl | after
      · have knownTake : (groups.take position)[next]? = some later := by
          rw [List.getElem?_take_of_lt before, knownLater]
        have taken : Disjoint cg.opCount (groups.take position) :=
          ⟨fun others isGroup =>
              disjoint.bounded others (List.mem_of_mem_take isGroup),
            disjoint.apart.sublist (List.take_sublist _ _)⟩
        rw [taken.blockOf_mem knownTake inLater,
          taken.blockOf_mem knownTake otherLater]
      · rw [known, Option.some.injEq] at knownLater
        subst knownLater
        rw [show blockOf cg.opCount (groups.take next) pred = pred from
          earlyOf known (Nat.le_refl _) pred inLater] at firstOutside
        exact (firstOutside inLater).elim
      · rw [spread next later knownLater after pred inLater other otherLater
          ⟨user, userMember, isPred⟩ ⟨user', userMember', isOther⟩]

end Operands

namespace Batched

variable {heap : Heap} {iterators : Iterators} {cg : Graph}
  {rep : Nat → Nat} {scratch : Scratch} {after : Heap}
  (formed : heap.WellFormed iterators.graph)
  (batched : Batched heap iterators cg rep scratch after)

include formed batched

/-- The lists of the result repeat a node where operands repeat a token. -/
theorem simple_iff_operands :
    Simple after iterators.graph ↔
      ∀ op ∈ (materialize cg (scratch.groups cg)).body,
        ((materialize cg (scratch.groups cg)).operands op).Nodup := by
  obtain ⟨resolved, entry, exit, linked⟩ := batched.exported.linked
  have distinct :=
    batched.grouped.placeAt_injective batched.materialized
      (fun _ inBody => batched.grouped.node_lt formed inBody)
  have closed :=
    batched.grouped.operands_closed formed batched.materialized
  constructor
  · intro simple block member
    obtain ⟨op, opMember, rfl⟩ := batched.exists_op formed member
    rw [← linked.predecessors_nodup_iff distinct closed member]
    apply (simple _ _).2
    exact (batched.reachable_iff formed _).mpr ⟨op, opMember, rfl⟩
  · intro nodup node reachable
    obtain ⟨op, opMember, rfl⟩ :=
      (batched.reachable_iff formed node).mp reachable
    have member := batched.materialized.blockOf_mem_body opMember
    exact
      ⟨linked.successors_nodup nodup member,
        (linked.predecessors_nodup_iff distinct closed member).mpr
          (nodup _ member)⟩

/-- The result is simple exactly when the groups are spread. -/
theorem simple_iff :
    Simple after iterators.graph ↔
      Spread cg ((scratch.groups cg).map Prod.fst) := by
  have disjoint := batched.grouped.disjoint
  have bounded : ∀ op ∈ cg.body, ∀ pred ∈ cg.operands op,
      pred < cg.opCount := fun op member pred isPred =>
    batched.op_lt (batched.mirrors.closed formed op member pred isPred)
  have outsideEq : ∀ op ∈ cg.body,
      (∀ group ∈ scratch.groups cg, op ∉ group.1) →
        (materialize cg (scratch.groups cg)).operands op =
          (cg.operands op).map
            (blockOf cg.opCount ((scratch.groups cg).map Prod.fst)) := by
    intro op member outside
    rw [Graph.operands,
      batched.materialized.top_eq op (batched.op_lt member) outside]
    rfl
  have batchEq : ∀ (position : Nat) (group : List OpId × BitVec 32),
      (scratch.groups cg)[position]? = some group →
        (materialize cg (scratch.groups cg)).operands
            (cg.opCount + position) =
          (batchOperands cg
            (((scratch.groups cg).map Prod.fst).take position)
            group.1).map
              (blockOf cg.opCount ((scratch.groups cg).map Prod.fst)) := by
    intro position group known
    rw [Graph.operands, batched.materialized.batch_eq position group known]
  have batchIff := fun (position : Nat) (group : List OpId × BitVec 32)
      (known : (scratch.groups cg)[position]? = some group) =>
    disjoint.batchOperands_nodup_iff (known_members known)
      (fun op inGroup =>
        bounded op
          (batched.grouped.member_body (List.mem_of_getElem? known) inGroup))
  rw [batched.simple_iff_operands formed]
  constructor
  · intro nodup
    constructor
    · intro op member outside
      have outside' : ∀ group ∈ scratch.groups cg, op ∉ group.1 :=
        fun group isGroup => outside group.1 (List.mem_map_of_mem isGroup)
      have listed := nodup op
        (batched.materialized.mem_body_of_outside member outside')
      rw [outsideEq op member outside',
        disjoint.redirected_nodup_iff
          (batched.mirrors.operands_nodup formed member)
          (bounded op member)] at listed
      exact listed
    · rw [List.pairwise_iff_getElem]
      intro position next bound nextBound before
      rw [List.length_map] at bound nextBound
      have known := List.getElem?_eq_getElem bound
      have listed := nodup (cg.opCount + position)
        ((batched.materialized.mem_body _).mpr
          (Or.inr ⟨position, bound, rfl⟩))
      rw [batchEq position _ known, batchIff position _ known] at listed
      have later := listed next _
        (known_members (List.getElem?_eq_getElem nextBound)) before
      simpa only [List.getElem_map] using later
  · intro spread block member
    rcases (batched.materialized.mem_body block).mp member with
      ⟨inBody, outside⟩ | ⟨position, bound, rfl⟩
    · rw [outsideEq block inBody outside,
        disjoint.redirected_nodup_iff
          (batched.mirrors.operands_nodup formed inBody)
          (bounded block inBody)]
      apply spread.outside block inBody
      intro members listed
      obtain ⟨group, isGroup, rfl⟩ := List.mem_map.mp listed
      exact outside group isGroup
    · have known := List.getElem?_eq_getElem bound
      rw [batchEq position _ known, batchIff position _ known]
      intro next later knownLater before
      obtain ⟨nextBound, rfl⟩ := List.getElem?_eq_some_iff.mp knownLater
      have pair :=
        List.pairwise_iff_getElem.mp spread.later position next
          (by rwa [List.length_map]) nextBound before
      simpa only [List.getElem_map] using pair

end Batched

/--
The top level stays simple exactly when the groups that the contraction finds
on the imported graph are spread.
-/
theorem optimizeBatch_simple_iff {heap : Heap} {graph : GraphId}
    (formed : heap.WellFormed graph) (ready : heap.WalkReady graph)
    (plain : Plain heap graph) :
    ∃ indexed cg scratch after,
      importCommandGraph heap graph = some (indexed, cg) ∧
        contracted cg = some scratch ∧
          optimizeBatch heap graph = some after ∧
            (Simple after graph ↔
              Spread cg ((scratch.groups cg).map Prod.fst)) := by
  obtain ⟨iterators, cg, rep, scratch, after, rfl, imports, contracts, ran,
    batched⟩ := optimizeBatch_batched formed ready plain
  exact
    ⟨iterators.heap, cg, scratch, after, imports, contracts, ran,
      batched.simple_iff formed⟩

/-- Two reads side by side on one device. -/
def readSiblings : Heap :=
  Heap.ofNodes
    [Heap.linkedNode unspecifiedDeviceUniqueId .empty [] [1, 2],
      Heap.readNode 1 [0] [3],
      Heap.readNode 1 [0] [3],
      Heap.linkedNode unspecifiedDeviceUniqueId .empty [1, 2] []]
    { entry := 0, exit := 3, walkId := 0, isSequence := false }

theorem readSiblings_numbered : readSiblings.Numbered 0 := by
  decide

theorem readSiblings_plain : Plain readSiblings 0 :=
  Plain.of_numbered readSiblings_numbered (by decide) rfl rfl

theorem optimizeBatch_simple_iff_readSiblings :
    ∃ indexed cg scratch after,
      importCommandGraph readSiblings 0 = some (indexed, cg) ∧
        contracted cg = some scratch ∧
          optimizeBatch readSiblings 0 = some after ∧
            (Simple after 0 ↔
              Spread cg ((scratch.groups cg).map Prod.fst)) :=
  optimizeBatch_simple_iff readSiblings_numbered.wellFormed
    (readSiblings_numbered.walkReady (by decide)) readSiblings_plain

/-- The exit depends twice on the batch of the two reads. -/
theorem optimizeBatch_readSiblings_doubled :
    readSiblings.WellFormed 0 ∧ readSiblings.WalkReady 0 ∧
      Plain readSiblings 0 ∧
        ∃ after, optimizeBatch readSiblings 0 = some after ∧
          ¬ Simple after 0 := by
  have lists : (optimizeBatch readSiblings 0).map (fun heap =>
      ((heap.graphs 0).entry, heap.successors 0, heap.successors 8)) =
        some (0, [8], [3, 3]) := by
    decide
  obtain ⟨after, ran, same⟩ := Option.map_eq_some_iff.mp lists
  simp only [Prod.mk.injEq] at same
  obtain ⟨entryEq, first, second⟩ := same
  refine
    ⟨readSiblings_numbered.wellFormed,
      readSiblings_numbered.walkReady (by decide), readSiblings_plain, after,
      ran, ?_⟩
  intro simple
  have reachable : after.Reachable 0 8 := by
    have edge : 8 ∈ after.successors 0 := by
      rw [first]
      exact List.mem_singleton_self 8
    rw [Heap.Reachable, entryEq]
    exact ReflTransGen.single edge
  have nodup := (simple 8 reachable).1
  rw [second] at nodup
  exact absurd nodup (by decide)

end Cgir.Mlir
