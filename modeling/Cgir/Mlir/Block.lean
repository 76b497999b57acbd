import Cgir.Mlir.CopyFused
import Cgir.Pass.ProgFuse

/-!
# The edges of a block

A block without repeated operands represents a relation between its ops: the
users of a token are the targets of its edges.  Passes that replace the uses of
a token and erase ops change this relation as a contraction does, and export
writes it into the adjacency lists of the source nodes.
-/

namespace Cgir.Mlir

open Relation
open Cgir.Library
open Cgir.Model

/-! ## The source functions -/

namespace Graph

variable (cg : Graph)

/-- `token.replaceAllUsesWith(other)`. -/
def replaceAllUsesWith (token other : OpId) : Graph :=
  cg.mapOperands (fun _ => true)
    (List.map fun operand => if operand = token then other else operand)

/-- `op->erase()`, which fails where MLIR asserts that the token is unused. -/
def eraseUnused (op : OpId) : Option Graph :=
  if cg.users op = [] then some (cg.erase op) else none

/-- `is_series`. -/
def isSeries (u v : OpId) : Bool :=
  cg.users u = [v] && cg.operands v = [u]

end Graph

/-! ## The relation of a block -/

/-- The block holds the live ops, and the operands of an op are its edges. -/
structure Graph.Represents (cg : Graph) (live : OpId → Prop)
    (edge : OpId → OpId → Prop) : Prop where
  nodup : cg.body.Nodup
  mem_body : ∀ op, op ∈ cg.body ↔ live op
  operands_nodup : ∀ op, live op → (cg.operands op).Nodup
  mem_operands : ∀ op, live op → ∀ pred,
    pred ∈ cg.operands op ↔ edge pred op
  inside : ∀ pred op, edge pred op → live pred ∧ live op

namespace Graph.Represents

variable {cg : Graph} {live : OpId → Prop} {edge : OpId → OpId → Prop}
  (represents : cg.Represents live edge)

include represents

theorem congr {live' : OpId → Prop} {edge' : OpId → OpId → Prop}
    (liveIff : ∀ op, live' op ↔ live op)
    (edgeIff : ∀ pred op, edge' pred op ↔ edge pred op) :
    cg.Represents live' edge' := by
  have liveEq : live' = live := funext fun op => propext (liveIff op)
  have edgeEq : edge' = edge :=
    funext fun pred => funext fun op => propext (edgeIff pred op)
  rw [liveEq, edgeEq]
  exact represents

/-- A token lists every user once. -/
theorem users_nodup (token : OpId) : (cg.users token).Nodup := by
  rw [Graph.users, List.nodup_flatMap]
  constructor
  · intro op member
    rw [List.nodup_replicate]
    exact
      List.nodup_iff_count_le_one.mp
        (represents.operands_nodup op ((represents.mem_body op).mp member))
        token
  · apply represents.nodup.imp
    intro op other apart found first second
    rw [List.eq_of_mem_replicate first] at second
    exact apart (List.eq_of_mem_replicate second)

theorem mem_users {token op : OpId} :
    op ∈ cg.users token ↔ edge token op := by
  rw [Graph.mem_users, represents.mem_body]
  constructor
  · rintro ⟨alive, uses⟩
    exact (represents.mem_operands op alive token).mp uses
  · intro step
    have alive := (represents.inside token op step).2
    exact ⟨alive, (represents.mem_operands op alive token).mpr step⟩

/-- `is_series` tests for a sole edge. -/
theorem isSeries_iff {u v : OpId} :
    cg.isSeries u v = true ↔ Sole edge u v := by
  rw [isSeries, Bool.and_eq_true, decide_eq_true_eq, decide_eq_true_eq]
  constructor
  · rintro ⟨onlyUser, onlyOperand⟩
    have step : edge u v :=
      represents.mem_users.mp (onlyUser ▸ List.mem_singleton_self v)
    have memOperands :=
      represents.mem_operands v (represents.inside u v step).2
    rw [onlyOperand] at memOperands
    exact {
      step := step
      only_next := fun other next =>
        List.mem_singleton.mp (onlyUser ▸ represents.mem_users.mpr next)
      only_prev := fun other prev =>
        List.mem_singleton.mp ((memOperands other).mpr prev) }
  · intro sole
    have alive := (represents.inside u v sole.step).2
    constructor
    · apply List.perm_singleton.mp
      rw [List.perm_ext_iff_of_nodup (represents.users_nodup u)
        (List.nodup_singleton v)]
      intro other
      rw [represents.mem_users, List.mem_singleton]
      exact ⟨sole.only_next other, fun same => same ▸ sole.step⟩
    · apply List.perm_singleton.mp
      rw [List.perm_ext_iff_of_nodup (represents.operands_nodup v alive)
        (List.nodup_singleton u)]
      intro other
      rw [represents.mem_operands v alive, List.mem_singleton]
      exact ⟨sole.only_prev other, fun same => same ▸ sole.step⟩

end Graph.Represents

/-! ## Erasing ops -/

/-- The graph without some ops of its block. -/
structure Erased (cg : Graph) (gone : List OpId) (after : Graph) : Prop where
  ops_eq : after.ops = cg.ops
  sublist : after.body.Sublist cg.body
  mem_body : ∀ op, op ∈ after.body ↔ op ∈ cg.body ∧ op ∉ gone

/-- Ops whose users are all erased before them can be erased. -/
theorem eraseUnused_spec {cg : Graph} (nodup : cg.body.Nodup)
    {order : List OpId}
    (unused : ∀ gone op rest, order = gone ++ op :: rest →
      ∀ user ∈ cg.body, op ∈ cg.operands user → user ∈ gone) :
    ∃ after, order.foldlM Graph.eraseUnused cg = some after ∧
      Erased cg order after := by
  apply Loop.foldlM_invariant _ (Erased cg)
  · intro gone op rest state split erased
    have free : state.users op = [] := by
      rw [List.eq_nil_iff_forall_not_mem]
      intro user uses
      obtain ⟨member, isOperand⟩ := Graph.mem_users.mp uses
      rw [Graph.operands, erased.ops_eq] at isOperand
      obtain ⟨old, kept⟩ := (erased.mem_body user).mp member
      exact kept (unused gone op rest split user old isOperand)
    refine ⟨state.erase op, if_pos free, ?_⟩
    exact {
      ops_eq := erased.ops_eq
      sublist := List.erase_sublist.trans erased.sublist
      mem_body := by
        intro other
        rw [Graph.erase, (erased.sublist.nodup nodup).mem_erase_iff,
          erased.mem_body, List.mem_append, List.mem_singleton, not_or]
        constructor
        · rintro ⟨apart, old, kept⟩
          exact ⟨old, kept, apart⟩
        · rintro ⟨old, kept, apart⟩
          exact ⟨apart, old, kept⟩ }
  · exact {
      ops_eq := rfl
      sublist := .refl _
      mem_body := fun op => by simp }

/-! ## Contracting a series -/

section Series

variable {cg : Graph} {live : OpId → Prop} {edge : OpId → OpId → Prop}
  {u last : OpId} {rest : List OpId}

theorem replaceAllUsesWith_operands (token other op : OpId) :
    (cg.replaceAllUsesWith token other).operands op =
      (cg.operands op).map fun operand =>
        if operand = token then other else operand :=
  rfl

/-- In a series every op but the last has the next one as its only user. -/
theorem sole_of_split {chain before after : List OpId} {op : OpId}
    (sequence : List.IsChain (Sole edge) chain)
    (isLast : chain.getLast? = some last)
    (split : chain = before ++ op :: after) (inner : op ≠ last) :
    ∃ next more, after = next :: more ∧ Sole edge op next := by
  cases after with
  | nil =>
      rw [split, List.getLast?_concat, Option.some.injEq] at isLast
      exact (inner isLast).elim
  | cons next more =>
      exact
        ⟨next, more, rfl,
          List.isChain_iff_forall_rel_of_append_cons_cons.mp sequence split⟩

variable (represents : cg.Represents live edge) (alive : live u)
  (nodup : (u :: rest).Nodup)
  (sequence : List.IsChain (Sole edge) (u :: rest))
  (isLast : (u :: rest).getLast? = some last)

include sequence isLast

/-- Only the last op of a series has a user beyond the series. -/
theorem next_mem_series {op next : OpId} (member : op ∈ u :: rest)
    (inner : op ≠ last) (step : edge op next) : next ∈ rest := by
  obtain ⟨before, after, split⟩ := List.append_of_mem member
  obtain ⟨other, more, rfl, sole⟩ := sole_of_split sequence isLast split inner
  rw [sole.only_next next step]
  cases before with
  | nil =>
      rw [(List.cons.inj split).2]
      exact List.mem_cons_self
  | cons first before =>
      rw [(List.cons.inj split).2]
      simp

include represents alive nodup

/-- The series is contracted into its first op, back to front. -/
theorem contractSeries_spec (long : rest ≠ []) :
    ∃ after,
      rest.reverse.foldlM Graph.eraseUnused (cg.replaceAllUsesWith last u) =
          some after ∧
        Erased (cg.replaceAllUsesWith last u) rest.reverse after ∧
          after.Represents (fun op => live op ∧ op ∉ rest)
            (Pass.ProgFuse.Absorbed edge u rest last) := by
  have uOut : u ∉ rest := (List.nodup_cons.mp nodup).1
  have lastIn : last ∈ rest := by
    rw [List.getLast?_cons_of_ne_nil long] at isLast
    exact List.mem_of_getLast? isLast
  have uNe : u ≠ last := fun same => uOut (same ▸ lastIn)
  have nextMem := fun {op next : OpId} =>
    @next_mem_series edge u last rest sequence isLast op next
  obtain ⟨after, ran, erased⟩ :
      ∃ after, rest.reverse.foldlM Graph.eraseUnused
        (cg.replaceAllUsesWith last u) = some after ∧
          Erased (cg.replaceAllUsesWith last u) rest.reverse after := by
    apply @eraseUnused_spec (cg.replaceAllUsesWith last u) represents.nodup
    intro gone op more split user member isOperand
    have userLive := (represents.mem_body user).mp member
    have unreversed := congrArg List.reverse split
    rw [List.reverse_reverse, List.reverse_append, List.reverse_cons,
      List.append_assoc, List.singleton_append] at unreversed
    have inRest : op ∈ rest := by
      rw [unreversed]
      simp
    rw [replaceAllUsesWith_operands, List.mem_map] at isOperand
    obtain ⟨operand, isOperand, moved⟩ := isOperand
    split at moved
    · exact (uOut (moved ▸ inRest)).elim
    · rename_i inner
      subst moved
      have ordered :
          u :: rest = (u :: more.reverse) ++ operand :: gone.reverse := by
        rw [unreversed, List.cons_append]
      obtain ⟨next, later, split', sole⟩ :=
        sole_of_split sequence isLast ordered inner
      have step := (represents.mem_operands user userLive operand).mp isOperand
      rw [sole.only_next user step, ← List.mem_reverse, split']
      exact List.mem_cons_self
  refine ⟨after, ran, erased, ?_⟩
  have operandsEq : ∀ op, after.operands op =
      (cg.operands op).map fun operand =>
        if operand = last then u else operand := by
    intro op
    rw [Graph.operands, erased.ops_eq]
    rfl
  exact {
    nodup := erased.sublist.nodup represents.nodup
    mem_body := by
      intro op
      rw [erased.mem_body, List.mem_reverse]
      exact and_congr_left' (represents.mem_body op)
    operands_nodup := by
      rintro op ⟨opLive, outside⟩
      have memOperands := represents.mem_operands op opLive
      have notFirst : u ∉ cg.operands op := fun uses =>
        outside (nextMem List.mem_cons_self uNe ((memOperands u).mp uses))
      rw [operandsEq]
      apply (represents.operands_nodup op opLive).map_on
      intro first firstUses second secondUses same
      split at same
      · rename_i firstLast
        split at same
        · rename_i secondLast
          rw [firstLast, secondLast]
        · exact (notFirst (same ▸ secondUses)).elim
      · split at same
        · exact (notFirst (same ▸ firstUses)).elim
        · exact same
    mem_operands := by
      rintro op ⟨opLive, outside⟩ pred
      have memOperands := represents.mem_operands op opLive
      rw [operandsEq, List.mem_map]
      constructor
      · rintro ⟨operand, uses, moved⟩
        have step := (memOperands operand).mp uses
        split at moved
        · rename_i atLast
          subst moved atLast
          exact ⟨uOut, outside, Or.inr ⟨rfl, step⟩⟩
        · rename_i inner
          subst moved
          refine ⟨?_, outside, Or.inl step⟩
          intro inside
          exact outside (nextMem (List.mem_cons_of_mem u inside) inner step)
      · rintro ⟨predOut, -, step | ⟨rfl, step⟩⟩
        · have apart : pred ≠ last := fun same => predOut (same ▸ lastIn)
          exact ⟨pred, (memOperands pred).mpr step, if_neg apart⟩
        · exact ⟨last, (memOperands last).mpr step, if_pos rfl⟩
    inside := by
      rintro pred op ⟨predOut, opOut, step | ⟨rfl, step⟩⟩
      · obtain ⟨predLive, opLive⟩ := represents.inside pred op step
        exact ⟨⟨predLive, predOut⟩, opLive, opOut⟩
      · exact
          ⟨⟨alive, predOut⟩, (represents.inside last op step).2, opOut⟩ }

end Series

/-! ## Export -/

/-- A block of some ops of another one, with operands of their own. -/
structure Pruned (cg after : Graph) : Prop where
  sublist : after.body.Sublist cg.body
  ops_eq : ∀ op, (after.ops op).withOperands [] = (cg.ops op).withOperands []

theorem Pruned.refl (cg : Graph) : Pruned cg cg :=
  ⟨.refl _, fun _ => rfl⟩

theorem Pruned.trans {cg middle after : Graph} (first : Pruned cg middle)
    (second : Pruned middle after) : Pruned cg after :=
  ⟨second.sublist.trans first.sublist,
    fun op => (second.ops_eq op).trans (first.ops_eq op)⟩

/-- Replacing uses changes operands only. -/
theorem pruned_replaceAllUsesWith (cg : Graph) (token other : OpId) :
    Pruned cg (cg.replaceAllUsesWith token other) :=
  ⟨.refl _, fun _ => rfl⟩

theorem Erased.pruned {cg after : Graph} {gone : List OpId}
    (erased : Erased cg gone after) : Pruned cg after :=
  ⟨erased.sublist, fun op => by rw [erased.ops_eq]⟩

section Export

variable {heap : Heap} {iterators : Iterators} {cg after : Graph}
  {live : OpId → Prop} {edge : OpId → OpId → Prop}

/-- The nodes of the live ops. -/
def PlacedLive (iterators : Iterators) (live : OpId → Prop)
    (node : NodeId) : Prop :=
  ∃ op, live op ∧ iterators.node op = node

/-- The edges between ops, as edges between their nodes. -/
def PlacedEdge (iterators : Iterators) (edge : OpId → OpId → Prop)
    (source target : NodeId) : Prop :=
  ∃ pred op, edge pred op ∧ iterators.node pred = source ∧
    iterators.node op = target

/-- The imported block represents its tokens. -/
theorem Mirrors.represents (formed : heap.WellFormed iterators.graph)
    (mirrors : Mirrors heap iterators cg) :
    cg.Represents (· ∈ cg.body) (OpEdge cg) where
  nodup := mirrors.body_nodup
  mem_body := fun _ => Iff.rfl
  operands_nodup := fun _ member => mirrors.operands_nodup formed member
  mem_operands := fun _ member _ =>
    ⟨fun uses => ⟨member, uses⟩, fun step => step.2⟩
  inside := fun pred op step =>
    ⟨mirrors.closed formed op step.1 pred step.2, step.1⟩

/--
Export of what a pass left of an imported block rewrites the lists of its source
nodes, and no more where the objects hold what the ops write.
-/
theorem Mirrors.export_spec (formed : heap.WellFormed iterators.graph)
    (mirrors : Mirrors heap iterators cg) (pruned : Pruned cg after)
    (represents : after.Represents live edge)
    (entryLive : live (iterators.index (heap.graphs iterators.graph).entry))
    (exitLive : live (iterators.index (heap.graphs iterators.graph).exit))
    (first : ∀ pred,
      ¬ edge pred (iterators.index (heap.graphs iterators.graph).entry))
    (last : ∀ op,
      ¬ edge (iterators.index (heap.graphs iterators.graph).exit) op)
    {heap' : Heap} (graphs : heap'.graphs = iterators.heap.graphs)
    (written : ∀ op, live op → (cg.ops op).updateNode
      (heap'.nodes (iterators.node op)) =
        some (heap'.nodes (iterators.node op))) :
    ∃ result, exportCommandGraph after heap' iterators.graph = some result ∧
      result.unlinked = heap'.unlinked ∧
        result.Represents (PlacedLive iterators live)
          (PlacedEdge iterators edge) := by
  have old : ∀ {op}, op ∈ after.body → op ∈ cg.body := fun member =>
    pruned.sublist.subset member
  have srcNode : ∀ op, (after.ops op).srcNode = (cg.ops op).srcNode :=
    fun op => (congrArg Op.srcNode (pruned.ops_eq op) :)
  have duid : ∀ op, (after.ops op).duid = (cg.ops op).duid :=
    fun op => (congrArg Op.duid (pruned.ops_eq op) :)
  have kind : ∀ op, (after.ops op).kind = (cg.ops op).kind :=
    fun op => (congrArg Op.kind (pruned.ops_eq op) :)
  have updated : ∀ op object, (after.ops op).updateNode object =
      (cg.ops op).updateNode object := by
    intro op object
    simp only [Op.updateNode, Op.getDuid, duid, kind]
  have distinct : (after.body.map iterators.node).Nodup :=
    mirrors.places_nodup.sublist (pruned.sublist.map _)
  have injective := List.inj_on_of_nodup_map distinct
  have closed : ∀ op ∈ after.body, ∀ pred ∈ after.operands op,
      pred ∈ after.body := by
    intro op member pred uses
    have opLive := (represents.mem_body op).mp member
    have step := (represents.mem_operands op opLive pred).mp uses
    exact (represents.mem_body pred).mpr (represents.inside pred op step).1
  have writes : ∀ op ∈ after.body, (after.ops op).updateNode
      (heap'.nodes (iterators.node op)) =
        some (heap'.nodes (iterators.node op)) := by
    intro op member
    rw [updated]
    exact written op ((represents.mem_body op).mp member)
  obtain ⟨state, result, exports, rewritten, linked⟩ :=
    exportSourced_spec heap' iterators.graph iterators.node
      (fun op member => (srcNode op).trans (mirrors.sourced op (old member)))
      distinct (fun op member => ⟨_, writes op member⟩)
      ((represents.mem_body _).mpr entryLive)
      ((represents.mem_body _).mpr exitLive)
      (fun op member => by
        rw [Op.isEntry, kind]
        exact mirrors.isEntry_op (old member))
      (fun op member => by
        rw [Op.isExit, kind]
        exact mirrors.isExit_op formed (old member))
      closed
      (by
        rw [List.eq_nil_iff_forall_not_mem]
        intro pred uses
        exact first pred ((represents.mem_operands _ entryLive pred).mp uses))
      (fun op member uses =>
        last op
          ((represents.mem_operands op
            ((represents.mem_body op).mp member) _).mp uses))
  refine ⟨result, exports, ?_, ?_⟩
  · have nodes : ∀ node,
        (result.nodes node).unlinked = (heap'.nodes node).unlinked := by
      intro node
      rw [linked.unlinked_nodes]
      by_cases placed : node ∈ after.body.map iterators.node
      · obtain ⟨op, member, rfl⟩ := List.mem_map.mp placed
        obtain ⟨object, wrote, stored⟩ := rewritten.node_eq op member
        rw [writes op member, Option.some.injEq] at wrote
        rw [stored, ← wrote]
        rfl
      · rw [rewritten.other_nodes node placed]
    have ends := Heap.unmarked_graphs mirrors.same iterators.graph
    have graphsEq : result.graphs = heap'.graphs := by
      funext other
      by_cases same : other = iterators.graph
      · subst same
        rw [linked.graph_eq, mirrors.node_index Heap.reachable_entry,
          mirrors.node_index formed.reachable_exit, rewritten.graphs_eq,
          ← ends.1, ← ends.2.1, ← graphs]
      · rw [linked.other_graphs other same, rewritten.graphs_eq]
    have nodeCount : result.nodeCount = heap'.nodeCount :=
      linked.nodeCount_eq.trans rewritten.nodeCount_eq
    have graphCount : result.graphCount = heap'.graphCount :=
      linked.graphCount_eq.trans rewritten.graphCount_eq
    simp only [Heap.unlinked, nodes, graphsEq, nodeCount, graphCount]
  · have recorded :=
      linked.represents
        (fun op member other otherMember => injective member otherMember)
        closed
        (fun op member =>
          represents.operands_nodup op ((represents.mem_body op).mp member))
    refine (recorded.congr_edge fun source target => ?_).congr_live
      fun node => ?_
    · constructor
      · rintro ⟨pred, op, step, rfl, rfl⟩
        have opLive := (represents.inside pred op step).2
        exact
          ⟨op, (represents.mem_body op).mpr opLive, pred,
            (represents.mem_operands op opLive pred).mpr step, rfl, rfl⟩
      · rintro ⟨op, member, pred, uses, rfl, rfl⟩
        have opLive := (represents.mem_body op).mp member
        exact
          ⟨pred, op, (represents.mem_operands op opLive pred).mp uses, rfl,
            rfl⟩
    · constructor
      · rintro ⟨op, opLive, rfl⟩
        exact ⟨op, (represents.mem_body op).mpr opLive, rfl⟩
      · rintro ⟨op, member, rfl⟩
        exact ⟨op, (represents.mem_body op).mp member, rfl⟩

end Export

end Cgir.Mlir
