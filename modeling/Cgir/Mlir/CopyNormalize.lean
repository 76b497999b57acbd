import Cgir.Mlir.Agreement
import Cgir.Pass.CopyNormalize

/-!
# The copy-normalize pass of the dialect

`CopyNormalizePass` replaces a contiguous `cg.copy_2d` by a new `cg.copy_1d` and
scales the others to bytes in place.  The block that is left is the imported one
under a renaming of its ops (`Renamed`), and export writes into every node the
command that the legacy pass makes.
-/

namespace Cgir.Mlir.CopyNormalize

open Relation
open Cgir.Library
open Cgir.Model

/-! ## The source functions -/

/-- `copy_2d_to_1d_kind`. -/
def copy2DTo1DKind (kind : BitVec 32) : BitVec 32 :=
  match copy2DDirection kind with
  | some direction => copy1DType direction
  | none => kind

/-- The attributes of the `cg.copy_1d` that replaces a contiguous copy. -/
def flatten (c : Copy2DAttrs) : Copy1DAttrs where
  kind := copy2DTo1DKind c.kind
  srcDuid := c.srcDuid
  dstDuid := c.dstDuid
  srcAddr := c.srcAddr
  dstAddr := c.dstAddr
  size := c.m * c.n * c.sizeofType

/-- The attributes in byte units. -/
def scale (c : Copy2DAttrs) : Copy2DAttrs :=
  let s := c.sizeofType
  { c with
    srcLd := c.srcLd * s
    dstLd := c.dstLd * s
    m := c.m * s
    sizeofType := 1 }

/-- `OpBuilder b(c)` and `b.create(st)`: a new op right before another one. -/
def createBefore (cg : Graph) (id : OpId) (op : Op) : OpId × Graph :=
  (cg.opCount,
    { ops := Function.update cg.ops cg.opCount op
      opCount := cg.opCount + 1
      body :=
        cg.body.takeWhile (· ≠ id) ++
          cg.opCount :: cg.body.dropWhile (· ≠ id) })

/-- One op of the block. -/
def normalizeOp (cg : Graph) (id : OpId) : Option Graph :=
  let op := cg.ops id
  match op.kind with
  | .copy2D c =>
      if c.m = c.srcLd ∧ c.m = c.dstLd then
        let (node1D, created) :=
          createBefore cg id
            { duid := op.duid
              kind := .copy1D (flatten c)
              operands := op.operands
              srcNode := op.srcNode }
        (created.replaceAllUsesWith id node1D).eraseUnused id
      else
        some (cg.updateOp id fun op => { op with kind := .copy2D (scale c) })
  | _ => some cg

/--
`CopyNormalizePass::runOnOperation`.  New ops stand before the op that is
visited, so that the loop does not come to them.
-/
def copyNormalize (cg : Graph) : Option Graph :=
  cg.body.foldlM normalizeOp cg

/-- `command_graph_optimize_mlir` with the copy-normalize pass. -/
def optimizeCopyNormalize (heap : Heap) (graph : GraphId) : Option Heap := do
  let (heap, cg) ← importCommandGraph heap graph
  let cg ← copyNormalize cg
  exportCommandGraph cg heap graph

/-! ## One op -/

/-- What becomes of an op of the given kind. -/
def normalizedKind : OpKind → OpKind
  | .copy2D c =>
      if c.m = c.srcLd ∧ c.m = c.dstLd then .copy1D (flatten c)
      else .copy2D (scale c)
  | kind => kind

/-- Export writes the command that the legacy pass makes of a node. -/
theorem updateNode_normalized {op normal : Op} {node : CommandGraphNode}
    {isEntry isExit : Bool} {operands : List OpId}
    {srcNode : Option NodeId}
    (created : createNodeOp node isEntry isExit =
      some { op with operands := operands, srcNode := srcNode })
    (duid : normal.duid = op.duid)
    (kind : normal.kind = normalizedKind op.kind) :
    normal.updateNode node =
      some (Pass.CopyNormalize.normalized node) := by
  obtain ⟨device, predecessors, successors, index, walkId, type, held⟩ := node
  cases type with
  | empty =>
      simp only [createNodeOp, Option.some.injEq, Op.mk.injEq] at created
      rw [← created.2.1, normalizedKind] at kind
      · simp [Op.updateNode, Op.getDuid, kind, duid, ← created.1,
          Pass.CopyNormalize.normalized]
      · exact fun _ same => OpKind.noConfusion same
  | command =>
      obtain ⟨command, isHeld, same⟩ := Option.map_eq_some_iff.mp created
      dsimp only at isHeld
      subst isHeld
      rw [Op.mk.injEq] at same
      obtain ⟨sameDuid, sameKind, -⟩ := same
      rw [← sameKind] at kind
      rw [← sameDuid] at duid
      cases command with
      | copy2D direction copy =>
          by_cases contiguous : Pass.CopyNormalize.Contiguous copy
          · have isFlat : normal.kind =
                .copy1D (flatten (Copy2DAttrs.ofCopy direction copy)) :=
              kind.trans (if_pos contiguous)
            simp [Op.updateNode, Op.getDuid, isFlat, duid,
              Copy1DAttrs.command, flatten, Copy2DAttrs.ofCopy,
              copy2DTo1DKind, Pass.CopyNormalize.normalized,
              Pass.CopyNormalize.normalizeCommand_copy2D, contiguous,
              Pass.CopyNormalize.flattened]
          · have isScaled : normal.kind =
                .copy2D (scale (Copy2DAttrs.ofCopy direction copy)) :=
              kind.trans (if_neg contiguous)
            simp [Op.updateNode, Op.getDuid, isScaled, duid,
              Copy2DAttrs.command, scale, Copy2DAttrs.ofCopy,
              Pass.CopyNormalize.normalized,
              Pass.CopyNormalize.normalizeCommand_copy2D, contiguous,
              Pass.CopyNormalize.scaled]
      | _ =>
          simp [Op.updateNode, Op.getDuid, kind, duid, commandOpKind,
            normalizedKind, Pass.CopyNormalize.normalized,
            Pass.CopyNormalize.normalizeCommand]
  | commandGraph => cases created
  | condition => cases created

theorem isEntry_normalized {op normal : Op}
    (kind : normal.kind = normalizedKind op.kind) :
    normal.isEntry = op.isEntry := by
  unfold Op.isEntry
  rw [kind]
  cases op.kind with
  | copy2D c =>
      rw [normalizedKind]
      split_ifs <;> rfl
  | _ => rfl

theorem isExit_normalized {op normal : Op}
    (kind : normal.kind = normalizedKind op.kind) :
    normal.isExit = op.isExit := by
  unfold Op.isExit
  rw [kind]
  cases op.kind with
  | copy2D c =>
      rw [normalizedKind]
      split_ifs <;> rfl
  | _ => rfl

/-! ## The block under a renaming -/

/-- The kind of an op once the given ops are visited. -/
def kindAfter (cg : Graph) (done : List OpId) (op : OpId) : OpKind :=
  if op ∈ done then normalizedKind (cg.ops op).kind else (cg.ops op).kind

/-- The block after some ops: the old one under a renaming of its ops. -/
structure Renamed (cg : Graph) (done : List OpId) (rename : OpId → OpId)
    (after : Graph) : Prop where
  body_eq : after.body = cg.body.map rename
  injective : ∀ op ∈ cg.body, ∀ other ∈ cg.body,
    rename op = rename other → op = other
  below : ∀ op ∈ cg.body, rename op < after.opCount
  untouched : ∀ op ∈ cg.body, op ∉ done → rename op = op
  ops_eq : ∀ op ∈ cg.body, after.ops (rename op) =
    { cg.ops op with
      kind := kindAfter cg done op
      operands := (cg.operands op).map rename }

section Step

variable {cg now : Graph} {done rest : List OpId} {u : OpId}
  {rename : OpId → OpId}

theorem kindAfter_concat (op : OpId) :
    kindAfter cg (done ++ [u]) op =
      if op = u then normalizedKind (cg.ops u).kind
      else kindAfter cg done op := by
  simp only [kindAfter, List.mem_append, List.mem_singleton]
  by_cases same : op = u
  · subst same
    simp
  · simp [same]

/-- The new op stands where the old one stood. -/
theorem createBefore_body {before after : List OpId}
    (body : now.body = before ++ u :: after) (fresh : u ∉ before)
    (different : now.opCount ≠ u) (op : Op) :
    (createBefore now u op).2.body.erase u =
      before ++ now.opCount :: after := by
  have keeps : ∀ x ∈ before, decide (x ≠ u) = true := by
    intro x member
    rw [decide_eq_true_eq]
    rintro rfl
    exact fresh member
  rw [createBefore, body, List.takeWhile_append_of_pos keeps,
    List.dropWhile_append_of_pos keeps, List.takeWhile_cons_of_neg (by simp),
    List.dropWhile_cons_of_neg (by simp), List.append_nil,
    List.erase_append_right _ fresh, List.erase_cons_tail (by simpa),
    List.erase_cons_head]

variable (nodup : cg.body.Nodup)
  (closed : ∀ op ∈ cg.body, ∀ pred ∈ cg.operands op, pred ∈ cg.body)
  (split : cg.body = done ++ u :: rest)
  (renamed : Renamed cg done rename now)

include nodup split renamed

theorem Renamed.here : u ∈ cg.body ∧ u ∉ done ∧ rename u = u := by
  have member : u ∈ cg.body := by simp [split]
  have fresh : u ∉ done := by
    intro earlier
    rw [split] at nodup
    exact
      (List.nodup_append.mp nodup).2.2 u earlier u List.mem_cons_self rfl
  exact ⟨member, fresh, renamed.untouched u member fresh⟩

/-- An op that changes in place. -/
theorem Renamed.update {kind : OpKind}
    (isNormal : kind = normalizedKind (cg.ops u).kind) :
    Renamed cg (done ++ [u]) rename
      (now.updateOp u fun op => { op with kind := kind }) := by
  obtain ⟨member, fresh, same⟩ := renamed.here nodup split
  exact {
    body_eq := renamed.body_eq
    injective := renamed.injective
    below := renamed.below
    untouched := by
      intro op opMember outside
      rw [List.mem_append, not_or] at outside
      exact renamed.untouched op opMember outside.1
    ops_eq := by
      intro op opMember
      rw [Graph.updateOp_ops, kindAfter_concat]
      by_cases isU : op = u
      · subst isU
        have opEq := renamed.ops_eq op opMember
        rw [same] at opEq
        rw [if_pos same, if_pos rfl, opEq, isNormal]
      · have apart : rename op ≠ u := by
          intro equal
          exact
            isU (renamed.injective op opMember u member (equal.trans same.symm))
        rw [if_neg apart, if_neg isU]
        exact renamed.ops_eq op opMember }

/-- An op that the pass leaves alone. -/
theorem Renamed.skip
    (isNormal : normalizedKind (cg.ops u).kind = (cg.ops u).kind) :
    Renamed cg (done ++ [u]) rename now where
  body_eq := renamed.body_eq
  injective := renamed.injective
  below := renamed.below
  untouched := by
    intro op opMember outside
    rw [List.mem_append, not_or] at outside
    exact renamed.untouched op opMember outside.1
  ops_eq := by
    intro op opMember
    rw [renamed.ops_eq op opMember, kindAfter_concat]
    by_cases isU : op = u
    · subst isU
      rw [if_pos rfl, isNormal, kindAfter,
        if_neg (renamed.here nodup split).2.1]
    · rw [if_neg isU]

include closed

/-- An op that is replaced by a new one. -/
theorem Renamed.replace {c : Copy2DAttrs}
    (kind : (cg.ops u).kind = .copy2D c)
    (contiguous : c.m = c.srcLd ∧ c.m = c.dstLd) :
    ∃ after,
      ((createBefore now u
        { duid := (now.ops u).duid
          kind := .copy1D (flatten c)
          operands := (now.ops u).operands
          srcNode := (now.ops u).srcNode }).2.replaceAllUsesWith u
            now.opCount).eraseUnused u = some after ∧
        Renamed cg (done ++ [u]) (Function.update rename u now.opCount)
          after := by
  obtain ⟨member, fresh, same⟩ := renamed.here nodup split
  have below := renamed.below u member
  rw [same] at below
  have different : now.opCount ≠ u := below.ne'
  have injective := renamed.injective
  have others : ∀ op ∈ cg.body, op ≠ u → rename op ≠ u := by
    intro op opMember away equal
    exact away (injective op opMember u member (equal.trans same.symm))
  have updated : ∀ op ∈ cg.body,
      (if rename op = u then now.opCount else rename op) =
        Function.update rename u now.opCount op := by
    intro op opMember
    rw [Function.update_apply]
    by_cases isU : op = u
    · rw [isU, if_pos same, if_pos rfl]
    · rw [if_neg (others op opMember isU), if_neg isU]
  have opEq := renamed.ops_eq u member
  rw [same] at opEq
  generalize isNew : ({
    duid := (now.ops u).duid
    kind := .copy1D (flatten c)
    operands := (now.ops u).operands
    srcNode := (now.ops u).srcNode } : Op) = new
  let replaced :=
    (createBefore now u new).2.replaceAllUsesWith u now.opCount
  have free : replaced.users u = [] := by
    rw [List.eq_nil_iff_forall_not_mem]
    intro user uses
    have isOperand := (Graph.mem_users.mp uses).2
    rw [replaceAllUsesWith_operands, List.mem_map] at isOperand
    obtain ⟨operand, -, moved⟩ := isOperand
    split at moved
    · exact different moved
    · rename_i apart
      exact apart moved
  have bodyEq : now.body = done.map rename ++ u :: rest.map rename := by
    rw [renamed.body_eq, split, List.map_append, List.map_cons, same]
  have notBefore : u ∉ done.map rename := by
    intro listed
    obtain ⟨op, opMember, equal⟩ := List.mem_map.mp listed
    have inBody : op ∈ cg.body := by
      rw [split]
      exact List.mem_append_left _ opMember
    have isU := injective op inBody u member (equal.trans same.symm)
    exact fresh (isU ▸ opMember)
  refine ⟨replaced.erase u, if_pos free, ?_⟩
  exact {
    body_eq := by
      have erased := createBefore_body bodyEq notBefore different new
      refine erased.trans ?_
      have keeps : ∀ list : List OpId, u ∉ list →
          list.map (Function.update rename u now.opCount) =
            list.map rename := by
        intro list outside
        apply List.map_congr_left
        intro op opMember
        apply Function.update_of_ne
        rintro rfl
        exact outside opMember
      have notAfter : u ∉ rest := by
        rw [split] at nodup
        exact (List.nodup_cons.mp (List.nodup_append.mp nodup).2.1).1
      rw [split, List.map_append, List.map_cons, Function.update_self,
        keeps done fresh, keeps rest notAfter]
    injective := by
      have fits : ∀ op ∈ cg.body, rename op ≠ now.opCount :=
        fun op opMember => (renamed.below op opMember).ne
      intro op opMember other otherMember equal
      rw [Function.update_apply, Function.update_apply] at equal
      split at equal
      · rename_i isU
        split at equal
        · rename_i isU'
          rw [isU, isU']
        · exact (fits other otherMember equal.symm).elim
      · split at equal
        · exact (fits op opMember equal).elim
        · exact injective op opMember other otherMember equal
    below := by
      intro op opMember
      show _ < now.opCount + 1
      rw [Function.update_apply]
      split
      · exact Nat.lt_succ_self _
      · exact Nat.lt_succ_of_lt (renamed.below op opMember)
    untouched := by
      intro op opMember outside
      rw [List.mem_append, List.mem_singleton, not_or] at outside
      rw [Function.update_of_ne outside.2]
      exact renamed.untouched op opMember outside.1
    ops_eq := by
      intro op opMember
      have moved : ((cg.operands op).map rename).map
          (fun operand => if operand = u then now.opCount else operand) =
            (cg.operands op).map
              (Function.update rename u now.opCount) := by
        rw [List.map_map]
        apply List.map_congr_left
        intro pred isPred
        exact updated pred (closed op opMember pred isPred)
      have replacedOps : ∀ x, (replaced.erase u).ops x =
          ((createBefore now u new).2.ops x).withOperands
            (((createBefore now u new).2.ops x).operands.map fun operand =>
              if operand = u then now.opCount else operand) := fun _ => rfl
      rw [replacedOps, kindAfter_concat]
      by_cases isU : op = u
      · subst isU
        rw [Function.update_self, if_pos rfl, kind, normalizedKind,
          if_pos contiguous, ← moved]
        have created : (createBefore now op new).2.ops now.opCount = new :=
          Function.update_self ..
        rw [created, ← isNew, opEq]
        rfl
      · have old : (createBefore now u new).2.ops (rename op) =
            now.ops (rename op) :=
          Function.update_of_ne (renamed.below op opMember).ne _ _
        rw [Function.update_of_ne isU, if_neg isU, ← moved, old,
          renamed.ops_eq op opMember]
        rfl }

/-- One op of the block. -/
theorem normalizeOp_spec :
    ∃ after rename', normalizeOp now u = some after ∧
      Renamed cg (done ++ [u]) rename' after := by
  obtain ⟨member, fresh, same⟩ := renamed.here nodup split
  have opEq := renamed.ops_eq u member
  rw [same] at opEq
  have kindEq : (now.ops u).kind = (cg.ops u).kind := by
    rw [opEq]
    exact if_neg fresh
  cases kind : (cg.ops u).kind with
  | copy2D c =>
      by_cases contiguous : c.m = c.srcLd ∧ c.m = c.dstLd
      · obtain ⟨after, ran, next⟩ :=
          renamed.replace nodup closed split kind contiguous
        refine ⟨after, _, ?_, next⟩
        simp only [normalizeOp, kindEq, kind]
        exact (if_pos contiguous).trans ran
      · have normal : OpKind.copy2D (scale c) =
            normalizedKind (cg.ops u).kind := by
          rw [kind, normalizedKind, if_neg contiguous]
        refine ⟨_, rename, ?_, renamed.update nodup split normal⟩
        simp only [normalizeOp, kindEq, kind]
        exact if_neg contiguous
  | _ =>
      refine ⟨now, rename, ?_, renamed.skip nodup split ?_⟩
      · simp only [normalizeOp, kindEq, kind]
      · rw [kind]
        rfl

end Step

/-- The pass renames the ops that it replaces. -/
theorem copyNormalize_spec {cg : Graph} (nodup : cg.body.Nodup)
    (closed : ∀ op ∈ cg.body, ∀ pred ∈ cg.operands op, pred ∈ cg.body)
    (known : ∀ op ∈ cg.body, op < cg.opCount) :
    ∃ after rename, copyNormalize cg = some after ∧
      Renamed cg cg.body rename after := by
  obtain ⟨after, ran, rename, renamed⟩ :=
    Loop.foldlM_invariant normalizeOp
      (fun done now => ∃ rename, Renamed cg done rename now) cg.body cg
      (by
        rintro done u rest now split ⟨rename, renamed⟩
        obtain ⟨after, rename', ran, next⟩ :=
          normalizeOp_spec nodup closed split renamed
        exact ⟨after, ran, rename', next⟩)
      ⟨id, {
        body_eq := (List.map_id _).symm
        injective := fun _ _ _ _ same => same
        below := known
        untouched := fun _ _ _ => rfl
        ops_eq := by
          intro op _
          rw [kindAfter, if_neg List.not_mem_nil, List.map_id]
          rfl }⟩
  exact ⟨after, rename, ran, renamed⟩

/-! ## Normalized nodes -/

section Nodes

open Cgir.Pass.CopyNormalize

theorem normalized_type (node : CommandGraphNode) :
    (normalized node).type = node.type := by
  unfold normalized
  split <;> rfl

theorem normalized_deviceUniqueId (node : CommandGraphNode) :
    (normalized node).deviceUniqueId = node.deviceUniqueId := by
  unfold normalized
  split <;> rfl

theorem normalized_command (node : CommandGraphNode) :
    (normalized node).command =
      if node.type = .command then node.command.map normalizeCommand
      else node.command := by
  unfold normalized
  split <;> rfl

theorem normalized_command_congr {node node' : CommandGraphNode}
    (type : node.type = node'.type) (command : node.command = node'.command) :
    (normalized node).command = (normalized node').command := by
  rw [normalized_command, normalized_command, type, command]

end Nodes

/-! ## Export -/

section Export

variable {heap : Heap} {iterators : Iterators} {cg after : Graph}
  {rename : OpId → OpId}

/-- The source node of an op. -/
def sourceOf (cg : Graph) (op : OpId) : NodeId :=
  (cg.ops op).srcNode.getD 0

/-- The node that the pass leaves of a node of the graph. -/
structure NormalizedGraph (heap : Heap) (graph : GraphId) (after : Heap) :
    Prop where
  represents : after.Represents (heap.Reachable graph) (heap.Link graph)
  entry_eq : (after.graphs graph).entry = (heap.graphs graph).entry
  exit_eq : (after.graphs graph).exit = (heap.graphs graph).exit
  object_eq : ∀ n, heap.Reachable graph n →
    (after.nodes n).type = (heap.nodes n).type ∧
      (after.nodes n).deviceUniqueId = (heap.nodes n).deviceUniqueId ∧
        (after.nodes n).command =
          (Pass.CopyNormalize.normalized (heap.nodes n)).command

/-- Both passes leave the same graph. -/
theorem NormalizedGraph.agrees {graph : GraphId} {first second : Heap}
    (one : NormalizedGraph heap graph first)
    (other : NormalizedGraph heap graph second) :
    SameGraph graph first second := by
  apply SameGraph.of_represents one.represents other.represents
  · rw [one.entry_eq]
    exact Heap.reachable_entry
  · intro n reachable
    rw [one.entry_eq]
    exact (Heap.reachable_iff_links n).mp reachable
  · rw [one.entry_eq, other.entry_eq]
  · rw [one.exit_eq, other.exit_eq]
  · intro n reachable
    obtain ⟨type, device, command⟩ := one.object_eq n reachable
    obtain ⟨type', device', command'⟩ := other.object_eq n reachable
    exact
      ⟨type.trans type'.symm, device.trans device'.symm,
        command.trans command'.symm⟩

variable (formed : heap.WellFormed iterators.graph)
  (mirrors : Mirrors heap iterators cg) (imported : Imported iterators cg)
  (renamed : Renamed cg cg.body rename after)

include mirrors renamed

theorem Renamed.sourceOf_eq {op : OpId} (member : op ∈ cg.body) :
    (after.ops (rename op)).srcNode = some (iterators.node op) ∧
      sourceOf after (rename op) = iterators.node op := by
  have srcNode : (after.ops (rename op)).srcNode =
      some (iterators.node op) := by
    rw [renamed.ops_eq op member]
    exact mirrors.sourced op member
  refine ⟨srcNode, ?_⟩
  rw [sourceOf, srcNode]
  rfl

theorem Renamed.sources : after.body.map (sourceOf after) =
    cg.body.map iterators.node := by
  rw [renamed.body_eq, List.map_map]
  apply List.map_congr_left
  intro op member
  exact (renamed.sourceOf_eq mirrors member).2

include formed imported

/-- Export of the renamed block keeps the graph and writes the commands. -/
theorem Renamed.export_spec :
    ∃ result,
      exportCommandGraph after iterators.heap iterators.graph = some result ∧
        NormalizedGraph heap iterators.graph result := by
  have kindEq : ∀ {op}, op ∈ cg.body → (after.ops (rename op)).kind =
      normalizedKind (cg.ops op).kind := by
    intro op member
    rw [renamed.ops_eq op member]
    exact if_pos member
  have duidEq : ∀ {op}, op ∈ cg.body →
      (after.ops (rename op)).duid = (cg.ops op).duid := by
    intro op member
    rw [renamed.ops_eq op member]
  have operandsEq : ∀ {op}, op ∈ cg.body →
      after.operands (rename op) = (cg.operands op).map rename := by
    intro op member
    rw [Graph.operands, renamed.ops_eq op member]
  have known : ∀ {op'}, op' ∈ after.body →
      ∃ op ∈ cg.body, rename op = op' := by
    intro op' member
    rw [renamed.body_eq] at member
    exact List.mem_map.mp member
  have listed : ∀ {op}, op ∈ cg.body → rename op ∈ after.body := by
    intro op member
    rw [renamed.body_eq]
    exact List.mem_map_of_mem member
  have sourceEq := fun {op : OpId} (member : op ∈ cg.body) =>
    renamed.sourceOf_eq mirrors member
  have written : ∀ {op}, op ∈ cg.body →
      (after.ops (rename op)).updateNode
          (iterators.heap.nodes (iterators.node op)) =
        some (Pass.CopyNormalize.normalized
          (iterators.heap.nodes (iterators.node op))) := by
    intro op member
    have encoded :=
      imported.encodes op (by
        rw [imported.body_eq, List.mem_range] at member
        exact member)
    exact updateNode_normalized encoded.created (duidEq member) (kindEq member)
  have entryMember : iterators.index (heap.graphs iterators.graph).entry ∈
      cg.body := mirrors.index_mem Heap.reachable_entry
  have exitMember : iterators.index (heap.graphs iterators.graph).exit ∈
      cg.body := mirrors.index_mem formed.reachable_exit
  have closed : ∀ op ∈ after.body, ∀ pred ∈ after.operands op,
      pred ∈ after.body := by
    intro op' member' pred' uses
    obtain ⟨op, member, rfl⟩ := known member'
    rw [operandsEq member] at uses
    obtain ⟨pred, isPred, rfl⟩ := List.mem_map.mp uses
    exact listed (mirrors.closed formed op member pred isPred)
  have distinct : (after.body.map (sourceOf after)).Nodup := by
    rw [renamed.sources mirrors]
    exact mirrors.places_nodup
  obtain ⟨state, result, exports, rewritten, linked⟩ :=
    exportSourced_spec iterators.heap iterators.graph (sourceOf after)
      (by
        intro op' member'
        obtain ⟨op, member, rfl⟩ := known member'
        rw [(sourceEq member).1, (sourceEq member).2])
      distinct
      (by
        intro op' member'
        obtain ⟨op, member, rfl⟩ := known member'
        rw [(sourceEq member).2]
        exact ⟨_, written member⟩)
      (listed entryMember) (listed exitMember)
      (by
        intro op' member'
        obtain ⟨op, member, rfl⟩ := known member'
        rw [isEntry_normalized (kindEq member), mirrors.isEntry_op member]
        exact
          ⟨congrArg rename, renamed.injective op member _ entryMember⟩)
      (by
        intro op' member'
        obtain ⟨op, member, rfl⟩ := known member'
        rw [isExit_normalized (kindEq member),
          mirrors.isExit_op formed member]
        exact ⟨congrArg rename, renamed.injective op member _ exitMember⟩)
      closed
      (by rw [operandsEq entryMember, mirrors.operands_entry formed]; rfl)
      (by
        intro op' member' uses
        obtain ⟨op, member, rfl⟩ := known member'
        rw [operandsEq member] at uses
        obtain ⟨pred, isPred, same⟩ := List.mem_map.mp uses
        have predMember := mirrors.closed formed op member pred isPred
        rw [renamed.injective pred predMember _ exitMember same] at isPred
        exact mirrors.exit_unused formed member isPred)
  have injective := List.inj_on_of_nodup_map distinct
  have represents := linked.represents
    (fun op member other otherMember => injective member otherMember) closed
    (by
      intro op' member'
      obtain ⟨op, member, rfl⟩ := known member'
      rw [operandsEq member]
      apply (mirrors.operands_nodup formed member).map_on
      intro first firstUses second secondUses
      exact
        renamed.injective first
          (mirrors.closed formed op member first firstUses) second
          (mirrors.closed formed op member second secondUses))
  refine ⟨result, exports, ?_⟩
  exact {
    represents := by
      refine (represents.congr_edge fun source target => ?_).congr_live
        fun n => ?_
      · rw [← mirrors.tokenEdge_iff formed]
        constructor
        · rintro ⟨op, member, pred, isPred, rfl, rfl⟩
          have predMember := mirrors.closed formed op member pred isPred
          refine
            ⟨rename op, listed member, rename pred, ?_,
              (sourceEq predMember).2, (sourceEq member).2⟩
          rw [operandsEq member]
          exact List.mem_map_of_mem isPred
        · rintro ⟨op', member', pred', uses, rfl, rfl⟩
          obtain ⟨op, member, rfl⟩ := known member'
          rw [operandsEq member] at uses
          obtain ⟨pred, isPred, rfl⟩ := List.mem_map.mp uses
          have predMember := mirrors.closed formed op member pred isPred
          exact
            ⟨op, member, pred, isPred, (sourceEq predMember).2.symm,
              (sourceEq member).2.symm⟩
      · rw [← mirrors.placed_iff]
        constructor
        · rintro ⟨op, member, rfl⟩
          exact ⟨rename op, listed member, (sourceEq member).2⟩
        · rintro ⟨op', member', rfl⟩
          obtain ⟨op, member, rfl⟩ := known member'
          exact ⟨op, member, (sourceEq member).2.symm⟩
    entry_eq := by
      rw [linked.graph_eq]
      exact
        (sourceEq entryMember).2.trans
          (mirrors.node_index Heap.reachable_entry)
    exit_eq := by
      rw [linked.graph_eq]
      exact
        (sourceEq exitMember).2.trans
          (mirrors.node_index formed.reachable_exit)
    object_eq := by
      intro n reachable
      have member := mirrors.index_mem reachable
      have nodeEq := mirrors.node_index reachable
      obtain ⟨object, wrote, stored⟩ :=
        rewritten.node_eq (rename (iterators.index n)) (listed member)
      have unlinked := linked.unlinked_nodes n
      rw [(sourceEq member).2, written member, Option.some.injEq] at wrote
      rw [(sourceEq member).2, nodeEq] at stored
      rw [nodeEq] at wrote
      rw [stored, ← wrote] at unlinked
      have type := (congrArg CommandGraphNode.type unlinked :)
      have device := (congrArg CommandGraphNode.deviceUniqueId unlinked :)
      have command := (congrArg CommandGraphNode.command unlinked :)
      refine ⟨type.trans ?_, device.trans ?_, command.trans ?_⟩
      · exact
          (normalized_type _).trans (Heap.unmarked_type mirrors.same n)
      · exact
          (normalized_deviceUniqueId _).trans
            (Heap.unmarked_deviceUniqueId mirrors.same n)
      · exact
          normalized_command_congr (Heap.unmarked_type mirrors.same n)
            (Heap.unmarked_command mirrors.same n) }

end Export

/-- The legacy pass normalizes the nodes and keeps the graph. -/
theorem passCopyNormalize_normalized {heap : Heap} {graph : GraphId}
    (formed : heap.WellFormed graph) (ready : heap.WalkReady graph)
    (plain : Plain heap graph) :
    ∃ legacy, Pass.CopyNormalize.passCopyNormalize heap graph =
        some legacy ∧ NormalizedGraph heap graph legacy := by
  have commanded : Pass.CopyNormalize.Commanded heap graph := by
    intro n reachable isCommand
    rcases plain.importable n reachable with isEmpty | ⟨-, held⟩
    · rw [isCommand] at isEmpty
      cases isEmpty
    · exact Option.isSome_iff_ne_none.mp held
  obtain ⟨indexed, nodes, same, -, memIff, ran⟩ :=
    Pass.CopyNormalize.passCopyNormalize_eq formed ready commanded
  have ends := Heap.unmarked_graphs same graph
  refine ⟨_, ran, ?_⟩
  exact {
    represents := by
      have represents :=
        (Pass.CopyNormalize.normalizeOn_wellFormed nodes
          (formed.congr same)).represents
      have linkEq :
          (Pass.CopyNormalize.normalizeOn indexed nodes).Link graph =
            heap.Link graph := by
        unfold Heap.Link
        rw [Pass.CopyNormalize.normalizeOn_reachable,
          Pass.CopyNormalize.normalizeOn_successors,
          Heap.reachable_congr same, Heap.unmarked_successors same]
      rwa [linkEq, Pass.CopyNormalize.normalizeOn_reachable,
        Heap.reachable_congr same] at represents
    entry_eq := ends.1
    exit_eq := ends.2.1
    object_eq := by
      intro n reachable
      obtain ⟨type, device, -⟩ :=
        Pass.CopyNormalize.normalizeOn_kept nodes n
      refine
        ⟨type.trans (Heap.unmarked_type same n),
          device.trans (Heap.unmarked_deviceUniqueId same n), ?_⟩
      rw [Pass.CopyNormalize.normalizeOn_command, Heap.unmarked_type same,
        Heap.unmarked_command same, normalized_command]
      by_cases isCommand : (heap.nodes n).type = .command
      · have notEntry : n ≠ (heap.graphs graph).entry := by
          rintro rfl
          rw [plain.entry_empty] at isCommand
          cases isCommand
        have notExit : n ≠ (heap.graphs graph).exit := by
          rintro rfl
          rw [plain.exit_empty] at isCommand
          cases isCommand
        have visited := (memIff n).mpr ⟨reachable, notEntry, notExit⟩
        rw [if_pos ⟨visited, isCommand⟩, if_pos isCommand]
      · rw [if_neg isCommand, if_neg fun visited => isCommand visited.2] }

/--
Import, the pass of the dialect and export make the graph that the legacy pass
makes.
-/
theorem optimizeCopyNormalize_agrees {heap : Heap} {graph : GraphId}
    (formed : heap.WellFormed graph) (ready : heap.WalkReady graph)
    (plain : Plain heap graph) :
    ∃ legacy result,
      Pass.CopyNormalize.passCopyNormalize heap graph = some legacy ∧
        optimizeCopyNormalize heap graph = some result ∧
          SameGraph graph legacy result := by
  obtain ⟨legacy, ran, normalized⟩ :=
    passCopyNormalize_normalized formed ready plain
  obtain ⟨indexed, nodes, cg, imports, iterated, imported⟩ :=
    importCommandGraph_spec formed ready plain.importable
  have mirrors := imported.mirrors plain iterated
  obtain ⟨after, rename, normalizes, renamed⟩ :=
    copyNormalize_spec mirrors.body_nodup (mirrors.closed formed)
      (by
        intro op member
        rw [imported.body_eq, List.mem_range] at member
        rw [imported.opCount_eq]
        exact member)
  obtain ⟨result, exports, normalized'⟩ :=
    renamed.export_spec formed mirrors imported
  refine ⟨legacy, result, ran, ?_, normalized.agrees normalized'⟩
  have exports' : exportCommandGraph after indexed graph = some result :=
    exports
  simp only [optimizeCopyNormalize, imports, Option.bind_eq_bind,
    Option.bind_some, normalizes, exports']

end Cgir.Mlir.CopyNormalize
