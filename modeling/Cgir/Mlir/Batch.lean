import Mathlib.Data.Finset.Basic
import Cgir.Library.SetVector
import Cgir.Mlir.Export
import Cgir.Mlir.Import

/-!
# The batch pass of the dialect

`BatchPass` contracts a scratch copy of the graph greedily, collects the groups
with two commands or more and materializes each of them as a `cg.batch` whose
region holds its members.
-/

namespace Cgir.Mlir

open Cgir.Library
open Cgir.Model

/-! ## Ops as indices -/

/-- `get_duid` of the pass, an `uint32_t`. -/
def Op.device (op : Op) : BitVec 32 :=
  (op.duid.signExtend 64).setWidth 32

@[simp]
theorem Op.device_eq (op : Op) : op.device = op.duid := by
  have widths : ∀ bits : BitVec 32,
      (bits.signExtend 64).setWidth 32 = bits := by
    intro bits
    ext i bound
    have wide : i < 64 := by omega
    simp [BitVec.getElem_signExtend, bound, wide]
  exact widths op.duid

namespace Graph

variable (cg : Graph)

/-- `ops[i]`. -/
def opAt (i : Nat) : OpId :=
  cg.body.getD i 0

/-- `id.find(op)`. -/
def position (op : OpId) : Option Nat :=
  cg.body.idxOf? op

/-- `n`. -/
def count : Nat :=
  cg.body.length

/-- `dev[i]`. -/
def deviceAt (i : Nat) : BitVec 32 :=
  (cg.ops (cg.opAt i)).device

/-- `cand[i]`. -/
def candAt (i : Nat) : Bool :=
  !((cg.ops (cg.opAt i)).isEntry || (cg.ops (cg.opAt i)).isExit)

/-- The positions of the operands of an op. -/
def predsAt (i : Nat) : Finset Nat :=
  ((cg.operands (cg.opAt i)).filterMap cg.position).toFinset

end Graph

/-! ## The scratch graph -/

/-- The scratch graph of the contraction. -/
structure Scratch where
  preds : Nat → Finset Nat
  succs : Nat → Finset Nat
  members : Nat → List OpId
  alive : Nat → Bool

namespace Scratch

/-- The scratch graph of a block. -/
def init (cg : Graph) : Scratch where
  preds := cg.predsAt
  succs := fun j => (Finset.range cg.count).filter fun i => j ∈ cg.predsAt i
  members := fun i => [cg.opAt i]
  alive := fun _ => true

variable (cg : Graph) (scratch : Scratch)

/-- The elements of a `std::set<int>` in the order of its iterators. -/
def ascending (set : Finset Nat) : List Nat :=
  (List.range cg.count).filter (· ∈ set)

/-- `can_batch`. -/
def canBatch (a b : Nat) : Bool :=
  a ≠ b && scratch.alive a && scratch.alive b && cg.candAt a &&
    cg.candAt b && cg.deviceAt a = cg.deviceAt b

/-- `false_twins`. -/
def falseTwins (a b : Nat) : Bool :=
  scratch.preds a = scratch.preds b && scratch.succs a = scratch.succs b

/-- `are_seq`. -/
def areSeq (a b : Nat) : Bool :=
  scratch.succs a = {b} && scratch.preds b = {a}

/--
`merge(a, b)`.  The two loops touch each neighbour of `b` once; edges between
`a` and `b` are dropped.
-/
def merge (a b : Nat) : Scratch where
  preds := fun z =>
    if z = b then ∅
    else if z = a then
      ((scratch.preds a ∪ (scratch.preds b).erase a).erase b).erase a
    else if z ∈ scratch.succs b then insert a ((scratch.preds z).erase b)
    else scratch.preds z
  succs := fun z =>
    if z = b then ∅
    else if z = a then
      ((scratch.succs a ∪ (scratch.succs b).erase a).erase b).erase a
    else if z ∈ scratch.preds b then insert a ((scratch.succs z).erase b)
    else scratch.succs z
  members :=
    Function.update scratch.members a (scratch.members a ++ scratch.members b)
  alive := Function.update scratch.alive b false

/-- False twins among siblings, then a successor, then a predecessor in series. -/
def partner (i : Nat) : Option Nat :=
  let siblings :=
    (ascending cg (scratch.preds i)).flatMap fun p =>
      ascending cg (scratch.succs p)
  let twin :=
    siblings.find? fun v =>
      canBatch cg scratch i v && falseTwins scratch i v
  let next :=
    (ascending cg (scratch.succs i)).find? fun v =>
      canBatch cg scratch i v && areSeq scratch i v
  let previous :=
    (ascending cg (scratch.preds i)).find? fun v =>
      canBatch cg scratch i v && areSeq scratch v i
  twin.or (next.or previous)

/-- The greedy contraction over the work queue. -/
def contract : Nat → Scratch → List Nat → Option Scratch
  | 0, _, _ => none
  | _ + 1, scratch, [] => some scratch
  | fuel + 1, scratch, i :: queue =>
      if scratch.alive i && cg.candAt i then
        match scratch.partner cg i with
        | some v => contract fuel (scratch.merge i v) (queue ++ [i])
        | none => contract fuel scratch queue
      else
        contract fuel scratch queue

/-- The commands among the members of a node of the scratch graph. -/
def commands (i : Nat) : List OpId :=
  (scratch.members i).filter fun m => !(cg.ops m).isEmpty

/-- The device of a group: that of its first command. -/
def groupDevice (i : Nat) : BitVec 32 :=
  match commands cg scratch i with
  | [] => cg.deviceAt i
  | m :: _ => (cg.ops m).device

/-- Only groups of two commands or more are materialized. -/
def isGroup (i : Nat) : Bool :=
  scratch.alive i && cg.candAt i && 2 ≤ (scratch.members i).length &&
    2 ≤ (commands cg scratch i).length

/-- `groups`. -/
def groups : List (List OpId × BitVec 32) :=
  ((List.range cg.count).filter (scratch.isGroup cg)).map fun i =>
    (scratch.members i, groupDevice cg scratch i)

end Scratch

/-- The scratch graph after the greedy contraction. -/
def contracted (cg : Graph) : Option Scratch :=
  Scratch.contract cg (2 * cg.count + 1) (Scratch.init cg)
    ((List.range cg.count).filter cg.candAt)

/-! ## Materialization -/

namespace Graph

variable (cg : Graph)

/-- Change the operands of the ops that pass a test. -/
def mapOperands (test : OpId → Bool) (change : List OpId → List OpId) :
    Graph :=
  { cg with
    ops := fun op =>
      if test op then
        { cg.ops op with operands := change (cg.operands op) }
      else
        cg.ops op }

/-- The external predecessor tokens of a group, deduplicated. -/
def externalPreds (members : List OpId) : List OpId :=
  SetVector.insertAll []
    ((members.flatMap cg.operands).filter fun token => token ∉ members)

/-- `use.set(batch_token)` for the uses of the members outside the group. -/
def redirectUses (members : List OpId) (batch : OpId) : Graph :=
  cg.mapOperands (fun op => op ≠ batch && op ∉ members)
    (List.map fun token => if token ∈ members then batch else token)

/-- `m->moveBefore(&batch_block, batch_block.end())` for all members. -/
def moveMembers (members : List OpId) (batch : OpId) : Graph :=
  { cg.updateOp batch (fun op => { op with kind := .batch members }) with
    body := cg.body.filter (· ∉ members) }

/-- Strip the external operands of the members. -/
def stripOperands (members : List OpId) : Graph :=
  cg.mapOperands (· ∈ members) (List.filter (· ∈ members))

/-- `materialize_batch`. -/
def materializeBatch (members : List OpId) (device : BitVec 32) : Graph :=
  let (batch, cg) :=
    cg.create {
      duid := device
      kind := .batch []
      operands := cg.externalPreds members
      srcNode := none }
  ((cg.redirectUses members batch).moveMembers members batch).stripOperands
    members

end Graph

/-- Materialize groups in order. -/
def materialize (cg : Graph) (groups : List (List OpId × BitVec 32)) : Graph :=
  groups.foldl
    (fun cg group => cg.materializeBatch group.1 group.2) cg

/-- `BatchPass::runOnOperation`. -/
def batchPass (cg : Graph) : Option Graph := do
  let scratch ← contracted cg
  return materialize cg (scratch.groups cg)

/-- `command_graph_optimize_mlir` with the batch pass. -/
def optimizeBatch (heap : Heap) (graph : GraphId) : Option Heap := do
  let (heap, cg) ← importCommandGraph heap graph
  let cg ← batchPass cg
  exportCommandGraph cg heap graph

end Cgir.Mlir
