import Cgir.Model.Command
import Mathlib.Logic.Function.Basic

/-!
# The command-graph dialect

The ops of `CGOps.td` in the single block of a `cg.graph`.  An op produces one
token, so a token is named by the op that defines it.  Attributes keep the
widths of the dialect: a device identifier is 32 bits, an address or a size is
64 bits.

Every conversion of the source between a field of a command and an attribute
is written out; the lemmas of this module say which of them lose nothing.
-/

namespace Cgir.Mlir

open Cgir.Model

/-! ## Command types -/

/-- All directions of a copy, in the order of `command_type_t`. -/
def directions : List CopyDirection :=
  [.h2h, .h2d, .d2h, .d2d]

/-- `COMMAND_TYPE_COPY_X_1D`. -/
def copy1DType : CopyDirection → BitVec 32
  | .h2h => 1
  | .h2d => 2
  | .d2h => 3
  | .d2d => 4

/-- `COMMAND_TYPE_COPY_X_2D`. -/
def copy2DType : CopyDirection → BitVec 32
  | .h2h => 5
  | .h2d => 6
  | .d2h => 7
  | .d2d => 8

/-- `cmd->type`, the position of the type in `CGIR_FORALL_COMMAND_TYPE`. -/
def commandType : Command → BitVec 32
  | .prog _ => 0
  | .copy1D direction _ => copy1DType direction
  | .copy2D direction _ => copy2DType direction
  | .fdRead _ => 9
  | .fdWrite _ => 10
  | .batch _ => 11
  | .ctrlLoop _ => 12
  | .ctrlDemux _ => 13

/-- The direction of a 1-D copy of the given command type. -/
def copy1DDirection (kind : BitVec 32) : Option CopyDirection :=
  directions.find? fun direction => copy1DType direction = kind

/-- The direction of a 2-D copy of the given command type. -/
def copy2DDirection (kind : BitVec 32) : Option CopyDirection :=
  directions.find? fun direction => copy2DType direction = kind

@[simp]
theorem copy1DDirection_type (direction : CopyDirection) :
    copy1DDirection (copy1DType direction) = some direction := by
  cases direction <;> rfl

@[simp]
theorem copy2DDirection_type (direction : CopyDirection) :
    copy2DDirection (copy2DType direction) = some direction := by
  cases direction <;> rfl

/-! ## Attributes -/

/-- `(int32_t) (uint32_t)` of a device identifier, stored as an attribute. -/
def duidAttr (device : DeviceUniqueId) : BitVec 32 :=
  device.setWidth 32

/--
`(uint8_t) (uint32_t) a.getInt()`: a signless attribute is read sign-extended to
64 bits.
-/
def duidOfAttr (attr : BitVec 32) : DeviceUniqueId :=
  ((attr.signExtend 64).setWidth 32).setWidth 8

/-- `(device_unique_id_t) (uint32_t)` of an attribute getter. -/
def narrowDuid (attr : BitVec 32) : DeviceUniqueId :=
  attr.setWidth 8

@[simp]
theorem duidOfAttr_attr (device : DeviceUniqueId) :
    duidOfAttr (duidAttr device) = device := by
  revert device
  decide +kernel

@[simp]
theorem narrowDuid_attr (device : DeviceUniqueId) :
    narrowDuid (duidAttr device) = device := by
  revert device
  decide +kernel

/-- The attributes of a `cg.copy_1d`, the device apart. -/
structure Copy1DAttrs where
  kind : BitVec 32
  srcDuid : BitVec 32
  dstDuid : BitVec 32
  srcAddr : BitVec 64
  dstAddr : BitVec 64
  size : BitVec 64
  deriving DecidableEq, Repr

/-- The attributes of a `cg.copy_2d`, the device apart. -/
structure Copy2DAttrs where
  kind : BitVec 32
  srcDuid : BitVec 32
  dstDuid : BitVec 32
  srcAddr : BitVec 64
  srcLd : BitVec 64
  dstAddr : BitVec 64
  dstLd : BitVec 64
  m : BitVec 64
  n : BitVec 64
  sizeofType : BitVec 64
  deriving DecidableEq, Repr

namespace Copy1DAttrs

/-- The attributes that import takes from a 1-D copy. -/
def ofCopy (direction : CopyDirection) (copy : CommandCopy1D) :
    Copy1DAttrs where
  kind := copy1DType direction
  srcDuid := duidAttr copy.srcDeviceUniqueId
  dstDuid := duidAttr copy.dstDeviceUniqueId
  srcAddr := copy.srcDeviceAddr
  dstAddr := copy.dstDeviceAddr
  size := copy.size

/--
What export stores in a command: its type and all fields of `copy_1D`.  The
record of another command type is not a 1-D copy.
-/
def command (attrs : Copy1DAttrs) : Option Command := do
  let direction ← copy1DDirection attrs.kind
  return .copy1D direction {
    srcDeviceUniqueId := narrowDuid attrs.srcDuid
    dstDeviceUniqueId := narrowDuid attrs.dstDuid
    srcDeviceAddr := attrs.srcAddr
    dstDeviceAddr := attrs.dstAddr
    size := attrs.size }

@[simp]
theorem command_ofCopy (direction : CopyDirection) (copy : CommandCopy1D) :
    (ofCopy direction copy).command = some (.copy1D direction copy) := by
  simp [command, ofCopy]

end Copy1DAttrs

namespace Copy2DAttrs

/-- The attributes that import takes from a 2-D copy. -/
def ofCopy (direction : CopyDirection) (copy : CommandCopy2D) :
    Copy2DAttrs where
  kind := copy2DType direction
  srcDuid := duidAttr copy.srcDeviceUniqueId
  dstDuid := duidAttr copy.dstDeviceUniqueId
  srcAddr := copy.srcAddr
  srcLd := copy.srcLd
  dstAddr := copy.dstAddr
  dstLd := copy.dstLd
  m := copy.m
  n := copy.n
  sizeofType := copy.sizeofType

/-- What export stores in a command: its type and all fields of `copy_2D`. -/
def command (attrs : Copy2DAttrs) : Option Command := do
  let direction ← copy2DDirection attrs.kind
  return .copy2D direction {
    srcDeviceUniqueId := narrowDuid attrs.srcDuid
    dstDeviceUniqueId := narrowDuid attrs.dstDuid
    srcAddr := attrs.srcAddr
    srcLd := attrs.srcLd
    dstAddr := attrs.dstAddr
    dstLd := attrs.dstLd
    m := attrs.m
    n := attrs.n
    sizeofType := attrs.sizeofType }

@[simp]
theorem command_ofCopy (direction : CopyDirection) (copy : CommandCopy2D) :
    (ofCopy direction copy).command = some (.copy2D direction copy) := by
  simp [command, ofCopy]

end Copy2DAttrs

/-! ## Ops -/

/-- The index of an op, and of the token it defines. -/
abbrev OpId := Nat

/-- The op kinds of the dialect, with their own attributes. -/
inductive OpKind where
  | empty (isEntry isExit : Bool)
  | copy1D (attrs : Copy1DAttrs)
  | copy2D (attrs : Copy2DAttrs)
  | generic (kind : BitVec 32) (blob : Command)
  | batch (region : List OpId)
  deriving DecidableEq, Repr

/-- A node op; the `cg.src_node` attribute may be missing. -/
structure Op where
  duid : BitVec 32
  kind : OpKind
  operands : List OpId
  srcNode : Option NodeId
  deriving DecidableEq, Repr

namespace Op

/-- `get_duid` of the export. -/
def getDuid (op : Op) : DeviceUniqueId :=
  duidOfAttr op.duid

/-- `op_is_entry`. -/
def isEntry (op : Op) : Bool :=
  match op.kind with
  | .empty isEntry _ => isEntry
  | _ => false

/-- `op_is_exit`. -/
def isExit (op : Op) : Bool :=
  match op.kind with
  | .empty _ isExit => isExit
  | _ => false

/-- `isa<EmptyOp>`. -/
def isEmpty (op : Op) : Bool :=
  match op.kind with
  | .empty _ _ => true
  | _ => false

end Op

/-- A `cg.graph`: all ops made so far, and those of its block in order. -/
structure Graph where
  ops : OpId → Op
  opCount : Nat
  body : List OpId

namespace Graph

/-- A graph with an empty block. -/
def empty : Graph where
  ops := fun _ =>
    { duid := 0, kind := .empty false false, operands := [], srcNode := none }
  opCount := 0
  body := []

variable (graph : Graph)

def operands (op : OpId) : List OpId :=
  (graph.ops op).operands

/-- Create an op at the end of the block. -/
def create (op : Op) : OpId × Graph :=
  (graph.opCount,
    { ops := Function.update graph.ops graph.opCount op
      opCount := graph.opCount + 1
      body := graph.body ++ [graph.opCount] })

/-- Change one op. -/
def updateOp (id : OpId) (change : Op → Op) : Graph :=
  { graph with ops := Function.update graph.ops id (change (graph.ops id)) }

/-- `op->setOperands(operands)`. -/
def setOperands (id : OpId) (operands : List OpId) : Graph :=
  graph.updateOp id fun op => { op with operands := operands }

/-- `op->erase()` of an op in the block. -/
def erase (id : OpId) : Graph :=
  { graph with body := graph.body.erase id }

section Lemmas

variable {graph}

@[simp]
theorem updateOp_ops (id other : OpId) (change : Op → Op) :
    (graph.updateOp id change).ops other =
      if other = id then change (graph.ops id) else graph.ops other := by
  simp [updateOp, Function.update_apply]

@[simp]
theorem updateOp_body (id : OpId) (change : Op → Op) :
    (graph.updateOp id change).body = graph.body :=
  rfl

@[simp]
theorem updateOp_opCount (id : OpId) (change : Op → Op) :
    (graph.updateOp id change).opCount = graph.opCount :=
  rfl

@[simp]
theorem setOperands_ops (id other : OpId) (operands : List OpId) :
    (graph.setOperands id operands).ops other =
      if other = id then { graph.ops id with operands := operands }
      else graph.ops other := by
  simp [setOperands]

@[simp]
theorem setOperands_operands (id other : OpId) (operands : List OpId) :
    (graph.setOperands id operands).operands other =
      if other = id then operands else graph.operands other := by
  simp only [Graph.operands, setOperands_ops]
  split <;> rfl

@[simp]
theorem setOperands_body (id : OpId) (operands : List OpId) :
    (graph.setOperands id operands).body = graph.body :=
  rfl

@[simp]
theorem setOperands_opCount (id : OpId) (operands : List OpId) :
    (graph.setOperands id operands).opCount = graph.opCount :=
  rfl

@[simp]
theorem create_id (op : Op) : (graph.create op).1 = graph.opCount :=
  rfl

@[simp]
theorem create_ops (op : Op) (other : OpId) :
    (graph.create op).2.ops other =
      if other = graph.opCount then op else graph.ops other := by
  simp [create, Function.update_apply]

@[simp]
theorem create_body (op : Op) :
    (graph.create op).2.body = graph.body ++ [graph.opCount] :=
  rfl

@[simp]
theorem create_opCount (op : Op) :
    (graph.create op).2.opCount = graph.opCount + 1 :=
  rfl

end Lemmas

end Graph

end Cgir.Mlir
