import Cgir.Library.Emission
import Cgir.Llvm.Fuse

/-!
# The code of the wrappers

The instructions that `command_graph_prog_fuse_llvmir` emits for the host entry
`__fused_wrapper`, before it inlines the calls, and that
`command_graph_jit_llvmir` emits for `__cgir_jit_wrapper`.  Every instruction has
one result, which its number names; attributes and metadata are left out.
-/

namespace Cgir.Llvm

open Cgir.Library Cgir.Model

/-! ## Instructions -/

/-- An operand: a parameter, the result of an instruction or a constant. -/
inductive Operand where
  | param (k : Nat)
  | result (number : Nat)
  | constant (word : BitVec 64)
  | nullptr
  deriving DecidableEq, Repr

/-- The instructions of a wrapper. -/
inductive Instr where
  | gep (element : IrType) (base : Operand) (index : Nat)
  | load (type : IrType) (address : Operand)
  | alloca (size : Nat)
  | store (value address : Operand)
  | memcpy (dst src : Operand) (size : Nat)
  | call (callee : String) (args : List Operand)
  deriving DecidableEq, Repr

/-- `IRBuilder`, at the end of the entry block. -/
abbrev IRBuilder (α : Type) := Emission Instr α

/-- The element type of the byte-wise address computations. -/
def i8 : IrType :=
  .integer 8

namespace IRBuilder

def createGEP (element : IrType) (base : Operand) (index : Nat) :
    IRBuilder Operand :=
  Operand.result <$> Emission.create (.gep element base index)

def createLoad (type : IrType) (address : Operand) : IRBuilder Operand :=
  Operand.result <$> Emission.create (.load type address)

def createAlloca (size : Nat) : IRBuilder Operand :=
  Operand.result <$> Emission.create (.alloca size)

def createStore (value address : Operand) : IRBuilder Unit :=
  (fun _ => ()) <$> Emission.create (.store value address)

def createMemCpy (dst src : Operand) (size : Nat) : IRBuilder Unit :=
  (fun _ => ()) <$> Emission.create (.memcpy dst src size)

def createCall (callee : String) (args : List Operand) : IRBuilder Unit :=
  (fun _ => ()) <$> Emission.create (.call callee args)

end IRBuilder

open IRBuilder

/-- `emit_load_arg`: the value of type `type` behind `args[idx]`. -/
def emitLoadArg (argsPtr : Operand) (idx : Nat) (type : IrType) :
    IRBuilder Operand := do
  let slot ← createGEP .ptr argsPtr idx
  let voidp ← createLoad .ptr slot
  createLoad type voidp

/-! ## Names -/

/-- The prefix of the definitions of input `i`. -/
def fusePrefix (i : Nat) : String :=
  "__fz" ++ toString i ++ "_"

/-- `fused_name`: the name of an entry after `prefix_functions`. -/
def fusedName (i : Nat) (name : String) : String :=
  fusePrefix i ++ name

/-! ## The wrapper of a compiled program -/

/-- The body of `__cgir_jit_wrapper`. -/
def jitWrapper (entry : IrFunction) : IRBuilder Unit := do
  let callArgs ← entry.params.zipIdx.mapM fun item =>
    emitLoadArg (.param 0) item.2 item.1
  createCall entry.name callArgs

/-! ## The wrapper of a fused chain -/

/-- The type of the load that is hoisted for a slot of a packed body. -/
def UniqueSlot.hoistType (unique : UniqueSlot) : Option IrType :=
  if unique.isRef then
    some .ptr
  else if unique.size = 1 ∨ unique.size = 2 ∨ unique.size = 4 ∨
      unique.size = 8 then
    some (.integer (unique.size * 8))
  else
    none

/-- The layout of the packed buffer of unpacked leaves. -/
def typedLayout (env : FuseEnv) (inputs : List FuseInput)
    (dedup : Deduplicated) : PackedLayout :=
  layoutOf ((slotTypes inputs dedup).map fun type =>
    ((type.getD .ptr).storeSize, env.abiAlign (type.getD .ptr)))

/-- What the emission of a wrapper knows of its chain. -/
structure FusedSlots where
  /-- `packed_output` -/
  packed : Bool
  /-- `slot_type` -/
  types : List (Option IrType)
  /-- `slot_offset` -/
  offsets : List Nat
  inputs : List FuseInput
  dedup : Deduplicated

/-- The slots of a chain. -/
def fusedSlots (env : FuseEnv) (progs : List CommandProg)
    (inputs : List FuseInput) (dedup : Deduplicated) : FusedSlots where
  packed := packedOutput env progs inputs
  types := slotTypes inputs dedup
  offsets :=
    if inputs.any FuseInput.isPackedLeaf then
      (packedLayout dedup.table.entries).offsets
    else
      (typedLayout env inputs dedup).offsets
  inputs := inputs
  dedup := dedup

/-- `slice_ptr`: the slots of a sub-wrapper. -/
def slicePtr (off : Nat) : IRBuilder Operand :=
  createGEP .ptr (.param 0) off

namespace FusedSlots

variable (slots : FusedSlots)

/-- `any_packed_leaf`. -/
def anyPackedLeaf : Bool :=
  slots.inputs.any FuseInput.isPackedLeaf

/-- The offset of a slot in the packed buffer. -/
def offset (idx : Nat) : Nat :=
  slots.offsets.getD idx 0

/-- The address of a slot in the packed buffer. -/
def slotPtr (idx : Nat) : IRBuilder Operand :=
  createGEP i8 (.param 0) (slots.offset idx)

/-- `load_arg`. -/
def loadArg (idx : Nat) (type : IrType) : IRBuilder Operand := do
  if slots.packed then
    let slot ← slots.slotPtr idx
    createLoad type slot
  else
    emitLoadArg (.param 0) idx type

/-- `slot_value`: one load for every slot that a leaf uses. -/
def slotValues : IRBuilder (List (Option Operand)) :=
  slots.types.zipIdx.mapM fun (type, k) =>
    match type with
    | some type => some <$> slots.loadArg k type
    | none => pure none

/-- `recon_buf`: a stack slot for the buffer of every packed body. -/
def reconBufs : IRBuilder (List (Option Operand)) :=
  slots.inputs.mapM fun input =>
    if slots.anyPackedLeaf then
      some <$> createAlloca input.bufSize
    else
      pure none

/-- `slot_hoist`: one load for every slot of the size of a register. -/
def slotHoists : IRBuilder (List (Option Operand)) :=
  slots.dedup.table.entries.zipIdx.mapM fun (unique, k) =>
    match unique.hoistType with
    | some type =>
        if slots.anyPackedLeaf then do
          let src ← slots.slotPtr k
          some <$> createLoad type src
        else
          pure none
    | none => pure none

/-- Store capture `j` of input `i` in its buffer `recon`. -/
def storeCapture (slotHoist : List (Option Operand)) (recon : Operand)
    (i : Nat) (param : CommandProgParam) (j : Nat) : IRBuilder Unit := do
  let uidx := (slots.dedup.index i j).getD 0
  let dst ← createGEP i8 recon param.offset
  match (slotHoist[uidx]?).join with
  | some value => createStore value dst
  | none =>
      let src ← slots.slotPtr uidx
      createMemCpy dst src param.size

/-- Fill the buffer `recon` of input `i`. -/
def reconstruct (slotHoist : List (Option Operand)) (recon : Operand)
    (i : Nat) (input : FuseInput) : IRBuilder Unit :=
  forM input.captures.zipIdx fun item =>
    slots.storeCapture slotHoist recon i item.1 item.2

/-- The call of input `i`. -/
def callInput (slotValue reconBuf slotHoist : List (Option Operand))
    (input : FuseInput) (i : Nat) : IRBuilder Unit := do
  let name := fusedName i input.entry.name
  if input.isWrapper then
    let slice ← slicePtr (slots.dedup.wrapperBlockStart.getD i 0)
    createCall name [slice]
  else if input.isPackedLeaf then
    let recon := ((reconBuf[i]?).join).getD .nullptr
    slots.reconstruct slotHoist recon i input
    createCall name [recon, .constant (BitVec.ofNat 64 input.bufSize)]
  else
    createCall name ((List.range input.arity).map fun j =>
      ((slotValue[(slots.dedup.index i j).getD 0]?).join).getD .nullptr)

/-- The body of `__fused_wrapper`. -/
def hostWrapper : IRBuilder Unit := do
  let slotValue ← slots.slotValues
  let reconBuf ← slots.reconBufs
  let slotHoist ← slots.slotHoists
  forM slots.inputs.zipIdx fun item =>
    slots.callInput slotValue reconBuf slotHoist item.1 item.2

end FusedSlots

end Cgir.Llvm
