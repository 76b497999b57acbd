import Cgir.Model.ProgSource

/-!
# Commands

The commands of `command.hpp`.  A command is a value of its node; the union of
type-specific records is an inductive type.
-/

namespace Cgir.Model

/-- A unique identifier of a device, `uint8_t`. -/
abbrev DeviceUniqueId := BitVec 8

/-- `CGIR_UNSPECIFIED_DEVICE_UNIQUE_ID`. -/
def unspecifiedDeviceUniqueId : DeviceUniqueId := 255

/-- The index of a node object. -/
abbrev NodeId := Nat

/-- The index of a command graph object. -/
abbrev GraphId := Nat

/-! ## Programs -/

/-- `command_prog_launch_mode_t`. -/
inductive LaunchMode where
  | direct
  | taskSpawn
  deriving DecidableEq, Repr

/-- `command_prog_function_prototype_t`. -/
inductive FunctionPrototype where
  | fixed
  | variadic
  | kmp
  | packed
  deriving DecidableEq, Repr

/-- Launch dimensions, three `unsigned int`. -/
structure Dim3 where
  x : BitVec 32
  y : BitVec 32
  z : BitVec 32
  deriving DecidableEq, Repr

/--
What `command_prog_t::args` points to: an array of slot pointers, or a packed
byte buffer.  A null slot is `none`.
-/
inductive ArgsBuffer where
  | slots (slots : List (Option Address))
  | packed (bytes : List (BitVec 8))
  deriving DecidableEq, Repr

/-- `command_prog_t`; a null `args` or launcher function is `none`. -/
structure CommandProg where
  prototype : FunctionPrototype
  launcher : Option Address
  args : Option ArgsBuffer
  nArgs : Nat
  argsSize : Nat
  argsOwned : Bool
  source : CommandProgSource
  launchMode : LaunchMode
  grid : Dim3
  block : Dim3
  deriving DecidableEq, Repr

/-! ## Copies -/

/-- The direction of a copy: between hosts and devices. -/
inductive CopyDirection where
  | h2h
  | h2d
  | d2h
  | d2d
  deriving DecidableEq, Repr

/-- `command_copy_1D_t`. -/
structure CommandCopy1D where
  srcDeviceUniqueId : DeviceUniqueId
  dstDeviceUniqueId : DeviceUniqueId
  srcDeviceAddr : Address
  dstDeviceAddr : Address
  size : BitVec 64
  deriving DecidableEq, Repr

/-- `command_copy_2D_t`. -/
structure CommandCopy2D where
  srcDeviceUniqueId : DeviceUniqueId
  dstDeviceUniqueId : DeviceUniqueId
  srcAddr : Address
  srcLd : BitVec 64
  dstAddr : Address
  dstLd : BitVec 64
  m : BitVec 64
  n : BitVec 64
  sizeofType : BitVec 64
  deriving DecidableEq, Repr

/-! ## Commands -/

/-- `command_file_t`. -/
structure CommandFile where
  fd : BitVec 32
  buffer : Address
  size : BitVec 64
  offset : BitVec 64
  deriving DecidableEq, Repr

/-- `command_t`: the type of a command together with its record. -/
inductive Command where
  | prog (prog : CommandProg)
  | copy1D (direction : CopyDirection) (copy : CommandCopy1D)
  | copy2D (direction : CopyDirection) (copy : CommandCopy2D)
  | fdRead (file : CommandFile)
  | fdWrite (file : CommandFile)
  | batch (cg : GraphId)
  | ctrlLoop (target : NodeId)
  | ctrlDemux (bitset : BitVec 32)
  deriving DecidableEq, Repr

namespace Command

/-- `type == COMMAND_TYPE_BATCH`. -/
def isBatch : Command → Bool
  | batch _ => true
  | _ => false

end Command

end Cgir.Model
