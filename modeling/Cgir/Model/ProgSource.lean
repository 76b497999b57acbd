/-!
# The source of a program command

The source record of `prog-source.h` and the part of an LLVM module that the
fuse and jit passes look at: the functions of the module in order, each with
its name, linkage, signature and whether it is only declared.  A `raw` buffer is
represented by what it parses to.
-/

namespace Cgir.Model

/-- An address of the process. -/
abbrev Address := BitVec 64

/-! ## LLVM modules -/

/--
The LLVM types a parameter can have.  A type is one object of its context: types
other than those that are named here have an identity besides their size.
-/
inductive IrType where
  | pointer (addressSpace : Nat)
  | integer (bits : Nat)
  | float
  | double
  | other (id storeSize : Nat)
  deriving DecidableEq, Repr

namespace IrType

/-- `PointerType::getUnqual`. -/
@[match_pattern] abbrev ptr : IrType :=
  pointer 0

def isPointerTy : IrType → Bool
  | pointer _ => true
  | _ => false

def isIntegerTy : IrType → Bool
  | integer _ => true
  | _ => false

/-- The number of bytes a store of the type writes. -/
def storeSize : IrType → Nat
  | pointer _ => 8
  | integer bits => (bits + 7) / 8
  | float => 4
  | double => 8
  | other _ storeSize => storeSize

end IrType

/-- The linkages the passes distinguish: external, local, or any other. -/
inductive Linkage where
  | external
  | local
  | other
  deriving DecidableEq, Repr

/-- A function of a module. -/
structure IrFunction where
  name : String
  linkage : Linkage
  isDeclaration : Bool
  returnsVoid : Bool
  params : List IrType
  deriving DecidableEq, Repr

namespace IrFunction

def hasExternalLinkage (function : IrFunction) : Bool :=
  function.linkage = .external

def hasLocalLinkage (function : IrFunction) : Bool :=
  function.linkage = .local

end IrFunction

/-- A module: its functions in order. -/
structure IrModule where
  functions : List IrFunction
  deriving DecidableEq, Repr

/-- `Module::getFunction`: the function of the given name. -/
def IrModule.getFunction (module : IrModule) (name : String) :
    Option IrFunction :=
  module.functions.find? fun function => function.name = name

/-! ## Sources -/

/-- `cgir_command_prog_source_type_t`. -/
inductive CommandProgSourceType where
  | llvmir
  | mlir
  | ptx
  | cl
  | spirv
  deriving DecidableEq, Repr

/-- `cgir_command_prog_source_proto_t`. -/
inductive CommandProgSourceProto where
  | unpackedParams
  | voidPtrptr
  | packedBuffer
  deriving DecidableEq, Repr

/-- `cgir_command_prog_param_kind_t`. -/
inductive CommandProgParamKind where
  | reference
  | copy
  deriving DecidableEq, Repr

/-- `cgir_command_prog_param_t`. -/
structure CommandProgParam where
  kind : CommandProgParamKind
  size : Nat
  offset : Nat
  deriving DecidableEq, Repr

/-- `cgir_command_prog_extern_t`; a null name is `none`. -/
structure CommandProgExtern where
  name : Option String
  addr : Address
  deriving DecidableEq, Repr

/-- What a `raw` buffer holds: LLVM IR or the text of another format. -/
inductive RawSource where
  | module (module : IrModule)
  | text (text : String)
  deriving DecidableEq, Repr

/--
`cgir_command_prog_source_t`.  A null pointer is `none`; `params` and
`param_count`, and `externs` and `externs_count`, are one list each.
-/
structure CommandProgSource where
  type : CommandProgSourceType
  raw : Option RawSource
  owned : Bool
  symbol : Option String
  externs : List CommandProgExtern
  externsOwned : Bool
  triple : Option String
  arch : Option String
  runtimeBc : Option String
  proto : CommandProgSourceProto
  params : Option (List CommandProgParam)
  paramsOwned : Bool
  deriving DecidableEq, Repr

end Cgir.Model
