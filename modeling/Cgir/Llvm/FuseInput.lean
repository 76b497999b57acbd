import Mathlib.Data.Option.Basic
import Cgir.Llvm.Convention

/-!
# The inputs of a fusion

What `command_graph_prog_fuse_llvmir` collects about every program of a chain
before it deduplicates arguments: the entry, its shape, the argument slots and
the descriptors.
-/

namespace Cgir.Llvm

open Cgir.Model

/-! ## Memory -/

/-- The contents of memory. -/
abbrev Memory := Address → BitVec 8

/-- The `size` bytes from `address` on. -/
def readBytes (memory : Memory) (address : Address) (size : Nat) :
    List (BitVec 8) :=
  (List.range size).map fun k => memory (address + BitVec.ofNat 64 k)

/-- The bytes of a word, the lowest first. -/
def wordBytes (word : BitVec 64) : List (BitVec 8) :=
  (List.range 8).map fun k => word.extractLsb' (8 * k) 8

/-- The word with the given bytes, the lowest first. -/
def wordOf (bytes : List (BitVec 8)) : BitVec 64 :=
  bytes.foldr (fun byte word => byte.setWidth 64 ||| word <<< 8) 0

@[simp] theorem readBytes_length (memory : Memory) (address : Address)
    (size : Nat) : (readBytes memory address size).length = size := by
  simp [readBytes]

@[simp] theorem wordBytes_length (word : BitVec 64) :
    (wordBytes word).length = 8 := by
  simp [wordBytes]

/-- Equal bytes are equal on every shorter stretch. -/
theorem readBytes_le {memory : Memory} {first second : Address}
    {size smaller : Nat}
    (same : readBytes memory first size = readBytes memory second size)
    (le : smaller ≤ size) :
    readBytes memory first smaller = readBytes memory second smaller := by
  have shorter : ∀ address, readBytes memory address smaller =
      (readBytes memory address size).take smaller := by
    intro address
    rw [readBytes, readBytes, ← List.map_take, List.take_range,
      Nat.min_eq_left le]
  rw [shorter first, shorter second, same]

theorem wordBytes_injective : Function.Injective wordBytes := by
  intro first second same
  refine BitVec.eq_of_getLsbD_eq fun bit bound => ?_
  have byte : bit / 8 < 8 := by omega
  have sameByte : first.extractLsb' (8 * (bit / 8)) 8 =
      second.extractLsb' (8 * (bit / 8)) 8 := by
    have atByte := congrArg (·[bit / 8]?) same
    simpa [wordBytes, byte] using atByte
  have sameBit := congrArg (BitVec.getLsbD · (bit % 8)) sameByte
  simpa [BitVec.getLsbD_extractLsb', Nat.mod_lt, Nat.div_add_mod]
    using sameBit

/-! ## Argument slots -/

/--
`args[k]`, read as a slot; a null slot is 0.  In a packed buffer that is whatever
word lies there; past the end of either there is nothing to read.
-/
def slotAt : ArgsBuffer → Nat → Option Address
  | .slots slots, k => (slots[k]?).map (Option.getD · 0)
  | .packed bytes, k =>
      let word := (bytes.drop (8 * k)).take 8
      if word.length = 8 then some (wordOf word) else none

/-- The snapshot of the slots; without `args` only an empty one is taken. -/
def snapshot (args : Option ArgsBuffer) (arity : Nat) :
    Option (List Address) :=
  match args with
  | none => if arity = 0 then some [] else none
  | some args => (List.range arity).mapM (slotAt args)

/-! ## Inputs -/

/-- `fuse_input_t`, with the entry in place of its name. -/
structure FuseInput where
  entry : IrFunction
  shape : Shape
  bufSize : Nat
  slots : List Address
  valueDedup : Bool
  params : Option (List CommandProgParam)
  deriving DecidableEq, Repr

namespace FuseInput

variable (input : FuseInput)

def isWrapper : Bool :=
  input.shape = .wrapper

def isPackedLeaf : Bool :=
  input.shape = .packedLeaf

/-- The number of argument slots. -/
def arity : Nat :=
  input.slots.length

/-- The parameter types, for inputs that are deduplicated by value. -/
def ptypes : List IrType :=
  if input.valueDedup && !input.isWrapper then input.entry.params else []

end FuseInput

/-- The module that a program's source parses to. -/
def parseLlvmir (source : CommandProgSource) : Option IrModule :=
  match source.type, source.raw with
  | .llvmir, some (.module module) => some module
  | _, _ => none

/-- The input for one program; `none` when fusion aborts. -/
def fuseInput (prog : CommandProg) : Option FuseInput := do
  let module ← parseLlvmir prog.source
  let (found, entry) ← fuseSelect prog.launchMode prog.source.symbol module
  let classified ← classify prog found entry
  let slots ← snapshot prog.args classified.arity
  return {
    entry := entry
    shape := classified.shape
    bufSize := classified.bufSize
    slots := slots
    valueDedup := classified.valueDedup
    params := prog.source.params }

/-- One packed body in a chain demands that every body is packed. -/
def packedHomogeneous (inputs : List FuseInput) : Bool :=
  !inputs.any FuseInput.isPackedLeaf || inputs.all FuseInput.isPackedLeaf

/-- A device program at the head of a chain demands device programs. -/
def deviceHomogeneous (progs : List CommandProg) : Bool :=
  match progs with
  | [] => true
  | first :: _ =>
      first.source.triple.isNone ||
        progs.all fun prog => prog.source.triple.isSome

/-- The inputs of a chain; `none` when fusion aborts. -/
def fuseInputs (progs : List CommandProg) : Option (List FuseInput) := do
  let inputs ← progs.mapM fuseInput
  guard (packedHomogeneous inputs)
  guard (deviceHomogeneous progs)
  return inputs

end Cgir.Llvm
