import Cgir.Llvm.Region
import Cgir.Llvm.WrapperCode

/-!
# Running a wrapper

The meaning of the instructions of a wrapper.  A value is the bytes that a store
of it writes; a called function changes memory, or does not return.
-/

namespace Cgir.Llvm

open Cgir.Library Cgir.Model

/-! ## Frames -/

/-- A value of an LLVM type, in its bytes. -/
abbrev Value := List (BitVec 8)

/-- A function: `none` when the call does not return. -/
abbrev Kernel := List Value → Memory → Option Memory

/-- The functions of a module. -/
abbrev Functions := String → Option Kernel

/-- A running function: its parameters, the results so far and memory. -/
structure Frame where
  params : List Value
  results : List Value
  memory : Memory

namespace Frame

def value (frame : Frame) : Operand → Option Value
  | .param k => frame.params[k]?
  | .result number => frame.results[number]?
  | .constant word => some (wordBytes word)
  | .nullptr => none

/-- The frame after an instruction with the given result. -/
def next (frame : Frame) (result : Value) (memory : Memory) : Frame where
  params := frame.params
  results := frame.results ++ [result]
  memory := memory

@[simp] theorem next_params (frame : Frame) (result : Value)
    (memory : Memory) : (frame.next result memory).params = frame.params :=
  rfl

@[simp] theorem next_results (frame : Frame) (result : Value)
    (memory : Memory) :
    (frame.next result memory).results = frame.results ++ [result] :=
  rfl

@[simp] theorem next_memory (frame : Frame) (result : Value)
    (memory : Memory) : (frame.next result memory).memory = memory :=
  rfl

/-- A later frame: operands keep their values. -/
def Later (before after : Frame) : Prop :=
  ∀ operand value, before.value operand = some value →
    after.value operand = some value

theorem Later.refl (frame : Frame) : Later frame frame :=
  fun _ _ same => same

theorem Later.trans {first second third : Frame} (one : Later first second)
    (two : Later second third) : Later first third :=
  fun operand value same => two operand value (one operand value same)

theorem later_next (frame : Frame) (result : Value) (memory : Memory) :
    Later frame (frame.next result memory) := by
  intro operand value same
  cases operand with
  | param k => exact same
  | result number =>
      have bound := (List.getElem?_eq_some_iff.mp same).1
      show (frame.results ++ [result])[number]? = some value
      rw [List.getElem?_append_left bound]
      exact same
  | constant word => exact same
  | nullptr => exact (Option.some_ne_none _ same.symm).elim

theorem value_next (frame : Frame) (result : Value) (memory : Memory) :
    (frame.next result memory).value (.result frame.results.length) =
      some result :=
  List.getElem?_concat_length

end Frame

/-! ## Steps -/

/-- One instruction.  `stackAt` places the stack slot of an instruction. -/
def Instr.step (functions : Functions) (stackAt : Nat → Address)
    (instr : Instr) (frame : Frame) : Option Frame :=
  match instr with
  | .gep element base index => do
      let start ← frame.value base
      let offset := BitVec.ofNat 64 (element.storeSize * index)
      return frame.next (wordBytes (wordOf start + offset)) frame.memory
  | .load type address => do
      let start ← frame.value address
      return frame.next
        (readBytes frame.memory (wordOf start) type.storeSize) frame.memory
  | .alloca _ =>
      some (frame.next (wordBytes (stackAt frame.results.length)) frame.memory)
  | .store value address => do
      let bytes ← frame.value value
      let start ← frame.value address
      return frame.next [] (writeBytes frame.memory (wordOf start) bytes)
  | .memcpy dst src size => do
      let target ← frame.value dst
      let start ← frame.value src
      return frame.next []
        (writeBytes frame.memory (wordOf target)
          (readBytes frame.memory (wordOf start) size))
  | .call callee args => do
      let function ← functions callee
      let values ← args.mapM frame.value
      let memory ← function values frame.memory
      return frame.next [] memory

theorem Instr.step_counted {functions : Functions} {stackAt : Nat → Address}
    {instr : Instr} {frame after : Frame}
    (ran : instr.step functions stackAt frame = some after) :
    after.results.length = frame.results.length + 1 := by
  cases instr <;>
    simp only [Instr.step, Option.bind_eq_bind, Option.bind_eq_some_iff,
      Option.pure_def, Option.some.injEq] at ran
  case gep => obtain ⟨start, -, rfl⟩ := ran; simp
  case load => obtain ⟨start, -, rfl⟩ := ran; simp
  case alloca => subst ran; simp
  case store => obtain ⟨bytes, -, start, -, rfl⟩ := ran; simp
  case memcpy => obtain ⟨target, -, start, -, rfl⟩ := ran; simp
  case call =>
    obtain ⟨function, -, values, -, memory, -, rfl⟩ := ran
    simp

/-- The machine that runs wrappers. -/
def machine (functions : Functions) (stackAt : Nat → Address) :
    Emission.Machine Instr Frame where
  step := Instr.step functions stackAt
  results := fun frame => frame.results.length
  counted := Instr.step_counted

/-- Call a function with the given body. -/
def runBody (functions : Functions) (stackAt : Nat → Address)
    (body : IRBuilder Unit) : Kernel :=
  fun params memory =>
    (Emission.exec (Instr.step functions stackAt) body.code
      { params := params, results := [], memory := memory }).map Frame.memory

/-- The body runs as the builder that emits it. -/
theorem runBody_eq (functions : Functions) (stackAt : Nat → Address)
    (body : IRBuilder Unit) (params : List Value) (memory : Memory) :
    runBody functions stackAt body params memory =
      ((machine functions stackAt).run body
        { params := params, results := [], memory := memory }).map
          fun ran => ran.2.memory := by
  rw [runBody, ← Function.comp_def Frame.memory Prod.snd, ← Option.map_map,
    ← (machine functions stackAt).exec_code body rfl]
  rfl

/-! ## Builders -/

section Builders

variable {functions : Functions} {stackAt : Nat → Address} {frame : Frame}
  {base address : Operand} {start : Value}

open IRBuilder

theorem run_createGEP (element : IrType) (index : Nat)
    (found : frame.value base = some start) :
    (machine functions stackAt).run (createGEP element base index) frame =
      some (.result frame.results.length,
        frame.next (wordBytes (wordOf start +
          BitVec.ofNat 64 (element.storeSize * index))) frame.memory) := by
  rw [createGEP, Emission.Machine.run_map, Emission.Machine.run_create]
  simp [machine, Instr.step, found]

theorem run_createLoad (type : IrType)
    (found : frame.value address = some start) :
    (machine functions stackAt).run (createLoad type address) frame =
      some (.result frame.results.length,
        frame.next (readBytes frame.memory (wordOf start) type.storeSize)
          frame.memory) := by
  rw [createLoad, Emission.Machine.run_map, Emission.Machine.run_create]
  simp [machine, Instr.step, found]

theorem run_createAlloca (size : Nat) :
    (machine functions stackAt).run (createAlloca size) frame =
      some (.result frame.results.length,
        frame.next (wordBytes (stackAt frame.results.length))
          frame.memory) := by
  rw [createAlloca, Emission.Machine.run_map, Emission.Machine.run_create]
  simp [machine, Instr.step]

theorem run_createStore {value : Operand} {bytes : Value}
    (stored : frame.value value = some bytes)
    (found : frame.value address = some start) :
    (machine functions stackAt).run (createStore value address) frame =
      some ((), frame.next []
        (writeBytes frame.memory (wordOf start) bytes)) := by
  rw [createStore, Emission.Machine.run_map, Emission.Machine.run_create]
  simp [machine, Instr.step, stored, found]

theorem run_createMemCpy {dst : Operand} {target : Value} (size : Nat)
    (aimed : frame.value dst = some target)
    (found : frame.value address = some start) :
    (machine functions stackAt).run (createMemCpy dst address size) frame =
      some ((), frame.next []
        (writeBytes frame.memory (wordOf target)
          (readBytes frame.memory (wordOf start) size))) := by
  rw [createMemCpy, Emission.Machine.run_map, Emission.Machine.run_create]
  simp [machine, Instr.step, aimed, found]

/-- A call runs the function; what it returns is the memory after it. -/
theorem run_createCall {callee : String} {args : List Operand}
    {kernel : Kernel} {values : List Value}
    (defined : functions callee = some kernel)
    (evaluated : args.mapM frame.value = some values) :
    (machine functions stackAt).run (createCall callee args) frame =
      (kernel values frame.memory).map fun memory =>
        ((), frame.next [] memory) := by
  rw [createCall, Emission.Machine.run_map, Emission.Machine.run_create]
  simp only [machine, Instr.step, defined, evaluated, Option.bind_eq_bind,
    Option.bind_some, Option.pure_def]
  cases kernel values frame.memory <;> rfl

/-- A builder of a value that only reads memory. -/
def Reads (functions : Functions) (stackAt : Nat → Address)
    (build : IRBuilder Operand) (frame : Frame) (value : Value) : Prop :=
  ∃ operand after,
    (machine functions stackAt).run build frame = some (operand, after) ∧
      after.value operand = some value ∧ frame.Later after ∧
        after.memory = frame.memory

theorem Reads.bind {build : IRBuilder Operand}
    {next : Operand → IRBuilder Operand} {value result : Value}
    (first : Reads functions stackAt build frame value)
    (second : ∀ operand after, after.value operand = some value →
      after.memory = frame.memory →
        Reads functions stackAt (next operand) after result) :
    Reads functions stackAt (build >>= next) frame result := by
  obtain ⟨operand, after, ran, holds, later, memory⟩ := first
  obtain ⟨operand', after', ran', holds', later', memory'⟩ :=
    second operand after holds memory
  refine ⟨operand', after', ?_, holds', later.trans later',
    memory'.trans memory⟩
  rw [Emission.Machine.run_bind, ran, Option.bind_some, ran']

theorem reads_createGEP (element : IrType) (index : Nat)
    (found : frame.value base = some start) :
    Reads functions stackAt (createGEP element base index) frame
      (wordBytes (wordOf start +
        BitVec.ofNat 64 (element.storeSize * index))) :=
  ⟨_, _, run_createGEP element index found, frame.value_next _ _,
    frame.later_next _ _, rfl⟩

theorem reads_createLoad (type : IrType)
    (found : frame.value address = some start) :
    Reads functions stackAt (createLoad type address) frame
      (readBytes frame.memory (wordOf start) type.storeSize) :=
  ⟨_, _, run_createLoad type found, frame.value_next _ _,
    frame.later_next _ _, rfl⟩

/-- `emit_load_arg` loads the value behind a slot. -/
theorem reads_emitLoadArg (idx : Nat) (type : IrType)
    (found : frame.value address = some start) :
    Reads functions stackAt (emitLoadArg address idx type) frame
      (readBytes frame.memory
        (wordOf (readBytes frame.memory
          (wordOf start + BitVec.ofNat 64 (8 * idx)) 8)) type.storeSize) := by
  apply Reads.bind (reads_createGEP .ptr idx found)
  intro slot after atSlot memory
  apply Reads.bind (reads_createLoad .ptr atSlot)
  intro voidp after' atVoidp memory'
  have loaded :=
    @reads_createLoad functions stackAt after' voidp _ type atVoidp
  rw [memory', memory, wordOf_wordBytes] at loaded
  exact loaded

end Builders

end Cgir.Llvm
