import Cgir.Llvm.Linked
import Cgir.Llvm.SlotTypes

/-!
# Launching a compiled program

What the launch of a program does that `command_graph_jit_llvmir` has compiled
for the host.  A program whose entry takes its arguments one by one is launched
through `__cgir_jit_wrapper`, which loads them.
-/

namespace Cgir.Llvm

open Cgir.Library Cgir.Model

/-! ## Launches -/

/--
The launch of a compiled entry: the launcher calls the entry or its wrapper with
the arguments, which lie at `argsAt`.
-/
def launchEntry (functions : Functions) (stackAt : Nat → Address)
    (entry : IrFunction) (argsAt : Address) (argsSize : Nat)
    (memory : Memory) : Option Memory :=
  let params :=
    match jitPrototype entry with
    | .packed => [wordBytes argsAt, wordBytes (BitVec.ofNat 64 argsSize)]
    | _ => [wordBytes argsAt]
  match launched entry with
  | .entry =>
      (functions entry.name).bind fun kernel => kernel params memory
  | .jitWrapper =>
      runBody functions stackAt (jitWrapper entry) params memory

/-- The launch of a compiled host program, with the symbols of its table. -/
def launch (functions : Symbols → Functions) (stackAt : Nat → Address)
    (argsAt : Address) (prog : CommandProg) (memory : Memory) :
    Option Memory :=
  ((parseLlvmir prog.source).bind (jitSelect prog.source.symbol)).bind
    fun entry =>
      launchEntry (functions (installedSymbols prog.source.externs)) stackAt
        entry argsAt prog.argsSize memory

/-- A program of a chain, compiled alone with its code at `codeAt`. -/
structure Task where
  prog : CommandProg
  unit : ModuleCode
  codeAt : Address
  argsAt : Address

namespace Task

/-- The symbols that are installed for the program. -/
def symbols (task : Task) : Symbols :=
  installedSymbols task.prog.source.externs

/-- What a function of the program does when it is compiled alone. -/
def kernel (task : Task) (function : IrFunction) : Kernel :=
  task.unit.code task.symbols function.name

/-- The program after `command_graph_jit_llvmir`. -/
def compiled (task : Task) (memory : Memory) : CommandProg :=
  jitLlvmir memory task.codeAt "" task.prog

/-- The launch of the compiled program. -/
def launch (task : Task) (stackAt : Nat → Address) (recorded : Memory)
    (memory : Memory) : Option Memory :=
  Llvm.launch task.unit.functions stackAt task.argsAt (task.compiled recorded)
    memory

end Task

/-- The launches of the programs of a chain, one after the other. -/
def launchAll (tasks : List Task) (stackAt : Nat → Address)
    (recorded memory : Memory) : Option Memory :=
  tasks.foldlM (fun memory task => task.launch stackAt recorded memory) memory

/-! ## Compiled programs -/

section Compiled

variable {prog : CommandProg} {module : IrModule} {entry : IrFunction}

/-- The function that is found by its name is one of the module. -/
theorem mem_of_getFunction {name : String}
    (found : module.getFunction name = some entry) :
    entry ∈ module.functions :=
  List.mem_of_find?_eq_some found

theorem mem_of_jitFallback (found : jitFallback module = some entry) :
    entry ∈ module.functions := by
  rw [jitFallback] at found
  cases external : findExternalDef module with
  | some other =>
      rw [external] at found
      obtain rfl := Option.some.inj found
      exact List.mem_of_find?_eq_some external
  | none =>
      rw [external] at found
      exact List.mem_of_find?_eq_some found

/-- The entry that is compiled is a definition of the module. -/
theorem jitSelect_definition {symbol : Option String}
    (selected : jitSelect symbol module = some entry) :
    entry ∈ module.functions ∧ entry.isDeclaration = false := by
  obtain ⟨resolved, kept⟩ := Option.filter_eq_some_iff.mp selected
  refine ⟨?_, by simpa using (Bool.and_eq_true_iff.mp kept).1⟩
  unfold jitResolve at resolved
  split at resolved
  · exact mem_of_getFunction resolved
  · split at resolved
    · rename_i wrapper found
      split at resolved
      · obtain rfl := Option.some.inj resolved
        exact mem_of_getFunction found
      · exact mem_of_jitFallback resolved
    · exact mem_of_jitFallback resolved

/-- Compiling a host program keeps its source. -/
theorem jitLlvmir_source (memory : Memory) (code : Address) (ptx : String)
    (host : prog.source.triple = none) :
    (jitLlvmir memory code ptx prog).source = prog.source := by
  unfold jitLlvmir
  simp only [host, Option.isSome_none, Bool.false_eq_true, if_false]
  repeat' split
  all_goals rfl

/-- The text for devices does not matter for a host program. -/
theorem jitLlvmir_host (memory : Memory) (code : Address) (ptx : String)
    (host : prog.source.triple = none) :
    jitLlvmir memory code ptx prog = jitLlvmir memory code "" prog := by
  simp only [jitLlvmir, host, Option.isSome_none, Bool.false_eq_true, if_false]

/-- A packed buffer is not packed again. -/
theorem jitPack_again {memory : Memory} {bytes : List (BitVec 8)}
    (again : CommandProg) (args : again.args = some (.packed bytes))
    (size : again.argsSize = bytes.length) : jitPack memory again = none := by
  unfold jitPack
  split
  · rfl
  · rename_i params _
    split
    · rename_i repacks
      rw [size] at repacks
      obtain rfl := List.eq_nil_of_length_eq_zero repacks.2
      obtain ⟨count, length⟩ := Nat.exists_eq_succ_of_ne_zero
        (Nat.ne_of_gt repacks.1)
      -- An empty buffer has no slot for the first parameter.
      simp [args, length, List.range_succ_eq_map, slotAt]
    · rfl

/-- Compiling a host program again changes nothing. -/
theorem jitLlvmir_again (memory : Memory) (code : Address) (ptx : String)
    (host : prog.source.triple = none) :
    jitLlvmir memory code ptx (jitLlvmir memory code ptx prog) =
      jitLlvmir memory code ptx prog := by
  have source := jitLlvmir_source memory code ptx host
  cases selected : (parseLlvmir prog.source).bind
      (jitSelect prog.source.symbol) with
  | none => simp [jitLlvmir, selected]
  | some entry =>
      cases packed : isVoidPtrSize entry with
      | false => simp [jitLlvmir, selected, host, packed]
      | true =>
          cases bytes : jitPack memory prog with
          | none =>
              have same : jitPack memory { prog with
                  prototype := .packed
                  launcher := some code } = jitPack memory prog := rfl
              simp [jitLlvmir, selected, host, packed, bytes, same]
          | some buffer =>
              have same := @jitPack_again memory buffer { prog with
                  prototype := .packed
                  launcher := some code
                  args := some (.packed buffer)
                  nArgs := (prog.source.params.getD []).length
                  argsSize := buffer.length
                  argsOwned := true } rfl rfl
              simp [jitLlvmir, selected, host, packed, bytes, same]

/-- Only a packed body gets other arguments. -/
theorem jitLlvmir_args (memory : Memory) (code : Address) (ptx : String)
    (host : prog.source.triple = none)
    (selected : (parseLlvmir prog.source).bind
      (jitSelect prog.source.symbol) = some entry)
    (unpacked : isVoidPtrSize entry = false) :
    (jitLlvmir memory code ptx prog).args = prog.args := by
  unfold jitLlvmir
  simp [selected, host, unpacked]

/-- A program without a params table keeps its arguments. -/
theorem jitLlvmir_args_of_params (memory : Memory) (code : Address)
    (ptx : String) (missing : prog.source.params = none) :
    (jitLlvmir memory code ptx prog).args = prog.args := by
  have unpacked : jitPack memory prog = none := by
    rw [jitPack, missing]
  rw [jitLlvmir]
  repeat' split
  all_goals first | rfl | simp_all

end Compiled

/-! ## The wrapper of a compiled program -/

section Wrapper

variable {functions : Functions} {stackAt : Nat → Address}
  {entry : IrFunction}

/-- The operands have these values. -/
def HasValues (frame : Frame) (operands : List Operand)
    (values : List Value) : Prop :=
  operands.map frame.value = values.map some

theorem HasValues.later {frame after : Frame} {operands : List Operand}
    {values : List Value} (has : HasValues frame operands values)
    (later : frame.Later after) : HasValues after operands values := by
  refine List.ext_getElem? fun k => ?_
  have here := congrArg (·[k]?) has
  simp only [List.getElem?_map] at here ⊢
  cases operand : operands[k]? with
  | none => rw [← here, operand, Option.map_none, Option.map_none]
  | some operand' =>
      rw [operand, Option.map_some] at here
      cases value : values[k]? with
      | none =>
          rw [value] at here
          exact (Option.some_ne_none _ here).elim
      | some value' =>
          rw [value, Option.map_some, Option.some.injEq] at here
          rw [Option.map_some, Option.map_some, later operand' value' here]

theorem HasValues.concat {frame : Frame} {operands : List Operand}
    {values : List Value} {operand : Operand} {value : Value}
    (has : HasValues frame operands values)
    (last : frame.value operand = some value) :
    HasValues frame (operands ++ [operand]) (values ++ [value]) := by
  simp only [HasValues, List.map_append, List.map_cons, List.map_nil, last]
  rw [has]

/-- The value behind `args[k]`. -/
def argumentAt (memory : Memory) (argsAt : Address) (k : Nat)
    (type : IrType) : Value :=
  readBytes memory
    (wordOf (readBytes memory (argsAt + BitVec.ofNat 64 (8 * k)) 8))
    type.storeSize

/-- The arguments of an entry that takes them one by one. -/
def arguments (memory : Memory) (argsAt : Address) (entry : IrFunction) :
    List Value :=
  entry.params.zipIdx.map fun item => argumentAt memory argsAt item.2 item.1

/-- `__cgir_jit_wrapper` calls the entry with the values behind its slots. -/
theorem runBody_jitWrapper {kernel : Kernel} (argsAt : Address)
    (memory : Memory) (defined : functions entry.name = some kernel) :
    runBody functions stackAt (jitWrapper entry) [wordBytes argsAt] memory =
      kernel (arguments memory argsAt entry) memory := by
  let start : Frame :=
    { params := [wordBytes argsAt], results := [], memory := memory }
  have loop : ∃ operands after,
      (machine functions stackAt).run (entry.params.zipIdx.mapM
          fun item => emitLoadArg (.param 0) item.2 item.1) start =
        some (operands, after) ∧
      start.Later after ∧ after.memory = memory ∧
        HasValues after operands (arguments memory argsAt entry) := by
    apply Emission.Machine.run_mapM (machine functions stackAt)
      fun (done : List (IrType × Nat)) operands frame =>
        start.Later frame ∧ frame.memory = memory ∧
          HasValues frame operands
            (done.map fun item => argumentAt memory argsAt item.2 item.1)
    · exact ⟨Frame.Later.refl start, rfl, rfl⟩
    · intro done item rest operands frame _ before
      obtain ⟨type, k⟩ := item
      obtain ⟨later, same, has⟩ := before
      have loaded : Reads functions stackAt (emitLoadArg (.param 0) k type)
          frame _ := reads_emitLoadArg k type (later (.param 0) _ rfl)
      rw [same, wordOf_wordBytes] at loaded
      obtain ⟨operand, after, ran, value, later', same'⟩ := loaded
      refine ⟨operand, after, ran, later.trans later', same'.trans same, ?_⟩
      rw [List.map_append]
      exact (has.later later').concat value
  obtain ⟨operands, after, ran, -, same, has⟩ := loop
  rw [runBody_eq, jitWrapper, Emission.Machine.run_bind, ran,
    Option.bind_some,
    run_createCall defined (Loop.mapM_eq_some_iff.mpr has), same]
  show ((kernel (arguments memory argsAt entry) memory).map _).map _ = _
  rw [Option.map_map]
  exact Option.map_id'

end Wrapper

end Cgir.Llvm
