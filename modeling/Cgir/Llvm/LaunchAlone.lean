import Cgir.Llvm.DedupSound
import Cgir.Llvm.Destination
import Cgir.Llvm.Launch

/-!
# A program that is launched alone

What an entry sees of its arguments, and that the launch of a program shows its
entry the arguments that were recorded for it (`launch_alone`).
-/

namespace Cgir.Llvm

open Cgir.Library Cgir.Model

/-! ## What a call sees of its arguments -/

/-- The arguments that were recorded for an input. -/
def recordedArguments (memory : Memory) (input : FuseInput) : List Value :=
  if input.isWrapper then
    input.slots.map wordBytes
  else
    (List.range input.arity).map fun j =>
      readBytes memory (input.slot j) (input.paramSize j)

/-- What an entry sees: a wrapper its slots, a leaf its values. -/
def seenArguments (memory : Memory) (input : FuseInput)
    (values : List Value) : List Value :=
  if input.isWrapper then
    (List.range input.arity).map fun k =>
      readBytes memory
        (wordOf (values.headD []) + BitVec.ofNat 64 (8 * k)) 8
  else
    values

/-- Memory is changed nowhere but in the data of the programs. -/
def Undisturbed (data : Address → Prop) (start memory : Memory) : Prop :=
  ∀ address, ¬ data address → memory address = start address

/--
A kernel that depends on the arguments it sees and on memory, and that writes
nothing but data, when it is called with the recorded arguments.
-/
structure Behaves (data : Address → Prop) (start : Memory)
    (input : FuseInput) (recorded : List Value) (kernel : Kernel) : Prop where
  same : ∀ values values' memory, Undisturbed data start memory →
    seenArguments memory input values = recorded →
      seenArguments memory input values' = recorded →
        kernel values memory = kernel values' memory
  writes : ∀ values memory after, Undisturbed data start memory →
    seenArguments memory input values = recorded →
      kernel values memory = some after → Undisturbed data start after

/-- The arguments of a program lie in memory, apart from the data. -/
structure Installed (data : Address → Prop) (start : Memory)
    (argsAt : Address) (args : Option ArgsBuffer) : Prop where
  resident : ∀ buffer, args = some buffer → Resident start argsAt buffer
  apart : ∀ buffer, args = some buffer → ∀ address,
    Inside argsAt (argsBytes buffer).length address → ¬ data address

/-- A leaf finds its recorded values behind its slots, apart from the data. -/
def Recorded (data : Address → Prop) (memory start : Memory)
    (input : FuseInput) : Prop :=
  input.isWrapper = false → ∀ j < input.arity, ∀ address,
    Inside (input.slot j) (input.paramSize j) address →
      ¬ data address ∧ start address = memory address

/-- Fusion and compilation find the same entry. -/
structure SameEntry (task : Task) (input : FuseInput) : Prop where
  parsed : parseLlvmir task.prog.source = some task.unit.module
  selected : jitSelect task.prog.source.symbol task.unit.module =
    some input.entry

/-- Fusion and compilation take an unpacked entry for the same. -/
structure Alike (task : Task) (input : FuseInput) : Prop
    extends SameEntry task input where
  packed : isVoidPtrSize input.entry = false
  wrapper : isVoidVoidptr input.entry = input.isWrapper

/--
The merged table binds what the modules of a chain refer to as their own tables
do: these agree, and what one of them binds for another module is bound there.
-/
structure ExternsKept (tasks : List Task) : Prop where
  agree : BindingsAgree (tasks.map Task.prog)
  own : ∀ task ∈ tasks, ∀ other ∈ tasks, ∀ name ∈ task.unit.externals,
    other.symbols name ≠ none → task.symbols name ≠ none

/-- The symbols of the merged table mean the same to the module of a task. -/
theorem ExternsKept.code_eq {tasks : List Task} (kept : ExternsKept tasks)
    {task : Task} (member : task ∈ tasks) :
    task.unit.code (installedSymbols (mergeExterns (tasks.map Task.prog))) =
      task.unit.code task.symbols := by
  apply task.unit.code_congr
  intro name external
  have merged := (keepsBindings_mergeExterns_iff _).mpr kept.agree
  cases bound : task.symbols name with
  | some addr =>
      exact merged.kept task.prog (List.mem_map_of_mem member) name addr bound
  | none =>
      rw [installedSymbols_mergeExterns, firstBinding_eq_none_iff]
      intro entry inTables
      obtain ⟨prog, isProg, listed⟩ := List.mem_flatMap.mp inTables
      obtain ⟨other, isOther, rfl⟩ := List.mem_map.mp isProg
      have unbound : other.symbols name = none := by
        by_contra binds
        exact kept.own task member other isOther name external binds bound
      exact installedSymbols_eq_none_iff.mp unbound entry listed

/-- Programs that have one table, without repetitions, agree. -/
theorem ExternsKept.of_shared {tasks : List Task}
    {externs : List CommandProgExtern} (once : (externs.map (·.name)).Nodup)
    (shared : ∀ task ∈ tasks, task.prog.source.externs = externs) :
    ExternsKept tasks := by
  have table : ∀ prog ∈ tasks.map Task.prog, prog.source.externs = externs := by
    intro prog member
    obtain ⟨task, isTask, rfl⟩ := List.mem_map.mp member
    exact shared task isTask
  refine ⟨⟨?_, ?_⟩, ?_⟩
  · intro first isFirst second isSecond name addr other bound bound'
    rw [table first isFirst] at bound
    rw [table second isSecond, bound] at bound'
    exact Option.some.inj bound'
  · intro earlier prog later split name _
    rw [table prog (by simp [split])]
    exact (installedSymbols_of_nodup once).symm
  · intro task member other isOther name _ bound
    rwa [Task.symbols, shared task member, ← shared other isOther]

/-- The entry of a compiled program is the one that fusion found. -/
theorem SameEntry.compiles {task : Task} {input : FuseInput}
    (same : SameEntry task input) :
    (parseLlvmir task.prog.source).bind
      (jitSelect task.prog.source.symbol) = some input.entry := by
  rw [same.parsed, Option.bind_some, same.selected]

/-- A program compiled alone has the entry that fusion found. -/
theorem SameEntry.function {task : Task} {input : FuseInput}
    (same : SameEntry task input) :
    task.unit.functions task.symbols input.entry.name =
      some (task.kernel input.entry) := by
  obtain ⟨member, defined⟩ := jitSelect_definition same.selected
  exact functions_entry member defined

/-- The linked module has the entry that fusion found. -/
theorem SameEntry.linked {tasks : List Task} {i : Nat} {task : Task}
    {input : FuseInput} (same : SameEntry task input)
    (kept : ExternsKept tasks) (atTask : tasks[i]? = some task) :
    lookup (linkedDefinitions (tasks.map Task.unit)
          (installedSymbols (mergeExterns (tasks.map Task.prog))))
        (fusedName i input.entry.name) =
      some (task.kernel input.entry) := by
  obtain ⟨member, defined⟩ := jitSelect_definition same.selected
  rw [Task.kernel, ← kept.code_eq (List.mem_of_getElem? atTask)]
  exact linked_entry (by rw [List.getElem?_map, atTask, Option.map_some])
    member defined

/-- The launch of a program calls the entry that fusion found. -/
theorem SameEntry.launch_eq {task : Task} {input : FuseInput}
    (same : SameEntry task input) (host : task.prog.source.triple = none)
    (stackAt : Nat → Address) (recorded memory : Memory) :
    task.launch stackAt recorded memory =
      launchEntry (task.unit.functions task.symbols) stackAt input.entry
        task.argsAt (task.compiled recorded).argsSize memory := by
  rw [Task.launch, launch, Task.compiled, jitLlvmir_source _ _ _ host,
    same.compiles, Option.bind_some]
  rfl

section Regions

variable {data : Address → Prop} {start memory : Memory}

theorem Undisturbed.trans {second third : Memory}
    (one : Undisturbed data start second)
    (two : Undisturbed data second third) : Undisturbed data start third :=
  fun address notData =>
    (two address notData).trans (one address notData)

theorem Undisturbed.readBytes (undisturbed : Undisturbed data start memory)
    {address : Address} {size : Nat}
    (apart : ∀ inside, Inside address size inside → ¬ data inside) :
    Llvm.readBytes memory address size = Llvm.readBytes start address size :=
  readBytes_congr fun inside isInside =>
    undisturbed inside (apart inside isInside)

/-- A leaf still finds the values that were recorded. -/
theorem Recorded.readBytes {recorded : Memory} {input : FuseInput}
    (kept : Recorded data recorded start input)
    (leaf : input.isWrapper = false) {j : Nat} (bound : j < input.arity)
    (undisturbed : Undisturbed data start memory) :
    Llvm.readBytes memory (input.slot j) (input.paramSize j) =
      Llvm.readBytes recorded (input.slot j) (input.paramSize j) := by
  refine readBytes_congr fun address inside => ?_
  obtain ⟨notData, same⟩ := kept leaf j bound address inside
  rw [undisturbed address notData, same]

/-! A chain behaves as at its start when only data has been changed. -/

theorem Behaves.later {input : FuseInput} {recorded : List Value}
    {kernel : Kernel} (behaves : Behaves data start input recorded kernel)
    (undisturbed : Undisturbed data start memory) :
    Behaves data memory input recorded kernel where
  same := fun values values' now since =>
    behaves.same values values' now (undisturbed.trans since)
  writes := by
    intro values now after since seen ran address notData
    rw [behaves.writes values now after (undisturbed.trans since) seen ran
      address notData, undisturbed address notData]

theorem Installed.later {argsAt : Address} {args : Option ArgsBuffer}
    (installed : Installed data start argsAt args)
    (undisturbed : Undisturbed data start memory) :
    Installed data memory argsAt args where
  resident := fun buffer isBuffer =>
    (undisturbed.readBytes (installed.apart buffer isBuffer)).trans
      (installed.resident buffer isBuffer)
  apart := installed.apart

theorem Recorded.later {recorded : Memory} {input : FuseInput}
    (kept : Recorded data recorded start input)
    (undisturbed : Undisturbed data start memory) :
    Recorded data recorded memory input := by
  intro leaf j bound address inside
  obtain ⟨notData, same⟩ := kept leaf j bound address inside
  exact ⟨notData, (undisturbed address notData).trans same⟩

/-- Slot `k` of installed arguments. -/
theorem Installed.slot {argsAt : Address} {args : ArgsBuffer} {k : Nat}
    {slot : Address} (installed : Installed data start argsAt (some args))
    (undisturbed : Undisturbed data start memory)
    (found : slotAt args k = some slot) :
    Llvm.readBytes memory (argsAt + BitVec.ofNat 64 (8 * k)) 8 =
      wordBytes slot := by
  obtain ⟨fits, word⟩ := slotAt_bytes found
  rw [readBytes_drop fits,
    undisturbed.readBytes (installed.apart args rfl),
    installed.resident args rfl, word]

end Regions

/-! ## A program alone -/

section Alone

variable {data : Address → Prop} {recorded start memory : Memory}
  {task : Task} {input : FuseInput} {stackAt : Nat → Address}

/-- The slots of an input are those of its arguments. -/
theorem fuseInput_slot {prog : CommandProg}
    (run : fuseInput prog = some input) {j : Nat} (bound : j < input.arity) :
    ∃ args, prog.args = some args ∧ slotAt args j = some (input.slot j) := by
  simp only [fuseInput, Option.bind_eq_bind, Option.bind_eq_some_iff,
    Option.pure_def, Option.some.injEq] at run
  obtain ⟨module, -, ⟨found, entry⟩, -, classified, -, slots, taken,
    rfl⟩ := run
  have arity := snapshot_length taken
  change j < slots.length at bound
  cases args : prog.args with
  | none =>
      rw [args, snapshot] at taken
      split at taken
      · omega
      · exact (Option.some_ne_none _ taken.symm).elim
  | some buffer =>
      rw [args, snapshot] at taken
      have here := Loop.mapM_getElem? taken j
      rw [List.getElem?_range (by omega), Option.map_some,
        List.getElem?_eq_getElem bound, Option.map_some,
        Option.some.injEq] at here
      refine ⟨buffer, rfl, here.trans ?_⟩
      simp [FuseInput.slot, bound]

/-- A parameter of an unpacked leaf has the size of its type. -/
theorem paramSize_leaf (unpacked : input.isPackedLeaf = false) {j : Nat}
    {type : IrType} (typed : input.entry.params[j]? = some type) :
    input.paramSize j = type.storeSize := by
  simp [FuseInput.paramSize, unpacked, typed]

/-- What a program calls when it is launched alone. -/
theorem launch_alone (run : fuseInput task.prog = some input)
    (unpacked : input.isPackedLeaf = false)
    (host : task.prog.source.triple = none) (alike : Alike task input)
    (installed : Installed data start task.argsAt task.prog.args)
    (kept : Recorded data recorded start input)
    (undisturbed : Undisturbed data start memory) :
    ∃ values, task.launch stackAt recorded memory =
        task.kernel input.entry values memory ∧
      seenArguments memory input values =
        recordedArguments recorded input := by
  have function := alike.function
  have prototype : jitPrototype input.entry = .variadic := by
    simp [jitPrototype, alike.packed]
  have slot : ∀ j < input.arity,
      readBytes memory (task.argsAt + BitVec.ofNat 64 (8 * j)) 8 =
        wordBytes (input.slot j) := by
    intro j bound
    obtain ⟨args, some_args, found⟩ := fuseInput_slot run bound
    rw [some_args] at installed
    exact installed.slot undisturbed found
  rw [alike.launch_eq host, launchEntry, prototype]
  cases wrapper : input.isWrapper with
  | true =>
      have direct : launched input.entry = .entry := by
        simp [launched, alike.wrapper, wrapper]
      refine ⟨[wordBytes task.argsAt], by simp [direct, function], ?_⟩
      rw [seenArguments, recordedArguments, if_pos wrapper, if_pos wrapper]
      refine List.ext_getElem (by simp [FuseInput.arity]) ?_
      intro k bound bound'
      simp only [List.length_map, List.length_range] at bound
      simp only [List.getElem_map, List.getElem_range, List.headD_cons,
        wordOf_wordBytes, slot k bound]
      rw [FuseInput.slot, List.getD_eq_getElem?_getD,
        List.getElem?_eq_getElem bound, Option.getD_some]
      rfl
  | false =>
      have indirect : launched input.entry = .jitWrapper := by
        simp [launched, alike.wrapper, wrapper, alike.packed]
      refine ⟨arguments memory task.argsAt input.entry, ?_, ?_⟩
      · simp only [indirect]
        exact runBody_jitWrapper task.argsAt memory function
      · have arity := fuseInput_leaf run wrapper unpacked
        simp only [seenArguments, recordedArguments, wrapper,
          Bool.false_eq_true, if_false]
        refine List.ext_getElem (by simp [arguments, arity]) ?_
        intro j bound bound'
        have inside : j < input.arity := by simpa using bound'
        have typed : j < input.entry.params.length := by omega
        simp only [arguments, argumentAt, List.getElem_map,
          List.getElem_zipIdx, List.getElem_range, Nat.zero_add,
          slot j inside, wordOf_wordBytes]
        rw [← paramSize_leaf unpacked (List.getElem?_eq_getElem typed)]
        exact kept.readBytes wrapper inside undisturbed

end Alone

end Cgir.Llvm
