import Cgir.Llvm.ArgsRuns
import Cgir.Llvm.FusedSlots

/-!
# Launching a fused program

The fused entry calls the entries of its chain one after the other with the
arguments that every program has alone.  So one launch of the fused program does
what the launches of the programs do, one after the other (`fused_launch`), as
long as no call changes an argument.
-/

namespace Cgir.Llvm

open Cgir.Library Cgir.Model

/-! ## A chain -/

section Chain

variable {env : FuseEnv} {progs : List CommandProg}
  {inputs : List FuseInput} {recorded start memory : Memory}
  {data : Address → Prop} {fusedAt : Address}

/-- There is an input for every program. -/
theorem fuseInputs_length (run : fuseInputs progs = some inputs) :
    inputs.length = progs.length := by
  simp only [fuseInputs, Option.bind_eq_bind, Option.bind_eq_some_iff,
    Option.pure_def, Option.some.injEq] at run
  obtain ⟨collected, mapped, -, -, -, -, rfl⟩ := run
  have lengths := congrArg List.length (Loop.mapM_eq_some_iff.mp mapped)
  simpa using lengths.symm

/-- Every input is that of a task. -/
theorem exists_task {tasks : List Task}
    (collected : fuseInputs (tasks.map Task.prog) = some inputs) {i : Nat}
    {input : FuseInput} (here : inputs[i]? = some input) :
    ∃ task, tasks[i]? = some task ∧ task ∈ tasks ∧
      fuseInput task.prog = some input := by
  obtain ⟨prog, atProg, isInput⟩ := fuseInputs_getElem? collected here
  obtain ⟨task, atTask, rfl⟩ :=
    Option.map_eq_some_iff.mp ((List.getElem?_map ..).symm.trans atProg)
  exact ⟨task, atTask, List.mem_of_getElem? atTask, isInput⟩

theorem isDeviceChain_tasks {tasks : List Task}
    (host : ∀ task ∈ tasks, task.prog.source.triple = none) :
    isDeviceChain (tasks.map Task.prog) = false := by
  cases tasks with
  | nil => rfl
  | cons first rest => simp [isDeviceChain, host first (by simp)]

/-- A wrapper finds its slots in its block, a leaf gets its values. -/
theorem seenArguments_passed {i : Nat} {input : FuseInput}
    (here : inputs[i]? = some input)
    (installed : Installed data start fusedAt (some (fusedArgs env recorded
      progs inputs (deduplicate recorded env.typeId inputs))))
    (undisturbed : Undisturbed data start memory) :
    seenArguments memory input
        ((fusedSlots env progs inputs
          (deduplicate recorded env.typeId inputs)).passed recorded fusedAt i
            input) =
      recordedArguments recorded input := by
  cases wrapper : input.isWrapper with
  | false => simp [seenArguments, FusedSlots.passed, wrapper]
  | true =>
      have built := deduplicate_deduped recorded env.typeId inputs
      obtain ⟨first, atStart, -, block⟩ := built.wrapper here wrapper
      have pointers : packedOutput env progs inputs = false := by
        have wrapped : inputs.any FuseInput.isWrapper = true :=
          List.any_eq_true.mpr ⟨input, List.mem_of_getElem? here, wrapper⟩
        simp [packedOutput, wrapped]
      have place : (deduplicate recorded env.typeId
          inputs).wrapperBlockStart.getD i 0 = first := by
        rw [List.getD_eq_getElem?_getD, atStart, Option.getD_some]
      rw [seenArguments, FusedSlots.passed, recordedArguments, if_pos wrapper,
        if_pos wrapper, if_pos wrapper]
      refine List.ext_getElem (by simp [FuseInput.arity]) ?_
      intro k bound bound'
      have inside : k < input.slots.length := by simpa using bound'
      have stored : (deduplicate recorded env.typeId
          inputs).table.entries[first + k]? =
            some (wrapperSlot input.slots[k]) := by
        have atBlock := congrArg (·[k]?) block
        simp only [List.getElem?_take, List.getElem?_drop, List.getElem?_map,
          List.getElem?_eq_getElem inside, Option.map_some,
          if_pos (show k < input.arity from inside)] at atBlock
        exact atBlock
      have word := installed.slot undisturbed
        (@slotAt_fusedArgs env progs inputs recorded _ _ _ pointers stored)
      simp only [fusedSlots, List.getElem_map, List.getElem_range,
        List.headD_cons, wordOf_wordBytes, place, offset_add]
      rw [← Nat.mul_add]
      exact word

/-- The arguments of a fused program are kept by its compilation. -/
theorem fused_args (codeAt : Address) {fused : CommandProg}
    (collected : fuseInputs progs = some inputs)
    (returned : fuseLlvmir env recorded progs = some fused) :
    (jitLlvmir recorded codeAt "" fused).args =
      some (fusedArgs env recorded progs inputs
        (deduplicate recorded env.typeId inputs)) := by
  simp only [fuseLlvmir, fuseDedup, collected, Option.map_some,
    Option.bind_eq_bind, Option.bind_some, Option.bind_eq_some_iff,
    Option.pure_def, Option.some.injEq] at returned
  obtain ⟨first, -, rfl⟩ := returned
  exact jitLlvmir_args_of_params recorded codeAt "" rfl

/-- A chain of host programs is fused into a host program. -/
theorem fused_host {fused : CommandProg}
    (returned : fuseLlvmir env recorded progs = some fused)
    (host : isDeviceChain progs = false) : fused.source.triple = none := by
  have target := returned
  simp only [fuseLlvmir, Option.bind_eq_bind, Option.bind_eq_some_iff]
    at returned
  obtain ⟨first, head, -⟩ := returned
  rw [(fuseLlvmir_target target head).1]
  cases progs with
  | nil => exact (Option.some_ne_none _ head.symm).elim
  | cons other rest =>
      obtain rfl := Option.some.inj head
      simpa [isDeviceChain] using host

/-- A fused host program is launched through its fused entry. -/
theorem launch_fused {functions : Symbols → Functions}
    {stackAt : Nat → Address} {fused : CommandProg} (codeAt : Address)
    (returned : fuseLlvmir env recorded progs = some fused)
    (host : isDeviceChain progs = false) :
    ∃ rest, launch functions stackAt fusedAt
        (jitLlvmir recorded codeAt "" fused) memory =
      (functions (installedSymbols (mergeExterns progs)) fusedWrapper).bind
        fun kernel => kernel (wordBytes fusedAt :: rest) memory := by
  have merged := fuseLlvmir_externs returned
  have isHost := fused_host returned host
  simp only [fuseLlvmir, Option.bind_eq_bind, Option.bind_eq_some_iff,
    Option.pure_def, Option.some.injEq] at returned
  obtain ⟨first, head, ⟨inputs', dedup⟩, -, made⟩ := returned
  have selected : (parseLlvmir fused.source).bind
      (jitSelect fused.source.symbol) =
        some (fusedEntry env progs inputs' dedup) := by
    rw [← made]
    simp only [host, Bool.false_eq_true, if_false]
    exact jitSelect_fused (env.link_entry inputs' _ rfl) rfl rfl
  rw [launch, jitLlvmir_source _ _ _ isHost, selected, Option.bind_some,
    merged, launchEntry]
  cases packed : packedOutput env progs inputs' with
  | true =>
      have shape : isVoidPtrSize (fusedEntry env progs inputs' dedup) := by
        simp [isVoidPtrSize, fusedEntry, fusedParams, host, packed,
          IrType.isPointerTy, IrType.isIntegerTy]
      simp only [launched, jitPrototype, shape, Bool.or_true, if_true]
      exact ⟨_, rfl⟩
  | false =>
      have shape : isVoidVoidptr (fusedEntry env progs inputs' dedup) := by
        simp [isVoidVoidptr, fusedEntry, fusedParams, host, packed,
          IrType.isPointerTy]
      have other : isVoidPtrSize (fusedEntry env progs inputs' dedup) =
          false := by
        simp [isVoidPtrSize, fusedEntry, fusedParams, host, packed]
      simp only [launched, jitPrototype, shape, other, Bool.true_or, if_true,
        Bool.false_eq_true, if_false]
      exact ⟨_, rfl⟩

/-- The functions of the module of a fused chain. -/
def fusedModule (env : FuseEnv) (recorded : Memory)
    (stackAt : Nat → Address) (tasks : List Task) (inputs : List FuseInput) :
    Symbols → Functions :=
  fusedFunctions (tasks.map Task.unit) stackAt
    (fusedSlots env (tasks.map Task.prog) inputs
      (deduplicate recorded env.typeId inputs))

/-- A fused chain is launched by running the body of its entry. -/
theorem launch_fusedModule {stackAt : Nat → Address} {tasks : List Task}
    {fused : CommandProg} (codeAt : Address)
    (returned : fuseLlvmir env recorded (tasks.map Task.prog) = some fused)
    (host : ∀ task ∈ tasks, task.prog.source.triple = none) :
    ∃ rest, launch (fusedModule env recorded stackAt tasks inputs) stackAt
        fusedAt (jitLlvmir recorded codeAt "" fused) memory =
      runBody (lookup (linkedDefinitions (tasks.map Task.unit)
          (installedSymbols (mergeExterns (tasks.map Task.prog))))) stackAt
        (fusedSlots env (tasks.map Task.prog) inputs
          (deduplicate recorded env.typeId inputs)).hostWrapper
        (wordBytes fusedAt :: rest) memory := by
  obtain ⟨rest, entered⟩ := @launch_fused env (tasks.map Task.prog) recorded
    memory fusedAt (fusedModule env recorded stackAt tasks inputs) stackAt fused
    codeAt returned (isDeviceChain_tasks host)
  refine ⟨rest, ?_⟩
  rw [entered, fusedModule, fusedFunctions, if_pos rfl, Option.bind_some]

/--
A chain of host programs without packed bodies, as it was recorded, with the
arguments of every program and those of the fused program in memory.  A leaf's
values and the argument buffers are not among the data that the entries write, and
the merged table binds the names of every module as its own table does.
-/
structure FusedChain (env : FuseEnv) (data : Address → Prop)
    (recorded start : Memory) (tasks : List Task) (inputs : List FuseInput)
    (fused : CommandProg) (codeAt fusedAt : Address) : Prop where
  collected : fuseInputs (tasks.map Task.prog) = some inputs
  returned : fuseLlvmir env recorded (tasks.map Task.prog) = some fused
  host : ∀ task ∈ tasks, task.prog.source.triple = none
  unpacked : inputs.any FuseInput.isPackedLeaf = false
  aligned : ∀ type, 0 < env.abiAlign type
  describes : ∀ input ∈ inputs, input.DescribesEntry
  nonNull : NonNull inputs
  typed : WellTyped inputs (deduplicate recorded env.typeId inputs)
  alike : ∀ {i : Nat} {task : Task} {input : FuseInput},
    tasks[i]? = some task → inputs[i]? = some input → Alike task input
  externs : ExternsKept tasks
  behaves : ∀ {i : Nat} {task : Task} {input : FuseInput},
    tasks[i]? = some task → inputs[i]? = some input →
      Behaves data start input (recordedArguments recorded input)
        (task.kernel input.entry)
  kept : ∀ input ∈ inputs, Recorded data recorded start input
  alone : ∀ task ∈ tasks,
    Installed data start task.argsAt (task.compiled recorded).args
  installed : Installed data start fusedAt
    (jitLlvmir recorded codeAt "" fused).args

namespace FusedChain

variable {tasks : List Task} {fused : CommandProg} {codeAt : Address}
  (chain : FusedChain env data recorded start tasks inputs fused codeAt
    fusedAt)

include chain

theorem fusedArgs_installed : Installed data start fusedAt
    (some (fusedArgs env recorded (tasks.map Task.prog) inputs
      (deduplicate recorded env.typeId inputs))) := by
  rw [← fused_args codeAt chain.collected chain.returned]
  exact chain.installed

/-- Every parameter is loaded as it was recorded. -/
theorem loadsRecorded : LoadsRecorded
    (fusedSlots env (tasks.map Task.prog) inputs
      (deduplicate recorded env.typeId inputs)) recorded start fusedAt := by
  apply loadsRecorded_of_shared chain.collected chain.unpacked chain.typed
    chain.describes chain.nonNull
  intro i j k i' j' input user type shared
  cases packed : packedOutput env (tasks.map Task.prog) inputs with
  | true =>
      exact loaded_packed chain.unpacked packed chain.aligned
        chain.fusedArgs_installed shared
  | false =>
      exact loaded_slots packed chain.kept chain.fusedArgs_installed shared

/-- One call of the fused entry does what the launch of its program does. -/
theorem call {stackAt : Nat → Address} {i : Nat} {task : Task}
    {input : FuseInput} (atTask : tasks[i]? = some task)
    (here : inputs[i]? = some input)
    (undisturbed : Undisturbed data start memory) :
    task.kernel input.entry
        ((fusedSlots env (tasks.map Task.prog) inputs
          (deduplicate recorded env.typeId inputs)).passed recorded fusedAt i
            input) memory =
      task.launch stackAt recorded memory ∧
      ∀ after, task.launch stackAt recorded memory = some after →
        Undisturbed data start after := by
  obtain ⟨task', atTask', member, isInput⟩ := exists_task chain.collected here
  obtain rfl := Option.some.inj (atTask.symm.trans atTask')
  have alike := chain.alike atTask here
  have behaves := chain.behaves atTask here
  have host := chain.host task member
  have unpacked : input.isPackedLeaf = false := by
    simpa using List.any_eq_false.mp chain.unpacked input
      (List.mem_of_getElem? here)
  have alone := chain.alone task member
  rw [Task.compiled,
    jitLlvmir_args recorded task.codeAt "" host alike.compiles alike.packed]
    at alone
  obtain ⟨values, launched, seen⟩ := @launch_alone data recorded start memory
    task input stackAt isInput unpacked host alike alone
    (chain.kept input (List.mem_of_getElem? here)) undisturbed
  rw [launched]
  exact
    ⟨behaves.same _ _ memory undisturbed
        (seenArguments_passed here chain.fusedArgs_installed undisturbed) seen,
      fun after => behaves.writes values memory after undisturbed seen⟩

/-- The chain is the same when nothing but data has been changed. -/
theorem later (undisturbed : Undisturbed data start memory) :
    FusedChain env data recorded memory tasks inputs fused codeAt fusedAt :=
  { chain with
    behaves := fun atTask here => (chain.behaves atTask here).later undisturbed
    kept := fun input member => (chain.kept input member).later undisturbed
    alone := fun task member => (chain.alone task member).later undisturbed
    installed := chain.installed.later undisturbed }

/-- No launch changes anything but data. -/
theorem launch_keeps {stackAt : Nat → Address} {task : Task}
    (member : task ∈ tasks) (undisturbed : Undisturbed data start memory)
    {after : Memory} (ran : task.launch stackAt recorded memory = some after) :
    Undisturbed data start after := by
  obtain ⟨i, bound, atTask⟩ := List.getElem_of_mem member
  have inside : i < inputs.length := by
    rw [fuseInputs_length chain.collected, List.length_map]
    exact bound
  exact
    (chain.call (List.getElem?_eq_some_iff.mpr ⟨bound, atTask⟩)
      (List.getElem?_eq_getElem inside) undisturbed).2 after ran

/-- The launch of the fused program is that of the programs of its chain. -/
theorem launch_eq (stackAt : Nat → Address) :
    launch (fusedModule env recorded stackAt tasks inputs) stackAt fusedAt
        (jitLlvmir recorded codeAt "" fused) start =
      launchAll tasks stackAt recorded start := by
  obtain ⟨rest, entered⟩ := @launch_fusedModule env inputs recorded start
    fusedAt stackAt tasks fused codeAt chain.returned chain.host
  have defined : ∀ i input, inputs[i]? = some input → ∃ kernel,
      lookup (linkedDefinitions (tasks.map Task.unit)
          (installedSymbols (mergeExterns (tasks.map Task.prog))))
        (fusedName i input.entry.name) = some kernel := by
    intro i input here
    obtain ⟨task, atTask, -, -⟩ := exists_task chain.collected here
    exact ⟨_, (chain.alike atTask here).linked chain.externs atTask⟩
  have calls := @runBody_hostWrapper _ stackAt
    (fusedSlots env (tasks.map Task.prog) inputs
      (deduplicate recorded env.typeId inputs)) fusedAt recorded start rest
    chain.unpacked chain.loadsRecorded defined
  rw [entered, calls, launchAll]
  -- No call changes an argument, so the next one sees what was recorded.
  refine Emission.foldlM_agree (Undisturbed data start) ?_ ?_ fun _ _ => rfl
  · rw [List.length_zipIdx]
    exact (fuseInputs_length chain.collected).trans (List.length_map _)
  · intro k item task state atItem atTask undisturbed
    obtain ⟨input, i⟩ := item
    have here : inputs[k]? = some input ∧ k = i := by
      simpa [fusedSlots, List.getElem?_zipIdx] using atItem
    obtain ⟨here, rfl⟩ := here
    simp only [(chain.alike atTask here).linked chain.externs atTask,
      Option.bind_some]
    exact chain.call atTask here undisturbed

end FusedChain

end Chain

/-- The table of the externalized global `total`. -/
def totalExterns : List CommandProgExtern :=
  [⟨some "total", 1048576⟩]

/-- A module whose functions work on the global `total`. -/
def totalCode (functions : List IrFunction) (work : Address → Kernel) :
    ModuleCode where
  module := ⟨functions⟩
  externals := ["total"]
  code := fun symbols _ values memory =>
    (symbols "total").bind fun total => work total values memory
  code_congr := by
    intro symbols symbols' same
    rw [same "total" (List.mem_singleton.mpr rfl)]

/-- Add the first byte of the argument to a byte of data. -/
def addKernel (total : Address) : Kernel := fun values memory =>
  some (writeBytes memory total [memory total + (values.headD []).headD 0])

/-- A task that adds the value in a slot to the global `total`. -/
def addTask (slot argsAt : Address) : Task where
  prog :=
    let task := scalarTask (.integer 32) slot
    { task with source := { task.source with externs := totalExterns } }
  unit := totalCode [scalarBody (.integer 32)] addKernel
  codeAt := 0
  argsAt := argsAt

/-- Two tasks over equal values, which share a slot. -/
def counters : List Task :=
  [addTask 4097 65536, addTask 8193 131072]

def counterInputs : List FuseInput :=
  [scalarInput (.integer 32) 4097, scalarInput (.integer 32) 8193]

/-- The arguments of both tasks and of the fused program. -/
def counterMemory : Memory :=
  writeBytes
    (writeBytes (writeBytes pagedMemory 65536 (wordBytes 4097)) 131072
      (wordBytes 8193))
    196608 (wordBytes 4097)

theorem counters_cases {i : Nat} {task : Task} {input : FuseInput}
    (atTask : counters[i]? = some task)
    (here : counterInputs[i]? = some input) :
    ∃ slot argsAt, task = addTask slot argsAt ∧
      input = scalarInput (.integer 32) slot := by
  match i with
  | 0 =>
      exact ⟨4097, 65536, (Option.some.inj atTask).symm,
        (Option.some.inj here).symm⟩
  | 1 =>
      exact ⟨8193, 131072, (Option.some.inj atTask).symm,
        (Option.some.inj here).symm⟩
  | _ + 2 => exact (Option.some_ne_none _ here.symm).elim

theorem counters_alike (slot argsAt : Address) :
    Alike (addTask slot argsAt) (scalarInput (.integer 32) slot) :=
  { parsed := rfl
    selected := rfl
    packed := rfl
    wrapper := rfl }

/-- A counter depends on its value and writes its byte of data only. -/
theorem counters_behave (slot : Address) :
    Behaves (· = 1048576) counterMemory (scalarInput (.integer 32) slot)
      (recordedArguments pagedMemory (scalarInput (.integer 32) slot))
      (addKernel 1048576) := by
  constructor
  · intro values values' memory _ seen seen'
    have same : values = values' := seen.trans seen'.symm
    rw [same]
  · intro values memory after undisturbed _ ran address notData
    obtain rfl := Option.some.inj ran
    have outside : ¬ Inside 1048576 1 address := by
      unfold Inside
      bv_omega
    rw [writeBytes_outside outside]
    exact undisturbed address notData

theorem counters_param {i j : Nat} {input : FuseInput} {type : IrType}
    (param : LeafParam counterInputs i j input type) :
    i < 2 ∧ j = 0 ∧ type = .integer 32 := by
  match i, j, param.here, param.typed with
  | 0, 0, here, typed | 1, 0, here, typed =>
      obtain rfl := Option.some.inj here
      exact ⟨by decide, rfl, (Option.some.inj typed).symm⟩
  | 0, _ + 1, here, typed | 1, _ + 1, here, typed =>
      obtain rfl := Option.some.inj here
      exact (Option.some_ne_none _ typed.symm).elim
  | _ + 2, _, here, _ => exact (Option.some_ne_none _ here.symm).elim

theorem counters_typed : WellTyped counterInputs
    (deduplicate pagedMemory plainEnv.typeId counterInputs) := by
  constructor
  · intro i j input type i' j' input' type' param param' _
    rw [(counters_param param).2.2, (counters_param param').2.2]
  · intro i j input type param
    obtain ⟨bound, rfl, rfl⟩ := counters_param param
    have shared : ∀ i < 2,
        (deduplicate pagedMemory plainEnv.typeId counterInputs).index i 0 =
          some 0 := by
      decide
    exact ⟨0, shared i bound, by decide⟩

/-- The arguments lie in memory beside the values that were recorded. -/
theorem counters_recorded (address : Address)
    (inside : Inside 4097 4 address ∨ Inside 8193 4 address) :
    counterMemory address = pagedMemory address := by
  have first : ¬ Inside 65536 8 address := by
    unfold Inside at *
    bv_omega
  have second : ¬ Inside 131072 8 address := by
    unfold Inside at *
    bv_omega
  have third : ¬ Inside 196608 8 address := by
    unfold Inside at *
    bv_omega
  rw [counterMemory, writeBytes_outside third, writeBytes_outside second,
    writeBytes_outside first]

theorem counters_installed {slot argsAt : Address}
    (resident : Resident counterMemory argsAt (.slots [some slot]))
    (apart : ¬ Inside argsAt 8 1048576) :
    Installed (· = 1048576) counterMemory argsAt
      (some (.slots [some slot])) := by
  constructor
  · intro buffer isBuffer
    obtain rfl := Option.some.inj isBuffer
    exact resident
  · intro buffer isBuffer address inside isData
    obtain rfl := Option.some.inj isBuffer
    subst isData
    exact apart inside

theorem counters_chain {fused : CommandProg}
    (returned : fuseLlvmir plainEnv pagedMemory (counters.map Task.prog) =
      some fused) :
    FusedChain plainEnv (· = 1048576) pagedMemory counterMemory counters
      counterInputs fused 0 196608 where
  collected := rfl
  returned := returned
  host := by
    intro task member
    simp only [counters, List.mem_cons, List.not_mem_nil, or_false] at member
    rcases member with rfl | rfl <;> rfl
  unpacked := rfl
  aligned := fun _ => Nat.succ_pos 7
  describes := by
    intro input member
    simp only [counterInputs, List.mem_cons, List.not_mem_nil, or_false]
      at member
    rcases member with rfl | rfl <;> exact scalarInput_describes _ _
  nonNull := by unfold NonNull; decide
  typed := counters_typed
  alike := by
    intro i task input atTask here
    obtain ⟨slot, argsAt, rfl, rfl⟩ := counters_cases atTask here
    exact counters_alike slot argsAt
  externs := by
    apply @ExternsKept.of_shared counters totalExterns (by decide)
    intro task member
    simp only [counters, List.mem_cons, List.not_mem_nil, or_false] at member
    rcases member with rfl | rfl <;> rfl
  behaves := by
    intro i task input atTask here
    obtain ⟨slot, argsAt, rfl, rfl⟩ := counters_cases atTask here
    exact counters_behave slot
  kept := by
    intro input member leaf j bound address inside
    obtain rfl : j = 0 := by
      simp only [counterInputs, List.mem_cons, List.not_mem_nil, or_false]
        at member
      rcases member with rfl | rfl <;> exact Nat.lt_one_iff.mp bound
    have either : Inside 4097 4 address ∨ Inside 8193 4 address := by
      simp only [counterInputs, List.mem_cons, List.not_mem_nil, or_false]
        at member
      rcases member with rfl | rfl
      · exact Or.inl inside
      · exact Or.inr inside
    refine ⟨?_, counters_recorded address either⟩
    rintro rfl
    exact absurd either (by decide)
  alone := by
    intro task member
    simp only [counters, List.mem_cons, List.not_mem_nil, or_false] at member
    rcases member with rfl | rfl
    · exact @counters_installed 4097 65536 (by unfold Resident; decide)
        (by decide)
    · exact @counters_installed 8193 131072 (by unfold Resident; decide)
        (by decide)
  installed := by
    obtain rfl := Option.some.inj (returned.symm.trans rfl)
    exact @counters_installed 4097 196608 (by unfold Resident; decide)
      (by decide)

end Cgir.Llvm
