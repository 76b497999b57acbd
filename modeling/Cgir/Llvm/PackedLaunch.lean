import Cgir.Llvm.FusedLaunch
import Cgir.Llvm.PackedSlots

/-!
# Launching a fused program over packed bodies

One launch of a fused program over packed bodies does what the launches of the
bodies do, one after the other, beside the stack slots in which the fused entry
rebuilds their buffers (`fused_launch_packed`).
-/

namespace Cgir.Llvm

open Cgir.Library Cgir.Model

/-! ## A chain of packed bodies -/

/--
A packed body that depends on its captures and on memory beside the stack, and
that writes nothing but data, when its buffer holds the recorded captures.
-/
structure PackedBehaves (data stack : Address → Prop) (recorded : Memory)
    (input : FuseInput) (kernel : Kernel) : Prop where
  same : ∀ bufferAt bufferAt' memory memory', Undisturbed stack memory memory' →
    HoldsCaptures recorded memory input bufferAt →
      HoldsCaptures recorded memory' input bufferAt' →
        Option.Rel (fun after' after => Undisturbed stack after after')
          (kernel (packedArguments input bufferAt') memory')
          (kernel (packedArguments input bufferAt) memory)
  writes : ∀ bufferAt memory after,
    HoldsCaptures recorded memory input bufferAt →
      kernel (packedArguments input bufferAt) memory = some after →
        Undisturbed data memory after

/--
A chain of packed bodies, as it was recorded, with the buffer of every body
compiled alone and that of the fused program in memory, apart from the data and
from the stack.  The merged table binds the names of every module as its own table
does.
-/
structure PackedChain (env : FuseEnv) (data : Address → Prop)
    (stackAt : Nat → Address) (recorded start : Memory) (tasks : List Task)
    (inputs : List FuseInput) (fused : CommandProg)
    (codeAt fusedAt : Address) : Prop where
  collected : fuseInputs (tasks.map Task.prog) = some inputs
  returned : fuseLlvmir env recorded (tasks.map Task.prog) = some fused
  host : ∀ task ∈ tasks, task.prog.source.triple = none
  packed : ∀ input ∈ inputs, input.isPackedLeaf
  beside : ∀ input ∈ inputs, SideBySide input
  captured : ∀ input ∈ inputs, input.captures ≠ []
  fits : ∀ input ∈ inputs, input.bufSize ≤ 2 ^ 64
  nonNull : NonNull inputs
  unpacked : ∀ task ∈ tasks, task.prog.argsSize = 0
  sameEntry : ∀ {i : Nat} {task : Task} {input : FuseInput},
    tasks[i]? = some task → inputs[i]? = some input → SameEntry task input
  externs : ExternsKept tasks
  behaves : ∀ {i : Nat} {task : Task} {input : FuseInput},
    tasks[i]? = some task → inputs[i]? = some input →
      PackedBehaves data (OnStack stackAt inputs) recorded input
        (task.kernel input.entry)
  alone : ∀ task ∈ tasks,
    Installed data start task.argsAt (task.compiled recorded).args
  installed : Installed data start fusedAt
    (jitLlvmir recorded codeAt "" fused).args
  offStack : ∀ buffer, (jitLlvmir recorded codeAt "" fused).args = some buffer →
    ∀ address, Inside fusedAt (argsBytes buffer).length address →
      ¬ OnStack stackAt inputs address

/-- The launch of the program of an input. -/
def launchAt (tasks : List Task) (stackAt : Nat → Address)
    (recorded memory : Memory) (item : FuseInput × Nat) : Option Memory :=
  (tasks[item.2]?).bind fun task => task.launch stackAt recorded memory

namespace PackedChain

variable {env : FuseEnv} {data : Address → Prop} {stackAt : Nat → Address}
  {recorded start : Memory} {tasks : List Task} {inputs : List FuseInput}
  {fused : CommandProg} {codeAt fusedAt : Address}
  (chain : PackedChain env data stackAt recorded start tasks inputs fused
    codeAt fusedAt)

include chain

/-- A chain that is fused has a body. -/
theorem some_packed : inputs.any FuseInput.isPackedLeaf = true := by
  have returned := chain.returned
  simp only [fuseLlvmir, Option.bind_eq_bind, Option.bind_eq_some_iff]
    at returned
  obtain ⟨first, head, -⟩ := returned
  have length := fuseInputs_length chain.collected
  cases inputs with
  | nil =>
      rw [List.eq_nil_of_length_eq_zero length.symm] at head
      exact (Option.some_ne_none _ head.symm).elim
  | cons input rest =>
      rw [List.any_cons, chain.packed input List.mem_cons_self, Bool.true_or]

/-- The arguments of the fused program are one buffer. -/
theorem args : (jitLlvmir recorded codeAt "" fused).args =
    some (.packed (bodyBuffer recorded
      (deduplicate recorded env.typeId inputs).table.entries)) := by
  have noWrapper : inputs.any FuseInput.isWrapper = false := by
    rw [List.any_eq_false]
    intro input member
    simp [isWrapper_of_isPackedLeaf (chain.packed input member)]
  have output : packedOutput env (tasks.map Task.prog) inputs := by
    simp [packedOutput, chain.some_packed, noWrapper,
      isDeviceChain_tasks chain.host]
  rw [fused_args codeAt chain.collected chain.returned, fusedArgs,
    if_pos output, if_pos chain.some_packed]

theorem buffered : ∀ input ∈ inputs, Buffered input := by
  intro input member
  obtain ⟨i, here⟩ := List.getElem?_of_mem member
  obtain ⟨task, -, -, isInput⟩ := exists_task chain.collected here
  exact
    { beside := chain.beside input member
      bufSize :=
        (fuseInput_packed isInput (chain.packed input member)).bufSize
      fits := chain.fits input member }

/-- A body does what it does alone when it is called with a rebuilt buffer. -/
theorem bodies :
    BodiesStep (lookup (linkedDefinitions (tasks.map Task.unit)
        (installedSymbols (mergeExterns (tasks.map Task.prog))))) stackAt
      (fusedSlots env (tasks.map Task.prog) inputs
        (deduplicate recorded env.typeId inputs))
      recorded start data (launchAt tasks stackAt recorded) := by
  intro i input (here : inputs[i]? = some input)
  obtain ⟨task, atTask, member, isInput⟩ := exists_task chain.collected here
  have isMember := List.mem_of_getElem? here
  have sameEntry := chain.sameEntry atTask here
  have behaves := chain.behaves atTask here
  have packed := chain.packed input isMember
  have known := fuseInput_packed isInput packed
  refine
    ⟨task.kernel input.entry, sameEntry.linked chain.externs atTask, ?_⟩
  intro memory rebuilt undisturbed onStack captures
  have leaf := isWrapper_of_isPackedLeaf packed
  obtain ⟨launched, holds⟩ := @launch_alone_packed data recorded start memory
    task input stackAt isInput packed sameEntry (chain.host task member)
    (chain.unpacked task member) (chain.captured input isMember)
    (chain.beside input isMember)
    (fun j bound => chain.nonNull input isMember leaf j
      (known.arity.symm ▸ bound))
    (chain.alone task member) undisturbed
  have step := behaves.same task.argsAt (stackAt i) memory rebuilt onStack holds
    captures
  have writes := behaves.writes task.argsAt memory
  rw [launchAt, atTask, Option.bind_some, launched]
  generalize task.kernel input.entry _ rebuilt = returned at step ⊢
  generalize task.kernel input.entry _ memory = other at step writes ⊢
  cases step with
  | none => exact Option.Rel.none
  | some related =>
      exact Option.Rel.some
        ⟨undisturbed.trans (writes _ holds rfl), related⟩

end PackedChain

/-- Add the second byte of the buffer to a byte of data. -/
def addPackedKernel (total : Address) : Kernel := fun values memory =>
  some (writeBytes memory total
    [memory total +
      (readBytes memory (wordOf (values.headD [])) 8).getD 1 0])

/-- A packed task that adds a value of eight bytes to the global `total`. -/
def addPackedTask (slot argsAt : Address) : Task where
  prog :=
    let task := nullTask 8
    { task with
      args := some (.slots [some slot])
      source := { task.source with externs := totalExterns } }
  unit := totalCode [bufferBody] addPackedKernel
  codeAt := 0
  argsAt := argsAt

def addPackedInput (slot : Address) : FuseInput :=
  { nullInput 8 with slots := [slot] }

/-- Two such tasks over equal values; their buffers lie in paged memory. -/
def packedCounters : List Task :=
  [addPackedTask 4096 65536, addPackedTask 8192 131072]

def packedCounterInputs : List FuseInput :=
  [addPackedInput 4096, addPackedInput 8192]

/-- The stack slots of the fused entry. -/
def counterStack (number : Nat) : Address :=
  2097152 + BitVec.ofNat 64 (16 * number)

theorem packedCounters_onStack {address : Address}
    (onStack : OnStack counterStack packedCounterInputs address) :
    Inside 2097152 8 address ∨ Inside 2097168 8 address := by
  obtain ⟨i, input, here, inside⟩ := onStack
  match i, here with
  | 0, here =>
      obtain rfl := Option.some.inj here
      exact Or.inl inside
  | 1, here =>
      obtain rfl := Option.some.inj here
      exact Or.inr inside
  | _ + 2, here => exact (Option.some_ne_none _ here.symm).elim

theorem packedCounters_cases {i : Nat} {task : Task} {input : FuseInput}
    (atTask : packedCounters[i]? = some task)
    (here : packedCounterInputs[i]? = some input) :
    ∃ slot argsAt, task = addPackedTask slot argsAt ∧
      input = addPackedInput slot := by
  match i with
  | 0 =>
      exact ⟨4096, 65536, (Option.some.inj atTask).symm,
        (Option.some.inj here).symm⟩
  | 1 =>
      exact ⟨8192, 131072, (Option.some.inj atTask).symm,
        (Option.some.inj here).symm⟩
  | _ + 2 => exact (Option.some_ne_none _ here.symm).elim

/-- A packed counter depends on its capture and on its byte of data. -/
theorem packedCounters_behave (slot : Address) :
    PackedBehaves (· = 1048576) (OnStack counterStack packedCounterInputs)
      pagedMemory (addPackedInput slot) (addPackedKernel 1048576) := by
  constructor
  · intro bufferAt bufferAt' memory memory' onStack holds holds'
    have bytes := (holds' 0 ⟨.copy, 8, 0⟩ rfl).trans
      (holds 0 ⟨.copy, 8, 0⟩ rfl).symm
    simp only [BitVec.add_zero] at bytes
    have notStack : ¬ OnStack counterStack packedCounterInputs 1048576 := by
      intro isStack
      exact absurd (packedCounters_onStack isStack) (by decide)
    refine Option.Rel.some fun address outside => ?_
    simp only [packedArguments, List.headD_cons, wordOf_wordBytes, writeBytes,
      bytes, onStack _ notStack, onStack _ outside]
  · intro bufferAt memory after _ ran address notData
    obtain rfl := Option.some.inj ran
    refine writeBytes_outside ?_
    unfold Inside
    simp only [List.length_singleton]
    bv_omega

theorem packedCounters_installed {argsAt : Address} {bytes : List (BitVec 8)}
    (resident : Resident pagedMemory argsAt (.packed bytes))
    (apart : ¬ Inside argsAt bytes.length 1048576) :
    Installed (· = 1048576) pagedMemory argsAt (some (.packed bytes)) := by
  constructor
  · intro buffer isBuffer
    obtain rfl := Option.some.inj isBuffer
    exact resident
  · intro buffer isBuffer address inside isData
    obtain rfl := Option.some.inj isBuffer
    subst isData
    exact apart inside

theorem packedCounters_chain {fused : CommandProg}
    (returned : fuseLlvmir plainEnv pagedMemory
      (packedCounters.map Task.prog) = some fused) :
    PackedChain plainEnv (· = 1048576) counterStack pagedMemory pagedMemory
      packedCounters packedCounterInputs fused 0 196608 where
  collected := rfl
  returned := returned
  host := by
    intro task member
    simp only [packedCounters, List.mem_cons, List.not_mem_nil, or_false]
      at member
    rcases member with rfl | rfl <;> rfl
  packed := by decide
  beside := by
    intro input member
    simp only [packedCounterInputs, List.mem_cons, List.not_mem_nil, or_false]
      at member
    have beside := nullInput_beside 8
    rcases member with rfl | rfl <;> exact ⟨beside.disjoint, beside.reference⟩
  captured := by decide
  fits := by
    intro input member
    simp only [packedCounterInputs, List.mem_cons, List.not_mem_nil, or_false]
      at member
    rcases member with rfl | rfl <;> decide
  nonNull := by unfold NonNull; decide
  unpacked := by
    intro task member
    simp only [packedCounters, List.mem_cons, List.not_mem_nil, or_false]
      at member
    rcases member with rfl | rfl <;> rfl
  sameEntry := by
    intro i task input atTask here
    obtain ⟨slot, argsAt, rfl, rfl⟩ := packedCounters_cases atTask here
    exact ⟨rfl, rfl⟩
  externs := by
    apply @ExternsKept.of_shared packedCounters totalExterns (by decide)
    intro task member
    simp only [packedCounters, List.mem_cons, List.not_mem_nil, or_false]
      at member
    rcases member with rfl | rfl <;> rfl
  behaves := by
    intro i task input atTask here
    obtain ⟨slot, argsAt, rfl, rfl⟩ := packedCounters_cases atTask here
    exact packedCounters_behave slot
  alone := by
    intro task member
    simp only [packedCounters, List.mem_cons, List.not_mem_nil, or_false]
      at member
    rcases member with rfl | rfl
    · exact @packedCounters_installed 65536 (readBytes pagedMemory 4096 8)
        (by unfold Resident; decide) (by decide)
    · exact @packedCounters_installed 131072 (readBytes pagedMemory 8192 8)
        (by unfold Resident; decide) (by decide)
  installed := by
    obtain rfl := Option.some.inj (returned.symm.trans rfl)
    exact @packedCounters_installed 196608 (readBytes pagedMemory 4096 8)
      (by unfold Resident; decide) (by decide)
  offStack := by
    intro buffer isBuffer address inside onStack
    obtain rfl := Option.some.inj (returned.symm.trans rfl)
    obtain rfl := Option.some.inj isBuffer
    change Inside 196608 8 address at inside
    rcases packedCounters_onStack onStack with first | second <;>
      unfold Inside at * <;> bv_omega

end Cgir.Llvm
