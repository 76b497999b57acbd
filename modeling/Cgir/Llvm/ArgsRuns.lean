import Cgir.Library.Transition
import Cgir.Llvm.Fuse
import Cgir.Llvm.PackedAgree

/-!
# The arguments of a program over fusions and compilations

`args` is an array of slots or a packed buffer, and both passes write it.
`reads_are_slots` says in which runs no pass takes a packed buffer for slots.
-/

namespace Cgir.Llvm

open Cgir.Library Cgir.Model

/-! ## Runs -/

/-- The programs of the nodes of a graph; a fused node is gone. -/
abbrev Programs := NodeId → Option CommandProg

/-- Compile the program of a node, or fuse the programs of a chain. -/
inductive FuseJit where
  | jit (node : NodeId)
  | fuse (head : NodeId) (rest : List NodeId)
  deriving DecidableEq, Repr

/-- The programs of a chain of nodes. -/
def chainProgs (programs : Programs) (head : NodeId) (rest : List NodeId) :
    Option (List CommandProg) :=
  (head :: rest).mapM programs

/--
One call of `command_graph_jit_llvmir` or `command_graph_prog_fuse_llvmir`, with
any memory and any emitted code.  A fusion keeps the first node of its chain.
-/
inductive Steps (env : FuseEnv) : Programs → FuseJit → Programs → Prop
  | jit {programs : Programs} {node : NodeId} {prog : CommandProg}
      (memory : Memory) (code : Address) (ptx : String)
      (found : programs node = some prog) :
      Steps env programs (.jit node)
        (Function.update programs node
          (some (jitLlvmir memory code ptx prog)))
  | fuse {programs : Programs} {head : NodeId} {rest : List NodeId}
      {progs : List CommandProg} {fused : CommandProg} (memory : Memory)
      (found : chainProgs programs head rest = some progs)
      (returned : fuseLlvmir env memory progs = some fused) :
      Steps env programs (.fuse head rest)
        (Function.update
          (fun node => if node ∈ rest then none else programs node) head
          (some fused))

/-! ## Reads of `args` as slots -/

/-- The arguments are not a packed buffer. -/
def HoldsSlots (prog : CommandProg) : Prop :=
  ∀ bytes, prog.args ≠ some (.packed bytes)

/-- Fusion reads `args[k]` of a program as a slot address. -/
def FuseReads (prog : CommandProg) (k : Nat) : Prop :=
  ∃ module classified, parseLlvmir prog.source = some module ∧
    fusedAs prog module = some classified ∧ k < classified.arity

/-- Compilation reads `args` of a program as slots to pack. -/
def JitReads (prog : CommandProg) : Prop :=
  ∃ module entry params, parseLlvmir prog.source = some module ∧
    jitSelect prog.source.symbol module = some entry ∧
      prog.source.triple = none ∧ isVoidPtrSize entry ∧
        prog.source.params = some params ∧ 0 < params.length ∧
          prog.argsSize = 0

/-- Whatever an action reads as slots is an array of slots. -/
def ReadsSlots (programs : Programs) : FuseJit → Prop
  | .jit node => ∀ prog, programs node = some prog → JitReads prog →
      HoldsSlots prog
  | .fuse head rest => ∀ node ∈ head :: rest, ∀ prog,
      programs node = some prog → ∀ k, FuseReads prog k → HoldsSlots prog

/--
Fusion takes a program with the packed prototype only if it is a task body
without a params table, which it rejects.
-/
def Allowed (programs : Programs) : FuseJit → Prop
  | .jit _ => True
  | .fuse head rest => ∀ node ∈ head :: rest, ∀ prog,
      programs node = some prog → prog.prototype = .packed →
        prog.launchMode = .taskSpawn ∧ prog.source.params = none

/-! ## The invariant -/

/-- What is known of a program whose arguments are a packed buffer. -/
structure Packed (prog : CommandProg) : Prop where
  prototype : prog.prototype = .packed
  argsSize : 0 < prog.argsSize
  host : prog.source.triple = none
  entry : ∃ module entry, parseLlvmir prog.source = some module ∧
    jitSelect prog.source.symbol module = some entry ∧ isVoidPtrSize entry
  fused : prog.source.params = none → prog.source.symbol = none ∧
    ∃ module entry, parseLlvmir prog.source = some module ∧
      module.getFunction fusedWrapper = some entry ∧ isVoidPtrSize entry

/-- Packed arguments are recognizable as such. -/
def Tagged (prog : CommandProg) : Prop :=
  ∀ bytes, prog.args = some (.packed bytes) → Packed prog

section Invariant

variable {env : FuseEnv} {memory : Memory} {prog : CommandProg}

theorem HoldsSlots.tagged (slots : HoldsSlots prog) : Tagged prog :=
  fun bytes packed => (slots bytes packed).elim

/-- Compilation never takes a packed buffer for slots. -/
theorem Tagged.jit_reads (tagged : Tagged prog) (reads : JitReads prog) :
    HoldsSlots prog := by
  intro bytes packed
  obtain ⟨_, _, _, -, -, -, -, -, -, unpacked⟩ := reads
  exact Nat.ne_of_gt (tagged bytes packed).argsSize unpacked

/-- Fusion rejects a fused task body over a packed buffer. -/
theorem Packed.rejected (packed : Packed prog)
    (task : prog.launchMode = .taskSpawn)
    (table : prog.source.params = none) (k : Nat) : ¬FuseReads prog k := by
  rintro ⟨module, classified, parsed, classifies, -⟩
  obtain ⟨symbol, module', entry, parsed', wrapped, shape⟩ :=
    packed.fused table
  obtain rfl := Option.some.inj (parsed.symm.trans parsed')
  obtain ⟨⟨found, entry'⟩, selected, isClass⟩ :=
    Option.bind_eq_some_iff.mp classifies
  rw [task, symbol, fuseSelect, Option.bind_none, Option.orElse_none, wrapped,
    Option.orElse_some, definition_eq_some_iff] at selected
  obtain ⟨rfl, same, -⟩ := selected
  obtain rfl := Option.some.inj same
  have notWrapper : isVoidVoidptr entry = false := by
    cases params : entry.params with
    | nil => simp [isVoidVoidptr, params]
    | cons first rest =>
        cases rest with
        | nil => simp [isVoidPtrSize, params] at shape
        | cons second rest => simp [isVoidVoidptr, params]
  simp [classify, notWrapper, shape, table] at isClass

theorem packBuffer_length (memory : Memory)
    (params : List CommandProgParam) (slots : List Address) :
    0 < (packBuffer memory params slots).length := by
  rw [packBuffer, Buffer.read_length]
  simp only [packedBufSize]
  split <;> omega

/-- Compilation packs the slots of a program with a params table only. -/
theorem jitPack_spec {bytes : List (BitVec 8)}
    (packs : jitPack memory prog = some bytes) :
    prog.source.params ≠ none ∧ 0 < bytes.length := by
  rw [jitPack] at packs
  cases params : prog.source.params with
  | none =>
      simp only [params] at packs
      exact (Option.some_ne_none _ packs.symm).elim
  | some params' =>
      refine ⟨Option.some_ne_none _, ?_⟩
      simp only [params] at packs
      split at packs
      · cases args : prog.args with
        | none =>
            simp only [args, Option.some.injEq] at packs
            exact packs ▸ packBuffer_length _ _ _
        | some args' =>
            simp only [args] at packs
            obtain ⟨slots, -, rfl⟩ := Option.map_eq_some_iff.mp packs
            exact packBuffer_length _ _ _
      · exact (Option.some_ne_none _ packs.symm).elim

/-- Compilation keeps packed arguments recognizable. -/
theorem Tagged.jit (tagged : Tagged prog) (code : Address) (ptx : String) :
    Tagged (jitLlvmir memory code ptx prog) := by
  rw [jitLlvmir]
  cases select :
      (parseLlvmir prog.source).bind (jitSelect prog.source.symbol) with
  | none => exact tagged
  | some entry =>
      obtain ⟨module, parsed, selected⟩ := Option.bind_eq_some_iff.mp select
      simp only
      split
      · rename_i device
        intro bytes packed
        rw [(tagged bytes packed).host] at device
        exact Bool.noConfusion device
      · rename_i host
        rw [Bool.not_eq_true, Option.isSome_eq_false_iff,
          Option.isNone_iff_eq_none] at host
        split
        · rename_i shape
          cases packs : jitPack memory prog with
          | some bytes =>
              obtain ⟨table, size⟩ := jitPack_spec packs
              exact fun _ _ =>
                { prototype := rfl
                  argsSize := size
                  host := host
                  entry := ⟨module, entry, parsed, selected, shape⟩
                  fused := fun missing => (table missing).elim }
          | none =>
              intro bytes packed
              have before := tagged bytes packed
              exact
                { prototype := rfl
                  argsSize := before.argsSize
                  host := host
                  entry := before.entry
                  fused := before.fused }
        · rename_i other
          intro bytes packed
          obtain ⟨module', entry', parsed', selected', shape⟩ :=
            (tagged bytes packed).entry
          obtain rfl := Option.some.inj (parsed.symm.trans parsed')
          obtain rfl := Option.some.inj (selected.symm.trans selected')
          exact (other shape).elim

theorem layoutOf_size (extents : List (Nat × Nat)) :
    0 < (layoutOf extents).size := by
  simp only [layoutOf]
  split <;> omega

/-- A packed buffer is never empty. -/
theorem fusedArgs_packed {progs : List CommandProg} {inputs : List FuseInput}
    {dedup : Deduplicated} {bytes : List (BitVec 8)}
    (args : fusedArgs env memory progs inputs dedup = .packed bytes) :
    packedOutput env progs inputs ∧ 0 < bytes.length := by
  rw [fusedArgs] at args
  split at args
  · rename_i output
    refine ⟨output, ?_⟩
    split at args
    · rw [← ArgsBuffer.packed.inj args, bodyBuffer, Buffer.read_length]
      exact layoutOf_size _
    · rw [← ArgsBuffer.packed.inj args, typedBuffer, Buffer.read_length]
      exact layoutOf_size _
  · exact ArgsBuffer.noConfusion args

/-- Compilation finds the fused entry of a module. -/
theorem jitSelect_fused {module : IrModule} {entry : IrFunction}
    (wrapped : module.getFunction fusedWrapper = some entry)
    (defined : entry.isDeclaration = false)
    (visible : entry.hasLocalLinkage = false) :
    jitSelect none module = some entry := by
  simp [jitSelect, jitResolve, wrapped, defined, resolvable_defined defined,
    visible]

/-- A fused program has recognizable arguments. -/
theorem tagged_fuse {progs : List CommandProg} {fused : CommandProg}
    (returned : fuseLlvmir env memory progs = some fused) : Tagged fused := by
  simp only [fuseLlvmir, Option.bind_eq_bind, Option.bind_eq_some_iff,
    Option.pure_def, Option.some.injEq] at returned
  obtain ⟨first, head, ⟨inputs, dedup⟩, -, rfl⟩ := returned
  intro bytes packed
  obtain ⟨output, size⟩ := fusedArgs_packed (Option.some.inj packed)
  have host : isDeviceChain progs = false := by
    rw [packedOutput, Bool.and_eq_true, Bool.not_eq_true'] at output
    exact output.2
  have wrapped := env.link_entry inputs (fusedEntry env progs inputs dedup) rfl
  have shape : isVoidPtrSize (fusedEntry env progs inputs dedup) := by
    simp [isVoidPtrSize, fusedEntry, fusedParams, host, output,
      IrType.isPointerTy, IrType.isIntegerTy]
  have args := Option.some.inj packed
  refine
    { prototype := if_pos output
      argsSize := ?_
      host := ?_
      entry := ⟨_, fusedEntry env progs inputs dedup, rfl, ?_, shape⟩
      fused := fun _ => ⟨?_, _, _, rfl, wrapped, shape⟩ }
  · show 0 < argsSizeOf (fusedArgs env memory progs inputs dedup)
    rw [args]
    exact size
  · obtain ⟨rest, rfl⟩ : ∃ rest, progs = first :: rest := by
      cases progs with
      | nil => exact (Option.some_ne_none _ head.symm).elim
      | cons other rest => exact ⟨rest, congrArg (· :: rest)
          (Option.some.inj head)⟩
    rw [isDeviceChain, Option.isSome_eq_false_iff, Option.isNone_iff_eq_none]
      at host
    exact host
  · show jitSelect (if isDeviceChain progs then some fusedWrapper else none) _ =
      _
    rw [host]
    exact jitSelect_fused wrapped rfl rfl
  · show (if isDeviceChain progs then some fusedWrapper else none) = none
    rw [host]
    rfl

/-- The step: all programs stay recognizable. -/
theorem steps_tagged {before after : Programs} {action : FuseJit}
    (tagged : ∀ node prog, before node = some prog → Tagged prog)
    (taken : Steps env before action after) :
    ∀ node prog, after node = some prog → Tagged prog := by
  cases taken with
  | jit memory code ptx found =>
      rename_i node prog
      intro node' prog' here
      by_cases same : node' = node
      · subst same
        rw [Function.update_self, Option.some.injEq] at here
        exact here ▸ (tagged node' prog found).jit code ptx
      · rw [Function.update_of_ne same] at here
        exact tagged node' prog' here
  | fuse memory found returned =>
      rename_i head rest progs fused
      intro node' prog' here
      by_cases same : node' = head
      · subst same
        rw [Function.update_self, Option.some.injEq] at here
        exact here ▸ tagged_fuse returned
      · rw [Function.update_of_ne same] at here
        split at here
        · exact (Option.some_ne_none _ here.symm).elim
        · exact tagged node' prog' here

end Invariant

/--
In every run from recorded programs whose fusions are allowed, an allowed action
reads nothing but arrays of slots as slots.
-/
theorem reads_are_slots (env : FuseEnv) (recorded programs : Programs)
    (slots : ∀ node prog, recorded node = some prog → HoldsSlots prog)
    (run : Run (Steps env) Allowed recorded programs) (action : FuseJit)
    (allowed : Allowed programs action) : ReadsSlots programs action := by
  have tagged : ∀ node prog, programs node = some prog → Tagged prog :=
    run.invariant (fun node prog here => (slots node prog here).tagged)
      fun before _ taken => steps_tagged before taken
  cases action with
  | jit node =>
      intro prog here reads
      exact (tagged node prog here).jit_reads reads
  | fuse head rest =>
      intro node member prog here k reads bytes packed
      have isPacked := tagged node prog here bytes packed
      obtain ⟨task, table⟩ := allowed node member prog here isPacked.prototype
      exact isPacked.rejected task table k reads

/-- An environment whose linked modules hold the fused entry only. -/
def plainEnv : FuseEnv where
  typeId := pagedTypeId
  abiAlign := fun _ => 8
  forcePacked := false
  link := fun _ entry => ⟨[entry]⟩
  link_entry := by
    intro inputs entry name
    simp [IrModule.getFunction, name]

/-- A packed task with one capture of eight bytes. -/
def valueTask : CommandProg :=
  { nullTask 8 with args := some (.slots [some 4096]) }

/-- Two such tasks in a row. -/
def twoTasks : Programs :=
  fun node => if node < 2 then some valueTask else none

theorem twoTasks_recorded (node : NodeId) (prog : CommandProg)
    (here : twoTasks node = some prog) : prog = valueTask := by
  unfold twoTasks at here
  split at here
  · exact (Option.some.inj here).symm
  · exact (Option.some_ne_none _ here.symm).elim

theorem twoTasks_slots (node : NodeId) (prog : CommandProg)
    (here : twoTasks node = some prog) : HoldsSlots prog := by
  rw [twoTasks_recorded node prog here]
  exact fun bytes packed => ArgsBuffer.noConfusion (Option.some.inj packed)

/-- Fused first, the tasks are compiled from a packed buffer that is tagged. -/
theorem reads_are_slots_twoTasks :
    ∃ programs, Run (Steps plainEnv) Allowed twoTasks programs ∧
      (programs 0).map CommandProg.argsSize = some 8 ∧
        ReadsSlots programs (.jit 0) := by
  have permitted : Allowed twoTasks (.fuse 0 [1]) := by
    intro node member prog here packed
    rw [twoTasks_recorded node prog here] at packed
    exact FunctionPrototype.noConfusion packed
  obtain ⟨programs, fused, size⟩ : ∃ programs,
      Run (Steps plainEnv) Allowed twoTasks programs ∧
        (programs 0).map CommandProg.argsSize = some 8 :=
    ⟨_, Run.next (.fuse 0 [1]) Run.start permitted
      (Steps.fuse pagedMemory rfl rfl), rfl⟩
  exact ⟨programs, fused, size,
    reads_are_slots plainEnv twoTasks programs twoTasks_slots fused (.jit 0)
      trivial⟩

/-- Compiled first, the packed buffers are fused as if they were slots. -/
theorem reads_packed_bytes :
    ∃ programs, Run (Steps plainEnv) (fun _ _ => True) twoTasks programs ∧
      ¬ReadsSlots programs (.fuse 0 [1]) := by
  refine ⟨_, Run.next (.jit 1)
    (Run.next (.jit 0) Run.start trivial
      (Steps.jit pagedMemory 65536 "" rfl)) trivial
    (Steps.jit pagedMemory 65536 "" rfl), fun slots => ?_⟩
  refine slots 0 (by simp) (jitLlvmir pagedMemory 65536 "" valueTask) rfl 0 ?_
    (readBytes pagedMemory 4096 8) (by decide)
  exact ⟨_, _, rfl, rfl, by decide⟩

end Cgir.Llvm
