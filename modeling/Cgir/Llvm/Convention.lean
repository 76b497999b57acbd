import Cgir.Llvm.Entry

/-!
# Calling conventions

A host program declares how its entry takes its arguments (`source.proto`).
Fusion and compilation look at the signature of the entry instead, at the launch
mode and at the branch that found the entry.  `convention_iff` says when they
follow the declaration.
-/

namespace Cgir.Llvm

open Cgir.Model

/-! ## What fusion takes an entry for -/

/-- An unpacked leaf, a `void**` wrapper or a packed leaf. -/
inductive Shape where
  | leaf
  | wrapper
  | packedLeaf
  deriving DecidableEq, Repr

/-- What fusion derives from the signature of an entry. -/
structure Classified where
  shape : Shape
  bufSize : Nat
  arity : Nat
  valueDedup : Bool
  deriving DecidableEq, Repr

/-- The end of the last capture of a packed buffer, at least 1. -/
def packedBufSize (params : List CommandProgParam) : Nat :=
  let bufSize :=
    params.foldl (fun size param => max size (param.offset + param.size)) 0
  if bufSize = 0 then 1 else bufSize

def leafOf (entry : IrFunction) (valueDedup : Bool) : Classified where
  shape := .leaf
  bufSize := 0
  arity := entry.params.length
  valueDedup := valueDedup

def wrapperOf (prog : CommandProg) : Classified where
  shape := .wrapper
  bufSize := 0
  arity := prog.nArgs
  valueDedup := false

/--
The shape that `command_graph_prog_fuse_llvmir` gives an entry; `none` when it
aborts because a packed body has no params table.
-/
def classify (prog : CommandProg) (found : Found) (entry : IrFunction) :
    Option Classified :=
  match found with
  | .taskSpawn =>
      if isVoidVoidptr entry then
        some (wrapperOf prog)
      else if isVoidPtrSize entry then
        prog.source.params.map fun params =>
          { shape := .packedLeaf
            bufSize := packedBufSize params
            arity := params.length
            valueDedup := false }
      else
        some (leafOf entry true)
  | .symbol => some (leafOf entry prog.source.triple.isSome)
  | .wrapper => some (wrapperOf prog)
  | .kernel => some (leafOf entry false)

/-- What `command_graph_prog_fuse_llvmir` takes a program for. -/
def fusedAs (prog : CommandProg) (module : IrModule) : Option Classified :=
  (fuseSelect prog.launchMode prog.source.symbol module).bind
    fun (found, entry) => classify prog found entry

/-! ## What a compiled entry receives -/

/-- A value that an entry receives: `args`, `args_size` or `*args[k]`. -/
inductive Received where
  | args
  | argsSize
  | loaded (k : Nat)
  deriving DecidableEq, Repr

/-- The function that the launcher of a compiled program points to. -/
inductive Launched where
  | entry
  | jitWrapper
  deriving DecidableEq, Repr

/-- `lookup_name`: an entry of another shape is called by `__cgir_jit_wrapper`. -/
def launched (entry : IrFunction) : Launched :=
  if isVoidVoidptr entry || isVoidPtrSize entry then .entry else .jitWrapper

/-- The prototype that `command_graph_jit_llvmir` installs. -/
def jitPrototype (entry : IrFunction) : FunctionPrototype :=
  if isVoidPtrSize entry then .packed else .variadic

/--
What the entry receives when the compiled program is launched: a packed launcher
is called with `args` and `args_size`, any other with `args`.
-/
def received (entry : IrFunction) : List Received :=
  match launched entry, jitPrototype entry with
  | .jitWrapper, _ => (List.range entry.params.length).map Received.loaded
  | .entry, .packed => [.args, .argsSize]
  | .entry, _ => [.args]

/--
What the entry that `command_graph_jit_llvmir` compiles receives; `none` when it
compiles no host code.
-/
def launchedWith (source : CommandProgSource) (module : IrModule) :
    Option (List Received) :=
  if source.triple.isSome then
    none
  else
    (jitSelect source.symbol module).map received

/-! ## What the declaration says -/

/-- The signatures that a declared prototype allows. -/
def Legal (proto : CommandProgSourceProto) (entry : IrFunction) : Prop :=
  match proto with
  | .unpackedParams => True
  | .voidPtrptr => entry.returnsVoid ∧ ∃ space, entry.params = [.pointer space]
  | .packedBuffer =>
      entry.returnsVoid ∧
        ∃ space bits, entry.params = [.pointer space, .integer bits]

def declaredShape : CommandProgSourceProto → Shape
  | .unpackedParams => .leaf
  | .voidPtrptr => .wrapper
  | .packedBuffer => .packedLeaf

def declaredReceived (proto : CommandProgSourceProto) (entry : IrFunction) :
    List Received :=
  match proto with
  | .unpackedParams => (List.range entry.params.length).map Received.loaded
  | .voidPtrptr => [.args]
  | .packedBuffer => [.args, .argsSize]

/-- Both consumers treat the entry as the program declares it. -/
def FollowsProto (prog : CommandProg) (module : IrModule)
    (entry : IrFunction) : Prop :=
  (fusedAs prog module).map Classified.shape =
      some (declaredShape prog.source.proto) ∧
    launchedWith prog.source module =
      some (declaredReceived prog.source.proto entry)

/--
When the declaration is followed.  Unpacked parameters must not look like a
wrapper or a packed body; a wrapper must be a task body, or be found as
`__fused_wrapper`; a packed body must be a task body with a params table.
-/
def Conforms (prog : CommandProg) (module : IrModule) (entry : IrFunction) :
    Prop :=
  match prog.source.proto with
  | .unpackedParams =>
      isVoidVoidptr entry = false ∧ isVoidPtrSize entry = false
  | .voidPtrptr =>
      prog.launchMode = .taskSpawn ∨
        (prog.source.symbol = none ∧
          module.getFunction fusedWrapper = some entry)
  | .packedBuffer =>
      prog.launchMode = .taskSpawn ∧ prog.source.params.isSome

section Following

variable {prog : CommandProg} {module : IrModule} {found : Found}
  {entry : IrFunction}

theorem definition_eq_some_iff {function : Option IrFunction}
    {found' : Found} :
    definition found' function = some (found, entry) ↔
      found = found' ∧ function = some entry ∧
        entry.isDeclaration = false := by
  cases function with
  | none => simp [definition]
  | some other =>
      cases declared : other.isDeclaration with
      | true =>
          simp only [definition, declared, if_true, reduceCtorEq, false_iff]
          rintro ⟨-, same, defined⟩
          rw [Option.some.injEq] at same
          subst same
          exact Bool.noConfusion (declared.symm.trans defined)
      | false =>
          simp only [definition, declared, Bool.false_eq_true, if_false,
            Option.some.injEq, Prod.mk.injEq]
          constructor
          · rintro ⟨rfl, rfl⟩
            exact ⟨rfl, rfl, declared⟩
          · rintro ⟨rfl, rfl, -⟩
            exact ⟨rfl, rfl⟩

/-- The branch that finds the entry of a task body. -/
theorem found_taskSpawn (mode : prog.launchMode = .taskSpawn)
    (selected : fuseSelect prog.launchMode prog.source.symbol module =
      some (found, entry)) : found = .taskSpawn := by
  rw [mode, fuseSelect, definition_eq_some_iff] at selected
  exact selected.1

/-- The branches that find the entry of a directly launched program. -/
theorem found_direct (mode : prog.launchMode = .direct)
    (selected : fuseSelect prog.launchMode prog.source.symbol module =
      some (found, entry)) :
    found = .symbol ∧ prog.source.symbol.isSome ∨
      found = .wrapper ∧ prog.source.symbol = none ∧
        module.getFunction fusedWrapper = some entry ∧
          isVoidVoidptr entry ∨
      found = .kernel ∧ prog.source.symbol = none ∧
        (isVoidVoidptr entry →
          module.getFunction fusedWrapper ≠ some entry) := by
  have ofKernel : ∀ {chosen},
      (findKernel module).map (Found.kernel, ·) = some (found, chosen) →
        found = .kernel ∧ chosen.isDeclaration = false := by
    intro chosen mapped
    obtain ⟨kernel, kernelFound, same⟩ := Option.map_eq_some_iff.mp mapped
    rw [Prod.mk.injEq] at same
    obtain ⟨rfl, rfl⟩ := same
    exact ⟨rfl, findKernel_defined kernelFound⟩
  rw [mode] at selected
  cases symbol : prog.source.symbol with
  | some name =>
      rw [symbol, fuseSelect, definition_eq_some_iff] at selected
      exact Or.inl ⟨selected.1, rfl⟩
  | none =>
      simp only [symbol, fuseSelect] at selected
      cases wrapped : module.getFunction fusedWrapper with
      | none =>
          simp only [wrapped] at selected
          exact Or.inr (Or.inr ⟨(ofKernel selected).1, rfl, by simp⟩)
      | some wrapper =>
          simp only [wrapped] at selected
          split at selected
          · rename_i isWrapper
            rw [Option.some.injEq, Prod.mk.injEq] at selected
            obtain ⟨rfl, rfl⟩ := selected
            rw [Bool.and_eq_true] at isWrapper
            exact Or.inr (Or.inl ⟨rfl, rfl, rfl, isWrapper.2⟩)
          · rename_i notWrapper
            obtain ⟨isKernel, defined⟩ := ofKernel selected
            refine Or.inr (Or.inr ⟨isKernel, rfl, fun shape same => ?_⟩)
            rw [Option.some.injEq] at same
            subst same
            exact notWrapper (by simp [defined, shape])

/-- Only an entry of a launcher's own shape receives `args` itself. -/
theorem args_received_iff :
    Received.args ∈ received entry ↔
      (isVoidVoidptr entry || isVoidPtrSize entry) = true := by
  cases voidptr : isVoidVoidptr entry <;>
    cases ptrSize : isVoidPtrSize entry <;>
      simp [received, launched, jitPrototype, voidptr, ptrSize]

/-- Unpacked parameters reach the entry unless it looks like another shape. -/
theorem received_unpacked_iff :
    received entry =
        (List.range entry.params.length).map Received.loaded ↔
      isVoidVoidptr entry = false ∧ isVoidPtrSize entry = false := by
  constructor
  · intro same
    have notArgs : Received.args ∉ received entry := by
      rw [same]
      simp
    rw [args_received_iff, Bool.not_eq_true, Bool.or_eq_false_iff] at notArgs
    exact notArgs
  · rintro ⟨voidptr, ptrSize⟩
    simp [received, launched, voidptr, ptrSize]

theorem isVoidVoidptr_of_pointer (void : entry.returnsVoid)
    {space : Nat} (params : entry.params = [.pointer space]) :
    isVoidVoidptr entry = true ∧ isVoidPtrSize entry = false := by
  simp [isVoidVoidptr, isVoidPtrSize, void, params, IrType.isPointerTy]

theorem isVoidPtrSize_of_pointer_integer (void : entry.returnsVoid)
    {space bits : Nat}
    (params : entry.params = [.pointer space, .integer bits]) :
    isVoidVoidptr entry = false ∧ isVoidPtrSize entry = true := by
  simp [isVoidVoidptr, isVoidPtrSize, void, params, IrType.isPointerTy,
    IrType.isIntegerTy]

section Declared

variable
  (selected : fuseSelect prog.launchMode prog.source.symbol module =
    some (found, entry))

include selected

private theorem unpacked_iff (proto : prog.source.proto = .unpackedParams) :
    (classify prog found entry).map Classified.shape = some .leaf ∧
        received entry =
          (List.range entry.params.length).map Received.loaded ↔
      Conforms prog module entry := by
  simp only [Conforms, proto, received_unpacked_iff]
  refine ⟨And.right, fun shapes => ⟨?_, shapes⟩⟩
  obtain ⟨voidptr, ptrSize⟩ := shapes
  cases mode : prog.launchMode with
  | taskSpawn =>
      rw [found_taskSpawn mode selected]
      simp [classify, voidptr, ptrSize, leafOf]
  | direct =>
      rcases found_direct mode selected with
        ⟨rfl, -⟩ | ⟨-, -, -, isWrapper⟩ | ⟨rfl, -⟩
      · rfl
      · rw [voidptr] at isWrapper
        exact (Bool.false_ne_true isWrapper).elim
      · rfl

private theorem voidPtrptr_iff (proto : prog.source.proto = .voidPtrptr)
    (legal : Legal .voidPtrptr entry) :
    (classify prog found entry).map Classified.shape = some .wrapper ∧
        received entry = [.args] ↔
      Conforms prog module entry := by
  obtain ⟨void, space, params⟩ := legal
  obtain ⟨voidptr, ptrSize⟩ := isVoidVoidptr_of_pointer void params
  have receivesArgs : received entry = [.args] := by
    simp [received, launched, jitPrototype, voidptr, ptrSize]
  simp only [Conforms, proto, receivesArgs, and_true]
  cases mode : prog.launchMode with
  | taskSpawn =>
      rw [found_taskSpawn mode selected]
      simp [classify, voidptr, wrapperOf]
  | direct =>
      rcases found_direct mode selected with
        ⟨rfl, explicit⟩ | ⟨rfl, symbol, wrapped, -⟩ | ⟨rfl, symbol, other⟩
      · obtain ⟨name, symbol⟩ := Option.isSome_iff_exists.mp explicit
        simp [classify, leafOf, symbol]
      · simp [classify, wrapperOf, symbol, wrapped]
      · simp [classify, leafOf, symbol, other voidptr]

private theorem packedBuffer_iff (proto : prog.source.proto = .packedBuffer)
    (legal : Legal .packedBuffer entry) :
    (classify prog found entry).map Classified.shape = some .packedLeaf ∧
        received entry = [.args, .argsSize] ↔
      Conforms prog module entry := by
  obtain ⟨void, space, bits, params⟩ := legal
  obtain ⟨voidptr, ptrSize⟩ := isVoidPtrSize_of_pointer_integer void params
  have receivesBuffer : received entry = [.args, .argsSize] := by
    simp [received, launched, jitPrototype, voidptr, ptrSize]
  simp only [Conforms, proto, receivesBuffer, and_true]
  cases mode : prog.launchMode with
  | taskSpawn =>
      rw [found_taskSpawn mode selected]
      cases table : prog.source.params <;>
        simp [classify, voidptr, ptrSize, table]
  | direct =>
      rcases found_direct mode selected with
        ⟨rfl, -⟩ | ⟨-, -, -, isWrapper⟩ | ⟨rfl, -⟩
      · simp [classify, leafOf]
      · rw [voidptr] at isWrapper
        exact (Bool.false_ne_true isWrapper).elim
      · simp [classify, leafOf]

end Declared

end Following

/--
For a host program whose entry both consumers find and whose signature the
declared prototype allows, both follow the declaration if and only if the
program conforms.
-/
theorem convention_iff (prog : CommandProg) (module : IrModule)
    (entry : IrFunction) (host : prog.source.triple = none)
    (fused : (fuseSelect prog.launchMode prog.source.symbol module).map
      Prod.snd = some entry)
    (compiled : jitSelect prog.source.symbol module = some entry)
    (legal : Legal prog.source.proto entry) :
    FollowsProto prog module entry ↔ Conforms prog module entry := by
  obtain ⟨⟨found, same⟩, selected, rfl⟩ := Option.map_eq_some_iff.mp fused
  have classified : fusedAs prog module = classify prog found same := by
    rw [fusedAs, selected, Option.bind_some]
  have launch : launchedWith prog.source module = some (received same) := by
    rw [launchedWith, host, compiled]
    rfl
  rw [FollowsProto, classified, launch, Option.some.injEq]
  cases proto : prog.source.proto with
  | unpackedParams => exact unpacked_iff selected proto
  | voidPtrptr => exact voidPtrptr_iff selected proto (proto ▸ legal)
  | packedBuffer => exact packedBuffer_iff selected proto (proto ▸ legal)

/-- A kernel over one captured pointer. -/
def onePointer : IrFunction where
  name := "kernel"
  linkage := .external
  isDeclaration := false
  returnsVoid := true
  params := [.ptr]

/-- A task body that declares the given prototype. -/
def onePointerTask (proto : CommandProgSourceProto) : CommandProg where
  prototype := .variadic
  launcher := none
  args := some (.slots [some 4096])
  nArgs := 1
  argsSize := 0
  argsOwned := false
  source :=
    { type := .llvmir
      raw := some (.module ⟨[onePointer]⟩)
      owned := false
      symbol := none
      externs := []
      externsOwned := false
      triple := none
      arch := none
      runtimeBc := none
      proto := proto
      params := none
      paramsOwned := false }
  launchMode := .taskSpawn
  grid := ⟨1, 1, 1⟩
  block := ⟨1, 1, 1⟩

theorem convention_iff_onePointer :
    FollowsProto (onePointerTask .voidPtrptr) ⟨[onePointer]⟩ onePointer ↔
      Conforms (onePointerTask .voidPtrptr) ⟨[onePointer]⟩ onePointer :=
  convention_iff (onePointerTask .voidPtrptr) ⟨[onePointer]⟩ onePointer rfl
    (by decide) (by decide) ⟨rfl, 0, rfl⟩

/-- The captured pointer is taken for the slot array. -/
theorem convention_broken :
    Legal .unpackedParams onePointer ∧
      (fusedAs (onePointerTask .unpackedParams) ⟨[onePointer]⟩).map
          Classified.shape = some .wrapper ∧
        launchedWith (onePointerTask .unpackedParams).source ⟨[onePointer]⟩ =
          some [.args] ∧
          ¬FollowsProto (onePointerTask .unpackedParams) ⟨[onePointer]⟩
            onePointer := by
  refine ⟨trivial, by decide, by decide, ?_⟩
  unfold FollowsProto
  decide

end Cgir.Llvm
