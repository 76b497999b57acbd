import Cgir.Llvm.Packed

/-!
# Fusing and compiling a program

What `command_graph_prog_fuse_llvmir` writes into the first program of a chain,
and what `command_graph_jit_llvmir` writes into the program it compiles.
-/

namespace Cgir.Llvm

open Cgir.Library Cgir.Model

/-! ## The fused program -/

/--
What fusion takes from LLVM: the addresses of types, their alignments, and the
module that linking the inputs and adding an entry gives.  An entry keeps its
name.  `forcePacked` is the environment variable `CGIR_PROG_FUSE_PACKED`.
-/
structure FuseEnv where
  typeId : IrType → Address
  abiAlign : IrType → Nat
  forcePacked : Bool
  link : List FuseInput → IrFunction → IrModule
  link_entry : ∀ inputs entry, entry.name = fusedWrapper →
    (link inputs entry).getFunction fusedWrapper = some entry

/-- The chain runs on a device. -/
def isDeviceChain (progs : List CommandProg) : Bool :=
  match progs with
  | [] => false
  | first :: _ => first.source.triple.isSome

/-- Whether the fused entry takes one packed buffer. -/
def packedOutput (env : FuseEnv) (progs : List CommandProg)
    (inputs : List FuseInput) : Bool :=
  (env.forcePacked ||
      progs.any (fun prog => prog.source.proto = .packedBuffer) ||
      inputs.any FuseInput.isPackedLeaf) &&
    !inputs.any FuseInput.isWrapper && !isDeviceChain progs

/-- The uses of unique slots by unpacked leaves, with their types. -/
def slotUses (inputs : List FuseInput) (dedup : Deduplicated) :
    List (Nat × IrType) :=
  inputs.zipIdx.flatMap fun (input, i) =>
    if input.isWrapper || input.isPackedLeaf then
      []
    else
      input.entry.params.zipIdx.filterMap fun (type, j) =>
        (dedup.index i j).map (·, type)

/-- `slot_type`: the type of the first use of every unique slot. -/
def slotTypes (inputs : List FuseInput) (dedup : Deduplicated) :
    List (Option IrType) :=
  (List.range dedup.table.entries.length).map fun k =>
    ((slotUses inputs dedup).find? fun use => use.1 = k).map Prod.snd

/-- The packed buffer of unpacked leaves, laid out by the slot types. -/
def typedBuffer (env : FuseEnv) (memory : Memory) (inputs : List FuseInput)
    (dedup : Deduplicated) : List (BitVec 8) :=
  let types := slotTypes inputs dedup
  let layout := layoutOf (types.map fun type =>
    ((type.getD .ptr).storeSize, env.abiAlign (type.getD .ptr)))
  let segments := ((layout.offsets.zip types).zip dedup.table.entries).map
    fun ((offset, type), unique) =>
      ⟨offset, match type with
        | some type => slotValue memory unique.slot type.storeSize
        | none => []⟩
  Buffer.read (Buffer.writeAll (fun _ => 0) segments) 0 layout.size

/-- The packed buffer of packed bodies. -/
def bodyBuffer (memory : Memory) (slots : List UniqueSlot) :
    List (BitVec 8) :=
  Buffer.read (fusedBuffer memory slots) 0 (packedLayout slots).size

/-- The arguments of a fused program. -/
def fusedArgs (env : FuseEnv) (memory : Memory) (progs : List CommandProg)
    (inputs : List FuseInput) (dedup : Deduplicated) : ArgsBuffer :=
  if packedOutput env progs inputs then
    if inputs.any FuseInput.isPackedLeaf then
      .packed (bodyBuffer memory dedup.table.entries)
    else
      .packed (typedBuffer env memory inputs dedup)
  else
    .slots (dedup.table.entries.map fun unique =>
      if unique.slot = 0 then none else some unique.slot)

/-- The parameters of the fused entry. -/
def fusedParams (env : FuseEnv) (progs : List CommandProg)
    (inputs : List FuseInput) (dedup : Deduplicated) : List IrType :=
  if isDeviceChain progs then
    (slotTypes inputs dedup).map (Option.getD · .ptr)
  else if packedOutput env progs inputs then
    [.ptr, .integer 64]
  else
    [.ptr]

/-- The fused entry. -/
def fusedEntry (env : FuseEnv) (progs : List CommandProg)
    (inputs : List FuseInput) (dedup : Deduplicated) : IrFunction where
  name := fusedWrapper
  linkage := .external
  isDeclaration := false
  returnsVoid := true
  params := fusedParams env progs inputs dedup

/-- The union of the externalized globals, one for each name. -/
def mergeExterns (progs : List CommandProg) : List CommandProgExtern :=
  let all := progs.flatMap fun prog => prog.source.externs
  all.foldl (fun merged entry =>
    if entry.name.isNone || merged.any (fun other => other.name = entry.name)
    then merged else merged ++ [entry]) []

/-- The bytes of a packed buffer; 0 says that the arguments are slots. -/
def argsSizeOf : ArgsBuffer → Nat
  | .slots _ => 0
  | .packed bytes => bytes.length

/--
The fused program, written into the first program of the chain; `none` when
fusion aborts.
-/
def fuseLlvmir (env : FuseEnv) (memory : Memory) (progs : List CommandProg) :
    Option CommandProg := do
  let first ← progs.head?
  let (inputs, dedup) ← fuseDedup memory env.typeId progs
  let packed := packedOutput env progs inputs
  let device := isDeviceChain progs
  let args := fusedArgs env memory progs inputs dedup
  let externs := mergeExterns progs
  return { first with
    prototype := if packed then .packed else .variadic
    launcher := none
    args := some args
    nArgs := dedup.table.entries.length
    argsSize := argsSizeOf args
    argsOwned := true
    source :=
      { first.source with
        type := .llvmir
        raw := some (.module
          (env.link inputs (fusedEntry env progs inputs dedup)))
        owned := true
        symbol := if device then some fusedWrapper else none
        proto := if packed then .packedBuffer else .voidPtrptr
        params := none
        paramsOwned := false
        externs := externs
        externsOwned := !externs.isEmpty } }

/-- The fused program has the target of the first one. -/
theorem fuseLlvmir_target {env : FuseEnv} {memory : Memory}
    {progs : List CommandProg} {fused first : CommandProg}
    (returned : fuseLlvmir env memory progs = some fused)
    (isFirst : progs.head? = some first) :
    fused.source.triple = first.source.triple ∧
      fused.source.arch = first.source.arch ∧
        fused.source.runtimeBc = first.source.runtimeBc := by
  simp only [fuseLlvmir, isFirst, Option.bind_eq_bind, Option.bind_some,
    Option.bind_eq_some_iff, Option.pure_def, Option.some.injEq] at returned
  obtain ⟨collected, -, rfl⟩ := returned
  exact ⟨rfl, rfl, rfl⟩

/-- The fused program has the merged table of externalized globals. -/
theorem fuseLlvmir_externs {env : FuseEnv} {memory : Memory}
    {progs : List CommandProg} {fused : CommandProg}
    (returned : fuseLlvmir env memory progs = some fused) :
    fused.source.externs = mergeExterns progs := by
  simp only [fuseLlvmir, Option.bind_eq_bind, Option.bind_eq_some_iff,
    Option.pure_def, Option.some.injEq] at returned
  obtain ⟨first, -, collected, -, rfl⟩ := returned
  rfl

/-! ## The compiled program -/

/-- The addresses of the symbols that a module does not define. -/
abbrev Symbols := String → Option Address

/--
The absolute symbols that compilation installs for a table; a later entry
replaces an earlier one of its name.
-/
def installedSymbols (externs : List CommandProgExtern) : Symbols :=
  externs.foldl
    (fun syms entry =>
      match entry.name with
      | none => syms
      | some name => Function.update syms name (some entry.addr))
    fun _ => none

/--
The program after `command_graph_jit_llvmir`, with host code at `code` or with
the emitted `ptx`.
-/
def jitLlvmir (memory : Memory) (code : Address) (ptx : String)
    (prog : CommandProg) : CommandProg :=
  match (parseLlvmir prog.source).bind (jitSelect prog.source.symbol) with
  | none => prog
  | some entry =>
      if prog.source.triple.isSome then
        { prog with
          prototype := .variadic
          launcher := none
          source :=
            { prog.source with
              type := .ptx
              raw := some (.text ptx)
              owned := true } }
      else if isVoidPtrSize entry then
        match jitPack memory prog with
        | some bytes =>
            { prog with
              prototype := .packed
              launcher := some code
              args := some (.packed bytes)
              nArgs := (prog.source.params.getD []).length
              argsSize := bytes.length
              argsOwned := true }
        | none =>
            { prog with
              prototype := .packed
              launcher := some code }
      else
        { prog with
          prototype := .variadic
          launcher := some code }

end Cgir.Llvm
