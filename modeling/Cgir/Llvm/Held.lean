import Cgir.Library.Custody
import Cgir.Llvm.Fuse

/-!
# Programs and their heap buffers

`raw`, `args`, `externs` and `params` of a program point to buffers that the
program may own.  This module follows what `command_graph_prog_fuse_llvmir` and
`command_graph_jit_llvmir` allocate, install and free; the values that they
write are those of `fuseLlvmir` and `jitLlvmir`.
-/

namespace Cgir.Llvm

open Cgir.Library Cgir.Model

/-! ## Programs -/

/-- The pointers of a program that have an ownership flag. -/
inductive BufferField where
  | raw
  | args
  | externs
  | params
  deriving DecidableEq, Repr

/-- An allocation; no two give the same one. -/
abbrev BufferId := Nat

/-- A program with the buffers that its pointers refer to. -/
structure HeldProg where
  prog : CommandProg
  pointer : BufferField → Option BufferId
  raw_null : pointer .raw = none ↔ prog.source.raw = none
  args_null : pointer .args = none ↔ prog.args = none
  externs_null : pointer .externs = none → prog.source.externs = []
  params_null : pointer .params = none ↔ prog.source.params = none

namespace HeldProg

variable (held : HeldProg)

/-- `_owned`, `_args_owned`, `_externs_owned` and `_params_owned`. -/
def flag : BufferField → Bool
  | .raw => held.prog.source.owned
  | .args => held.prog.argsOwned
  | .externs => held.prog.source.externsOwned
  | .params => held.prog.source.paramsOwned

/-- Assign `raw` and `_owned`; a new source is in the given buffer. -/
def withRaw (buffer : BufferId) (raw : Option RawSource) : HeldProg where
  prog :=
    { held.prog with
      source := { held.prog.source with raw := raw, owned := raw.isSome } }
  pointer := Function.update held.pointer .raw (raw.map fun _ => buffer)
  raw_null := by simp
  args_null := by simpa using held.args_null
  externs_null := by simpa using held.externs_null
  params_null := by simpa using held.params_null

/-- Assign `args` and `_args_owned`; new arguments are in the given buffer. -/
def withArgs (buffer : BufferId) (args : Option ArgsBuffer) : HeldProg where
  prog := { held.prog with args := args, argsOwned := args.isSome }
  pointer := Function.update held.pointer .args (args.map fun _ => buffer)
  raw_null := by simpa using held.raw_null
  args_null := by simp
  externs_null := by simpa using held.externs_null
  params_null := by simpa using held.params_null

/-- Assign `externs` and `_externs_owned`; an empty table is null. -/
def withExterns (buffer : BufferId) (externs : List CommandProgExtern) :
    HeldProg where
  prog :=
    { held.prog with
      source :=
        { held.prog.source with
          externs := externs
          externsOwned := !externs.isEmpty } }
  pointer :=
    Function.update held.pointer .externs
      (if !externs.isEmpty then some buffer else none)
  raw_null := by simpa using held.raw_null
  args_null := by simpa using held.args_null
  externs_null := by simp
  params_null := by simpa using held.params_null

/-- Clear `params` and `_params_owned`. -/
def withoutParams : HeldProg where
  prog :=
    { held.prog with
      source := { held.prog.source with params := none, paramsOwned := false } }
  pointer := Function.update held.pointer .params none
  raw_null := by simpa using held.raw_null
  args_null := by simpa using held.args_null
  externs_null := by simpa using held.externs_null
  params_null := by simp

end HeldProg

/-! ## The heap -/

/-- The index of a program object. -/
abbrev ProgId := Nat

/-- All programs, the next buffer to allocate and the buffers freed so far. -/
structure ProgStore where
  progs : ProgId → HeldProg
  next : BufferId
  freed : List BufferId

namespace ProgStore

variable (store : ProgStore)

/-- The program is to free what the pointer refers to. -/
def owns (p : ProgId) (field : BufferField) : Bool :=
  (store.progs p).flag field && ((store.progs p).pointer field).isSome

/-- `free` of a pointer that is owned and not null. -/
def free (p : ProgId) (field : BufferField) : ProgStore :=
  if store.owns p field then
    { store with
      freed := store.freed ++ ((store.progs p).pointer field).toList }
  else
    store

/-- Assign to a program, with `malloc` when a buffer is new. -/
def assign (p : ProgId) (fresh : Bool) (change : HeldProg → HeldProg) :
    ProgStore where
  progs := Function.update store.progs p (change (store.progs p))
  next := if fresh then store.next + 1 else store.next
  freed := store.freed

/-! ## Fusion -/

/--
Step 9 of fusion, the bitcode.  A previous source of another format is not freed.
-/
def installBitcode (dst : ProgId) (packed device : Bool)
    (bitcode : RawSource) : ProgStore :=
  let released :=
    if (store.progs dst).prog.source.type = .llvmir then
      store.free dst .raw
    else
      store
  released.assign dst true fun held =>
    let held := held.withRaw store.next (some bitcode)
    { held with
      prog :=
        { held.prog with
          source :=
            { held.prog.source with
              type := .llvmir
              symbol := if device then some fusedWrapper else none
              proto := if packed then .packedBuffer else .voidPtrptr } } }

/-- Step 9 of fusion, the source.  A params table is not freed. -/
def installSource (dst : ProgId) (packed device : Bool) (bitcode : RawSource) :
    ProgStore :=
  (store.installBitcode dst packed device bitcode).assign dst false
    HeldProg.withoutParams

/-- Step 9b of fusion, the merged table of externalized globals. -/
def installExterns (dst : ProgId) (merged : List CommandProgExtern) :
    ProgStore :=
  (store.free dst .externs).assign dst (!merged.isEmpty) fun held =>
    held.withExterns store.next merged

/--
Steps 10 and 11 of fusion, the arguments and the launch parameters of the first
program.
-/
def installArgs (dst : ProgId) (first : CommandProg) (packed : Bool)
    (args : ArgsBuffer) (nArgs : Nat) : ProgStore :=
  (store.free dst .args).assign dst true fun held =>
    let held := held.withArgs store.next (some args)
    { held with
      prog :=
        { held.prog with
          prototype := if packed then .packed else .variadic
          launcher := none
          nArgs := nArgs
          argsSize := argsSizeOf args
          launchMode := first.launchMode
          grid := first.grid
          block := first.block } }

/-- The owned source of a consumed program is freed. -/
def releaseRaw (p : ProgId) : ProgStore :=
  if (store.progs p).prog.source.type = .llvmir ∧ store.owns p .raw then
    (store.free p .raw).assign p false fun held => held.withRaw store.next none
  else
    store

/-- The owned arguments of a consumed program are freed. -/
def releaseArgs (p : ProgId) : ProgStore :=
  if store.owns p .args then
    (store.free p .args).assign p false fun held =>
      let held := held.withArgs store.next none
      { held with prog := { held.prog with nArgs := 0 } }
  else
    store

/-- The owned externs of a consumed program are freed. -/
def releaseExterns (p : ProgId) : ProgStore :=
  if (store.progs p).prog.source.type = .llvmir ∧ store.owns p .externs then
    (store.free p .externs).assign p false fun held =>
      held.withExterns store.next []
  else
    store

/-- One iteration of step 12 of fusion. -/
def releaseInput (dst p : ProgId) : ProgStore :=
  if p = dst then
    store
  else
    ((store.releaseRaw p).releaseArgs p).releaseExterns p

/-- The values of the programs of a chain. -/
def values (progs : List ProgId) : List CommandProg :=
  progs.map fun p => (store.progs p).prog

/-- `command_graph_prog_fuse_llvmir`; `none` when it aborts. -/
def fuseLlvmir (env : FuseEnv) (memory : Memory) (progs : List ProgId)
    (dst : ProgId) : Option ProgStore := do
  guard (2 ≤ progs.length)
  let values := store.values progs
  let first ← values.head?
  let (inputs, dedup) ← fuseDedup memory env.typeId values
  let packed := packedOutput env values inputs
  let bitcode :=
    RawSource.module (env.link inputs (fusedEntry env values inputs dedup))
  let store := store.installSource dst packed (isDeviceChain values) bitcode
  let store := store.installExterns dst (mergeExterns values)
  let store :=
    store.installArgs dst first packed
      (fusedArgs env memory values inputs dedup) dedup.table.entries.length
  return progs.foldl (fun store p => store.releaseInput dst p) store

/-! ## Compilation -/

/-- The source is replaced by the emitted PTX. -/
def replaceSource (p : ProgId) (ptx : String) : ProgStore :=
  (store.free p .raw).assign p true fun held =>
    let held := held.withRaw store.next (some (.text ptx))
    { held with
      prog :=
        { held.prog with
          prototype := .variadic
          launcher := none
          source := { held.prog.source with type := .ptx } } }

/-- The slots are replaced by the packed buffer. -/
def replaceArgs (p : ProgId) (code : Address) (bytes : List (BitVec 8)) :
    ProgStore :=
  (store.free p .args).assign p true fun held =>
    let held := held.withArgs store.next (some (.packed bytes))
    { held with
      prog :=
        { held.prog with
          prototype := .packed
          launcher := some code
          nArgs := (held.prog.source.params.getD []).length
          argsSize := bytes.length } }

/-- The compiled function is installed. -/
def installLauncher (p : ProgId) (prototype : FunctionPrototype)
    (code : Address) : ProgStore :=
  store.assign p false fun held =>
    { held with
      prog :=
        { held.prog with prototype := prototype, launcher := some code } }

/--
`command_graph_jit_llvmir`, with host code at `code` or with the emitted `ptx`;
`none` when it aborts.
-/
def jitLlvmir (memory : Memory) (code : Address) (ptx : String) (p : ProgId) :
    Option ProgStore := do
  let prog := (store.progs p).prog
  let module ← parseLlvmir prog.source
  match jitSelect prog.source.symbol module with
  | none => return store
  | some entry =>
      if prog.source.triple.isSome then
        return store.replaceSource p ptx
      else if isVoidPtrSize entry then
        match jitPack memory prog with
        | some bytes => return store.replaceArgs p code bytes
        | none => return store.installLauncher p .packed code
      else
        return store.installLauncher p .variadic code

end ProgStore

end Cgir.Llvm
