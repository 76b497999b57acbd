import Cgir.Llvm.PackedEntry

/-!
# The captures of packed bodies

A body that is compiled alone gets its captures in one buffer
(`launch_alone_packed`).  The fused buffer holds every capture at the offset of
its unique slot (`loadsCaptures`).
-/

namespace Cgir.Llvm

open Cgir.Library Cgir.Model

/-! ## A body alone -/

section Alone

variable {data : Address → Prop} {recorded start memory : Memory}
  {task : Task} {input : FuseInput} {stackAt : Nat → Address}

/-- A body that is compiled alone has a packed buffer of its captures. -/
theorem compiled_packed (run : fuseInput task.prog = some input)
    (packed : input.isPackedLeaf) (same : SameEntry task input)
    (host : task.prog.source.triple = none)
    (unpacked : task.prog.argsSize = 0) (captured : input.captures ≠ []) :
    (task.compiled recorded).args =
        some (.packed (packBuffer recorded input.captures input.slots)) ∧
      (task.compiled recorded).argsSize = input.bufSize := by
  have known := fuseInput_packed run packed
  obtain ⟨param, rest, table⟩ := List.exists_cons_of_ne_nil captured
  have packs : jitPack recorded task.prog =
      some (packBuffer recorded input.captures input.slots) :=
    @jitPack_packed recorded input 0 param task.prog known unpacked
      (by simp [table])
  rw [Task.compiled, jitLlvmir]
  simp only [same.compiles, host, Option.isSome_none, Bool.false_eq_true,
    if_false, known.entry, if_true, packs, true_and]
  rw [packBuffer, Buffer.read_length, known.bufSize]

/-- A packed buffer holds the captures of its body. -/
theorem packBuffer_slice (beside : SideBySide input)
    (nonNull : ∀ j < input.captures.length, input.slot j ≠ 0) {j : Nat}
    {param : CommandProgParam} (atCapture : input.captures[j]? = some param) :
    ((packBuffer recorded input.captures input.slots).drop
        param.offset).take param.size =
      readBytes recorded (input.slot j) param.size := by
  have bound := (List.getElem?_eq_some_iff.mp atCapture).1
  refine List.ext_getElem? fun k => ?_
  rcases Nat.lt_or_ge k param.size with inside | outside
  · rw [List.getElem?_take, if_pos inside, List.getElem?_drop,
      packBuffer_at beside atCapture inside, readBytes_getElem? inside,
      captureByte, if_neg (nonNull j bound)]
  · rw [List.getElem?_take, if_neg (by omega),
      List.getElem?_eq_none (by simpa using outside)]

/-- What a body is called with when it is launched alone. -/
theorem launch_alone_packed (run : fuseInput task.prog = some input)
    (packed : input.isPackedLeaf) (same : SameEntry task input)
    (host : task.prog.source.triple = none)
    (unpacked : task.prog.argsSize = 0) (captured : input.captures ≠ [])
    (beside : SideBySide input)
    (nonNull : ∀ j < input.captures.length, input.slot j ≠ 0)
    (installed : Installed data start task.argsAt
      (task.compiled recorded).args)
    (undisturbed : Undisturbed data start memory) :
    task.launch stackAt recorded memory =
        task.kernel input.entry (packedArguments input task.argsAt)
          memory ∧
      HoldsCaptures recorded memory input task.argsAt := by
  have shape := (fuseInput_packed run packed).entry
  obtain ⟨args, argsSize⟩ := @compiled_packed recorded task input run packed
    same host unpacked captured
  have prototype : jitPrototype input.entry = .packed := by
    simp [jitPrototype, shape]
  have direct : launched input.entry = .entry := by
    simp [launched, shape]
  constructor
  · rw [same.launch_eq host, launchEntry, prototype, direct, argsSize,
      same.function]
    rfl
  · intro j param atCapture
    rw [args] at installed
    have resident := installed.resident _ rfl
    have length : (argsBytes (.packed (packBuffer recorded input.captures
        input.slots))).length = packedBufSize input.captures :=
      Buffer.read_length _ _ _
    have fits := le_packedBufSize (List.mem_of_getElem? atCapture)
    rw [readBytes_drop (length.symm ▸ fits),
      undisturbed.readBytes (installed.apart _ rfl), resident]
    exact packBuffer_slice beside nonNull atCapture

end Alone

/-! ## The slots of the captures -/

section Slots

variable {env : FuseEnv} {progs : List CommandProg}
  {inputs : List FuseInput} {memory start : Memory} {fusedAt : Address}

/-- Packed bodies use no slot by its type. -/
theorem packed_untyped {dedup : Deduplicated}
    (packed : ∀ input ∈ inputs, input.isPackedLeaf) :
    ∀ type ∈ slotTypes inputs dedup, type = none := by
  have unused : slotUses inputs dedup = [] := by
    rw [slotUses, List.flatMap_eq_nil_iff]
    intro item member
    obtain ⟨input, i⟩ := item
    have here := List.mem_zipIdx_iff_getElem?.mp member
    simp [packed input (List.mem_of_getElem? here)]
  intro type member
  rw [slotTypes, unused] at member
  obtain ⟨k, -, rfl⟩ := List.mem_map.mp member
  rfl

theorem hoistType_storeSize (unique : UniqueSlot) :
    unique.hoistType.map IrType.storeSize = unique.hoistWidth := by
  unfold UniqueSlot.hoistType UniqueSlot.hoistWidth
  split
  · rfl
  · split
    · rename_i register
      have whole : (unique.size * 8 + 7) / 8 = unique.size := by omega
      simp [IrType.storeSize, whole]
    · rfl

/-- The slot of a capture in the packed buffer of the bodies. -/
structure CaptureSlot (memory : Memory) (dedup : Deduplicated) (i j : Nat)
    (input : FuseInput) (param : CommandProgParam) (k offset : Nat)
    (unique : UniqueSlot) : Prop where
  index : dedup.index i j = some k
  stored : dedup.table.entries[k]? = some unique
  atOffset : (packedLayout dedup.table.entries).offsets[k]? = some offset
  width : unique.hoistWidth.getD param.size = param.size
  fits : offset + param.size ≤ (packedLayout dedup.table.entries).size
  bytes : ((bodyBuffer memory dedup.table.entries).drop offset).take
      param.size = readBytes memory (input.slot j) param.size

/-- The packed buffer holds every capture at the offset of its slot. -/
theorem exists_captureSlot (run : fuseInputs progs = some inputs)
    (packed : ∀ input ∈ inputs, input.isPackedLeaf)
    (beside : ∀ input ∈ inputs, SideBySide input) (nonNull : NonNull inputs)
    {i j : Nat} {input : FuseInput} {param : CommandProgParam}
    (here : inputs[i]? = some input)
    (atCapture : input.captures[j]? = some param) :
    ∃ k offset unique, CaptureSlot memory
      (deduplicate memory env.typeId inputs) i j input param k offset
        unique := by
  have bodies := packedBodies run packed beside
  have isInput := List.mem_of_getElem? here
  have body := bodies input isInput
  have bound := body.bound atCapture
  obtain ⟨user, member, userLeaf, k', userBound, same, routed⟩ :=
    slotOf_user memory env.typeId here body.leaf bound
  have userNonNull := nonNull user member userLeaf k' userBound
  have inputNonNull := nonNull input isInput body.leaf j bound
  obtain ⟨k, index, stored⟩ := Option.bind_eq_some_iff.mp routed
  have placed := packedLayout_placed
    (deduplicate memory env.typeId inputs).table.entries
  obtain ⟨offset, atOffset⟩ : ∃ offset, (packedLayout (deduplicate memory
      env.typeId inputs).table.entries).offsets[k]? = some offset := by
    have inTable := (List.getElem?_eq_some_iff.mp stored).1
    rw [← placed.length] at inTable
    exact ⟨_, List.getElem?_eq_getElem inTable⟩
  have segment := @reconSegment_nonNull memory env.typeId inputs input i j param
    bodies here atCapture inputNonNull
  simp only [reconSegment, reconSource, reconWidth, index, stored,
    Option.getD_some, Option.bind_some, List.getD_eq_getElem?_getD, atOffset,
    Segment.mk.injEq, true_and] at segment
  have width : (uniqueSlot user k').hoistWidth.getD param.size =
      param.size := by
    simpa using congrArg List.length segment
  rw [width] at segment
  have within := (placed.within atOffset stored).2
  have footprint : param.size ≤ (uniqueSlot user k').footprint := by
    rw [← slotSize_of_slotKey body (bodies user member) userBound atCapture
      inputNonNull userNonNull same]
    exact size_le_footprint _
  have fits : offset + param.size ≤ (packedLayout (deduplicate memory
      env.typeId inputs).table.entries).size := by
    omega
  refine ⟨k, offset, uniqueSlot user k', index, stored, atOffset, width, fits,
    ?_⟩
  rw [← segment]
  exact Buffer.read_slice fits

/-- A fused entry finds every capture in its argument buffer. -/
theorem loadsCaptures (run : fuseInputs progs = some inputs)
    (packed : ∀ input ∈ inputs, input.isPackedLeaf)
    (beside : ∀ input ∈ inputs, SideBySide input) (nonNull : NonNull inputs)
    (resident : Resident start fusedAt (.packed (bodyBuffer memory
      (deduplicate memory env.typeId inputs).table.entries))) :
    LoadsCaptures
      (fusedSlots env progs inputs (deduplicate memory env.typeId inputs))
      memory start fusedAt
      (packedLayout
        (deduplicate memory env.typeId inputs).table.entries).size := by
  intro i input (here : inputs[i]? = some input) j param atCapture
  obtain ⟨k, offset, unique, slot⟩ := @exists_captureSlot env progs inputs
    memory run packed beside nonNull i j input param here atCapture
  have anyPacked : inputs.any FuseInput.isPackedLeaf = true :=
    List.any_eq_true.mpr
      ⟨input, List.mem_of_getElem? here, packed input
        (List.mem_of_getElem? here)⟩
  have place : (fusedSlots env progs inputs
      (deduplicate memory env.typeId inputs)).offset k = offset := by
    rw [FusedSlots.offset, fusedSlots, List.getD_eq_getElem?_getD]
    simp only [anyPacked, if_true, slot.atOffset, Option.getD_some]
  refine ⟨k, unique,
    { index := slot.index
      stored := slot.stored
      width := ?_
      inside := by rw [place]; exact slot.fits
      bytes := ?_ }⟩
  · intro type hoisted
    have sized := hoistType_storeSize unique
    have width := slot.width
    rw [hoisted, Option.map_some] at sized
    rw [← sized, Option.getD_some] at width
    exact width
  · have length : (argsBytes (.packed (bodyBuffer memory (deduplicate memory
        env.typeId inputs).table.entries))).length =
          (packedLayout
            (deduplicate memory env.typeId inputs).table.entries).size :=
      Buffer.read_length _ _ _
    rw [place, readBytes_drop (length.symm ▸ slot.fits), resident]
    exact slot.bytes

end Slots

end Cgir.Llvm
