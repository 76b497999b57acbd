import Cgir.Llvm.FusedEntry

/-!
# The slots of a fused entry

Every leaf parameter is loaded from a unique slot as it was recorded, both from
an array of slots (`loaded_slots`) and from a packed buffer (`loaded_packed`).
-/

namespace Cgir.Llvm

open Cgir.Library Cgir.Model

/-! ## The slots of the leaves -/

section Slots

variable {env : FuseEnv} {progs : List CommandProg}
  {inputs : List FuseInput} {memory start : Memory}
  {data : Address → Prop} {fusedAt : Address}

/-- Where a parameter finds its value: the slot of the first use of its key. -/
structure SharedSlot (memory : Memory) (inputs : List FuseInput)
    (dedup : Deduplicated) (i j : Nat) (input : FuseInput) (type : IrType)
    (k i' j' : Nat) (user : FuseInput) : Prop where
  index : dedup.index i j = some k
  typed : (slotTypes inputs dedup)[k]? = some (some type)
  used : LeafParam inputs i' j' user type
  bound : j' < user.arity
  stored : dedup.table.entries[k]? = some (uniqueSlot user j')
  nonNull : user.slot j' ≠ 0
  bytes : readBytes memory (user.slot j') type.storeSize =
    readBytes memory (input.slot j) type.storeSize

theorem exists_sharedSlot (run : fuseInputs progs = some inputs)
    (unpacked : inputs.any FuseInput.isPackedLeaf = false)
    (typed : WellTyped inputs (deduplicate memory env.typeId inputs))
    (describes : ∀ input ∈ inputs, input.DescribesEntry)
    (nonNull : NonNull inputs) {i j : Nat} {input : FuseInput}
    {type : IrType} (param : LeafParam inputs i j input type) :
    ∃ k i' j' user, SharedSlot memory inputs
      (deduplicate memory env.typeId inputs) i j input type k i' j' user := by
  have bound := param.bound run
  obtain ⟨user, member, userLeaf, j', userBound, same, routed⟩ :=
    slotOf_user memory env.typeId param.here param.leaf bound
  obtain ⟨i', here'⟩ := List.getElem?_of_mem member
  have userUnpacked : user.isPackedLeaf = false := by
    simpa using List.any_eq_false.mp unpacked user member
  obtain ⟨prog, -, isInput⟩ := fuseInputs_getElem? run here'
  have arity := fuseInput_leaf isInput userLeaf userUnpacked
  obtain ⟨type', typed'⟩ : ∃ type', user.entry.params[j']? = some type' :=
    ⟨_, List.getElem?_eq_getElem (arity ▸ userBound)⟩
  have param' : LeafParam inputs i' j' user type' :=
    ⟨here', userLeaf, userUnpacked, typed'⟩
  have sameIndex : (deduplicate memory env.typeId inputs).index i' j' =
      (deduplicate memory env.typeId inputs).index i j :=
    (index_eq_iff here' param.here userLeaf param.leaf userBound bound).mpr
      same
  obtain rfl := typed.consistent i' j' user type' i j input type param' param
    sameIndex
  obtain ⟨k, index, typedSlot⟩ := typed.passed i j input type' param
  have here := List.mem_of_getElem? param.here
  have bytes := readBytes_of_slotKey (describes input here)
    (nonNull user member userLeaf j' userBound)
    (nonNull input here param.leaf j bound) same
  rw [paramSize_leaf param.unpacked param.typed] at bytes
  refine ⟨k, i', j', user, index, typedSlot, param', userBound, ?_,
    nonNull user member userLeaf j' userBound, bytes⟩
  rw [Deduplicated.slotOf, index, Option.bind_some] at routed
  exact routed

/-- The slots of a fused program are the unique slots. -/
theorem slotAt_fusedArgs {dedup : Deduplicated} {k : Nat}
    {unique : UniqueSlot} (pointers : packedOutput env progs inputs = false)
    (stored : dedup.table.entries[k]? = some unique) :
    slotAt (fusedArgs env memory progs inputs dedup) k =
      some unique.slot := by
  rw [fusedArgs, if_neg (by simp [pointers]), slotAt, List.getElem?_map,
    stored, Option.map_some, Option.map_some, Option.some.injEq]
  split
  · rename_i null
    exact null.symm
  · rfl

/-- It is enough that every slot is loaded as its first use recorded it. -/
theorem loadsRecorded_of_shared (run : fuseInputs progs = some inputs)
    (unpacked : inputs.any FuseInput.isPackedLeaf = false)
    (typed : WellTyped inputs (deduplicate memory env.typeId inputs))
    (describes : ∀ input ∈ inputs, input.DescribesEntry)
    (nonNull : NonNull inputs)
    (loads : ∀ {i j k i' j' : Nat} {input user : FuseInput} {type : IrType},
      SharedSlot memory inputs (deduplicate memory env.typeId inputs) i j
          input type k i' j' user →
        (fusedSlots env progs inputs
          (deduplicate memory env.typeId inputs)).loaded start fusedAt k type =
          readBytes memory (user.slot j') type.storeSize) :
    LoadsRecorded
      (fusedSlots env progs inputs (deduplicate memory env.typeId inputs))
      memory start fusedAt := by
  intro i input here leaf j bound
  change inputs[i]? = some input at here
  have leafUnpacked : input.isPackedLeaf = false := by
    simpa using List.any_eq_false.mp unpacked input
      (List.mem_of_getElem? here)
  obtain ⟨prog, -, isInput⟩ := fuseInputs_getElem? run here
  have arity := fuseInput_leaf isInput leaf leafUnpacked
  obtain ⟨type, typedParam⟩ : ∃ type, input.entry.params[j]? = some type :=
    ⟨_, List.getElem?_eq_getElem (arity ▸ bound)⟩
  obtain ⟨k, i', j', user, shared⟩ := exists_sharedSlot run unpacked typed
    describes nonNull ⟨here, leaf, leafUnpacked, typedParam⟩
  refine ⟨k, type, shared.index, shared.typed, ?_⟩
  rw [loads shared, shared.bytes, paramSize_leaf leafUnpacked typedParam]

/-- Over slots, a value is loaded behind the word of its slot. -/
theorem loaded_slots {i j k i' j' : Nat} {input user : FuseInput}
    {type : IrType} (pointers : packedOutput env progs inputs = false)
    (recorded : ∀ input ∈ inputs, Recorded data memory start input)
    (installed : Installed data start fusedAt (some (fusedArgs env memory
      progs inputs (deduplicate memory env.typeId inputs))))
    (shared : SharedSlot memory inputs (deduplicate memory env.typeId inputs)
      i j input type k i' j' user) :
    (fusedSlots env progs inputs
      (deduplicate memory env.typeId inputs)).loaded start fusedAt k type =
      readBytes memory (user.slot j') type.storeSize := by
  have undisturbed : Undisturbed data start start := fun _ _ => rfl
  have word : slotAt (fusedArgs env memory progs inputs
      (deduplicate memory env.typeId inputs)) k = some (user.slot j') :=
    slotAt_fusedArgs pointers shared.stored
  have kept := (recorded user (List.mem_of_getElem? shared.used.here)).readBytes
    shared.used.leaf shared.bound undisturbed
  rw [paramSize_leaf shared.used.unpacked shared.used.typed] at kept
  have isPointers : (fusedSlots env progs inputs
      (deduplicate memory env.typeId inputs)).packed = false := pointers
  rw [FusedSlots.loaded, isPointers, if_neg (by simp), argumentAt,
    installed.slot undisturbed word, wordOf_wordBytes, kept]

/-! ## The packed buffer of unpacked leaves -/

/-- The extents of the typed slots. -/
def typedExtents (env : FuseEnv) (types : List (Option IrType)) :
    List (Nat × Nat) :=
  types.map fun type =>
    ((type.getD .ptr).storeSize, env.abiAlign (type.getD .ptr))

/-- The slots of the packed buffer lie in order inside it. -/
theorem typedLayout_arranged (dedup : Deduplicated)
    (aligned : ∀ type, 0 < env.abiAlign type) :
    Arranged 0 (typedExtents env (slotTypes inputs dedup))
      (typedLayout env inputs dedup).offsets
      (typedLayout env inputs dedup).size := by
  have arranged := placeSlots_arranged 0
    (typedExtents env (slotTypes inputs dedup)) (by
      intro extent member
      obtain ⟨type, -, rfl⟩ := List.mem_map.mp member
      exact aligned _)
  have larger : (placeSlots 0
      (typedExtents env (slotTypes inputs dedup))).2 ≤
        (typedLayout env inputs dedup).size := by
    simp only [typedLayout, layoutOf, typedExtents]
    split <;> omega
  exact
    { length := arranged.length
      first_le := Nat.zero_le _
      within := fun atOffset atExtent =>
        ⟨Nat.zero_le _,
          Nat.le_trans (arranged.within atOffset atExtent).2 larger⟩
      ordered := arranged.ordered }

/-- What is copied into the packed buffer for every slot. -/
def typedSegments (env : FuseEnv) (memory : Memory) (inputs : List FuseInput)
    (dedup : Deduplicated) : List (Segment (BitVec 8)) :=
  (((typedLayout env inputs dedup).offsets.zip
      (slotTypes inputs dedup)).zip dedup.table.entries).map
    fun ((offset, type), unique) =>
      ⟨offset, match type with
        | some type => slotValue memory unique.slot type.storeSize
        | none => []⟩

theorem typedBuffer_eq (dedup : Deduplicated) :
    typedBuffer env memory inputs dedup =
      Buffer.read (Buffer.writeAll (fun _ => 0)
        (typedSegments env memory inputs dedup)) 0
          (typedLayout env inputs dedup).size :=
  rfl

/-- The packed buffer holds the value of every typed slot at its offset. -/
theorem typedBuffer_slot {dedup : Deduplicated} {k : Nat} {type : IrType}
    {unique : UniqueSlot} (aligned : ∀ type, 0 < env.abiAlign type)
    (typed : (slotTypes inputs dedup)[k]? = some (some type))
    (stored : dedup.table.entries[k]? = some unique)
    (nonNull : unique.slot ≠ 0) :
    ∃ offset, (typedLayout env inputs dedup).offsets[k]? = some offset ∧
      offset + type.storeSize ≤ (typedLayout env inputs dedup).size ∧
        ((typedBuffer env memory inputs dedup).drop offset).take
            type.storeSize =
          readBytes memory unique.slot type.storeSize := by
  have arranged : Arranged 0 (typedExtents env (slotTypes inputs dedup))
      (typedLayout env inputs dedup).offsets
      (typedLayout env inputs dedup).size := typedLayout_arranged dedup aligned
  have extent : (typedExtents env (slotTypes inputs dedup))[k]? =
      some (type.storeSize, env.abiAlign type) := by
    simp [typedExtents, typed]
  obtain ⟨offset, atOffset⟩ : ∃ offset,
      (typedLayout env inputs dedup).offsets[k]? = some offset := by
    have bound := (List.getElem?_eq_some_iff.mp extent).1
    rw [← arranged.length] at bound
    exact ⟨_, List.getElem?_eq_getElem bound⟩
  have within := (arranged.within atOffset extent).2
  have segment : (typedSegments env memory inputs dedup)[k]? =
      some ⟨offset, readBytes memory unique.slot type.storeSize⟩ := by
    have pair : (((typedLayout env inputs dedup).offsets.zip
        (slotTypes inputs dedup)).zip dedup.table.entries)[k]? =
          some ((offset, some type), unique) :=
      List.getElem?_zip_eq_some.mpr
        ⟨List.getElem?_zip_eq_some.mpr ⟨atOffset, typed⟩, stored⟩
    have value : slotValue memory unique.slot type.storeSize =
        readBytes memory unique.slot type.storeSize := if_neg nonNull
    rw [typedSegments, List.getElem?_map, pair, Option.map_some]
    simp only [value]
  refine ⟨offset, atOffset, within, ?_⟩
  rw [typedBuffer_eq, Buffer.read_slice within]
  refine read_eq_readBytes fun byte inside => ?_
  refine Buffer.writeAll_eq segment
    ((Segment.at?_add byte).trans (readBytes_getElem? inside)) ?_
  -- Later slots begin behind this one.
  intro later other after at_later value covered
  obtain ⟨⟨⟨offset', type'⟩, unique'⟩, atPair, rfl⟩ :=
    Option.map_eq_some_iff.mp ((List.getElem?_map ..).symm.trans at_later)
  have atOffset' := (List.getElem?_zip_eq_some.mp
    (List.getElem?_zip_eq_some.mp atPair).1).1
  have behind : offset + type.storeSize ≤ offset' :=
    arranged.ordered after atOffset extent atOffset'
  rw [Segment.at?_eq_none_iff.mpr
    (Or.inl (by show _ < offset'; omega))] at covered
  exact (Option.some_ne_none _ covered.symm).elim

/-- In a packed buffer, a value is loaded at the offset of its slot. -/
theorem loaded_packed {i j k i' j' : Nat} {input user : FuseInput}
    {type : IrType} (unpacked : inputs.any FuseInput.isPackedLeaf = false)
    (packed : packedOutput env progs inputs)
    (aligned : ∀ type, 0 < env.abiAlign type)
    (installed : Installed data start fusedAt (some (fusedArgs env memory
      progs inputs (deduplicate memory env.typeId inputs))))
    (shared : SharedSlot memory inputs (deduplicate memory env.typeId inputs)
      i j input type k i' j' user) :
    (fusedSlots env progs inputs
      (deduplicate memory env.typeId inputs)).loaded start fusedAt k type =
      readBytes memory (user.slot j') type.storeSize := by
  obtain ⟨offset, atOffset, fits, bytes⟩ := @typedBuffer_slot env inputs memory
    _ k type _ aligned shared.typed shared.stored shared.nonNull
  have buffer : fusedArgs env memory progs inputs
      (deduplicate memory env.typeId inputs) =
        .packed (typedBuffer env memory inputs
          (deduplicate memory env.typeId inputs)) := by
    rw [fusedArgs, if_pos packed, if_neg (by simp [unpacked])]
  rw [buffer] at installed
  have resident := installed.resident _ rfl
  have size : (argsBytes (.packed (typedBuffer env memory inputs
      (deduplicate memory env.typeId inputs)))).length =
        (typedLayout env inputs (deduplicate memory env.typeId inputs)).size :=
    Buffer.read_length _ _ _
  have isPacked : (fusedSlots env progs inputs
      (deduplicate memory env.typeId inputs)).packed = true := packed
  have place : (fusedSlots env progs inputs
      (deduplicate memory env.typeId inputs)).offset k = offset := by
    rw [FusedSlots.offset, fusedSlots, List.getD_eq_getElem?_getD]
    simp only [unpacked, Bool.false_eq_true, if_false, atOffset,
      Option.getD_some]
  rw [FusedSlots.loaded, isPacked, if_pos rfl, place,
    readBytes_drop (size ▸ fits), resident]
  exact bytes

end Slots

end Cgir.Llvm
