import Cgir.Llvm.LaunchAlone

/-!
# The run of a fused entry

Over unpacked leaves and wrappers, `__fused_wrapper` calls the entries of its
chain one after the other, each with the values that are passed to it
(`runBody_hostWrapper`).
-/

namespace Cgir.Llvm

open Cgir.Library Cgir.Model

/-! ## The fused entry -/

section Wrapper

variable {functions : Functions} {stackAt : Nat → Address}
  {slots : FusedSlots} {frame : Frame} {fusedAt : Address}

/-- The value that the fused entry loads for a slot. -/
def FusedSlots.loaded (slots : FusedSlots) (memory : Memory)
    (fusedAt : Address) (k : Nat) (type : IrType) : Value :=
  if slots.packed then
    readBytes memory (fusedAt + BitVec.ofNat 64 (slots.offset k))
      type.storeSize
  else
    argumentAt memory fusedAt k type

theorem reads_slotPtr (k : Nat)
    (first : frame.value (.param 0) = some (wordBytes fusedAt)) :
    Reads functions stackAt (slots.slotPtr k) frame
      (wordBytes (fusedAt + BitVec.ofNat 64 (slots.offset k))) := by
  have computed : Reads functions stackAt (slots.slotPtr k) frame _ :=
    reads_createGEP i8 (slots.offset k) first
  have byte : i8.storeSize * slots.offset k = slots.offset k :=
    Nat.one_mul _
  rw [wordOf_wordBytes, byte] at computed
  exact computed

/-- A value in the packed buffer. -/
theorem reads_slotLoad (k : Nat) (type : IrType)
    (first : frame.value (.param 0) = some (wordBytes fusedAt)) :
    Reads functions stackAt
      (slots.slotPtr k >>= fun slot => IRBuilder.createLoad type slot) frame
      (readBytes frame.memory (fusedAt + BitVec.ofNat 64 (slots.offset k))
        type.storeSize) := by
  apply Reads.bind (reads_slotPtr k first)
  intro slot after atSlot memory
  have loaded : Reads functions stackAt (IRBuilder.createLoad type slot)
      after _ := reads_createLoad type atSlot
  rw [memory, wordOf_wordBytes] at loaded
  exact loaded

theorem reads_loadArg (k : Nat) (type : IrType)
    (first : frame.value (.param 0) = some (wordBytes fusedAt)) :
    Reads functions stackAt (slots.loadArg k type) frame
      (slots.loaded frame.memory fusedAt k type) := by
  unfold FusedSlots.loadArg FusedSlots.loaded
  split
  · exact reads_slotLoad k type first
  · have loaded : Reads functions stackAt (emitLoadArg (.param 0) k type)
        frame _ := reads_emitLoadArg k type first
    rw [wordOf_wordBytes] at loaded
    exact loaded

/-- Loads that are emitted for some of the items of a list. -/
theorem run_loads {Item : Type} {f : Item → IRBuilder (Option Operand)}
    {items : List Item} (Holds : Item → Option Operand → Frame → Prop)
    (keeps : ∀ item value before after, Holds item value before →
      before.Later after → Holds item value after)
    (step : ∀ item ∈ items, ∀ before, frame.Later before →
      before.memory = frame.memory → ∃ value after,
        (machine functions stackAt).run (f item) before =
          some (value, after) ∧
        before.Later after ∧ after.memory = before.memory ∧
          Holds item value after) :
    ∃ values after, (machine functions stackAt).run (items.mapM f) frame =
        some (values, after) ∧
      frame.Later after ∧ after.memory = frame.memory ∧
        ∀ (position : Nat) (item : Item), items[position]? = some item →
          Holds item (values[position]?).join after := by
  have loop : ∃ (values : List (Option Operand)) (after : Frame),
      (machine functions stackAt).run (items.mapM f) frame =
        some (values, after) ∧
      frame.Later after ∧ after.memory = frame.memory ∧
        values.length = items.length ∧
          ∀ (position : Nat) (item : Item), items[position]? = some item →
            Holds item (values[position]?).join after := by
    apply Emission.Machine.run_mapM (machine functions stackAt)
      fun (done : List Item) (values : List (Option Operand))
          (after : Frame) =>
        frame.Later after ∧ after.memory = frame.memory ∧
          values.length = done.length ∧
            ∀ (position : Nat) (item : Item), done[position]? = some item →
              Holds item (values[position]?).join after
    · refine ⟨Frame.Later.refl frame, rfl, rfl, ?_⟩
      intro position item found
      exact (Option.some_ne_none _ found.symm).elim
    · intro done item rest values before all holds
      obtain ⟨later, same, length, earlier⟩ := holds
      obtain ⟨value, after, ran, later', same', atItem⟩ :=
        step item (by simp [all]) before later same
      refine ⟨value, after, ran, later.trans later', same'.trans same,
        by simp [length], ?_⟩
      intro position item' found
      rcases getElem?_concat_cases found with found' | ⟨last, isItem⟩
      · rw [List.getElem?_append_left (by
          rw [length]; exact (List.getElem?_eq_some_iff.mp found').1)]
        exact keeps item' _ before after (earlier position item' found') later'
      · subst last isItem
        rw [← length, List.getElem?_concat_length]
        exact atItem
  obtain ⟨values, after, ran, later, same, -, each⟩ := loop
  exact ⟨values, after, ran, later, same, each⟩

/-- Every slot that a leaf uses is loaded once. -/
theorem run_slotValues
    (first : frame.value (.param 0) = some (wordBytes fusedAt)) :
    ∃ values after,
      (machine functions stackAt).run slots.slotValues frame =
        some (values, after) ∧
      frame.Later after ∧ after.memory = frame.memory ∧
        ∀ k type, slots.types[k]? = some (some type) →
          ∃ operand, (values[k]?).join = some operand ∧
            after.value operand =
              some (slots.loaded frame.memory fusedAt k type) := by
  obtain ⟨values, after, ran, later, same, each⟩ :
      ∃ values after, (machine functions stackAt).run slots.slotValues frame =
          some (values, after) ∧
        frame.Later after ∧ after.memory = frame.memory ∧
          ∀ (position : Nat) (item : Option IrType × Nat),
            slots.types.zipIdx[position]? = some item →
              ∀ type, item.1 = some type →
                ∃ operand, (values[position]?).join = some operand ∧
                  after.value operand =
                    some (slots.loaded frame.memory fusedAt item.2 type) := by
    refine run_loads (fun (item : Option IrType × Nat)
        (value : Option Operand) (after : Frame) =>
      ∀ type, item.1 = some type → ∃ operand, value = some operand ∧
        after.value operand =
          some (slots.loaded frame.memory fusedAt item.2 type)) ?_ ?_
    · intro item value before after holds later type isType
      obtain ⟨operand, stored, loaded⟩ := holds type isType
      exact ⟨operand, stored, later operand _ loaded⟩
    · intro item _ before later same
      obtain ⟨type, k⟩ := item
      cases type with
      | none =>
          exact ⟨none, before, rfl, Frame.Later.refl before, rfl,
            fun type isType => (Option.some_ne_none _ isType.symm).elim⟩
      | some type =>
          obtain ⟨operand, after, ran, value, later', same'⟩ :=
            @reads_loadArg functions stackAt slots before fusedAt k type
              (later (.param 0) _ first)
          rw [same] at value
          refine ⟨some operand, after, ?_, later', same', ?_⟩
          · show (machine functions stackAt).run
              (some <$> slots.loadArg k type) before = _
            rw [Emission.Machine.run_map, ran, Option.map_some]
          · intro type' isType
            obtain rfl := Option.some.inj isType
            exact ⟨operand, rfl, value⟩
  refine ⟨values, after, ran, later, same, ?_⟩
  intro k type typed
  exact each k (some type, k) (by simp [typed]) type rfl

/-- Without packed bodies no stack slot is needed and no load is hoisted. -/
theorem unpacked_prologue (unpacked : slots.anyPackedLeaf = false) :
    slots.reconBufs = pure (slots.inputs.map fun _ => none) ∧
      slots.slotHoists =
        pure (slots.dedup.table.entries.zipIdx.map fun _ => none) := by
  constructor
  · exact Emission.mapM_eq_pure fun input _ => by simp [unpacked]
  · refine Emission.mapM_eq_pure fun item _ => ?_
    obtain ⟨unique, k⟩ := item
    simp only [unpacked, Bool.false_eq_true, if_false]
    cases unique.hoistType <;> rfl

/-- What the fused entry passes to the entry of input `i`. -/
def FusedSlots.passed (slots : FusedSlots) (recorded : Memory)
    (fusedAt : Address) (i : Nat) (input : FuseInput) : List Value :=
  if input.isWrapper then
    [wordBytes (fusedAt + BitVec.ofNat 64
      (8 * slots.dedup.wrapperBlockStart.getD i 0))]
  else
    recordedArguments recorded input

/-- Every leaf parameter is loaded as it was recorded. -/
def LoadsRecorded (slots : FusedSlots) (recorded memory : Memory)
    (fusedAt : Address) : Prop :=
  ∀ i input, slots.inputs[i]? = some input → input.isWrapper = false →
    ∀ j < input.arity, ∃ k type, slots.dedup.index i j = some k ∧
      slots.types[k]? = some (some type) ∧
        slots.loaded memory fusedAt k type =
          readBytes recorded (input.slot j) (input.paramSize j)

/-- A call keeps the operands; its memory is that of the function. -/
theorem rel_createCall {callee : String} {args : List Operand}
    {kernel : Kernel} {values : List Value}
    (defined : functions callee = some kernel)
    (has : HasValues frame args values) :
    Option.Rel (fun (ran : Unit × Frame) memory =>
        frame.Later ran.2 ∧ ran.2.memory = memory)
      ((machine functions stackAt).run (IRBuilder.createCall callee args)
        frame)
      (kernel values frame.memory) := by
  rw [run_createCall defined (Loop.mapM_eq_some_iff.mpr has)]
  cases kernel values frame.memory with
  | none => exact Option.Rel.none
  | some memory =>
      exact Option.Rel.some ⟨frame.later_next _ _, rfl⟩

/-- The entry of an input is called with the values that are passed to it. -/
theorem rel_callInput {recorded start : Memory}
    {values buffers hoists : List (Option Operand)} {i : Nat}
    {input : FuseInput} {kernel : Kernel}
    (unpacked : slots.anyPackedLeaf = false)
    (loads : LoadsRecorded slots recorded start fusedAt)
    (here : slots.inputs[i]? = some input)
    (first : frame.value (.param 0) = some (wordBytes fusedAt))
    (loaded : ∀ k type, slots.types[k]? = some (some type) →
      ∃ operand, (values[k]?).join = some operand ∧
        frame.value operand = some (slots.loaded start fusedAt k type))
    (defined : functions (fusedName i input.entry.name) = some kernel) :
    Option.Rel (fun (ran : Unit × Frame) memory =>
        frame.Later ran.2 ∧ ran.2.memory = memory)
      ((machine functions stackAt).run
        (slots.callInput values buffers hoists input i) frame)
      (kernel (slots.passed recorded fusedAt i input) frame.memory) := by
  have leaf : input.isPackedLeaf = false := by
    have none := List.any_eq_false.mp unpacked input
      (List.mem_of_getElem? here)
    simpa using none
  unfold FusedSlots.callInput FusedSlots.passed
  cases wrapper : input.isWrapper with
  | true =>
      simp only [if_true]
      obtain ⟨slice, after, ran, value, later, same⟩ :
          Reads functions stackAt
            (slicePtr (slots.dedup.wrapperBlockStart.getD i 0)) frame _ :=
        reads_createGEP .ptr _ first
      rw [wordOf_wordBytes] at value
      have has : HasValues after [slice] [_] := congrArg (fun v => [v]) value
      have called := @rel_createCall functions stackAt after _ _ _ _ defined has
      rw [Emission.Machine.run_bind, ran, Option.bind_some, ← same]
      refine Emission.rel_mono called fun called memory holds => ?_
      exact ⟨later.trans holds.1, holds.2⟩
  | false =>
      simp only [leaf, Bool.false_eq_true, if_false]
      apply rel_createCall defined
      rw [HasValues, recordedArguments, wrapper]
      simp only [Bool.false_eq_true, if_false, List.map_map]
      refine List.map_congr_left fun j member => ?_
      obtain ⟨k, type, atIndex, typed, recordedValue⟩ :=
        loads i input here wrapper j (List.mem_range.mp member)
      obtain ⟨operand, stored, value⟩ := loaded k type typed
      simp only [Function.comp_apply, atIndex, Option.getD_some, stored,
        value, recordedValue]

/-- The fused entry calls the entries of its chain one after the other. -/
theorem runBody_hostWrapper {recorded memory : Memory} {rest : List Value}
    (unpacked : slots.anyPackedLeaf = false)
    (loads : LoadsRecorded slots recorded memory fusedAt)
    (defined : ∀ i input, slots.inputs[i]? = some input →
      ∃ kernel, functions (fusedName i input.entry.name) = some kernel) :
    runBody functions stackAt slots.hostWrapper (wordBytes fusedAt :: rest)
        memory =
      slots.inputs.zipIdx.foldlM (fun memory item =>
        (functions (fusedName item.2 item.1.entry.name)).bind fun kernel =>
          kernel (slots.passed recorded fusedAt item.2 item.1) memory)
        memory := by
  let start : Frame :=
    { params := wordBytes fusedAt :: rest, results := [], memory := memory }
  have entered : start.value (.param 0) = some (wordBytes fusedAt) := rfl
  obtain ⟨values, after, ran, later, same, loaded⟩ :=
    @run_slotValues functions stackAt slots start fusedAt entered
  obtain ⟨buffers, hoists⟩ := unpacked_prologue unpacked
  have calls : Option.Rel (fun (ran : Unit × Frame) other =>
        after.Later ran.2 ∧ ran.2.memory = other)
      ((machine functions stackAt).run
        (forM slots.inputs.zipIdx fun item =>
          slots.callInput values (slots.inputs.map fun _ => none)
            (slots.dedup.table.entries.zipIdx.map fun _ => none) item.1
            item.2)
        after)
      (slots.inputs.zipIdx.foldlM (fun memory item =>
        (functions (fusedName item.2 item.1.entry.name)).bind fun kernel =>
          kernel (slots.passed recorded fusedAt item.2 item.1) memory)
        memory) := by
    apply Emission.Machine.run_forM_rel (machine functions stackAt)
      fun (_ : List (FuseInput × Nat)) (frame : Frame) (other : Memory) =>
        after.Later frame ∧ frame.memory = other
    · intro done item others frame other all holds
      obtain ⟨input, i⟩ := item
      obtain ⟨laterFrame, rfl⟩ := holds
      have member : (input, i) ∈ slots.inputs.zipIdx := by
        rw [all]
        simp
      have here := List.mem_zipIdx_iff_getElem?.mp member
      obtain ⟨kernel, found⟩ := defined i input here
      simp only [found, Option.bind_some]
      have called := @rel_callInput functions stackAt slots frame fusedAt
        recorded memory values (slots.inputs.map fun _ => none)
        (slots.dedup.table.entries.zipIdx.map fun _ => none) i input kernel
        unpacked loads here (laterFrame _ _ (later _ _ entered))
        (fun k type typed => by
          obtain ⟨operand, stored, value⟩ := loaded k type typed
          exact ⟨operand, stored, laterFrame _ _ value⟩) found
      refine Emission.rel_mono called fun called memory holds => ?_
      exact ⟨laterFrame.trans holds.1, holds.2⟩
    · exact ⟨Frame.Later.refl after, same⟩
  rw [runBody_eq, FusedSlots.hostWrapper, Emission.Machine.run_bind, ran,
    Option.bind_some, buffers, hoists]
  simp only [pure_bind]
  exact Emission.map_eq_of_rel
    (Emission.rel_mono calls fun called memory holds => holds.2)

end Wrapper

end Cgir.Llvm
