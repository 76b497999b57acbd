import Cgir.Llvm.FusedEntry

/-!
# The run of a fused entry over packed bodies

Over packed bodies, `__fused_wrapper` rebuilds the buffer of every body in a
stack slot and calls the body with it.  Beside the stack slots it changes memory
as any other calls do that find the same captures (`runBody_packedWrapper`).
-/

namespace Cgir.Llvm

open Cgir.Library Cgir.Model

/-! ## Buffers -/

theorem isWrapper_of_isPackedLeaf {input : FuseInput}
    (packed : input.isPackedLeaf) : input.isWrapper = false := by
  have shape : input.shape = .packedLeaf := by
    simpa [FuseInput.isPackedLeaf] using packed
  simp [FuseInput.isWrapper, shape]

/-- A buffer holds the captures of a body as they were recorded. -/
def HoldsCaptures (recorded memory : Memory) (input : FuseInput)
    (bufferAt : Address) : Prop :=
  ∀ j param, input.captures[j]? = some param →
    readBytes memory (bufferAt + BitVec.ofNat 64 param.offset) param.size =
      readBytes recorded (input.slot j) param.size

/-- What a packed body is called with. -/
def packedArguments (input : FuseInput) (bufferAt : Address) : List Value :=
  [wordBytes bufferAt, wordBytes (BitVec.ofNat 64 input.bufSize)]

/-- The stack slots of the buffers that a fused entry rebuilds. -/
def OnStack (stackAt : Nat → Address) (inputs : List FuseInput)
    (address : Address) : Prop :=
  ∃ i input, inputs[i]? = some input ∧
    Inside (stackAt i) input.bufSize address

/-- A body whose captures lie side by side in its buffer. -/
structure Buffered (input : FuseInput) : Prop where
  beside : SideBySide input
  bufSize : input.bufSize = packedBufSize input.captures
  fits : input.bufSize ≤ 2 ^ 64

theorem Buffered.inside {input : FuseInput} (buffered : Buffered input)
    {param : CommandProgParam} (member : param ∈ input.captures) :
    param.offset + param.size ≤ input.bufSize := by
  rw [buffered.bufSize]
  exact le_packedBufSize member

/-! ## The prologue -/

section Prologue

variable {functions : Functions} {stackAt : Nat → Address}
  {slots : FusedSlots} {frame : Frame} {fusedAt : Address}

/-- Without unpacked leaves no slot is loaded by its type. -/
theorem packed_slotValues (untyped : ∀ type ∈ slots.types, type = none) :
    slots.slotValues = pure (slots.types.zipIdx.map fun _ => none) := by
  refine Emission.mapM_eq_pure fun item member => ?_
  obtain ⟨type, k⟩ := item
  obtain rfl := untyped type (List.fst_mem_of_mem_zipIdx member)
  rfl

/-- Every body gets its stack slot. -/
theorem run_reconBufs (packed : slots.anyPackedLeaf)
    (fresh : frame.results = []) :
    ∃ values after, (machine functions stackAt).run slots.reconBufs frame =
        some (values, after) ∧
      frame.Later after ∧ after.memory = frame.memory ∧
        ∀ (i : Nat) (input : FuseInput), slots.inputs[i]? = some input →
          ∃ operand, (values[i]?).join = some operand ∧
            after.value operand = some (wordBytes (stackAt i)) := by
  have loop : ∃ (values : List (Option Operand)) (after : Frame),
      (machine functions stackAt).run slots.reconBufs frame =
        some (values, after) ∧
      frame.Later after ∧ after.memory = frame.memory ∧
        values.length = slots.inputs.length ∧
          after.results.length = slots.inputs.length ∧
            ∀ i < slots.inputs.length,
              ∃ operand, (values[i]?).join = some operand ∧
                after.value operand = some (wordBytes (stackAt i)) := by
    apply Emission.Machine.run_mapM (machine functions stackAt)
      fun (done : List FuseInput) (values : List (Option Operand))
          (after : Frame) =>
        frame.Later after ∧ after.memory = frame.memory ∧
          values.length = done.length ∧
            after.results.length = done.length ∧
              ∀ i < done.length,
                ∃ operand, (values[i]?).join = some operand ∧
                  after.value operand = some (wordBytes (stackAt i))
    · refine ⟨Frame.Later.refl frame, rfl, rfl, by simp [fresh], ?_⟩
      intro i bound
      exact (Nat.not_lt_zero i bound).elim
    · intro done input rest values before _ holds
      obtain ⟨later, same, length, count, earlier⟩ := holds
      refine ⟨some (.result before.results.length),
        before.next (wordBytes (stackAt before.results.length)) before.memory,
        ?_, later.trans (before.later_next _ _), same, by simp [length],
        by simp [count], ?_⟩
      · show (machine functions stackAt).run
          (if slots.anyPackedLeaf then
            some <$> IRBuilder.createAlloca input.bufSize
          else pure none) before = _
        rw [if_pos packed, Emission.Machine.run_map, run_createAlloca,
          Option.map_some]
      · intro i bound
        rw [List.length_append, List.length_singleton] at bound
        rcases Nat.lt_succ_iff_lt_or_eq.mp bound with before' | rfl
        · obtain ⟨operand, stored, value⟩ := earlier i before'
          rw [List.getElem?_append_left (length ▸ before')]
          exact ⟨operand, stored, before.later_next _ _ operand _ value⟩
        · refine ⟨.result before.results.length, ?_, ?_⟩
          · rw [← length, List.getElem?_concat_length]
            rfl
          · rw [← count]
            exact before.value_next _ _
  obtain ⟨values, after, ran, later, same, -, -, each⟩ := loop
  refine ⟨values, after, ran, later, same, fun i input here => ?_⟩
  exact each i (List.getElem?_eq_some_iff.mp here).1

/-- The hoisted value of a unique slot, if it has one. -/
def FusedSlots.Hoisted (slots : FusedSlots) (memory : Memory)
    (fusedAt : Address) (frame : Frame) (value : Option Operand) (k : Nat)
    (unique : UniqueSlot) : Prop :=
  match unique.hoistType with
  | some type => ∃ operand, value = some operand ∧
      frame.value operand =
        some (readBytes memory
          (fusedAt + BitVec.ofNat 64 (slots.offset k)) type.storeSize)
  | none => value = none

theorem FusedSlots.Hoisted.later {memory : Memory} {after : Frame}
    {value : Option Operand} {k : Nat} {unique : UniqueSlot}
    (hoisted : slots.Hoisted memory fusedAt frame value k unique)
    (later : frame.Later after) :
    slots.Hoisted memory fusedAt after value k unique := by
  unfold FusedSlots.Hoisted at hoisted ⊢
  cases type : unique.hoistType with
  | none =>
      rw [type] at hoisted
      exact hoisted
  | some type' =>
      rw [type] at hoisted
      obtain ⟨operand, stored, loaded⟩ := hoisted
      exact ⟨operand, stored, later operand _ loaded⟩

/-- Every slot of the size of a register is loaded once. -/
theorem run_slotHoists (packed : slots.anyPackedLeaf)
    (first : frame.value (.param 0) = some (wordBytes fusedAt)) :
    ∃ values after, (machine functions stackAt).run slots.slotHoists frame =
        some (values, after) ∧
      frame.Later after ∧ after.memory = frame.memory ∧
        ∀ (k : Nat) (unique : UniqueSlot),
          slots.dedup.table.entries[k]? = some unique →
            slots.Hoisted frame.memory fusedAt after (values[k]?).join k
              unique := by
  obtain ⟨values, after, ran, later, same, each⟩ :
      ∃ values after, (machine functions stackAt).run slots.slotHoists frame =
          some (values, after) ∧
        frame.Later after ∧ after.memory = frame.memory ∧
          ∀ (position : Nat) (item : UniqueSlot × Nat),
            slots.dedup.table.entries.zipIdx[position]? = some item →
              slots.Hoisted frame.memory fusedAt after
                (values[position]?).join item.2 item.1 := by
    refine run_loads (fun (item : UniqueSlot × Nat)
        (value : Option Operand) (after : Frame) =>
      slots.Hoisted frame.memory fusedAt after value item.2 item.1) ?_ ?_
    · intro item value before after hoisted later
      exact hoisted.later later
    · intro item _ before later same
      obtain ⟨unique, k⟩ := item
      cases type : unique.hoistType with
      | none =>
          refine ⟨none, before, ?_, Frame.Later.refl before, rfl, ?_⟩
          · simp only [type]
            rfl
          · simp only [FusedSlots.Hoisted, type]
      | some type' =>
          obtain ⟨operand, after, ran, value, later', same'⟩ :=
            @reads_slotLoad functions stackAt slots before fusedAt k type'
              (later (.param 0) _ first)
          refine ⟨some operand, after, ?_, later', same', ?_⟩
          · simp only [type, packed, if_true]
            rw [← map_bind, Emission.Machine.run_map, ran, Option.map_some]
          · simp only [FusedSlots.Hoisted, type]
            rw [same] at value
            exact ⟨operand, rfl, value⟩
  refine ⟨values, after, ran, later, same, ?_⟩
  intro k unique stored
  exact each k (unique, k) (by simp [stored])

end Prologue

/-! ## A buffer -/

section Body

variable {functions : Functions} {stackAt : Nat → Address}
  {slots : FusedSlots} {frame : Frame} {fusedAt bufferAt : Address}
  {recorded start : Memory} {argsSize i : Nat} {input : FuseInput}

/-- Where a capture is loaded from: a slot that holds its recorded bytes. -/
structure RoutedCapture (slots : FusedSlots) (recorded start : Memory)
    (fusedAt : Address) (argsSize i j : Nat) (input : FuseInput)
    (param : CommandProgParam) (k : Nat) (unique : UniqueSlot) : Prop where
  index : slots.dedup.index i j = some k
  stored : slots.dedup.table.entries[k]? = some unique
  width : ∀ type, unique.hoistType = some type → type.storeSize = param.size
  inside : slots.offset k + param.size ≤ argsSize
  bytes : readBytes start (fusedAt + BitVec.ofNat 64 (slots.offset k))
      param.size =
    readBytes recorded (input.slot j) param.size

/-- Every capture finds its slot. -/
def LoadsCaptures (slots : FusedSlots) (recorded start : Memory)
    (fusedAt : Address) (argsSize : Nat) : Prop :=
  ∀ (i : Nat) (input : FuseInput), slots.inputs[i]? = some input →
    ∀ j param, input.captures[j]? = some param → ∃ k unique,
      RoutedCapture slots recorded start fusedAt argsSize i j input param k
        unique

/-- The argument buffer is as it was. -/
def ArgsStay (fusedAt : Address) (argsSize : Nat) (start memory : Memory) :
    Prop :=
  ∀ address, Inside fusedAt argsSize address → memory address = start address

/-- What a frame of the fused entry must know to rebuild a buffer. -/
structure Hoists (slots : FusedSlots) (start : Memory)
    (fusedAt : Address) (hoists : List (Option Operand)) (frame : Frame) :
    Prop where
  first : frame.value (.param 0) = some (wordBytes fusedAt)
  hoisted : ∀ (k : Nat) (unique : UniqueSlot),
    slots.dedup.table.entries[k]? = some unique →
      slots.Hoisted start fusedAt frame (hoists[k]?).join k unique

theorem Hoists.later {hoists : List (Option Operand)} {after : Frame}
    (prepared : Hoists slots start fusedAt hoists frame)
    (later : frame.Later after) :
    Hoists slots start fusedAt hoists after :=
  { first := later _ _ prepared.first
    hoisted := fun k unique stored =>
      (prepared.hoisted k unique stored).later later }

/-- A capture is stored with its recorded bytes. -/
theorem run_storeCapture {hoists : List (Option Operand)} {recon : Operand}
    {j k : Nat} {param : CommandProgParam} {unique : UniqueSlot}
    (prepared : Hoists slots start fusedAt hoists frame)
    (atRecon : frame.value recon = some (wordBytes bufferAt))
    (routed : RoutedCapture slots recorded start fusedAt argsSize i j input
      param k unique)
    (args : ArgsStay fusedAt argsSize start frame.memory) :
    ∃ after, (machine functions stackAt).run
        (slots.storeCapture hoists recon i param j) frame =
          some ((), after) ∧
      frame.Later after ∧
        after.memory = writeBytes frame.memory
          (bufferAt + BitVec.ofNat 64 param.offset)
          (readBytes recorded (input.slot j) param.size) := by
  obtain ⟨dst, middle, ran, atDst, later, same⟩ :
      Reads functions stackAt (IRBuilder.createGEP i8 recon param.offset)
        frame _ := reads_createGEP i8 param.offset atRecon
  have byte : i8.storeSize * param.offset = param.offset := Nat.one_mul _
  rw [wordOf_wordBytes, byte] at atDst
  have hoisted := (prepared.hoisted k unique routed.stored).later later
  unfold FusedSlots.storeCapture
  rw [routed.index, Option.getD_some, Emission.Machine.run_bind, ran,
    Option.bind_some]
  unfold FusedSlots.Hoisted at hoisted
  cases type : unique.hoistType with
  | some type' =>
      rw [type] at hoisted
      obtain ⟨operand, isHoist, value⟩ := hoisted
      rw [routed.width type' type, routed.bytes] at value
      simp only [isHoist]
      refine ⟨_, run_createStore value atDst,
        later.trans (middle.later_next _ _), ?_⟩
      rw [Frame.next_memory, wordOf_wordBytes, same]
  | none =>
      rw [type] at hoisted
      simp only [hoisted]
      obtain ⟨src, after, ranSrc, atSrc, later', same'⟩ :
          Reads functions stackAt (slots.slotPtr k) middle _ :=
        reads_slotPtr k (later _ _ prepared.first)
      rw [Emission.Machine.run_bind, ranSrc, Option.bind_some]
      refine ⟨_, run_createMemCpy param.size (later' _ _ atDst) atSrc,
        (later.trans later').trans (after.later_next _ _), ?_⟩
      have bytes : readBytes frame.memory
          (fusedAt + BitVec.ofNat 64 (slots.offset k)) param.size =
            readBytes recorded (input.slot j) param.size := by
        rw [← routed.bytes]
        exact readBytes_congr fun address inside =>
          args address (inside.of_offset routed.inside)
      rw [Frame.next_memory, wordOf_wordBytes, wordOf_wordBytes, same', same,
        bytes]

/-- The first captures of a body are in its buffer. -/
def HoldsFirst (recorded memory : Memory) (input : FuseInput)
    (bufferAt : Address) (count : Nat) : Prop :=
  ∀ j < count, ∀ param, input.captures[j]? = some param →
    readBytes memory (bufferAt + BitVec.ofNat 64 param.offset) param.size =
      readBytes recorded (input.slot j) param.size

theorem HoldsFirst.captures {memory : Memory}
    (holds : HoldsFirst recorded memory input bufferAt input.captures.length) :
    HoldsCaptures recorded memory input bufferAt :=
  fun j param atCapture =>
    holds j (List.getElem?_eq_some_iff.mp atCapture).1 param atCapture

/-- A store of the next capture leaves those beside it. -/
theorem HoldsFirst.store {memory : Memory} {j : Nat}
    {param : CommandProgParam} (buffered : Buffered input)
    (holds : HoldsFirst recorded memory input bufferAt j)
    (atCapture : input.captures[j]? = some param) :
    HoldsFirst recorded
      (writeBytes memory (bufferAt + BitVec.ofNat 64 param.offset)
        (readBytes recorded (input.slot j) param.size))
      input bufferAt (j + 1) := by
  intro j' bound param' atCapture'
  have inside := buffered.inside (List.mem_of_getElem? atCapture)
  have inside' := buffered.inside (List.mem_of_getElem? atCapture')
  have length := readBytes_length recorded (input.slot j) param.size
  rcases Nat.lt_succ_iff_lt_or_eq.mp bound with earlier | rfl
  · have beside := buffered.beside.apart (Nat.ne_of_lt earlier) atCapture'
      atCapture
    rw [← holds j' earlier param' atCapture']
    refine readBytes_congr fun address isThere => ?_
    refine writeBytes_outside fun written => ?_
    rw [length] at written
    exact isThere.apart written beside (Nat.le_trans inside' buffered.fits)
      (Nat.le_trans inside buffered.fits)
  · obtain rfl := Option.some.inj (atCapture'.symm.trans atCapture)
    have fits : (readBytes recorded (input.slot j') param'.size).length ≤
        2 ^ 64 := by
      rw [length]
      exact Nat.le_trans (Nat.le_add_left _ _)
        (Nat.le_trans inside buffered.fits)
    have back := @readBytes_writeBytes memory
      (bufferAt + BitVec.ofNat 64 param'.offset)
      (readBytes recorded (input.slot j') param'.size) fits
    rw [length] at back
    exact back

/-- A store of a capture changes its buffer only. -/
theorem undisturbed_store {memory : Memory} {j : Nat}
    {param : CommandProgParam} (buffered : Buffered input)
    (atCapture : input.captures[j]? = some param) :
    Undisturbed (Inside bufferAt input.bufSize) memory
      (writeBytes memory (bufferAt + BitVec.ofNat 64 param.offset)
        (readBytes recorded (input.slot j) param.size)) := by
  intro address outside
  refine writeBytes_outside fun written => outside ?_
  rw [readBytes_length] at written
  exact written.of_offset
    (buffered.inside (List.mem_of_getElem? atCapture))

/-- The buffer of a body holds its captures; nothing else is changed. -/
theorem run_reconstruct {hoists : List (Option Operand)} {recon : Operand}
    (prepared : Hoists slots start fusedAt hoists frame)
    (atRecon : frame.value recon = some (wordBytes bufferAt))
    (buffered : Buffered input)
    (routed : ∀ j param, input.captures[j]? = some param → ∃ k unique,
      RoutedCapture slots recorded start fusedAt argsSize i j input param k
        unique)
    (args : ArgsStay fusedAt argsSize start frame.memory)
    (apart : ∀ address, Inside bufferAt input.bufSize address →
      ¬ Inside fusedAt argsSize address) :
    ∃ after, (machine functions stackAt).run
        (slots.reconstruct hoists recon i input) frame = some ((), after) ∧
      frame.Later after ∧
        Undisturbed (Inside bufferAt input.bufSize) frame.memory
          after.memory ∧
        HoldsCaptures recorded after.memory input bufferAt := by
  have loop : ∃ after, (machine functions stackAt).run
        (slots.reconstruct hoists recon i input) frame =
          some (PUnit.unit, after) ∧
      frame.Later after ∧
        Undisturbed (Inside bufferAt input.bufSize) frame.memory
          after.memory ∧
        HoldsFirst recorded after.memory input bufferAt
          input.captures.zipIdx.length := by
    apply Emission.Machine.run_forM (machine functions stackAt)
      fun (done : List (CommandProgParam × Nat)) (after : Frame) =>
        frame.Later after ∧
          Undisturbed (Inside bufferAt input.bufSize) frame.memory
            after.memory ∧
          HoldsFirst recorded after.memory input bufferAt done.length
    · exact ⟨Frame.Later.refl frame, fun _ _ => rfl,
        fun j bound => (Nat.not_lt_zero j bound).elim⟩
    · intro done item rest before all holds
      obtain ⟨param, j⟩ := item
      obtain ⟨later, undisturbed, earlier⟩ := holds
      have atItem : input.captures.zipIdx[done.length]? = some (param, j) := by
        rw [all, List.getElem?_append_right (Nat.le_refl _), Nat.sub_self]
        rfl
      obtain ⟨atCapture, rfl⟩ : input.captures[done.length]? = some param ∧
          done.length = j := by
        simpa [List.getElem?_zipIdx] using atItem
      obtain ⟨k, unique, route⟩ := routed done.length param atCapture
      have keptArgs : ArgsStay fusedAt argsSize start before.memory :=
        fun address isArgs =>
          (undisturbed address fun onStack =>
            apart address onStack isArgs).trans (args address isArgs)
      obtain ⟨after, ran, later', memory⟩ :=
        @run_storeCapture functions stackAt slots before fusedAt bufferAt
          recorded start argsSize i input hoists recon done.length k param
          unique (prepared.later later) (later _ _ atRecon) route keptArgs
      refine ⟨after, ran, later.trans later', ?_, ?_⟩
      · rw [memory]
        exact undisturbed.trans (undisturbed_store buffered atCapture)
      · rw [memory, List.length_append, List.length_singleton]
        exact earlier.store buffered atCapture
  obtain ⟨after, ran, later, undisturbed, all⟩ := loop
  rw [List.length_zipIdx] at all
  exact ⟨after, ran, later, undisturbed, all.captures⟩

/-- A body is called with its buffer. -/
theorem rel_callPacked {values buffers hoists : List (Option Operand)}
    {recon : Operand} {kernel : Kernel}
    (prepared : Hoists slots start fusedAt hoists frame)
    (isRecon : (buffers[i]?).join = some recon)
    (atRecon : frame.value recon = some (wordBytes bufferAt))
    (packed : input.isPackedLeaf) (buffered : Buffered input)
    (routed : ∀ j param, input.captures[j]? = some param → ∃ k unique,
      RoutedCapture slots recorded start fusedAt argsSize i j input param k
        unique)
    (args : ArgsStay fusedAt argsSize start frame.memory)
    (apart : ∀ address, Inside bufferAt input.bufSize address →
      ¬ Inside fusedAt argsSize address)
    (defined : functions (fusedName i input.entry.name) = some kernel) :
    ∃ rebuilt, Undisturbed (Inside bufferAt input.bufSize) frame.memory
        rebuilt ∧
      HoldsCaptures recorded rebuilt input bufferAt ∧
        Option.Rel (fun (ran : Unit × Frame) memory =>
            frame.Later ran.2 ∧ ran.2.memory = memory)
          ((machine functions stackAt).run
            (slots.callInput values buffers hoists input i) frame)
          (kernel (packedArguments input bufferAt) rebuilt) := by
  obtain ⟨after, ran, later, undisturbed, holds⟩ :=
    @run_reconstruct functions stackAt slots frame fusedAt bufferAt recorded
      start argsSize i input hoists recon prepared atRecon buffered routed args
      apart
  refine ⟨after.memory, undisturbed, holds, ?_⟩
  have leaf := isWrapper_of_isPackedLeaf packed
  unfold FusedSlots.callInput
  simp only [leaf, packed, Bool.false_eq_true, if_false, if_true, isRecon,
    Option.getD_some]
  rw [Emission.Machine.run_bind, ran, Option.bind_some]
  have has : HasValues after
      [recon, .constant (BitVec.ofNat 64 input.bufSize)]
      (packedArguments input bufferAt) := by
    simp only [HasValues, packedArguments, List.map_cons, List.map_nil,
      later _ _ atRecon]
    rfl
  have called := @rel_createCall functions stackAt after _ _ _ _ defined has
  exact Emission.rel_mono called fun ran memory holds =>
    ⟨later.trans holds.1, holds.2⟩

/-- Called with a buffer of its captures, every body stays in step with
`calls`. -/
def BodiesStep (functions : Functions) (stackAt : Nat → Address)
    (slots : FusedSlots) (recorded start : Memory) (data : Address → Prop)
    (calls : Memory → FuseInput × Nat → Option Memory) : Prop :=
  ∀ (i : Nat) (input : FuseInput), slots.inputs[i]? = some input →
    ∃ kernel, functions (fusedName i input.entry.name) = some kernel ∧
      ∀ memory rebuilt, Undisturbed data start memory →
        Undisturbed (OnStack stackAt slots.inputs) memory rebuilt →
          HoldsCaptures recorded rebuilt input (stackAt i) →
            Option.Rel (fun after' after =>
                Undisturbed data start after ∧
                  Undisturbed (OnStack stackAt slots.inputs) after after')
              (kernel (packedArguments input (stackAt i)) rebuilt)
              (calls memory (input, i))

/-- The argument buffer is neither data nor on the stack. -/
def ArgsApart (stackAt : Nat → Address) (slots : FusedSlots)
    (data : Address → Prop) (fusedAt : Address) (argsSize : Nat) : Prop :=
  ∀ address, Inside fusedAt argsSize address →
    ¬ data address ∧ ¬ OnStack stackAt slots.inputs address

variable {data : Address → Prop}
  {calls : Memory → FuseInput × Nat → Option Memory}

theorem ArgsApart.stay {memory memory' : Memory}
    (apart : ArgsApart stackAt slots data fusedAt argsSize)
    (undisturbed : Undisturbed data start memory)
    (onStack : Undisturbed (OnStack stackAt slots.inputs) memory memory') :
    ArgsStay fusedAt argsSize start memory' :=
  fun address isArgs =>
    (onStack address (apart address isArgs).2).trans
      (undisturbed address (apart address isArgs).1)

/-- The calls of the packed bodies stay in step with `calls`. -/
theorem rel_callsPacked {values buffers hoists : List (Option Operand)}
    (prepared : Hoists slots start fusedAt hoists frame)
    (same : frame.memory = start)
    (isBuffer : ∀ (i : Nat) (input : FuseInput),
      slots.inputs[i]? = some input →
        ∃ operand, (buffers[i]?).join = some operand ∧
          frame.value operand = some (wordBytes (stackAt i)))
    (packed : ∀ input ∈ slots.inputs, input.isPackedLeaf)
    (buffered : ∀ input ∈ slots.inputs, Buffered input)
    (loads : LoadsCaptures slots recorded start fusedAt argsSize)
    (apart : ArgsApart stackAt slots data fusedAt argsSize)
    (bodies : BodiesStep functions stackAt slots recorded start data calls) :
    Option.Rel (fun (ran : Unit × Frame) memory =>
        Undisturbed (OnStack stackAt slots.inputs) memory ran.2.memory)
      ((machine functions stackAt).run
        (forM slots.inputs.zipIdx fun item =>
          slots.callInput values buffers hoists item.1 item.2) frame)
      (slots.inputs.zipIdx.foldlM calls start) := by
  refine Emission.rel_mono (Emission.Machine.run_forM_rel
    (machine functions stackAt)
    (fun (_ : List (FuseInput × Nat)) (now : Frame) (memory : Memory) =>
      frame.Later now ∧ Undisturbed data start memory ∧
        Undisturbed (OnStack stackAt slots.inputs) memory now.memory) ?_
    ⟨Frame.Later.refl frame, fun _ _ => rfl, fun _ _ => by rw [same]⟩)
    fun ran memory holds => holds.2.2
  intro done item others now memory all holds
  obtain ⟨input, i⟩ := item
  obtain ⟨later, undisturbed, onStack⟩ := holds
  have member : (input, i) ∈ slots.inputs.zipIdx := by
    rw [all]
    simp
  have here := List.mem_zipIdx_iff_getElem?.mp member
  have isInput := List.mem_of_getElem? here
  obtain ⟨kernel, defined, steps⟩ := bodies i input here
  obtain ⟨recon, isRecon, atRecon⟩ := isBuffer i input here
  have inStack : ∀ address, Inside (stackAt i) input.bufSize address →
      OnStack stackAt slots.inputs address :=
    fun address inside => ⟨i, input, here, inside⟩
  obtain ⟨rebuilt, built, captures, called⟩ :=
    @rel_callPacked functions stackAt slots now fusedAt (stackAt i) recorded
      start argsSize i input values buffers hoists recon kernel
      (prepared.later later) isRecon (later _ _ atRecon) (packed input isInput)
      (buffered input isInput) (loads i input here)
      (apart.stay undisturbed onStack)
      (fun address inside isArgs =>
        (apart address isArgs).2 (inStack address inside)) defined
  have step := steps memory rebuilt undisturbed
    (onStack.trans fun address outside =>
      built address fun inside => outside (inStack address inside)) captures
  refine Emission.rel_trans called step fun ran after' after one two => ?_
  obtain ⟨laterRan, rfl⟩ := one
  exact ⟨later.trans laterRan, two⟩

/--
The fused entry over packed bodies stays in step with `calls`, if every body
does that is called with a buffer of its captures.
-/
theorem runBody_packedWrapper {rest : List Value}
    (packed : ∀ input ∈ slots.inputs, input.isPackedLeaf)
    (some_packed : slots.anyPackedLeaf)
    (untyped : ∀ type ∈ slots.types, type = none)
    (buffered : ∀ input ∈ slots.inputs, Buffered input)
    (loads : LoadsCaptures slots recorded start fusedAt argsSize)
    (apart : ArgsApart stackAt slots data fusedAt argsSize)
    (bodies : BodiesStep functions stackAt slots recorded start data calls) :
    Option.Rel (fun after' after =>
        Undisturbed (OnStack stackAt slots.inputs) after after')
      (runBody functions stackAt slots.hostWrapper
        (wordBytes fusedAt :: rest) start)
      (slots.inputs.zipIdx.foldlM calls start) := by
  let entry : Frame :=
    { params := wordBytes fusedAt :: rest, results := [], memory := start }
  obtain ⟨buffers, middle, ranBuffers, laterBuffers, sameBuffers, isBuffer⟩ :=
    @run_reconBufs functions stackAt slots entry some_packed rfl
  obtain ⟨hoists, loaded, ranHoists, laterHoists, sameHoists, isHoist⟩ :=
    @run_slotHoists functions stackAt slots middle fusedAt some_packed
      (laterBuffers (.param 0) _ rfl)
  have prepared : Hoists slots start fusedAt hoists loaded :=
    { first := laterHoists _ _ (laterBuffers (.param 0) _ rfl)
      hoisted := by
        rw [sameBuffers] at isHoist
        exact isHoist }
  have isBufferLater : ∀ (i : Nat) (input : FuseInput),
      slots.inputs[i]? = some input →
        ∃ operand, (buffers[i]?).join = some operand ∧
          loaded.value operand = some (wordBytes (stackAt i)) := by
    intro i input here
    obtain ⟨operand, stored, value⟩ := isBuffer i input here
    exact ⟨operand, stored, laterHoists _ _ value⟩
  have run_calls := @rel_callsPacked functions stackAt slots loaded fusedAt
    recorded start argsSize data calls (slots.types.zipIdx.map fun _ => none)
    buffers hoists prepared (sameHoists.trans sameBuffers) isBufferLater packed
    buffered loads apart bodies
  rw [runBody_eq, FusedSlots.hostWrapper, packed_slotValues untyped,
    pure_bind, Emission.Machine.run_bind, ranBuffers, Option.bind_some,
    Emission.Machine.run_bind, ranHoists, Option.bind_some]
  exact Emission.rel_map run_calls

end Body

end Cgir.Llvm
