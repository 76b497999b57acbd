import Cgir.Llvm.DedupSound
import Cgir.Llvm.Packed

/-!
# Packed fusion and standalone packing

The fused wrapper and a compilation of the body alone agree on every byte of the
captures of a packed body, except that all null captures of a chain share one
fused slot, which has the size and the kind of the first of them
(`packed_agree`).
-/

namespace Cgir.Llvm

open Cgir.Library Cgir.Model

/-! ## Packed inputs -/

/-- What fusion knows about a packed body. -/
structure PackedInput (prog : CommandProg) (input : FuseInput) : Prop where
  shape : input.shape = .packedLeaf
  params : prog.source.params = some input.captures
  table : input.params = some input.captures
  arity : input.arity = input.captures.length
  slots : snapshot prog.args input.captures.length = some input.slots
  valueDedup : input.valueDedup = false
  entry : isVoidPtrSize input.entry
  bufSize : input.bufSize = packedBufSize input.captures

theorem snapshot_length {args : Option ArgsBuffer} {arity : Nat}
    {slots : List Address} (taken : snapshot args arity = some slots) :
    slots.length = arity := by
  cases args with
  | none =>
      rw [snapshot] at taken
      split at taken
      · rename_i zero
        obtain rfl := Option.some.inj taken
        exact zero.symm
      · exact (Option.some_ne_none _ taken.symm).elim
  | some args =>
      have lengths := congrArg List.length
        (Loop.mapM_eq_some_iff.mp taken)
      simpa using lengths.symm

/-- A packed body is a task with a params table. -/
theorem classify_packedLeaf {prog : CommandProg} {found : Found}
    {entry : IrFunction} {classified : Classified}
    (run : classify prog found entry = some classified)
    (packed : classified.shape = .packedLeaf) :
    ∃ params, prog.source.params = some params ∧
      classified.arity = params.length ∧ classified.valueDedup = false ∧
        isVoidPtrSize entry ∧ classified.bufSize = packedBufSize params := by
  cases found with
  | taskSpawn =>
      rw [classify] at run
      split at run
      · obtain rfl := Option.some.inj run
        exact Shape.noConfusion packed
      · split at run
        · rename_i shape
          obtain ⟨params, table, rfl⟩ := Option.map_eq_some_iff.mp run
          exact ⟨params, table, rfl, rfl, shape, rfl⟩
        · obtain rfl := Option.some.inj run
          exact Shape.noConfusion packed
  | _ =>
      obtain rfl := Option.some.inj run
      exact Shape.noConfusion packed

theorem fuseInput_packed {prog : CommandProg} {input : FuseInput}
    (run : fuseInput prog = some input) (packed : input.isPackedLeaf) :
    PackedInput prog input := by
  simp only [fuseInput, Option.bind_eq_bind, Option.bind_eq_some_iff,
    Option.pure_def, Option.some.injEq] at run
  obtain ⟨module, -, ⟨found, entry⟩, -, classified, isClass, slots, taken,
    rfl⟩ := run
  have shape : classified.shape = .packedLeaf := by
    simpa [FuseInput.isPackedLeaf] using packed
  obtain ⟨params, table, arity, valueDedup, isPacked, bufSize⟩ :=
    classify_packedLeaf isClass shape
  have captures : prog.source.params.getD [] = params := by
    rw [table, Option.getD_some]
  refine
    { shape := shape
      params := ?_
      table := ?_
      arity := ?_
      slots := ?_
      valueDedup := valueDedup
      entry := isPacked
      bufSize := ?_ }
  · show prog.source.params = some (prog.source.params.getD [])
    rw [captures, table]
  · show prog.source.params = some (prog.source.params.getD [])
    rw [captures, table]
  · show slots.length = (prog.source.params.getD []).length
    rw [captures, ← arity, snapshot_length taken]
  · show snapshot prog.args (prog.source.params.getD []).length = some slots
    rw [captures, ← arity, taken]
  · show classified.bufSize = packedBufSize (prog.source.params.getD [])
    rw [captures, bufSize]

/-- The inputs of a chain, one for each program. -/
theorem fuseInputs_getElem? {progs : List CommandProg}
    {inputs : List FuseInput} (run : fuseInputs progs = some inputs) {i : Nat}
    {input : FuseInput} (at_i : inputs[i]? = some input) :
    ∃ prog, progs[i]? = some prog ∧ fuseInput prog = some input := by
  simp only [fuseInputs, Option.bind_eq_bind, Option.bind_eq_some_iff,
    Option.pure_def, Option.some.injEq] at run
  obtain ⟨collected, mapped, _, -, _, -, rfl⟩ := run
  have pair := Loop.mapM_getElem? mapped i
  rw [at_i, Option.map_some] at pair
  exact Option.map_eq_some_iff.mp pair

/-- Captures that lie side by side, whose references are pointers. -/
structure SideBySide (input : FuseInput) : Prop where
  disjoint : input.captures.Pairwise fun first second =>
    first.offset + first.size ≤ second.offset ∨
      second.offset + second.size ≤ first.offset
  reference : ∀ param ∈ input.captures, param.kind = .reference →
    param.size = 8

/-! ## Null captures -/

/-- The slots of the captures of a chain, in order. -/
def captureSlots (inputs : List FuseInput) : List UniqueSlot :=
  inputs.flatMap fun input => (List.range input.arity).map (uniqueSlot input)

/-- The first null capture of a chain: all others share its slot. -/
def firstNull (inputs : List FuseInput) : Option UniqueSlot :=
  (captureSlots inputs).find? fun unique => unique.slot = 0

/--
A null capture at `offset`, of `size` bytes, is written by a store of `width`
zeros.  The bytes behind it belong to no earlier capture, or are zero.
-/
def Harmless (memory : Memory) (input : FuseInput) (j offset size width : Nat) :
    Prop :=
  ∀ earlier < j, ∀ param, input.captures[earlier]? = some param →
    input.slot earlier ≠ 0 → ∀ k < param.size,
      offset + size ≤ param.offset + k → param.offset + k < offset + width →
        memory (input.slot earlier + BitVec.ofNat 64 k) = 0

/--
The slot of the first null capture serves a null capture: its load has as many
bytes, can be stored inside the buffer of the body and does no harm there.
-/
def Serves (memory : Memory) (first : UniqueSlot) (input : FuseInput)
    (j : Nat) (param : CommandProgParam) : Prop :=
  match first.hoistWidth with
  | some width =>
      param.size ≤ width ∧ param.offset + width ≤ input.bufSize ∧
        Harmless memory input j param.offset param.size width
  | none => param.size ≤ first.footprint

/-- The slot of the first null capture serves every null capture. -/
def NullsFit (memory : Memory) (inputs : List FuseInput) : Prop :=
  ∀ first, firstNull inputs = some first → ∀ input ∈ inputs, ∀ j param,
    input.captures[j]? = some param → input.slot j = 0 →
      Serves memory first input j param

/-! ## Agreement -/

/--
The slots of the fused buffer lie side by side inside it, and the buffer of every
body is rebuilt with its captures as if the body had been compiled alone.
-/
structure PackedAgree (memory : Memory) (progs : List CommandProg)
    (inputs : List FuseInput) (dedup : Deduplicated) : Prop where
  placed : Placed 0 dedup.table.entries
    (packedLayout dedup.table.entries).offsets
    (packedLayout dedup.table.entries).size
  bytes : ∀ {i j : Nat} {prog : CommandProg} {input : FuseInput}
    {param : CommandProgParam}, progs[i]? = some prog →
      inputs[i]? = some input → input.captures[j]? = some param →
        ∃ buffer, jitPack memory prog = some buffer ∧
          ∀ junk, ∃ rebuilt, reconBuffer memory dedup i input junk =
              some rebuilt ∧
            ∀ k < param.size,
              buffer[param.offset + k]? = some (rebuilt (param.offset + k))

/-! ## The buffer of a body compiled alone -/

/-- The byte that a capture must have. -/
def captureByte (memory : Memory) (input : FuseInput) (j k : Nat) : BitVec 8 :=
  if input.slot j = 0 then
    0
  else
    memory (input.slot j + BitVec.ofNat 64 k)

section Alone

variable {memory : Memory} {input : FuseInput} {j k : Nat}
  {param : CommandProgParam}

theorem readBytes_getElem? {slot : Address} {size : Nat} (inside : k < size) :
    (readBytes memory slot size)[k]? =
      some (memory (slot + BitVec.ofNat 64 k)) := by
  simp [readBytes, inside]

theorem slotValue_getElem? {slot : Address} {size : Nat}
    (nonNull : slot ≠ 0) (inside : k < size) :
    (slotValue memory slot size)[k]? =
      some (memory (slot + BitVec.ofNat 64 k)) := by
  rw [slotValue, if_neg nonNull, readBytes_getElem? inside]

theorem SideBySide.apart (beside : SideBySide input) {j' : Nat}
    {param' : CommandProgParam} (different : j ≠ j')
    (atCapture : input.captures[j]? = some param)
    (atCapture' : input.captures[j']? = some param') :
    param.offset + param.size ≤ param'.offset ∨
      param'.offset + param'.size ≤ param.offset := by
  obtain ⟨bound, rfl⟩ := List.getElem?_eq_some_iff.mp atCapture
  obtain ⟨bound', rfl⟩ := List.getElem?_eq_some_iff.mp atCapture'
  have pairwise := List.pairwise_iff_getElem.mp beside.disjoint
  rcases Nat.lt_or_gt_of_ne different with before | after
  · exact pairwise j j' bound bound' before
  · exact (pairwise j' j bound' bound after).symm

/-- The buffer reaches behind every capture. -/
theorem le_packedBufSize {params : List CommandProgParam}
    (member : param ∈ params) :
    param.offset + param.size ≤ packedBufSize params := by
  have reached := Loop.foldl_invariant
    (fun size (param : CommandProgParam) =>
      max size (param.offset + param.size))
    (fun done size => ∀ param ∈ done, param.offset + param.size ≤ size)
    params 0 (by
      intro done last rest size _ before other otherMember
      rcases List.mem_append.mp otherMember with earlier | isLast
      · exact Nat.le_trans (before other earlier) (Nat.le_max_left _ _)
      · rw [List.mem_singleton.mp isLast]
        exact Nat.le_max_right _ _) (by simp)
  have bound := reached param member
  simp only [packedBufSize]
  split <;> omega

theorem packSegments_getElem?
    (atCapture : input.captures[j]? = some param) :
    (packSegments memory input.captures input.slots)[j]? =
      some ⟨param.offset,
        slotValue memory (input.slot j) param.size⟩ := by
  simp [packSegments, atCapture, FuseInput.slot]

/-- Segments of one offset and size per capture, at another capture. -/
theorem outside_of_apart {values : List (BitVec 8)} {position : Nat}
    (short : values.length ≤ param.size)
    (apart : position < param.offset ∨ param.offset + param.size ≤ position) :
    Segment.at? ⟨param.offset, values⟩ position = none := by
  rw [Segment.at?_eq_none_iff]
  exact apart.imp_right fun behind =>
    Nat.le_trans (Nat.add_le_add_left short _) behind

/-- A body compiled alone finds every byte of its captures. -/
theorem packBuffer_at (beside : SideBySide input)
    (atCapture : input.captures[j]? = some param) (inside : k < param.size) :
    (packBuffer memory input.captures input.slots)[param.offset + k]? =
      some (captureByte memory input j k) := by
  have bound : param.offset + k < packedBufSize input.captures := by
    have reached := le_packedBufSize (List.mem_of_getElem? atCapture)
    omega
  have others : ∀ i other, i ≠ j →
      (packSegments memory input.captures input.slots)[i]? = some other →
        other.at? (param.offset + k) = none := by
    intro i other different at_i
    cases found : input.captures[i]? with
    | none => simp [packSegments, found] at at_i
    | some param' =>
        rw [packSegments_getElem? found, Option.some.injEq] at at_i
        subst at_i
        have apart := beside.apart different found atCapture
        exact outside_of_apart (slotValue_length_le _ _ _) (by omega)
  have byte : Buffer.writeAll (fun _ => 0)
      (packSegments memory input.captures input.slots) (param.offset + k) =
        captureByte memory input j k := by
    by_cases null : input.slot j = 0
    · rw [captureByte, if_pos null]
      refine Buffer.writeAll_outside fun segment member => ?_
      obtain ⟨i, at_i⟩ := List.getElem?_of_mem member
      by_cases same : i = j
      · subst same
        rw [packSegments_getElem? atCapture, Option.some.injEq] at at_i
        subst at_i
        rw [slotValue, if_pos null]
        exact Segment.at?_add k
      · exact others i segment same at_i
    · rw [captureByte, if_neg null]
      refine Buffer.writeAll_eq (packSegments_getElem? atCapture)
        ((Segment.at?_add k).trans (slotValue_getElem? null inside)) ?_
      intro i other later at_i value covered
      rw [others i other (Nat.ne_of_gt later) at_i] at covered
      exact (Option.some_ne_none _ covered.symm).elim
  rw [packBuffer, Buffer.read, List.getElem?_map,
    List.getElem?_range bound, Option.map_some, Nat.zero_add, byte]

/-- What compilation alone gives a packed body whose slots are not packed. -/
theorem jitPack_packed {prog : CommandProg} (packed : PackedInput prog input)
    (unpacked : prog.argsSize = 0)
    (atCapture : input.captures[j]? = some param) :
    jitPack memory prog =
      some (packBuffer memory input.captures input.slots) := by
  have some_captures : 0 < input.captures.length :=
    Nat.lt_of_le_of_lt (Nat.zero_le j)
      (List.getElem?_eq_some_iff.mp atCapture).1
  have taken := packed.slots
  rw [jitPack, packed.params]
  simp only [some_captures, unpacked, and_self, if_true]
  cases args : prog.args with
  | none =>
      rw [args, snapshot, if_neg (Nat.ne_of_gt some_captures)] at taken
      exact (Option.some_ne_none _ taken.symm).elim
  | some args =>
      simp only [args, snapshot] at taken
      simp only [taken, Option.map_some]

end Alone

/-! ## The shared slot of the null captures -/

section Null

variable {memory : Memory} {typeId : IrType → Address}
  {inputs : List FuseInput} {input : FuseInput} {j : Nat}

/-- Only a null slot has the key of a null slot. -/
theorem slotKey_null_iff :
    slotKey memory typeId input j = addressKey 0 ↔ input.slot j = 0 := by
  constructor
  · intro same
    by_contra nonNull
    rw [slotKey_eq_key nonNull] at same
    have keys : (input.identity j).key memory typeId (input.slot j) =
        Identity.address.key memory typeId 0 := same
    exact nonNull ((Identity.key_eq_iff _ _).mp keys).slot_eq
  · intro null
    rw [slotKey, if_pos null]

/-- The first slot with the key of a null slot is the first null capture. -/
theorem firstNull_eq (leaves : ∀ input ∈ inputs, input.isWrapper = false) :
    firstNull inputs =
      ((keyedSlots memory typeId inputs).find?
        fun item => item.1 = addressKey 0).map Prod.snd := by
  have slots : captureSlots inputs =
      (keyedSlots memory typeId inputs).map Prod.snd := by
    rw [captureSlots, keyedSlots, List.map_flatMap]
    refine List.flatMap_congr fun input member => ?_
    simp [leaves input member, leafSlots, Function.comp_def]
  have agree : (keyedSlots memory typeId inputs).filter
        (fun item => item.1 = addressKey 0) =
      (keyedSlots memory typeId inputs).filter
        (fun item => item.2.slot = 0) := by
    refine List.filter_congr fun item member => ?_
    obtain ⟨user, -, -, k, -, rfl⟩ := mem_keyedSlots.mp member
    exact decide_eq_decide.mpr slotKey_null_iff
  rw [firstNull, slots, List.find?_map, ← List.head?_filter,
    ← List.head?_filter, agree]
  rfl

variable (memory typeId) in
/-- A null capture is routed to the slot of the first one. -/
theorem slotOf_null {i : Nat} (at_i : inputs[i]? = some input)
    (leaves : ∀ input ∈ inputs, input.isWrapper = false)
    (bound : j < input.arity) (null : input.slot j = 0) :
    ∃ first, firstNull inputs = some first ∧
      (deduplicate memory typeId inputs).slotOf i j = some first := by
  have built := deduplicate_deduped memory typeId inputs
  obtain ⟨index, atIndex, found⟩ :=
    built.leaf at_i (leaves input (List.mem_of_getElem? at_i)) bound
  rw [slotKey_null_iff.mpr null] at found
  obtain ⟨first, stored, isFirst⟩ := built.records.stored found
  refine ⟨first, ?_, ?_⟩
  · rw [firstNull_eq leaves, isFirst, Option.map_some]
  · rw [Deduplicated.slotOf, atIndex, Option.bind_some, stored]

theorem firstNull_null {first : UniqueSlot}
    (found : firstNull inputs = some first) : first.slot = 0 := by
  simpa using List.find?_some found

end Null

/-! ## The buffer of a fused body -/

section Fused

variable {memory : Memory} {typeId : IrType → Address}
  {inputs : List FuseInput} {input : FuseInput} {i j : Nat}
  {param : CommandProgParam}

/-- What is known of every body of a packed chain. -/
structure PackedBody (input : FuseInput) : Prop where
  shape : input.shape = .packedLeaf
  table : input.params = some input.captures
  arity : input.arity = input.captures.length
  valueDedup : input.valueDedup = false
  bufSize : input.bufSize = packedBufSize input.captures
  beside : SideBySide input

theorem PackedBody.leaf (body : PackedBody input) :
    input.isWrapper = false := by
  simp [FuseInput.isWrapper, body.shape]

theorem PackedBody.descriptor (body : PackedBody input) (j : Nat) :
    input.descriptor j = input.captures[j]? := by
  rw [FuseInput.descriptor, body.table, Option.bind_some]

theorem PackedBody.width (body : PackedBody input)
    (atCapture : input.captures[j]? = some param) :
    paramWidth param = param.size := by
  cases kind : param.kind with
  | copy => exact paramWidth_copy kind
  | reference =>
      rw [paramWidth_reference kind,
        body.beside.reference param (List.mem_of_getElem? atCapture) kind]

theorem PackedBody.bound (body : PackedBody input)
    (atCapture : input.captures[j]? = some param) : j < input.arity := by
  rw [body.arity]
  exact (List.getElem?_eq_some_iff.mp atCapture).1

/-- A capture that is not null is described, or empty. -/
theorem PackedBody.identity (body : PackedBody input)
    (atCapture : input.captures[j]? = some param) :
    input.identity j = .described param ∧ 0 < param.size ∨
      input.identity j = .address ∧ param.size = 0 ∧
        param.kind = .copy := by
  have described : input.descriptor j = some param := by
    rw [body.descriptor, atCapture]
  rcases identity_cases input j with
    ⟨param', described', wide, identity⟩ | ⟨size, ⟨type, typed, -⟩ | address⟩
  · obtain rfl := Option.some.inj (described.symm.trans described')
    rw [body.width atCapture] at wide
    exact Or.inl ⟨identity, wide⟩
  · simp [FuseInput.ptypes, body.valueDedup] at typed
  · rw [slotSize_eq described] at size
    refine Or.inr ⟨address, (body.width atCapture).symm.trans size, ?_⟩
    cases kind : param.kind with
    | copy => rfl
    | reference =>
        rw [paramWidth_reference kind] at size
        exact absurd size (by decide)

/-- What the fused buffer holds at the slot of a capture. -/
structure ReconSlot (memory : Memory) (dedup : Deduplicated) (i j : Nat)
    (unique : UniqueSlot) : Prop where
  width : ∀ param, reconWidth dedup i j param =
    unique.hoistWidth.getD param.size
  inside : reconSource dedup i j + unique.footprint ≤
    (packedLayout dedup.table.entries).size
  value : ∀ byte value, byte < unique.footprint →
    (slotValue memory unique.slot unique.size)[byte]? = some value →
      fusedBuffer memory dedup.table.entries
        (reconSource dedup i j + byte) = value
  null : unique.slot = 0 → ∀ byte < unique.footprint,
    fusedBuffer memory dedup.table.entries (reconSource dedup i j + byte) = 0

theorem reconSlot_of_routed {dedup : Deduplicated} {unique : UniqueSlot}
    (routed : dedup.slotOf i j = some unique) :
    ReconSlot memory dedup i j unique := by
  obtain ⟨index, atIndex, stored⟩ := Option.bind_eq_some_iff.mp routed
  have placed := packedLayout_placed dedup.table.entries
  obtain ⟨offset, atOffset⟩ : ∃ offset,
      (packedLayout dedup.table.entries).offsets[index]? = some offset := by
    have bound := (List.getElem?_eq_some_iff.mp stored).1
    rw [← placed.length] at bound
    exact ⟨_, List.getElem?_eq_getElem bound⟩
  have source : reconSource dedup i j = offset := by
    rw [reconSource, atIndex, Option.getD_some, List.getD_eq_getElem?_getD,
      atOffset, Option.getD_some]
  refine ⟨fun param => ?_, ?_, ?_, ?_⟩
  · rw [reconWidth, atIndex, Option.getD_some, stored, Option.bind_some]
  · rw [source]
    exact (placed.within atOffset stored).2
  · intro byte value inside
    rw [source]
    exact fusedBuffer_at value atOffset stored inside
  · intro null byte inside
    rw [source]
    exact fusedBuffer_null atOffset stored inside null

/-- A typed store of a slot of the right size has the size of the capture. -/
theorem hoistWidth_getD {unique : UniqueSlot} {size : Nat}
    (sized : unique.size = size) (reference : unique.isRef → size = 8) :
    unique.hoistWidth.getD size = size := by
  unfold UniqueSlot.hoistWidth
  split
  · rename_i isRef
    exact (reference isRef).symm
  · split
    · exact sized
    · rfl

theorem read_eq_readBytes {buffer : Nat → BitVec 8} {offset size : Nat}
    {slot : Address}
    (holds : ∀ k < size, buffer (offset + k) =
      memory (slot + BitVec.ofNat 64 k)) :
    Buffer.read buffer offset size = readBytes memory slot size := by
  rw [Buffer.read, readBytes]
  exact List.map_congr_left fun k member => holds k (List.mem_range.mp member)

/-- Slots with one key have one size. -/
theorem slotSize_of_slotKey {user : FuseInput} {k : Nat}
    (body : PackedBody input)
    (userBody : PackedBody user) (userBound : k < user.arity)
    (atCapture : input.captures[j]? = some param)
    (nonNull : input.slot j ≠ 0) (userNonNull : user.slot k ≠ 0)
    (same : slotKey memory typeId user k = slotKey memory typeId input j) :
    (uniqueSlot user k).size = param.size := by
  obtain ⟨param', atCapture'⟩ : ∃ param', user.captures[k]? = some param' :=
    ⟨_, List.getElem?_eq_getElem (userBody.arity ▸ userBound)⟩
  have described : user.descriptor k = some param' := by
    rw [userBody.descriptor, atCapture']
  have size : (uniqueSlot user k).size = param'.size :=
    (slotSize_eq described).trans (userBody.width atCapture')
  rw [slotKey_eq_key userNonNull, slotKey_eq_key nonNull,
    Identity.key_eq_iff] at same
  rcases userBody.identity atCapture' with
    ⟨identity', -⟩ | ⟨identity', empty', -⟩ <;>
    rcases body.identity atCapture with
      ⟨identity, -⟩ | ⟨identity, empty, -⟩ <;>
    rw [identity', identity] at same
  · obtain ⟨-, widths, -⟩ := same
    rw [userBody.width atCapture', body.width atCapture] at widths
    exact size.trans widths
  · exact same.elim
  · exact same.elim
  · exact size.trans (empty'.trans empty.symm)

/-- A capture that is not null gets its own bytes, and no others. -/
theorem reconSegment_nonNull (bodies : ∀ input ∈ inputs, PackedBody input)
    (at_i : inputs[i]? = some input)
    (atCapture : input.captures[j]? = some param)
    (nonNull : input.slot j ≠ 0) :
    reconSegment memory (deduplicate memory typeId inputs) i j param =
      ⟨param.offset, readBytes memory (input.slot j) param.size⟩ := by
  have body := bodies input (List.mem_of_getElem? at_i)
  obtain ⟨user, member, userLeaf, k, userBound, same, routed⟩ :=
    slotOf_user memory typeId at_i body.leaf (body.bound atCapture)
  have userBody := bodies user member
  obtain ⟨param', atCapture'⟩ : ∃ param', user.captures[k]? = some param' :=
    ⟨_, List.getElem?_eq_getElem (userBody.arity ▸ userBound)⟩
  have described : user.descriptor k = some param' := by
    rw [userBody.descriptor, atCapture']
  have userNonNull : user.slot k ≠ 0 := by
    intro null
    rw [slotKey_null_iff.mpr null] at same
    exact nonNull (slotKey_null_iff.mp same.symm)
  rw [slotKey_eq_key userNonNull, slotKey_eq_key nonNull,
    Identity.key_eq_iff] at same
  have slot : ReconSlot memory (deduplicate memory typeId inputs) i j
      (uniqueSlot user k) := reconSlot_of_routed routed
  have size : (uniqueSlot user k).size = param'.size :=
    (slotSize_eq described).trans (userBody.width atCapture')
  have reference : (uniqueSlot user k).isRef → param'.kind = .reference :=
    (slotIsRef_iff described).mp
  rw [reconSegment, slot.width]
  congr 1
  rcases userBody.identity atCapture' with
    ⟨identity', wide'⟩ | ⟨identity', empty', copy'⟩ <;>
    rcases body.identity atCapture with
      ⟨identity, wide⟩ | ⟨identity, empty, copy⟩ <;>
    rw [identity', identity] at same
  · obtain ⟨kinds, widths, bytes⟩ := same
    rw [userBody.width atCapture', body.width atCapture] at widths
    rw [userBody.width atCapture', widths] at bytes
    rw [hoistWidth_getD (size.trans widths) fun isRef =>
      body.beside.reference param (List.mem_of_getElem? atCapture)
        (kinds.symm.trans (reference isRef))]
    rw [← bytes]
    refine read_eq_readBytes fun byte inside => ?_
    have within : byte < (uniqueSlot user k).size := by
      rw [size, widths]
      exact inside
    exact slot.value byte _
      (Nat.lt_of_lt_of_le within (size_le_footprint _))
      (slotValue_getElem? userNonNull within)
  · exact same.elim
  · exact same.elim
  · rw [hoistWidth_getD (size.trans (empty'.trans empty.symm)) fun isRef =>
      CommandProgParamKind.noConfusion (copy'.symm.trans (reference isRef)),
      empty]
    rfl

/-- A capture that is not null is read and stored inside the buffers. -/
theorem reconInside_nonNull (bodies : ∀ input ∈ inputs, PackedBody input)
    (at_i : inputs[i]? = some input)
    (atCapture : input.captures[j]? = some param)
    (nonNull : input.slot j ≠ 0) :
    ReconInside (deduplicate memory typeId inputs) i input j param := by
  have body := bodies input (List.mem_of_getElem? at_i)
  obtain ⟨user, member, userLeaf, k, userBound, same, routed⟩ :=
    slotOf_user memory typeId at_i body.leaf (body.bound atCapture)
  have userNonNull : user.slot k ≠ 0 := by
    intro null
    rw [slotKey_null_iff.mpr null] at same
    exact nonNull (slotKey_null_iff.mp same.symm)
  have slot : ReconSlot memory (deduplicate memory typeId inputs) i j
      (uniqueSlot user k) := reconSlot_of_routed routed
  have size := slotSize_of_slotKey body (bodies user member) userBound
    atCapture nonNull userNonNull same
  have width : reconWidth (deduplicate memory typeId inputs) i j param =
      param.size := by
    have segment := congrArg (List.length ∘ Segment.values)
      (@reconSegment_nonNull memory typeId inputs input i j param bodies at_i
        atCapture nonNull)
    simpa [reconSegment] using segment
  have fits := size_le_footprint (uniqueSlot user k)
  constructor
  · have inside := slot.inside
    rw [width]
    omega
  · rw [width, body.bufSize]
    exact le_packedBufSize (List.mem_of_getElem? atCapture)

/-- The load of a slot of a capture stays inside its slot. -/
theorem hoistWidth_le_footprint {user : FuseInput} {k width : Nat}
    (hoisted : (uniqueSlot user k).hoistWidth = some width) :
    width ≤ (uniqueSlot user k).footprint := by
  refine Nat.le_trans (Nat.le_of_eq ?_) (size_le_footprint _)
  unfold UniqueSlot.hoistWidth at hoisted
  split at hoisted
  · rename_i isRef
    obtain rfl := Option.some.inj hoisted
    cases described : user.descriptor k with
    | none => simp [uniqueSlot, FuseInput.slotIsRef, described] at isRef
    | some param =>
        rw [uniqueSlot, slotSize_eq described,
          paramWidth_reference ((slotIsRef_iff described).mp isRef)]
  · split at hoisted
    · exact (Option.some.inj hoisted).symm
    · exact (Option.some_ne_none _ hoisted.symm).elim

/-- The segment of a null capture: zeros, as far as the shared slot reaches. -/
structure NullSegment (first : UniqueSlot) (param : CommandProgParam)
    (segment : Segment (BitVec 8)) : Prop where
  offset : segment.offset = param.offset
  length : segment.values.length = first.hoistWidth.getD param.size
  zero : ∀ {k value}, segment.values[k]? = some value →
    k < first.footprint → value = 0
  hoisted : ∀ {width}, first.hoistWidth = some width →
    width ≤ first.footprint

variable (memory typeId) in
theorem reconSegment_null (bodies : ∀ input ∈ inputs, PackedBody input)
    (at_i : inputs[i]? = some input)
    (atCapture : input.captures[j]? = some param)
    (null : input.slot j = 0) :
    ∃ first, firstNull inputs = some first ∧
      ReconSlot memory (deduplicate memory typeId inputs) i j first ∧
        NullSegment first param
          (reconSegment memory (deduplicate memory typeId inputs) i j
            param) := by
  have body := bodies input (List.mem_of_getElem? at_i)
  obtain ⟨first, isFirst, routed⟩ :=
    slotOf_null memory typeId at_i (fun input member => (bodies input member).leaf)
      (body.bound atCapture) null
  have slot : ReconSlot memory (deduplicate memory typeId inputs) i j first :=
    reconSlot_of_routed routed
  refine ⟨first, isFirst, slot, ?_⟩
  rw [reconSegment, slot.width]
  refine
    { offset := rfl
      length := Buffer.read_length _ _ _
      zero := ?_
      hoisted := ?_ }
  · intro k value stored inside
    obtain ⟨bound, rfl⟩ := List.getElem?_eq_some_iff.mp stored
    simp only [Buffer.read, List.getElem_map, List.getElem_range]
    exact slot.null (firstNull_null isFirst) k inside
  · obtain ⟨user, -, member⟩ :=
      List.mem_flatMap.mp (List.mem_of_find?_eq_some isFirst)
    obtain ⟨k, -, rfl⟩ := List.mem_map.mp member
    exact hoistWidth_le_footprint

/-- A hoisted null capture writes zeros up to the width of the load. -/
theorem NullSegment.at?_hoisted {first : UniqueSlot}
    {segment : Segment (BitVec 8)} (null : NullSegment first param segment)
    {width position : Nat} (hoisted : first.hoistWidth = some width)
    (reached : param.offset ≤ position)
    (within : position < param.offset + width) :
    segment.at? position = some 0 := by
  have wide := null.hoisted hoisted
  have length : segment.values.length = width := by
    rw [null.length, hoisted, Option.getD_some]
  have stored : segment.values[position - param.offset]? = some _ :=
    List.getElem?_eq_getElem (by omega)
  rw [Segment.at?, null.offset, if_pos reached, stored,
    null.zero stored (by omega)]

theorem reconSegments_getElem? {dedup : Deduplicated} :
    (reconSegments memory dedup i input)[j]? =
      (input.captures[j]?).map (reconSegment memory dedup i j) := by
  simp [reconSegments, Function.comp_def]

variable {k : Nat}

/-- The segment of a capture holds the bytes that the capture must have. -/
theorem reconSegment_at (bodies : ∀ input ∈ inputs, PackedBody input)
    (fits : NullsFit memory inputs) (at_i : inputs[i]? = some input)
    (atCapture : input.captures[j]? = some param) (inside : k < param.size) :
    (reconSegment memory (deduplicate memory typeId inputs) i j param).at?
        (param.offset + k) = some (captureByte memory input j k) := by
  by_cases null : input.slot j = 0
  · obtain ⟨first, isFirst, -, segment⟩ :=
      reconSegment_null memory typeId bodies at_i atCapture null
    have serves := fits first isFirst input (List.mem_of_getElem? at_i) j param
      atCapture null
    have reach : k < first.hoistWidth.getD param.size ∧
        k < first.footprint := by
      unfold Serves at serves
      cases hoisted : first.hoistWidth with
      | none =>
          rw [hoisted] at serves
          exact ⟨inside, Nat.lt_of_lt_of_le inside serves⟩
      | some width =>
          rw [hoisted] at serves
          have wide := Nat.lt_of_lt_of_le inside serves.1
          exact ⟨wide, Nat.lt_of_lt_of_le wide (segment.hoisted hoisted)⟩
    have stored := List.getElem?_eq_getElem (segment.length ▸ reach.1)
    rw [← segment.offset, Segment.at?_add, stored, captureByte, if_pos null,
      segment.zero stored reach.2]
  · rw [reconSegment_nonNull bodies at_i atCapture null, captureByte,
      if_neg null]
    exact (Segment.at?_add k).trans (readBytes_getElem? inside)

/-- Another capture writes a byte of a capture only behind a null capture. -/
theorem overrun_of_covered (bodies : ∀ input ∈ inputs, PackedBody input)
    (at_i : inputs[i]? = some input)
    (atCapture : input.captures[j]? = some param) (inside : k < param.size)
    {j' : Nat} {param' : CommandProgParam} (different : j ≠ j')
    (atCapture' : input.captures[j']? = some param') {value : BitVec 8}
    (covered : (reconSegment memory (deduplicate memory typeId inputs) i j'
      param').at? (param.offset + k) = some value) :
    input.slot j' = 0 ∧ value = 0 ∧ ∃ first width,
      firstNull inputs = some first ∧ first.hoistWidth = some width ∧
        param'.offset + param'.size ≤ param.offset + k ∧
          param.offset + k < param'.offset + width := by
  have apart := (bodies input (List.mem_of_getElem? at_i)).beside.apart
    different atCapture atCapture'
  by_cases null : input.slot j' = 0
  · obtain ⟨first, isFirst, -, segment⟩ :=
      reconSegment_null memory typeId bodies at_i atCapture' null
    have reached := Segment.at?_eq_none_iff.not.mp
      (covered ▸ Option.some_ne_none value)
    rw [segment.offset, segment.length] at reached
    cases hoisted : first.hoistWidth with
    | none =>
        rw [hoisted, Option.getD_none] at reached
        omega
    | some width =>
        rw [hoisted, Option.getD_some] at reached
        refine ⟨null, ?_, first, width, isFirst, hoisted, by omega, by omega⟩
        have stored := covered
        rw [Segment.at?, if_pos (by rw [segment.offset]; omega)] at stored
        have wide := segment.hoisted hoisted
        refine segment.zero stored ?_
        rw [segment.offset]
        omega
  · rw [reconSegment_nonNull bodies at_i atCapture' null,
      outside_of_apart (by simp) (by omega)] at covered
    exact (Option.some_ne_none _ covered.symm).elim

/-- If the shared slot fits, every capture is stored inside its buffer. -/
theorem reconInside_of_fits (bodies : ∀ input ∈ inputs, PackedBody input)
    (fits : NullsFit memory inputs) (at_i : inputs[i]? = some input)
    (atCapture : input.captures[j]? = some param) :
    ReconInside (deduplicate memory typeId inputs) i input j param := by
  by_cases null : input.slot j = 0
  · have member := List.mem_of_getElem? at_i
    obtain ⟨first, isFirst, slot, segment⟩ :=
      reconSegment_null memory typeId bodies at_i atCapture null
    have serves := fits first isFirst input member j param atCapture null
    have inside := slot.inside
    have captured := le_packedBufSize (List.mem_of_getElem? atCapture)
    rw [← (bodies input member).bufSize] at captured
    unfold Serves at serves
    constructor <;> rw [slot.width] <;>
      cases hoisted : first.hoistWidth with
      | none =>
          rw [hoisted] at serves
          rw [Option.getD_none]
          omega
      | some width =>
          rw [hoisted] at serves
          have wide := segment.hoisted hoisted
          rw [Option.getD_some]
          omega
  · exact reconInside_nonNull bodies at_i atCapture null

/-- If the shared slot fits, every body finds the bytes of its captures. -/
theorem reconSegments_at (bodies : ∀ input ∈ inputs, PackedBody input)
    (fits : NullsFit memory inputs) (at_i : inputs[i]? = some input)
    (atCapture : input.captures[j]? = some param) (inside : k < param.size)
    (junk : Nat → BitVec 8) :
    Buffer.writeAll junk
        (reconSegments memory (deduplicate memory typeId inputs) i input)
        (param.offset + k) = captureByte memory input j k := by
  have member := List.mem_of_getElem? at_i
  refine Buffer.writeAll_eq
    (by rw [reconSegments_getElem?, atCapture, Option.map_some])
    (reconSegment_at bodies fits at_i atCapture inside) ?_
  intro j' other later at_j' value covered
  rw [reconSegments_getElem?] at at_j'
  obtain ⟨param', atCapture', rfl⟩ := Option.map_eq_some_iff.mp at_j'
  obtain ⟨null, rfl, first, width, isFirst, hoisted, behind, before⟩ :=
    overrun_of_covered bodies at_i atCapture inside (Nat.ne_of_lt later)
      atCapture' covered
  -- The overrun of a later null capture writes zeros over zeros.
  rw [captureByte]
  split
  · rfl
  · rename_i nonNull
    have serves := fits first isFirst input member j' param' atCapture' null
    rw [Serves, hoisted] at serves
    exact (serves.2.2 j later param atCapture nonNull k inside behind
      before).symm

/-- The first null capture, if there is one, is loaded by a hoisted load. -/
def HoistedNull (inputs : List FuseInput) : Prop :=
  ∀ first, firstNull inputs = some first → first.hoistWidth.isSome

variable (memory typeId) in
/-- Bytes that agree need a shared slot that serves every null capture. -/
theorem serves_of_agree (bodies : ∀ input ∈ inputs, PackedBody input)
    (at_i : inputs[i]? = some input)
    (rebuilt : ∀ {j param}, input.captures[j]? = some param →
      ReconInside (deduplicate memory typeId inputs) i input j param)
    (agree : ∀ {j k param}, input.captures[j]? = some param →
      k < param.size → ∀ junk,
        Buffer.writeAll junk
            (reconSegments memory (deduplicate memory typeId inputs) i input)
            (param.offset + k) = captureByte memory input j k)
    {first : UniqueSlot} (isFirst : firstNull inputs = some first)
    (hoisted : first.hoistWidth.isSome)
    (atCapture : input.captures[j]? = some param)
    (null : input.slot j = 0) : Serves memory first input j param := by
  obtain ⟨width, hoisted⟩ := Option.isSome_iff_exists.mp hoisted
  have beside := (bodies input (List.mem_of_getElem? at_i)).beside
  obtain ⟨first', isFirst', slot, segment⟩ :=
    reconSegment_null memory typeId bodies at_i atCapture null
  obtain rfl := Option.some.inj (isFirst.symm.trans isFirst')
  rw [Serves, hoisted]
  refine ⟨?_, ?_, ?_⟩
  · -- A longer capture keeps what the stack slot held.
    by_contra longer
    rw [Nat.not_le] at longer
    have zeros := agree atCapture longer fun _ => 1
    rw [captureByte, if_pos null, Buffer.writeAll_outside] at zeros
    · exact absurd zeros (by decide)
    · intro other member
      obtain ⟨j', at_j'⟩ := List.getElem?_of_mem member
      rw [reconSegments_getElem?] at at_j'
      obtain ⟨param', atCapture', rfl⟩ := Option.map_eq_some_iff.mp at_j'
      cases covered : (reconSegment memory
          (deduplicate memory typeId inputs) i j' param').at?
            (param.offset + width) with
      | none => rfl
      | some value =>
          by_cases same : j = j'
          · subst same
            obtain rfl := Option.some.inj (atCapture.symm.trans atCapture')
            have outside := Segment.at?_eq_none_iff.not.mp
              (covered ▸ Option.some_ne_none value)
            rw [segment.offset, segment.length, hoisted, Option.getD_some]
              at outside
            omega
          · obtain ⟨-, -, first', width', isFirst', hoisted', behind, before⟩ :=
              overrun_of_covered bodies at_i atCapture longer same atCapture'
                covered
            obtain rfl := Option.some.inj (isFirst.symm.trans isFirst')
            obtain rfl := Option.some.inj (hoisted.symm.trans hoisted')
            have apart := beside.apart same atCapture atCapture'
            omega
  · -- A store past the end of the stack slot is undefined.
    have store := (rebuilt atCapture).store
    rwa [slot.width, hoisted, Option.getD_some] at store
  · intro earlier before param' atCapture' nonNull k inside behind within
    have bytes := agree atCapture' inside fun _ => 0
    have zero : Buffer.writeAll (fun _ => 0)
        (reconSegments memory (deduplicate memory typeId inputs) i input)
        (param'.offset + k) = 0 := by
      refine Buffer.writeAll_eq
        (by rw [reconSegments_getElem?, atCapture, Option.map_some])
        (segment.at?_hoisted hoisted (by omega) within) ?_
      intro later other after at_later value covered
      rw [reconSegments_getElem?] at at_later
      obtain ⟨param'', atCapture'', rfl⟩ :=
        Option.map_eq_some_iff.mp at_later
      exact (overrun_of_covered bodies at_i atCapture' inside
        (Nat.ne_of_lt (Nat.lt_trans before after)) atCapture'' covered).2.1
    rw [zero, captureByte, if_neg nonNull] at bytes
    exact bytes.symm

end Fused

/-- Fusion knows every body of a packed chain. -/
theorem packedBodies {progs : List CommandProg} {inputs : List FuseInput}
    (built : fuseInputs progs = some inputs)
    (packed : ∀ input ∈ inputs, input.isPackedLeaf)
    (beside : ∀ input ∈ inputs, SideBySide input) :
    ∀ input ∈ inputs, PackedBody input := by
  intro input member
  obtain ⟨i, at_i⟩ := List.getElem?_of_mem member
  obtain ⟨prog, -, run⟩ := fuseInputs_getElem? built at_i
  have known := fuseInput_packed run (packed input member)
  exact
    { shape := known.shape
      table := known.table
      arity := known.arity
      valueDedup := known.valueDedup
      bufSize := known.bufSize
      beside := beside input member }

/--
Fused and standalone packing of a chain of packed bodies agree if the shared
slot of the null captures fits, and only if, as far as it is hoisted.
-/
theorem packed_agree (memory : Memory) (typeId : IrType → Address)
    (progs : List CommandProg) (inputs : List FuseInput)
    (dedup : Deduplicated)
    (fused : fuseDedup memory typeId progs = some (inputs, dedup))
    (packed : ∀ input ∈ inputs, input.isPackedLeaf)
    (beside : ∀ input ∈ inputs, SideBySide input)
    (unpacked : ∀ prog ∈ progs, prog.argsSize = 0) :
    (NullsFit memory inputs → PackedAgree memory progs inputs dedup) ∧
      (HoistedNull inputs → PackedAgree memory progs inputs dedup →
        NullsFit memory inputs) := by
  obtain ⟨built, rfl⟩ := fuseDedup_eq fused
  have bodies := packedBodies built packed beside
  have alone : ∀ {i j : Nat} {prog : CommandProg} {input : FuseInput}
      {param : CommandProgParam}, progs[i]? = some prog →
        inputs[i]? = some input → input.captures[j]? = some param →
          jitPack memory prog =
            some (packBuffer memory input.captures input.slots) := by
    intro i j prog input param at_i atInput atCapture
    obtain ⟨prog', at_i', run⟩ := fuseInputs_getElem? built atInput
    obtain rfl := Option.some.inj (at_i.symm.trans at_i')
    exact jitPack_packed
      (fuseInput_packed run (packed input (List.mem_of_getElem? atInput)))
      (unpacked prog (List.mem_of_getElem? at_i)) atCapture
  constructor
  · intro fits
    refine ⟨packedLayout_placed _, ?_⟩
    intro i j prog input param at_i atInput atCapture
    refine ⟨_, alone at_i atInput atCapture, fun junk =>
      ⟨_, reconBuffer_eq_some_iff.mpr ⟨fun _ _ atOther =>
        reconInside_of_fits bodies fits atInput atOther, rfl⟩,
        fun k inside => ?_⟩⟩
    rw [packBuffer_at (bodies input (List.mem_of_getElem? atInput)).beside
        atCapture inside,
      reconSegments_at bodies fits atInput atCapture inside junk]
  · intro hoisted agree first isFirst input member j param atCapture null
    obtain ⟨i, atInput⟩ := List.getElem?_of_mem member
    obtain ⟨prog, at_i, -⟩ := fuseInputs_getElem? built atInput
    have rebuilt : ∀ junk, ∃ buffer,
        reconBuffer memory (deduplicate memory typeId inputs) i input junk =
          some buffer := by
      intro junk
      obtain ⟨_, -, bytes⟩ := agree.bytes at_i atInput atCapture
      obtain ⟨buffer, ran, -⟩ := bytes junk
      exact ⟨buffer, ran⟩
    refine serves_of_agree memory typeId bodies atInput ?_ ?_ isFirst
      (hoisted first isFirst) atCapture null
    · obtain ⟨buffer, ran⟩ := rebuilt fun _ => 0
      exact fun {j param} => (reconBuffer_eq_some_iff.mp ran).1 j param
    · intro j k param atCapture inside junk
      obtain ⟨buffer, filled, bytes⟩ := agree.bytes at_i atInput atCapture
      obtain ⟨buffer', ran, same⟩ := bytes junk
      rw [alone at_i atInput atCapture, Option.some.injEq] at filled
      have byte := same k inside
      rw [← filled, packBuffer_at (bodies input member).beside atCapture
        inside, Option.some.injEq] at byte
      rw [(reconBuffer_eq_some_iff.mp ran).2]
      exact byte.symm

/-- A memory of zeros. -/
def zeroMemory : Memory :=
  fun _ => 0

/-- A packed body. -/
def bufferBody : IrFunction where
  name := "body"
  linkage := .external
  isDeclaration := false
  returnsVoid := true
  params := [.ptr, .integer 64]

/-- A packed task with one null capture of the given size. -/
def nullTask (size : Nat) : CommandProg :=
  let task := onePointerTask .packedBuffer
  { task with
    args := some (.slots [none])
    source :=
      { task.source with
        raw := some (.module ⟨[bufferBody]⟩)
        params := some [⟨.copy, size, 0⟩] } }

/-- The input for such a task. -/
def nullInput (size : Nat) : FuseInput where
  entry := bufferBody
  shape := .packedLeaf
  bufSize := packedBufSize [⟨.copy, size, 0⟩]
  slots := [0]
  valueDedup := false
  params := some [⟨.copy, size, 0⟩]

theorem nullInput_beside (size : Nat) : SideBySide (nullInput size) where
  disjoint := List.pairwise_singleton _ _
  reference := by
    intro param member kind
    obtain rfl := List.mem_singleton.mp member
    exact CommandProgParamKind.noConfusion kind

/-- A null capture of four bytes, and one of eight. -/
def fourThenEight : List FuseInput :=
  [nullInput 4, nullInput 8]

theorem packed_agree_fourThenEight :
    (NullsFit zeroMemory fourThenEight →
        PackedAgree zeroMemory [nullTask 4, nullTask 8] fourThenEight
          (deduplicate zeroMemory pagedTypeId fourThenEight)) ∧
      (HoistedNull fourThenEight →
        PackedAgree zeroMemory [nullTask 4, nullTask 8] fourThenEight
            (deduplicate zeroMemory pagedTypeId fourThenEight) →
          NullsFit zeroMemory fourThenEight) := by
  refine packed_agree zeroMemory pagedTypeId [nullTask 4, nullTask 8]
    fourThenEight _ rfl (by decide) ?_ (by decide)
  intro input member
  simp only [fourThenEight, List.mem_cons, List.not_mem_nil, or_false]
    at member
  rcases member with rfl | rfl
  · exact nullInput_beside 4
  · exact nullInput_beside 8

/-- Four bytes of the longer capture keep what the stack slot held. -/
theorem not_packed_agree :
    fuseDedup zeroMemory pagedTypeId [nullTask 4, nullTask 8] =
        some (fourThenEight,
          deduplicate zeroMemory pagedTypeId fourThenEight) ∧
      ¬PackedAgree zeroMemory [nullTask 4, nullTask 8] fourThenEight
        (deduplicate zeroMemory pagedTypeId fourThenEight) := by
  refine ⟨rfl, fun agree => ?_⟩
  obtain ⟨buffer, filled, bytes⟩ := agree.bytes (i := 1) (j := 0) rfl rfl rfl
  obtain rfl := Option.some.inj filled
  obtain ⟨rebuilt, ran, same⟩ := bytes fun _ => 1
  obtain rfl := (reconBuffer_eq_some_iff.mp ran).2
  have differ := same 4 (by decide)
  revert differ
  decide

end Cgir.Llvm
