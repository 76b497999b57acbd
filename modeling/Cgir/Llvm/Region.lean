import Mathlib.Algebra.Group.Nat.Defs
import Cgir.Llvm.FuseInput

/-!
# Regions of memory

What a launch needs of memory: writing bytes, the stretch of addresses that an
object takes, and the argument buffers in their bytes.
-/

namespace Cgir.Llvm

open Cgir.Model

/-! ## Words -/

theorem wordOf_cons (byte : BitVec 8) (bytes : List (BitVec 8)) :
    wordOf (byte :: bytes) = byte.setWidth 64 ||| wordOf bytes <<< 8 :=
  rfl

/-- The bits of a word are those of its bytes. -/
theorem wordOf_getLsbD (bytes : List (BitVec 8)) (bit : Nat)
    (bound : bit < 64) :
    (wordOf bytes).getLsbD bit =
      (bytes.getD (bit / 8) 0).getLsbD (bit % 8) := by
  induction bytes generalizing bit with
  | nil => simp [wordOf]
  | cons byte rest ih =>
      rw [wordOf_cons, BitVec.getLsbD_or, BitVec.getLsbD_setWidth,
        BitVec.getLsbD_shiftLeft]
      by_cases low : bit < 8
      · have first : bit / 8 = 0 := by omega
        have same : bit % 8 = bit := by omega
        simp [first, same, low, bound]
      · have beyond : byte.getLsbD bit = false :=
          BitVec.getLsbD_of_ge byte bit (by omega)
        have index : bit / 8 = (bit - 8) / 8 + 1 := by omega
        have inside : bit % 8 = (bit - 8) % 8 := by omega
        rw [beyond, ih (bit - 8) (by omega), index, inside]
        simp [low, bound]

@[simp] theorem wordOf_wordBytes (word : BitVec 64) :
    wordOf (wordBytes word) = word := by
  refine BitVec.eq_of_getLsbD_eq fun bit bound => ?_
  have byte : bit / 8 < 8 := by omega
  have index : 8 * (bit / 8) + bit % 8 = bit := by omega
  have small : bit % 8 < 8 := by omega
  rw [wordOf_getLsbD _ _ bound]
  simp [wordBytes, byte, small, index]

/-- Eight bytes are those of their word. -/
theorem wordBytes_wordOf {bytes : List (BitVec 8)}
    (length : bytes.length = 8) : wordBytes (wordOf bytes) = bytes := by
  refine List.ext_getElem (by simp [length]) fun k bound bound' => ?_
  rw [wordBytes_length] at bound
  refine BitVec.eq_of_getLsbD_eq fun bit small => ?_
  have within : 8 * k + bit < 64 := by omega
  have index : (8 * k + bit) / 8 = k := by omega
  have inside : (8 * k + bit) % 8 = bit := by omega
  simp only [wordBytes, List.getElem_map, List.getElem_range,
    BitVec.getLsbD_extractLsb', small, decide_true, Bool.true_and]
  rw [wordOf_getLsbD _ _ within, index, inside, List.getD_eq_getElem?_getD,
    List.getElem?_eq_getElem bound', Option.getD_some]

/-! ## Regions -/

/-- An address is one of the `size` addresses from `start` on. -/
def Inside (start : Address) (size : Nat) (address : Address) : Prop :=
  (address - start).toNat < size

instance (start : Address) (size : Nat) (address : Address) :
    Decidable (Inside start size address) :=
  inferInstanceAs (Decidable (_ < _))

/-- Write bytes from `start` on. -/
def writeBytes (memory : Memory) (start : Address) (bytes : List (BitVec 8)) :
    Memory :=
  fun address => (bytes[(address - start).toNat]?).getD (memory address)

theorem offset_sub (start : Address) (k : Nat) :
    start + BitVec.ofNat 64 k - start = BitVec.ofNat 64 k := by
  bv_omega

theorem offset_add (start : Address) (first second : Nat) :
    start + BitVec.ofNat 64 first + BitVec.ofNat 64 second =
      start + BitVec.ofNat 64 (first + second) := by
  bv_omega

section Regions

variable {memory memory' : Memory} {start address : Address} {size : Nat}
  {bytes : List (BitVec 8)}

theorem inside_add {k : Nat} (bound : k < size) :
    Inside start size (start + BitVec.ofNat 64 k) := by
  rw [Inside, offset_sub, BitVec.toNat_ofNat]
  exact Nat.lt_of_le_of_lt (Nat.mod_le _ _) bound

/-- A stretch of a region lies inside it. -/
theorem Inside.of_offset {offset larger : Nat}
    (inside : Inside (start + BitVec.ofNat 64 offset) size address)
    (fits : offset + size ≤ larger) : Inside start larger address := by
  unfold Inside at inside ⊢
  have split : address - start =
      address - (start + BitVec.ofNat 64 offset) + BitVec.ofNat 64 offset := by
    bv_omega
  rw [split, BitVec.toNat_add, BitVec.toNat_ofNat]
  have small : offset % 2 ^ 64 ≤ offset := Nat.mod_le _ _
  exact Nat.lt_of_le_of_lt (Nat.mod_le _ _) (by omega)

/-- Memories that agree on a region hold the same bytes there. -/
theorem readBytes_congr
    (agree : ∀ address, Inside start size address →
      memory address = memory' address) :
    readBytes memory start size = readBytes memory' start size := by
  refine List.map_congr_left fun k member => ?_
  exact agree _ (inside_add (List.mem_range.mp member))

theorem writeBytes_outside (outside : ¬ Inside start bytes.length address) :
    writeBytes memory start bytes address = memory address := by
  rw [writeBytes, List.getElem?_eq_none (Nat.le_of_not_lt outside),
    Option.getD_none]

/-- What has been written at an offset. -/
theorem writeBytes_at {k : Nat} {byte : BitVec 8}
    (stored : bytes[k]? = some byte) (fits : bytes.length ≤ 2 ^ 64) :
    writeBytes memory start bytes (start + BitVec.ofNat 64 k) = byte := by
  have bound := (List.getElem?_eq_some_iff.mp stored).1
  rw [writeBytes, offset_sub, BitVec.toNat_ofNat,
    Nat.mod_eq_of_lt (by omega), stored, Option.getD_some]

/-- What has been written is read back. -/
theorem readBytes_writeBytes (fits : bytes.length ≤ 2 ^ 64) :
    readBytes (writeBytes memory start bytes) start bytes.length = bytes := by
  refine List.ext_getElem (by simp) fun k bound bound' => ?_
  simp only [readBytes, List.getElem_map, List.getElem_range]
  exact writeBytes_at (List.getElem?_eq_getElem bound') fits

/-- Stretches of a region that lie apart. -/
theorem Inside.apart {first second size' : Nat}
    (inside : Inside (start + BitVec.ofNat 64 first) size address)
    (inside' : Inside (start + BitVec.ofNat 64 second) size' address)
    (apart : first + size ≤ second ∨ second + size' ≤ first)
    (fits : first + size ≤ 2 ^ 64) (fits' : second + size' ≤ 2 ^ 64) :
    False := by
  unfold Inside at inside inside'
  have place : ∀ offset, (address - start).toNat =
      ((address - (start + BitVec.ofNat 64 offset)).toNat +
        offset % 2 ^ 64) % 2 ^ 64 := by
    intro offset
    have split : address - start =
        address - (start + BitVec.ofNat 64 offset) +
          BitVec.ofNat 64 offset := by
      bv_omega
    rw [split, BitVec.toNat_add, BitVec.toNat_ofNat]
  have one := place first
  have two := place second
  omega

/-- The bytes of a stretch of a region. -/
theorem readBytes_drop {offset length : Nat}
    (fits : offset + length ≤ size) :
    readBytes memory (start + BitVec.ofNat 64 offset) length =
      ((readBytes memory start size).drop offset).take length := by
  refine List.ext_getElem ?_ fun k bound bound' => ?_
  · simp
    omega
  · simp [readBytes, offset_add]

end Regions

/-! ## Argument buffers -/

/-- The bytes of an argument buffer; a null slot is a null word. -/
def argsBytes : ArgsBuffer → List (BitVec 8)
  | .slots slots => slots.flatMap fun slot => wordBytes (slot.getD 0)
  | .packed bytes => bytes

/-- The arguments lie at an address. -/
def Resident (memory : Memory) (start : Address) (args : ArgsBuffer) : Prop :=
  readBytes memory start (argsBytes args).length = argsBytes args

theorem flatMap_words_drop (words : List Address) (k : Nat) :
    (words.flatMap wordBytes).drop (8 * k) =
      (words.drop k).flatMap wordBytes := by
  induction words generalizing k with
  | nil => simp
  | cons word rest ih =>
      cases k with
      | zero => rfl
      | succ k =>
          have behind : 8 * (k + 1) = (wordBytes word).length + 8 * k := by
            rw [wordBytes_length]
            omega
          rw [List.flatMap_cons, behind, List.drop_length_add_append, ih,
            List.drop_succ_cons]

/-- Slot `k` is the word at offset `8 * k`. -/
theorem slotAt_bytes {args : ArgsBuffer} {k : Nat} {slot : Address}
    (found : slotAt args k = some slot) :
    8 * k + 8 ≤ (argsBytes args).length ∧
      ((argsBytes args).drop (8 * k)).take 8 = wordBytes slot := by
  cases args with
  | slots slots =>
      obtain ⟨stored, here, rfl⟩ := Option.map_eq_some_iff.mp found
      have words : argsBytes (.slots slots) =
          (slots.map (Option.getD · 0)).flatMap wordBytes := by
        rw [argsBytes, List.flatMap_map]
      obtain ⟨bound, rfl⟩ := List.getElem?_eq_some_iff.mp here
      have behind : (slots.map (Option.getD · 0)).drop k =
          slots[k].getD 0 :: (slots.map (Option.getD · 0)).drop (k + 1) := by
        rw [List.drop_eq_getElem_cons (by simpa using bound),
          List.getElem_map]
      have tail : ((argsBytes (.slots slots)).drop (8 * k)) =
          wordBytes (slots[k].getD 0) ++
            ((slots.map (Option.getD · 0)).drop (k + 1)).flatMap wordBytes := by
        rw [words, flatMap_words_drop, behind, List.flatMap_cons]
      constructor
      · have long := congrArg List.length tail
        rw [List.length_drop, List.length_append, wordBytes_length] at long
        omega
      · rw [tail, List.take_left' (wordBytes_length _)]
  | packed bytes =>
      rw [slotAt] at found
      split at found
      · rename_i length
        obtain rfl := Option.some.inj found
        refine ⟨?_, (wordBytes_wordOf length).symm⟩
        rw [List.length_take, List.length_drop] at length
        show 8 * k + 8 ≤ bytes.length
        omega
      · exact (Option.some_ne_none _ found.symm).elim

end Cgir.Llvm
