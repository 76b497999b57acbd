import Mathlib

/-!
# Bit matrices

`bitset2d_t`: an `n` by `n` boolean matrix packed into words of `2 ^ shift` bits,
`stride` words a row.  Indices are unbounded natural numbers.

`test` reads a boolean matrix of which `set` adds one entry (`test_set`) and
`orRows` joins one row to another (`test_orRows`).
-/

namespace Cgir.Model

/--
`bitset2d_t<TYPE>` for a `TYPE` of `2 ^ shift` bits: `BITS` is `2 ^ shift`, `MASK`
is `2 ^ shift - 1`, and `SHIFT`, the trailing zeros of `BITS`, is `shift`.
-/
structure Bitset2d (shift : Nat) where
  n : Nat
  stride : Nat
  words : Nat → BitVec (2 ^ shift)

namespace Bitset2d

variable {shift : Nat}

/-- The constructor: `stride = ceil(n / BITS)`, all words cleared. -/
def new (shift n : Nat) : Bitset2d shift where
  n := n
  stride := (n + 2 ^ shift - 1) / 2 ^ shift
  words := fun _ => 0

/-- The index of word `word` of row `row`. -/
def wordIndex (bits : Bitset2d shift) (row word : Nat) : Nat :=
  row * bits.stride + word

/-- Set bit `(i, j)`. -/
def set (bits : Bitset2d shift) (i j : Nat) : Bitset2d shift :=
  let index := bits.wordIndex i (j >>> shift)
  { bits with
    words :=
      Function.update bits.words index
        (bits.words index |||
          1#(2 ^ shift) <<< (j &&& (2 ^ shift - 1))) }

/-- Test bit `(i, j)`. -/
def test (bits : Bitset2d shift) (i j : Nat) : Bool :=
  (bits.words (bits.wordIndex i (j >>> shift)) >>>
    (j &&& (2 ^ shift - 1))) &&& 1#(2 ^ shift) ≠ 0#(2 ^ shift)

/-- The body of the loop of `or_rows`. -/
def orWord (i j : Nat) (bits : Bitset2d shift) (word : Nat) :
    Bitset2d shift :=
  { bits with
    words :=
      Function.update bits.words (bits.wordIndex i word)
        (bits.words (bits.wordIndex i word) |||
          bits.words (bits.wordIndex j word)) }

/-- `row[i] |= row[j]`. -/
def orRows (bits : Bitset2d shift) (i j : Nat) : Bitset2d shift :=
  (List.range bits.stride).foldl (orWord i j) bits

/-! ## Shape -/

/-- The matrix has the dimensions its constructor gave it. -/
def Shaped (bits : Bitset2d shift) (n : Nat) : Prop :=
  bits.n = n ∧ bits.stride = (n + 2 ^ shift - 1) / 2 ^ shift

theorem new_shaped (shift n : Nat) : (new shift n).Shaped n :=
  ⟨rfl, rfl⟩

theorem Shaped.set {bits : Bitset2d shift} {n : Nat} (shaped : bits.Shaped n)
    (i j : Nat) : (bits.set i j).Shaped n :=
  shaped

/-- Every column of a matrix lies in a word of its rows. -/
theorem Shaped.word_lt {bits : Bitset2d shift} {n : Nat}
    (shaped : bits.Shaped n) {j : Nat} (bound : j < n) :
    j / 2 ^ shift < bits.stride := by
  have positive : 0 < 2 ^ shift := Nat.two_pow_pos shift
  rw [shaped.2, Nat.div_lt_iff_lt_mul positive]
  have rounded := Nat.lt_div_mul_add positive (a := n + 2 ^ shift - 1)
  omega

/-- Words of different rows have different indices. -/
theorem wordIndex_inj {bits : Bitset2d shift} {row row' word word' : Nat}
    (bound : word < bits.stride) (bound' : word' < bits.stride) :
    bits.wordIndex row word = bits.wordIndex row' word' ↔
      row = row' ∧ word = word' := by
  unfold wordIndex
  constructor
  · intro equal
    have positive : 0 < bits.stride := Nat.lt_of_le_of_lt (Nat.zero_le _) bound
    have rows := congrArg (· / bits.stride) equal
    have words := congrArg (· % bits.stride) equal
    simp only [Nat.mul_comm _ bits.stride,
      Nat.mul_add_div positive, Nat.mul_add_mod,
      Nat.div_eq_of_lt bound, Nat.div_eq_of_lt bound',
      Nat.mod_eq_of_lt bound, Nat.mod_eq_of_lt bound'] at rows words
    exact ⟨by simpa using rows, words⟩
  · rintro ⟨rfl, rfl⟩
    rfl

/-- The words of the rows lie in the allocation. -/
theorem wordIndex_lt {bits : Bitset2d shift} {row word : Nat}
    (rowLt : row < bits.n) (wordLt : word < bits.stride) :
    bits.wordIndex row word < bits.n * bits.stride := by
  unfold wordIndex
  calc
    row * bits.stride + word < row * bits.stride + bits.stride := by omega
    _ = (row + 1) * bits.stride := (Nat.succ_mul _ _).symm
    _ ≤ bits.n * bits.stride := Nat.mul_le_mul_right _ rowLt

/-- Columns in the same word differ in their bits. -/
theorem column_eq_iff {j j' : Nat}
    (same : j' / 2 ^ shift = j / 2 ^ shift) :
    j' = j ↔ j' % 2 ^ shift = j % 2 ^ shift := by
  constructor
  · intro equal
    rw [equal]
  · intro equal
    rw [← Nat.div_add_mod j' (2 ^ shift), ← Nat.div_add_mod j (2 ^ shift),
      same, equal]

/-! ## The boolean matrix -/

theorem test_eq (bits : Bitset2d shift) (i j : Nat) :
    bits.test i j =
      (bits.words (bits.wordIndex i (j / 2 ^ shift))).getLsbD
        (j % 2 ^ shift) := by
  unfold test
  rw [Nat.shiftRight_eq_div_pow, Nat.and_two_pow_sub_one_eq_mod,
    BitVec.and_one_eq_setWidth_ofBool_getLsbD, BitVec.getLsbD_ushiftRight,
    Nat.add_zero]
  cases (bits.words (bits.wordIndex i (j / 2 ^ shift))).getLsbD
    (j % 2 ^ shift) with
  | false => simp
  | true =>
      apply decide_eq_true
      intro zero
      have bit := congrArg (BitVec.getLsbD · 0) zero
      simp at bit

@[simp]
theorem test_new (n i j : Nat) : (new shift n).test i j = false := by
  rw [test_eq]
  simp [new]

/-- `set` adds one entry to the matrix. -/
theorem test_set {bits : Bitset2d shift} {i j i' j' : Nat}
    (bound : j / 2 ^ shift < bits.stride)
    (bound' : j' / 2 ^ shift < bits.stride) :
    (bits.set i j).test i' j' =
      (decide (i' = i ∧ j' = j) || bits.test i' j') := by
  have index : ∀ row word,
      (bits.set i j).wordIndex row word = bits.wordIndex row word :=
    fun _ _ => rfl
  rw [test_eq, test_eq, index]
  simp only [set, Function.update_apply, Nat.shiftRight_eq_div_pow,
    Nat.and_two_pow_sub_one_eq_mod]
  simp only [wordIndex_inj bound' bound]
  split
  · rename_i same
    rw [BitVec.getLsbD_or, Bool.or_comm, same.1, same.2]
    congr 1
    rw [← BitVec.twoPow_eq, BitVec.getLsbD_twoPow]
    simp only [true_and, column_eq_iff same.2]
    simp [eq_comm, Nat.mod_lt _ (Nat.two_pow_pos shift)]
  · rename_i different
    have other : ¬ (i' = i ∧ j' = j) := by
      rintro ⟨rfl, rfl⟩
      exact different ⟨rfl, rfl⟩
    simp [other]

/-! ## Joining rows -/

/-- The matrix after a part of the loop of `or_rows`. -/
theorem orWords_spec (bits : Bitset2d shift) (i j count : Nat)
    (bound : count ≤ bits.stride) :
    let after := (List.range count).foldl (orWord i j) bits
    after.n = bits.n ∧ after.stride = bits.stride ∧
      ∀ row word, word < bits.stride →
        after.words (bits.wordIndex row word) =
          if row = i ∧ word < count then
            bits.words (bits.wordIndex i word) |||
              bits.words (bits.wordIndex j word)
          else bits.words (bits.wordIndex row word) := by
  induction count with
  | zero => exact ⟨rfl, rfl, by simp⟩
  | succ count induction =>
      obtain ⟨same, sameStride, words⟩ :=
        induction (Nat.le_of_succ_le bound)
      simp only [List.range_succ, List.foldl_append, List.foldl_cons,
        List.foldl_nil]
      refine ⟨same, sameStride, ?_⟩
      intro row word wordLt
      have index : ∀ row word,
          ((List.range count).foldl (orWord i j) bits).wordIndex row word =
            bits.wordIndex row word := by
        intro row word
        unfold wordIndex
        rw [sameStride]
      simp only [orWord, Function.update_apply, index,
        wordIndex_inj wordLt bound]
      rw [words row word wordLt, words i count bound, words j count bound]
      simp only [Nat.lt_irrefl, and_false, if_false]
      by_cases isRow : row = i
      · subst isRow
        rcases Nat.lt_trichotomy word count with less | equal | greater
        · simp [Nat.ne_of_lt less, less, Nat.lt_succ_of_lt less]
        · simp [equal]
        · have notYet : ¬ word < count + 1 := by omega
          simp [Nat.ne_of_gt greater, notYet, Nat.lt_asymm greater]
      · simp [isRow]

theorem Shaped.orRows {bits : Bitset2d shift} {n : Nat}
    (shaped : bits.Shaped n) (i j : Nat) : (bits.orRows i j).Shaped n := by
  obtain ⟨same, sameStride, -⟩ := orWords_spec bits i j _ le_rfl
  exact ⟨same.trans shaped.1, sameStride.trans shaped.2⟩

/-- `orRows` joins row `j` of the matrix to row `i`. -/
theorem test_orRows {bits : Bitset2d shift} {i j i' j' : Nat}
    (bound : j' / 2 ^ shift < bits.stride) :
    (bits.orRows i j).test i' j' =
      (bits.test i' j' || (decide (i' = i) && bits.test j j')) := by
  obtain ⟨-, sameStride, words⟩ := orWords_spec bits i j _ le_rfl
  have index : (bits.orRows i j).wordIndex i' (j' / 2 ^ shift) =
      bits.wordIndex i' (j' / 2 ^ shift) := by
    unfold wordIndex orRows
    rw [sameStride]
  rw [test_eq, index, orRows, words i' _ bound, test_eq, test_eq]
  by_cases isRow : i' = i
  · simp [isRow, bound]
  · simp [isRow]

end Bitset2d

end Cgir.Model
