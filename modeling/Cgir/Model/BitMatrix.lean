import Cgir.Library.Loop
import Cgir.Model.Bitset2d

/-!
# Packed bits and boolean matrices

The operations of `bitset2d_t` again, with every access of a word checked
against the `n * stride` words of the allocation.  Any run of them from a new
matrix returns and keeps `Represents`: the bits are those of a boolean matrix,
and the bits behind the last column of a row are zero.
-/

namespace Cgir.Model.Bitset2d

open Cgir.Library

variable {shift : Nat}

/-! ## Checked operations -/

namespace Checked

variable (bits : Bitset2d shift)

/-- Read a word of the allocation. -/
def load (index : Nat) : Option (BitVec (2 ^ shift)) :=
  if index < bits.n * bits.stride then some (bits.words index) else none

/-- Write a word of the allocation. -/
def store (index : Nat) (word : BitVec (2 ^ shift)) :
    Option (Bitset2d shift) :=
  if index < bits.n * bits.stride then
    some { bits with words := Function.update bits.words index word }
  else
    none

/-- Set bit `(i, j)`. -/
def set (i j : Nat) : Option (Bitset2d shift) := do
  let index := bits.wordIndex i (j >>> shift)
  let word ← load bits index
  store bits index (word ||| 1#(2 ^ shift) <<< (j &&& (2 ^ shift - 1)))

/-- Test bit `(i, j)`. -/
def test (i j : Nat) : Option Bool := do
  let word ← load bits (bits.wordIndex i (j >>> shift))
  return (word >>> (j &&& (2 ^ shift - 1))) &&& 1#(2 ^ shift) ≠ 0#(2 ^ shift)

/-- Clear bit `(i, j)`. -/
def clear (i j : Nat) : Option (Bitset2d shift) := do
  let index := bits.wordIndex i (j >>> shift)
  let word ← load bits index
  store bits index (word &&& ~~~(1#(2 ^ shift) <<< (j &&& (2 ^ shift - 1))))

/-- The body of the loop of `or_rows`. -/
def orWord (i j : Nat) (bits : Bitset2d shift) (word : Nat) :
    Option (Bitset2d shift) := do
  let ri ← load bits (bits.wordIndex i word)
  let rj ← load bits (bits.wordIndex j word)
  store bits (bits.wordIndex i word) (ri ||| rj)

/-- `row[i] |= row[j]`. -/
def orRows (i j : Nat) : Option (Bitset2d shift) :=
  (List.range bits.stride).foldlM (orWord i j) bits

/-- Whether any bit of `row[i] & row[j]` is set. -/
def rowsIntersect (i j : Nat) : Option Bool :=
  (List.range bits.stride).anyM fun word => do
    let ri ← load bits (bits.wordIndex i word)
    let rj ← load bits (bits.wordIndex j word)
    return ri &&& rj ≠ 0#(2 ^ shift)

/-- `memset` with zero of `count` words from word `start`. -/
def memset (start count : Nat) : Option (Bitset2d shift) :=
  (List.range count).foldlM
    (fun bits word => store bits (start + word) 0#(2 ^ shift)) bits

/-- Clear entire row `i`. -/
def resetRow (i : Nat) : Option (Bitset2d shift) :=
  memset bits (bits.wordIndex i 0) bits.stride

/-- Clear everything. -/
def resetAll : Option (Bitset2d shift) :=
  memset bits 0 (bits.n * bits.stride)

end Checked

/-- An operation that writes an `n` by `n` matrix, with indices in range. -/
inductive Op (n : Nat) where
  | set (i j : Fin n)
  | clear (i j : Fin n)
  | orRows (i j : Fin n)
  | resetRow (i : Fin n)
  | resetAll

/-- The operation on the packed bits. -/
def Op.run {n : Nat} (bits : Bitset2d shift) : Op n → Option (Bitset2d shift)
  | .set i j => Checked.set bits i j
  | .clear i j => Checked.clear bits i j
  | .orRows i j => Checked.orRows bits i j
  | .resetRow i => Checked.resetRow bits i
  | .resetAll => Checked.resetAll bits

/-- The operation on a boolean matrix. -/
def Op.act {n : Nat} (matrix : Fin n → Fin n → Bool) :
    Op n → Fin n → Fin n → Bool
  | .set i j => fun row column =>
      matrix row column || decide (row = i ∧ column = j)
  | .clear i j => fun row column =>
      matrix row column && !decide (row = i ∧ column = j)
  | .orRows i j => fun row column =>
      matrix row column || (decide (row = i) && matrix j column)
  | .resetRow i => fun row column => matrix row column && decide (row ≠ i)
  | .resetAll => fun _ _ => false

/-- The operations one after the other on a new matrix. -/
def runs (shift : Nat) {n : Nat} (ops : List (Op n)) :
    Option (Bitset2d shift) :=
  ops.foldlM Op.run (new shift n)

/-! ## Accesses in range -/

namespace Checked

variable {bits : Bitset2d shift} {i j : Nat}

theorem load_eq {index : Nat} (bound : index < bits.n * bits.stride) :
    load bits index = some (bits.words index) :=
  if_pos bound

theorem store_eq {index : Nat} (bound : index < bits.n * bits.stride)
    (word : BitVec (2 ^ shift)) :
    store bits index word =
      some { bits with words := Function.update bits.words index word } :=
  if_pos bound

theorem set_eq (rowLt : i < bits.n) (wordLt : j / 2 ^ shift < bits.stride) :
    set bits i j = some (bits.set i j) := by
  rw [← Nat.shiftRight_eq_div_pow] at wordLt
  have bound := wordIndex_lt rowLt wordLt
  simp only [set, load_eq bound, store_eq bound, Option.bind_eq_bind,
    Option.bind_some]
  rfl

theorem test_eq (rowLt : i < bits.n) (wordLt : j / 2 ^ shift < bits.stride) :
    test bits i j = some (bits.test i j) := by
  rw [← Nat.shiftRight_eq_div_pow] at wordLt
  simp only [test, load_eq (wordIndex_lt rowLt wordLt), Option.bind_eq_bind,
    Option.bind_some]
  rfl

/-- `clear` takes one entry from the matrix. -/
theorem clear_spec (rowLt : i < bits.n)
    (wordLt : j / 2 ^ shift < bits.stride) :
    ∃ after, clear bits i j = some after ∧
      after.n = bits.n ∧ after.stride = bits.stride ∧
        ∀ i' j', j' / 2 ^ shift < bits.stride →
          after.test i' j' =
            (bits.test i' j' && !decide (i' = i ∧ j' = j)) := by
  have bound := wordIndex_lt rowLt wordLt
  simp only [clear, Nat.shiftRight_eq_div_pow, load_eq bound, store_eq bound,
    Nat.and_two_pow_sub_one_eq_mod, Option.bind_eq_bind, Option.bind_some]
  refine ⟨_, rfl, rfl, rfl, ?_⟩
  intro i' j' wordLt'
  have index : ∀ row word : Nat,
      row * bits.stride + word = bits.wordIndex row word := fun _ _ => rfl
  rw [Bitset2d.test_eq, Bitset2d.test_eq]
  simp only [wordIndex]
  simp only [index, Function.update_apply, wordIndex_inj wordLt' wordLt]
  split
  · rename_i same
    rw [BitVec.getLsbD_and, BitVec.getLsbD_not, same.1, same.2,
      ← BitVec.twoPow_eq, BitVec.getLsbD_twoPow]
    simp only [true_and, column_eq_iff same.2]
    simp [eq_comm, Nat.mod_lt _ (Nat.two_pow_pos shift)]
  · rename_i different
    have other : ¬ (i' = i ∧ j' = j) := by
      rintro ⟨rfl, rfl⟩
      exact different ⟨rfl, rfl⟩
    simp [other]

theorem orWord_eq (iLt : i < bits.n) (jLt : j < bits.n) {word : Nat}
    (wordLt : word < bits.stride) :
    orWord i j bits word = some (Bitset2d.orWord i j bits word) := by
  simp only [orWord, load_eq (wordIndex_lt iLt wordLt),
    load_eq (wordIndex_lt jLt wordLt), store_eq (wordIndex_lt iLt wordLt),
    Option.bind_eq_bind, Option.bind_some]
  rfl

theorem orRows_eq (iLt : i < bits.n) (jLt : j < bits.n) :
    orRows bits i j = some (bits.orRows i j) := by
  have part : ∀ count ≤ bits.stride,
      (List.range count).foldlM (orWord i j) bits =
        some ((List.range count).foldl (Bitset2d.orWord i j) bits) := by
    intro count
    induction count with
    | zero => exact fun _ => rfl
    | succ count induction =>
        intro bound
        obtain ⟨same, sameStride, -⟩ :=
          orWords_spec bits i j count (Nat.le_of_succ_le bound)
        rw [List.range_succ, List.foldlM_append, List.foldl_append,
          induction (Nat.le_of_succ_le bound)]
        simp only [List.foldlM_cons, List.foldlM_nil, List.foldl_cons,
          List.foldl_nil, Option.bind_eq_bind, Option.bind_some]
        rw [orWord_eq (by rw [same]; exact iLt) (by rw [same]; exact jLt)
          (by rw [sameStride]; exact bound)]
        rfl
  exact part bits.stride le_rfl

/-- `memset` clears the words of its range and no others. -/
theorem memset_eq {start : Nat} (count : Nat)
    (bound : start + count ≤ bits.n * bits.stride) :
    memset bits start count =
      some
        { bits with
          words := fun index =>
            if start ≤ index ∧ index < start + count then 0#(2 ^ shift)
            else bits.words index } := by
  induction count with
  | zero =>
      have none : ∀ index, ¬ (start ≤ index ∧ index < start + 0) := by omega
      simp only [none, if_false]
      rfl
  | succ count induction =>
      have before := induction (by omega)
      unfold memset at before ⊢
      rw [List.range_succ, List.foldlM_append, before]
      simp only [List.foldlM_cons, List.foldlM_nil, Option.bind_eq_bind,
        Option.bind_some]
      rw [store_eq (by simp only; omega)]
      simp only [Option.bind_some, Option.pure_def, Option.some.injEq,
        Bitset2d.mk.injEq, true_and]
      funext index
      rw [Function.update_apply]
      by_cases last : index = start + count
      · have inside : start ≤ index ∧ index < start + (count + 1) := by omega
        rw [if_pos last, if_pos inside]
      · have same : (start ≤ index ∧ index < start + (count + 1)) ↔
            (start ≤ index ∧ index < start + count) := by omega
        rw [if_neg last]
        simp only [same]

theorem rowsIntersect_eq (iLt : i < bits.n) (jLt : j < bits.n) :
    rowsIntersect bits i j =
      some ((List.range bits.stride).any fun word =>
        bits.words (bits.wordIndex i word) &&&
          bits.words (bits.wordIndex j word) ≠ 0#(2 ^ shift)) := by
  apply Loop.anyM_eq_some
  intro word member
  have wordLt := List.mem_range.mp member
  simp only [load_eq (wordIndex_lt iLt wordLt),
    load_eq (wordIndex_lt jLt wordLt), Option.bind_eq_bind, Option.bind_some]
  rfl

end Checked

/-! ## The boolean matrix of the bits -/

/-- The bits are those of the matrix, and zero behind its last column. -/
structure Represents (bits : Bitset2d shift) {n : Nat}
    (matrix : Fin n → Fin n → Bool) : Prop where
  shaped : bits.Shaped n
  test : ∀ i j : Fin n, bits.test i j = matrix i j
  padding : ∀ (i : Fin n) (j : Nat), n ≤ j → j / 2 ^ shift < bits.stride →
    bits.test i j = false

/-- Two words share a bit when their conjunction is not zero. -/
theorem word_and_ne_zero_iff {width : Nat} (first second : BitVec width) :
    first &&& second ≠ BitVec.ofNat width 0 ↔
      ∃ bit, first.getLsbD bit = true ∧ second.getLsbD bit = true := by
  constructor
  · intro nonzero
    by_contra none
    apply nonzero
    apply BitVec.eq_of_getLsbD_eq
    intro bit _
    rw [BitVec.getLsbD_and, BitVec.getLsbD_zero]
    by_contra shared
    rw [Bool.not_eq_false, Bool.and_eq_true] at shared
    exact none ⟨bit, shared⟩
  · rintro ⟨bit, first, second⟩ zero
    have read := congrArg (BitVec.getLsbD · bit) zero
    simp [first, second] at read

namespace Represents

variable {bits : Bitset2d shift} {n : Nat} {matrix : Fin n → Fin n → Bool}

theorem new (shift n : Nat) :
    (Bitset2d.new shift n).Represents fun _ _ : Fin n => false where
  shaped := new_shaped shift n
  test i j := test_new n i j
  padding i j _ _ := test_new n i j

theorem row_lt (represents : bits.Represents matrix) (i : Fin n) :
    (i : Nat) < bits.n :=
  represents.shaped.1.symm ▸ i.isLt

/-- The matrix of bits that are known entry by entry. -/
theorem of_test (represents : bits.Represents matrix)
    (entry : Nat → Nat → Bool → Bool) {after : Bitset2d shift}
    (sameN : after.n = bits.n) (sameStride : after.stride = bits.stride)
    (test : ∀ (i : Fin n) (j : Nat), j / 2 ^ shift < bits.stride →
      after.test i j = entry i j (bits.test i j))
    (behind : ∀ (i : Fin n) (j : Nat), n ≤ j → entry i j false = false) :
    after.Represents fun i j => entry i j (matrix i j) where
  shaped :=
    ⟨sameN.trans represents.shaped.1, sameStride.trans represents.shaped.2⟩
  test i j := by
    rw [test i j (represents.shaped.word_lt j.isLt), represents.test]
  padding i j past wordLt := by
    rw [sameStride] at wordLt
    rw [test i j wordLt, represents.padding i j past wordLt,
      behind i j past]

theorem set (represents : bits.Represents matrix) (i j : Fin n) :
    ∃ after, Checked.set bits i j = some after ∧
      after.Represents ((Op.set i j).act matrix) := by
  have wordLt := represents.shaped.word_lt j.isLt
  refine ⟨_, Checked.set_eq (represents.row_lt i) wordLt, ?_⟩
  have after : (bits.set i j).Represents _ :=
    represents.of_test
      (fun row column bit => decide (row = i ∧ column = j) || bit) rfl rfl
      (fun row column columnLt => test_set wordLt columnLt)
      (by
        intro row column past
        have other : column ≠ j := by omega
        simp [other])
  simpa [Op.act, Bool.or_comm, Fin.ext_iff] using after

theorem clear (represents : bits.Represents matrix) (i j : Fin n) :
    ∃ after, Checked.clear bits i j = some after ∧
      after.Represents ((Op.clear i j).act matrix) := by
  obtain ⟨after, ran, sameN, sameStride, test⟩ :=
    Checked.clear_spec (represents.row_lt i)
      (represents.shaped.word_lt j.isLt)
  refine ⟨after, ran, ?_⟩
  have kept : after.Represents _ :=
    represents.of_test
      (fun row column bit => bit && !decide (row = i ∧ column = j))
      sameN sameStride (fun row column columnLt => test row column columnLt)
      (fun _ _ _ => Bool.false_and _)
  simpa [Op.act, Fin.ext_iff] using kept

/-- A row that is joined to itself stays as it is. -/
theorem orRows (represents : bits.Represents matrix) (i j : Fin n) :
    ∃ after, Checked.orRows bits i j = some after ∧
      after.Represents ((Op.orRows i j).act matrix) := by
  refine
    ⟨_, Checked.orRows_eq (represents.row_lt i) (represents.row_lt j), ?_⟩
  have shaped := represents.shaped.orRows i j
  have index : ∀ column : Nat, column / 2 ^ shift < bits.stride → ∀ row,
      (bits.orRows i j).test row column =
        (bits.test row column ||
          (decide (row = i) && bits.test j column)) :=
    fun column columnLt row => test_orRows columnLt
  refine ⟨shaped, ?_, ?_⟩
  · intro row column
    rw [index column (represents.shaped.word_lt column.isLt),
      represents.test, represents.test]
    simp [Op.act, Fin.ext_iff]
  · intro row column past columnLt
    rw [shaped.2, ← represents.shaped.2] at columnLt
    rw [index column columnLt, represents.padding row column past columnLt,
      represents.padding j column past columnLt, Bool.and_false, Bool.or_self]

/-- Clearing a range of words clears the bits in it. -/
theorem memset (represents : bits.Represents matrix) {start count : Nat}
    (bound : start + count ≤ bits.n * bits.stride)
    (cleared : Nat → Bool)
    (rows : ∀ (i : Fin n) (word : Nat), word < bits.stride →
      ((start ≤ bits.wordIndex i word ∧
        bits.wordIndex i word < start + count) ↔ cleared i)) :
    ∃ after, Checked.memset bits start count = some after ∧
      after.Represents fun i j => matrix i j && !cleared i := by
  refine ⟨_, Checked.memset_eq count bound, ?_⟩
  apply represents.of_test (fun row _ bit => bit && !cleared row)
  · rfl
  · rfl
  · intro row column columnLt
    rw [Bitset2d.test_eq, Bitset2d.test_eq]
    have range := rows row _ columnLt
    simp only [wordIndex] at range ⊢
    simp only [range]
    cases cleared row with
    | false => simp
    | true => simp
  · exact fun _ _ _ => Bool.false_and _

theorem resetRow (represents : bits.Represents matrix) (i : Fin n) :
    ∃ after, Checked.resetRow bits i = some after ∧
      after.Represents ((Op.resetRow i).act matrix) := by
  have bound : bits.wordIndex i 0 + bits.stride ≤ bits.n * bits.stride := by
    unfold wordIndex
    rw [Nat.add_zero, ← Nat.succ_mul]
    exact Nat.mul_le_mul_right _ (represents.row_lt i)
  obtain ⟨after, ran, kept⟩ :=
    represents.memset bound (fun row => decide (row = i)) (by
      intro row word wordLt
      rw [decide_eq_true_eq]
      unfold wordIndex
      rcases Nat.lt_trichotomy (row : Nat) i with less | same | greater
      · have below :=
          Nat.mul_le_mul_right bits.stride (Nat.succ_le_iff.mpr less)
        rw [Nat.succ_mul] at below
        omega
      · rw [same]
        omega
      · have above :=
          Nat.mul_le_mul_right bits.stride (Nat.succ_le_iff.mpr greater)
        rw [Nat.succ_mul] at above
        omega)
  refine ⟨after, ran, ?_⟩
  simpa [Op.act, Fin.ext_iff] using kept

theorem resetAll (represents : bits.Represents matrix) :
    ∃ after, Checked.resetAll bits = some after ∧
      after.Represents (Op.resetAll.act matrix) := by
  obtain ⟨after, ran, kept⟩ :=
    represents.memset (Nat.zero_add _).le (fun _ => true) (by
      intro row word wordLt
      have inside := wordIndex_lt (represents.row_lt row) wordLt
      simp only [iff_true]
      omega)
  refine ⟨after, ran, ?_⟩
  simpa [Op.act] using kept

/-- Every operation keeps the bits a matrix. -/
theorem run (represents : bits.Represents matrix) (op : Op n) :
    ∃ after, op.run bits = some after ∧ after.Represents (op.act matrix) := by
  cases op with
  | set i j => exact represents.set i j
  | clear i j => exact represents.clear i j
  | orRows i j => exact represents.orRows i j
  | resetRow i => exact represents.resetRow i
  | resetAll => exact represents.resetAll

/-- Every run of operations keeps the bits a matrix. -/
theorem foldlM_run (represents : bits.Represents matrix) (ops : List (Op n)) :
    ∃ after, ops.foldlM Op.run bits = some after ∧
      after.Represents (ops.foldl Op.act matrix) := by
  induction ops generalizing bits matrix with
  | nil => exact ⟨bits, rfl, represents⟩
  | cons op rest induction =>
      obtain ⟨middle, ran, kept⟩ := represents.run op
      obtain ⟨after, restRan, final⟩ := induction kept
      refine ⟨after, ?_, final⟩
      rw [List.foldlM_cons, ran]
      exact restRan

/-! ## Reads -/

/-- The bits behind the last column do not make rows intersect. -/
theorem rowsIntersect_eq (represents : bits.Represents matrix)
    (i j : Fin n) :
    Checked.rowsIntersect bits i j =
      some (decide (∃ k, matrix i k = true ∧ matrix j k = true)) := by
  rw [Checked.rowsIntersect_eq (represents.row_lt i) (represents.row_lt j),
    Option.some.injEq, Bool.eq_iff_iff, List.any_eq_true, decide_eq_true_eq]
  simp only [List.mem_range, decide_eq_true_eq, word_and_ne_zero_iff]
  have positive : 0 < 2 ^ shift := Nat.two_pow_pos shift
  constructor
  · rintro ⟨word, wordLt, bit, inFirst, inSecond⟩
    have bitLt : bit < 2 ^ shift := BitVec.lt_of_getLsbD inFirst
    have column : (2 ^ shift * word + bit) / 2 ^ shift = word ∧
        (2 ^ shift * word + bit) % 2 ^ shift = bit := by
      rw [Nat.mul_add_div positive, Nat.mul_add_mod,
        Nat.div_eq_of_lt bitLt, Nat.mod_eq_of_lt bitLt]
      exact ⟨Nat.add_zero _, rfl⟩
    have read : ∀ row : Fin n,
        (bits.words (bits.wordIndex row word)).getLsbD bit = true →
          bits.test row (2 ^ shift * word + bit) = true := by
      intro row set
      rw [Bitset2d.test_eq, column.1, column.2, set]
    have columnLt : 2 ^ shift * word + bit < n := by
      by_contra past
      have zero :=
        represents.padding i _ (Nat.le_of_not_lt past)
          (by rw [column.1]; exact wordLt)
      rw [read i inFirst] at zero
      cases zero
    refine ⟨⟨_, columnLt⟩, ?_, ?_⟩
    · rw [← represents.test]
      exact read i inFirst
    · rw [← represents.test]
      exact read j inSecond
  · rintro ⟨k, inFirst, inSecond⟩
    rw [← represents.test, Bitset2d.test_eq] at inFirst inSecond
    exact ⟨_, represents.shaped.word_lt k.isLt, _, inFirst, inSecond⟩

end Represents

/--
After every run of operations from a new matrix, which accesses allocated words
only, the reads are those of the boolean matrix that the same operations make,
and the bits of a row behind the last column are zero.
-/
theorem runs_represents (shift : Nat) {n : Nat} (ops : List (Op n)) :
    ∃ bits, runs shift ops = some bits ∧
      (∀ i j : Fin n, Checked.test bits i j =
        some (ops.foldl Op.act (fun _ _ => false) i j)) ∧
      (∀ i j : Fin n, Checked.rowsIntersect bits i j =
        some (decide (∃ k,
          ops.foldl Op.act (fun _ _ => false) i k = true ∧
            ops.foldl Op.act (fun _ _ => false) j k = true))) ∧
      bits.n = n ∧ bits.stride = (n + 2 ^ shift - 1) / 2 ^ shift ∧
      ∀ (i : Fin n) (j : Nat), n ≤ j → j < bits.stride * 2 ^ shift →
        Checked.test bits i j = some false := by
  obtain ⟨bits, ran, represents⟩ := (Represents.new shift n).foldlM_run ops
  refine
    ⟨bits, ran, ?_, represents.rowsIntersect_eq, represents.shaped.1,
      represents.shaped.2, ?_⟩
  · intro i j
    rw [Checked.test_eq (represents.row_lt i)
      (represents.shaped.word_lt j.isLt), represents.test]
  · intro i j past columnLt
    have wordLt : j / 2 ^ shift < bits.stride :=
      (Nat.div_lt_iff_lt_mul (Nat.two_pow_pos shift)).mpr columnLt
    rw [Checked.test_eq (represents.row_lt i) wordLt,
      represents.padding i j past wordLt]

end Cgir.Model.Bitset2d
