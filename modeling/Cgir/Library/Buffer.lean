import Mathlib.Data.List.Basic

/-!
# Buffers

A buffer gives every offset a value.  Segments are written one after the other;
the value at an offset is that of the last segment that covers it.
-/

namespace Cgir.Library

/-- Values from an offset on. -/
structure Segment (α : Type*) where
  offset : Nat
  values : List α
  deriving DecidableEq, Repr

namespace Segment

variable {α : Type*}

/-- The value of a segment at a position, if it covers the position. -/
def at? (segment : Segment α) (position : Nat) : Option α :=
  if segment.offset ≤ position then
    segment.values[position - segment.offset]?
  else
    none

variable {segment : Segment α} {position : Nat}

theorem at?_eq_none_iff :
    segment.at? position = none ↔
      position < segment.offset ∨
        segment.offset + segment.values.length ≤ position := by
  rw [at?]
  split
  · rw [List.getElem?_eq_none_iff]
    omega
  · exact iff_of_true rfl (Or.inl (by omega))

theorem at?_add (k : Nat) :
    segment.at? (segment.offset + k) = segment.values[k]? := by
  rw [at?, if_pos (Nat.le_add_right _ _), Nat.add_sub_cancel_left]

end Segment

namespace Buffer

variable {α : Type*}

/-- Write a segment. -/
def write (buffer : Nat → α) (segment : Segment α) : Nat → α :=
  fun position => (segment.at? position).getD (buffer position)

/-- Write segments one after the other. -/
def writeAll (buffer : Nat → α) (segments : List (Segment α)) : Nat → α :=
  segments.foldl write buffer

/-- The `size` values from `offset` on. -/
def read (buffer : Nat → α) (offset size : Nat) : List α :=
  (List.range size).map fun k => buffer (offset + k)

@[simp] theorem read_length (buffer : Nat → α) (offset size : Nat) :
    (read buffer offset size).length = size := by
  simp [read]

/-- A stretch of what has been read. -/
theorem read_slice {buffer : Nat → α} {size offset length : Nat}
    (fits : offset + length ≤ size) :
    ((read buffer 0 size).drop offset).take length =
      read buffer offset length := by
  refine List.ext_getElem (by simp; omega) fun k bound bound' => ?_
  simp [read]

@[simp] theorem writeAll_cons (buffer : Nat → α) (segment : Segment α)
    (rest : List (Segment α)) :
    writeAll buffer (segment :: rest) = writeAll (write buffer segment) rest :=
  rfl

theorem write_of_none {buffer : Nat → α} {segment : Segment α}
    {position : Nat} (outside : segment.at? position = none) :
    write buffer segment position = buffer position := by
  rw [write, outside, Option.getD_none]

theorem write_of_some {buffer : Nat → α} {segment : Segment α}
    {position : Nat} {value : α} (inside : segment.at? position = some value) :
    write buffer segment position = value := by
  rw [write, inside, Option.getD_some]

/-- A position keeps a value that every segment covering it has too. -/
theorem writeAll_of_agree {buffer : Nat → α} {segments : List (Segment α)}
    {position : Nat} {value : α} (start : buffer position = value)
    (agree : ∀ segment ∈ segments, ∀ other,
      segment.at? position = some other → other = value) :
    writeAll buffer segments position = value := by
  induction segments generalizing buffer with
  | nil => exact start
  | cons segment rest ih =>
      rw [writeAll_cons]
      refine ih ?_ fun later member => agree later (by simp [member])
      cases covered : segment.at? position with
      | none => rw [write_of_none covered, start]
      | some other =>
          rw [write_of_some covered]
          exact agree segment List.mem_cons_self other covered

/-- A position that no segment covers keeps its value. -/
theorem writeAll_outside {buffer : Nat → α} {segments : List (Segment α)}
    {position : Nat}
    (outside : ∀ segment ∈ segments, segment.at? position = none) :
    writeAll buffer segments position = buffer position := by
  refine writeAll_of_agree rfl fun segment member other covered => ?_
  rw [outside segment member] at covered
  exact (Option.some_ne_none _ covered.symm).elim

/--
A position has the value of a segment that covers it, if every later segment
that covers it has the same value.
-/
theorem writeAll_eq {buffer : Nat → α} {segments : List (Segment α)}
    {i : Nat} {segment : Segment α} {position : Nat} {value : α}
    (at_i : segments[i]? = some segment)
    (covered : segment.at? position = some value)
    (later : ∀ j other, i < j → segments[j]? = some other →
      ∀ value', other.at? position = some value' → value' = value) :
    writeAll buffer segments position = value := by
  induction segments generalizing buffer i with
  | nil => exact (Option.some_ne_none _ at_i.symm).elim
  | cons first rest ih =>
      rw [writeAll_cons]
      cases i with
      | zero =>
          obtain rfl := Option.some.inj at_i
          refine writeAll_of_agree (write_of_some covered) ?_
          intro other member value' covered'
          obtain ⟨j, at_j⟩ := List.getElem?_of_mem member
          exact later (j + 1) other (Nat.succ_pos j) at_j value' covered'
      | succ i =>
          refine ih at_i fun j other after at_j => ?_
          exact later (j + 1) other (Nat.succ_lt_succ after) at_j

end Buffer

end Cgir.Library
