import Mathlib.Data.List.Nodup
import Mathlib.Logic.Function.Basic

/-!
# Custody of heap buffers

Slots hold buffers and own some of them.  A write puts a new buffer or nothing
into a slot, and may free the buffer that the slot owns before.  No write frees
a buffer twice or leaves a slot with a freed buffer; a write that frees nothing
loses the buffer of its slot for good.
-/

namespace Cgir.Library

/-- Which slots hold and own which buffers, and what was allocated and freed. -/
@[ext]
structure Custody (Slot : Type) where
  held : Slot → Option Nat
  owned : Slot → Bool
  next : Nat
  freed : List Nat

/-- Put a new buffer or nothing into a slot. -/
structure Write (Slot : Type) where
  slot : Slot
  frees : Bool
  fresh : Bool

namespace Custody

variable {Slot : Type} (custody : Custody Slot)

/-- The slot holds the buffer and is to free it. -/
def Owns (slot : Slot) (buffer : Nat) : Prop :=
  custody.owned slot = true ∧ custody.held slot = some buffer

/-- What freeing a slot frees. -/
def disposed (slot : Slot) : List Nat :=
  if custody.owned slot then (custody.held slot).toList else []

/--
No buffer is freed twice, no slot holds a freed buffer, and no other slot holds
what a slot owns.
-/
structure Sound : Prop where
  held_lt : ∀ slot buffer, custody.held slot = some buffer →
    buffer < custody.next
  held_live : ∀ slot buffer, custody.held slot = some buffer →
    buffer ∉ custody.freed
  exclusive : ∀ slot other buffer, custody.Owns slot buffer →
    custody.held other = some buffer → other = slot
  freed_lt : ∀ buffer ∈ custody.freed, buffer < custody.next
  freed_nodup : custody.freed.Nodup

/-- An allocated buffer that is not freed and that no slot holds. -/
structure Lost (buffer : Nat) : Prop where
  allocated : buffer < custody.next
  live : buffer ∉ custody.freed
  unheld : ∀ slot, custody.held slot ≠ some buffer

/-- Every owned buffer is still held by its slot or was freed. -/
def Tidy (before after : Custody Slot) : Prop :=
  ∀ slot buffer, before.Owns slot buffer →
    after.held slot = some buffer ∨ buffer ∈ after.freed

/-- The write loses no buffer. -/
def Spares (write : Write Slot) : Prop :=
  write.frees = true ∨ ∀ buffer, ¬ custody.Owns write.slot buffer

variable {custody}

theorem mem_disposed {slot : Slot} {buffer : Nat} :
    buffer ∈ custody.disposed slot ↔ custody.Owns slot buffer := by
  unfold disposed Owns
  split
  · rename_i isOwned
    rw [Option.mem_toList]
    exact (and_iff_right isOwned).symm
  · rename_i notOwned
    simp [notOwned]

variable (custody) [DecidableEq Slot]

/-- The custody after a write; a new buffer is owned. -/
def put (write : Write Slot) : Custody Slot where
  held := Function.update custody.held write.slot
    (if write.fresh then some custody.next else none)
  owned := Function.update custody.owned write.slot write.fresh
  next := if write.fresh then custody.next + 1 else custody.next
  freed := custody.freed ++
    if write.frees then custody.disposed write.slot else []

/-- Several writes, one after another. -/
def puts (writes : List (Write Slot)) : Custody Slot :=
  writes.foldl (fun before write => before.put write) custody

variable {custody} {write : Write Slot}

theorem mem_freed_put {buffer : Nat} :
    buffer ∈ (custody.put write).freed ↔ buffer ∈ custody.freed ∨
      write.frees = true ∧ custody.Owns write.slot buffer := by
  rw [put, List.mem_append]
  cases write.frees with
  | true => simp [mem_disposed]
  | false => simp

theorem held_put_of_ne {slot : Slot} (apart : slot ≠ write.slot) :
    (custody.put write).held slot = custody.held slot :=
  Function.update_of_ne apart ..

theorem owned_put_of_ne {slot : Slot} (apart : slot ≠ write.slot) :
    (custody.put write).owned slot = custody.owned slot :=
  Function.update_of_ne apart ..

theorem held_put_self : (custody.put write).held write.slot =
    if write.fresh then some custody.next else none :=
  Function.update_self ..

theorem owns_put_of_ne {slot : Slot} (apart : slot ≠ write.slot)
    {buffer : Nat} :
    (custody.put write).Owns slot buffer ↔ custody.Owns slot buffer := by
  unfold Owns
  rw [held_put_of_ne apart, owned_put_of_ne apart]

theorem next_le_put : custody.next ≤ (custody.put write).next := by
  unfold put
  dsimp only
  split
  · exact Nat.le_succ _
  · exact Nat.le_refl _

theorem next_lt_put (fresh : write.fresh = true) :
    custody.next < (custody.put write).next := by
  unfold put
  dsimp only
  rw [if_pos fresh]
  exact Nat.lt_succ_self _

/-- What a slot holds after a write, it held before, or it is new. -/
theorem held_put_cases {slot : Slot} {buffer : Nat}
    (held : (custody.put write).held slot = some buffer) :
    (slot ≠ write.slot ∧ custody.held slot = some buffer) ∨
      (slot = write.slot ∧ write.fresh = true ∧ buffer = custody.next) := by
  by_cases same : slot = write.slot
  · subst same
    rw [held_put_self] at held
    cases fresh : write.fresh with
    | true =>
        rw [fresh, if_pos rfl, Option.some.injEq] at held
        exact Or.inr ⟨rfl, rfl, held.symm⟩
    | false =>
        rw [fresh] at held
        cases held
  · rw [held_put_of_ne same] at held
    exact Or.inl ⟨same, held⟩

/-- A write keeps the custody sound. -/
theorem Sound.put (sound : custody.Sound) : (custody.put write).Sound where
  held_lt := by
    intro slot buffer held
    rcases held_put_cases held with ⟨-, before⟩ | ⟨-, fresh, rfl⟩
    · exact Nat.lt_of_lt_of_le (sound.held_lt slot buffer before) next_le_put
    · exact next_lt_put fresh
  held_live := by
    intro slot buffer held gone
    rw [mem_freed_put] at gone
    rcases held_put_cases held with ⟨apart, before⟩ | ⟨-, -, rfl⟩
    · rcases gone with old | ⟨-, owns⟩
      · exact sound.held_live slot buffer before old
      · exact apart (sound.exclusive _ slot buffer owns before)
    · rcases gone with old | ⟨-, owns⟩
      · exact Nat.lt_irrefl _ (sound.freed_lt _ old)
      · exact Nat.lt_irrefl _ (sound.held_lt _ _ owns.2)
  exclusive := by
    intro slot other buffer owns held
    rcases held_put_cases held with ⟨apart, before⟩ | ⟨isSlot, -, rfl⟩
    · rcases held_put_cases owns.2 with ⟨apart', -⟩ | ⟨-, -, rfl⟩
      · exact
          sound.exclusive slot other buffer ((owns_put_of_ne apart').mp owns)
            before
      · exact (Nat.lt_irrefl _ (sound.held_lt _ _ before)).elim
    · rcases held_put_cases owns.2 with ⟨-, before⟩ | ⟨same, -, -⟩
      · exact (Nat.lt_irrefl _ (sound.held_lt _ _ before)).elim
      · exact isSlot.trans same.symm
  freed_lt := by
    intro buffer gone
    rw [mem_freed_put] at gone
    refine Nat.lt_of_lt_of_le ?_ next_le_put
    rcases gone with old | ⟨-, owns⟩
    · exact sound.freed_lt buffer old
    · exact sound.held_lt _ buffer owns.2
  freed_nodup := by
    rw [Custody.put]
    apply List.Nodup.append sound.freed_nodup
    · split
      · unfold disposed
        split
        · cases custody.held write.slot with
          | none => exact List.nodup_nil
          | some buffer => exact List.nodup_singleton buffer
        · exact List.nodup_nil
      · exact List.nodup_nil
    · intro buffer old new
      split at new
      · exact sound.held_live _ buffer (mem_disposed.mp new).2 old
      · exact List.not_mem_nil new

theorem Sound.puts (sound : custody.Sound) (writes : List (Write Slot)) :
    (custody.puts writes).Sound := by
  induction writes generalizing custody with
  | nil => exact sound
  | cons write rest induction => exact induction sound.put

theorem freed_puts (writes : List (Write Slot)) :
    ∃ later, (custody.puts writes).freed = custody.freed ++ later := by
  induction writes generalizing custody with
  | nil => exact ⟨[], (List.append_nil _).symm⟩
  | cons write rest induction =>
      obtain ⟨later, same⟩ := @induction (custody.put write)
      exact ⟨_, same.trans (List.append_assoc ..)⟩

theorem mem_freed_puts {buffer : Nat} (gone : buffer ∈ custody.freed)
    (writes : List (Write Slot)) : buffer ∈ (custody.puts writes).freed := by
  obtain ⟨later, same⟩ := @freed_puts Slot custody _ writes
  rw [same]
  exact List.mem_append_left _ gone

/-- Nothing finds a lost buffer again. -/
theorem Lost.put {buffer : Nat} (lost : custody.Lost buffer) :
    (custody.put write).Lost buffer where
  allocated := Nat.lt_of_lt_of_le lost.allocated next_le_put
  live := by
    rw [mem_freed_put]
    rintro (old | ⟨-, owns⟩)
    · exact lost.live old
    · exact lost.unheld _ owns.2
  unheld := by
    intro slot held
    rcases held_put_cases held with ⟨-, before⟩ | ⟨-, -, rfl⟩
    · exact lost.unheld slot before
    · exact Nat.lt_irrefl _ lost.allocated

theorem Lost.puts {buffer : Nat} (lost : custody.Lost buffer)
    (writes : List (Write Slot)) : (custody.puts writes).Lost buffer := by
  induction writes generalizing custody with
  | nil => exact lost
  | cons write rest induction => exact induction lost.put

/-- A write that frees nothing loses the buffer of its slot. -/
theorem Sound.lost (sound : custody.Sound) (keeps : write.frees = false)
    {buffer : Nat} (owns : custody.Owns write.slot buffer) :
    (custody.put write).Lost buffer where
  allocated := Nat.lt_of_lt_of_le (sound.held_lt _ buffer owns.2) next_le_put
  live := by
    rw [mem_freed_put]
    rintro (old | ⟨frees, -⟩)
    · exact sound.held_live _ buffer owns.2 old
    · rw [keeps] at frees
      cases frees
  unheld := by
    intro slot held
    rcases held_put_cases held with ⟨apart, before⟩ | ⟨-, -, rfl⟩
    · exact apart (sound.exclusive _ slot buffer owns before)
    · exact Nat.lt_irrefl _ (sound.held_lt _ _ owns.2)

/-- The writes to a slot that was written before free what it owns. -/
def FreesLater (writes : List (Write Slot)) : Prop :=
  writes.Pairwise fun first second =>
    second.frees = true ∨ first.slot ≠ second.slot

omit [DecidableEq Slot] in
theorem freesLater_of_frees {writes : List (Write Slot)}
    (frees : ∀ write ∈ writes, write.frees = true) : FreesLater writes :=
  List.pairwise_of_forall_mem_list fun _ _ second member =>
    Or.inl (frees second member)

/-- An owned buffer is kept or freed unless a write to its slot loses it. -/
theorem Sound.kept_or_freed_iff (sound : custody.Sound)
    {writes : List (Write Slot)} (later : FreesLater writes) {slot : Slot}
    {buffer : Nat} (owns : custody.Owns slot buffer) :
    (custody.puts writes).held slot = some buffer ∨
        buffer ∈ (custody.puts writes).freed ↔
      ∀ write ∈ writes, write.slot = slot → write.frees = true := by
  induction writes generalizing custody with
  | nil => simp [Custody.puts, owns.2]
  | cons write rest induction =>
      obtain ⟨first, later⟩ := List.pairwise_cons.mp later
      rw [List.forall_mem_cons]
      by_cases same : write.slot = slot
      · subst same
        cases frees : write.frees with
        | true =>
            have gone : buffer ∈ (custody.put write).freed :=
              mem_freed_put.mpr (Or.inr ⟨frees, owns⟩)
            refine iff_of_true (Or.inr (mem_freed_puts gone rest))
              ⟨fun _ => rfl, ?_⟩
            intro other member again
            exact (first other member).resolve_right fun apart =>
              apart again.symm
        | false =>
            have lost := (sound.lost frees owns).puts rest
            refine iff_of_false ?_ ?_
            · rintro (held | gone)
              · exact lost.unheld _ held
              · exact lost.live gone
            · rintro ⟨frees', -⟩
              cases frees' rfl
      · have owns' := (owns_put_of_ne (Ne.symm same)).mpr owns
        have rest' := @induction (custody.put write) sound.put later owns'
        rw [and_iff_right fun isSlot => (same isSlot).elim]
        exact rest'

/-- Writes are tidy when none of them loses what its slot owned at first. -/
theorem Sound.tidy_puts_iff (sound : custody.Sound)
    {writes : List (Write Slot)} (later : FreesLater writes) :
    Tidy custody (custody.puts writes) ↔
      ∀ write ∈ writes, custody.Spares write := by
  constructor
  · intro tidy write member
    unfold Spares
    by_contra loses
    rw [not_or, not_forall] at loses
    obtain ⟨keeps, buffer, owns⟩ := loses
    rw [not_not] at owns
    exact keeps
      ((sound.kept_or_freed_iff later owns).mp (tidy _ buffer owns) write
        member rfl)
  · intro spares slot buffer owns
    rw [sound.kept_or_freed_iff later owns]
    rintro write member rfl
    exact (spares write member).resolve_right fun none => none buffer owns

end Custody

end Cgir.Library
