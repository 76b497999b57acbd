import Cgir.Library.Schedule
import Cgir.Pass.CopyNormalize

/-!
# What a command graph does

A command graph is run by running its nodes once each, every node after its
predecessors.  A control node does nothing.  A copy moves bytes between the
memories of devices; what the other commands do on the device of their node is a
parameter.

The meaning of a graph is the relation between the states before and after
(`Heap.Outcome`).  It depends only on the commands and on the paths between them
(`WellFormed.outcome_iff`).
-/

namespace Cgir.Optimizer

open Relation
open Cgir.Library
open Cgir.Model
open Cgir.Pass.CopyFuse
open Cgir.Pass.CopyNormalize

/-! ## Commands -/

/-- A byte of the memory of a device. -/
abbrev Place := DeviceUniqueId × Address

abbrev Memory := Place → BitVec 8

/-- The written bytes hold what the bytes they come from held before. -/
def Copied (transfers : Transfer → Prop) (before after : Memory) : Prop :=
  ∀ place : Place,
    (∃ source : Place,
      transfers (source.1, source.2, place.1, place.2) ∧
        after place = before source) ∨
      (∀ source : Place,
        ¬ transfers (source.1, source.2, place.1, place.2)) ∧
          after place = before place

/-- The relation between states that a command is on a device. -/
abbrev Effect (State : Type) :=
  DeviceUniqueId → Command → State → State → Prop

variable {World : Type}

/-- A command on a device; `run` is what commands other than copies do. -/
def execute (run : Effect (Memory × World)) : Effect (Memory × World)
  | _, .copy1D direction copy, before, after =>
      Copied (CommandTransfers (.copy1D direction copy)) before.1 after.1 ∧
        after.2 = before.2
  | _, .copy2D direction copy, before, after =>
      Copied (CommandTransfers (.copy2D direction copy)) before.1 after.1 ∧
        after.2 = before.2
  | device, command, before, after => run device command before after

/-- A copy is run as its bytes say. -/
theorem execute_copy {run : Effect (Memory × World)}
    {device : DeviceUniqueId} {command : Command}
    (copies : (copyDirection command).isSome)
    {before after : Memory × World} :
    execute run device command before after ↔
      Copied (CommandTransfers command) before.1 after.1 ∧
        after.2 = before.2 := by
  cases command with
  | copy1D direction copy => rfl
  | copy2D direction copy => rfl
  | _ => cases copies

/-- Copies of the same bytes do the same. -/
theorem execute_congr {run : Effect (Memory × World)}
    {device : DeviceUniqueId} {command command' : Command}
    (copies : (copyDirection command).isSome)
    (copies' : (copyDirection command').isSome)
    (transfers : ∀ transfer,
      CommandTransfers command transfer ↔ CommandTransfers command' transfer)
    {before after : Memory × World} :
    execute run device command before after ↔
      execute run device command' before after := by
  rw [execute_copy copies, execute_copy copies',
    funext fun transfer => propext (transfers transfer)]

/-! ## Graphs -/

/-- What a node does: its command on its device. -/
def performs (run : Effect (Memory × World)) (heap : Heap) (n : NodeId)
    (before after : Memory × World) : Prop :=
  match (heap.nodes n).type, (heap.nodes n).command with
  | .command, some command =>
      execute run (heap.nodes n).deviceUniqueId command before after
  | _, _ => after = before

/-- What running a graph can do. -/
def Outcome (run : Effect (Memory × World)) (heap : Heap) (graph : GraphId) :
    Memory × World → Memory × World → Prop :=
  Library.Outcome (heap.Reachable graph) (heap.Link graph)
    (performs run heap)

section Graphs

variable {run : Effect (Memory × World)} {heap : Heap} {graph : GraphId}

theorem performs_command {n : NodeId} {command : Command}
    (type : (heap.nodes n).type = .command)
    (held : (heap.nodes n).command = some command)
    {before after : Memory × World} :
    performs run heap n before after ↔
      execute run (heap.nodes n).deviceUniqueId command before after := by
  rw [performs, type, held]

theorem performs_idle {n : NodeId} (type : (heap.nodes n).type ≠ .command)
    {before after : Memory × World} :
    performs run heap n before after ↔ after = before := by
  unfold performs
  split
  · contradiction
  · rfl

/-- A node does what its type, its device and its command say. -/
theorem performs_congr {heap' : Heap} {n n' : NodeId}
    (type : (heap'.nodes n').type = (heap.nodes n).type)
    (device :
      (heap'.nodes n').deviceUniqueId = (heap.nodes n).deviceUniqueId)
    (command : (heap'.nodes n').command = (heap.nodes n).command) :
    performs run heap' n' = performs run heap n := by
  funext before after
  rw [performs, performs, type, device, command]

/-- The command nodes of a graph. -/
def Commands (heap : Heap) (graph : GraphId) (n : NodeId) : Prop :=
  heap.Reachable graph n ∧ (heap.nodes n).type = .command

/-- The outcomes are those of the sorted lists of the command nodes. -/
theorem outcome_iff (formed : heap.WellFormed graph)
    {before after : Memory × World} :
    Outcome run heap graph before after ↔
      ∃ part, Sorted (Commands heap graph) (heap.Link graph) part ∧
        Runs (performs run heap) part before after := by
  obtain ⟨domain, domainIff, -⟩ := Heap.exists_domain formed.allocated
  exact
    Library.outcome_iff formed.acyclic
      (fun source target step => ⟨step.1, step.reachable⟩) domain domainIff
      (fun n _ => performs_idle)

/-- A well-formed graph can be run. -/
theorem exists_schedule (formed : heap.WellFormed graph) :
    ∃ order,
      Schedule (heap.Reachable graph) (heap.Link graph) order := by
  obtain ⟨domain, domainIff, -⟩ := Heap.exists_domain formed.allocated
  exact
    Library.exists_schedule formed.acyclic
      (fun source target step => ⟨step.1, step.reachable⟩) domain domainIff

/--
A graph does what another one does when it has the same commands, each with the
same effect, and the same paths between them.
-/
theorem outcome_of_commands {heap' : Heap} (formed : heap.WellFormed graph)
    (formed' : heap'.WellFormed graph)
    (commandsIff : ∀ n, Commands heap' graph n ↔ Commands heap graph n)
    (paths : ∀ source target, Commands heap graph source →
      Commands heap graph target → TransGen (heap.Link graph) source target →
        TransGen (heap'.Link graph) source target)
    (effects : ∀ n, Commands heap graph n → ∀ before after,
      performs run heap' n before after → performs run heap n before after)
    {before after : Memory × World}
    (outcome : Outcome run heap' graph before after) :
    Outcome run heap graph before after := by
  rw [outcome_iff formed]
  obtain ⟨part, sorted, steps⟩ := (outcome_iff formed').mp outcome
  have sorted' : Sorted (Commands heap graph) (heap.Link graph) part := by
    refine sorted.mono (fun n => (commandsIff n).symm) ?_
    intro source target sourceIn targetIn path
    exact
      paths source target ((commandsIff source).mp sourceIn)
        ((commandsIff target).mp targetIn) path
  refine ⟨part, sorted', steps.mono ?_⟩
  intro n member
  exact effects n ((sorted'.mem_iff n).mp member)

end Graphs

end Cgir.Optimizer
