import Cgir.Model.Walk

/-!
# Histories of one command graph

A history interleaves node creations, edge insertions and walks of one graph.
Marks are never reset and the walk identifier is an `int8_t`, so a node keeps
the identifier of the last walk that reached it, and the walk 256 walks later
uses that identifier again.

`completeWalks_iff_spaced` is the exact account: all walks of a history are
complete if and only if no walk meets a node, its start apart, that was last
reached a multiple of 256 walks before.  A node no walk has reached counts as
reached by walk 0, since a fresh node carries identifier 0.
-/

namespace Cgir.Walk.History

open Relation
open Cgir.Library
open Cgir.Model

/-! ## Histories -/

/-- A walk of a history: the heap before it, its start and what it visited. -/
structure Record where
  before : Heap
  start : NodeId
  visited : List NodeId

namespace Record

/-- The node is reachable from the start of the walk. -/
def Reaches (record : Record) : NodeId → Prop :=
  MarkSearch.Reach record.before.successors record.start

/-- The callback ran exactly once on every reachable node and on no other. -/
def Complete (record : Record) : Prop :=
  record.visited.Nodup ∧
    ∀ node, node ∈ record.visited ↔ record.Reaches node

end Record

/-- No objects at all. -/
def emptyHeap : Heap where
  nodes := fun _ => CommandGraphNode.new unspecifiedDeviceUniqueId .empty
  nodeCount := 0
  graphs := fun _ =>
    { entry := 0, exit := 0, walkId := 0, isSequence := false }
  graphCount := 0

/-- The graph object of a history. -/
def graph : GraphId := 0

/-- A freshly initialised graph: an entry, an exit and an edge between them. -/
def freshHeap : Heap :=
  (emptyHeap.commandGraphNew none).2

/--
The heaps and walks of the histories of one graph.  Edges join allocated nodes
and keep the graph acyclic; walks start at allocated nodes.
-/
inductive Run : Heap → List Record → Prop where
  | fresh :
      Run freshHeap []
  | create {heap records} (deviceUniqueId : DeviceUniqueId)
      (type : CommandGraphNodeType)
      (run : Run heap records) :
      Run (heap.commandGraphNodeNew deviceUniqueId type).2 records
  | precedes {heap records} {source target : NodeId}
      (run : Run heap records)
      (sourceAllocated : source < heap.nodeCount)
      (targetAllocated : target < heap.nodeCount)
      (acyclic : ¬ MarkSearch.Reach heap.successors target source) :
      Run (heap.precedes source target) records
  | walk {heap records} {start : NodeId} {after : Heap}
      {visited : List NodeId} (kind : MarkSearch.Kind)
      (run : Run heap records)
      (startAllocated : start < heap.nodeCount)
      (ran : heap.walkFrom graph kind start = some (after, visited)) :
      Run after (records ++ [⟨heap, start, visited⟩])

/--
The number of the last walk that reached a node, counted from 1, or 0 if none
did.
-/
inductive LastReach (node : NodeId) : List Record → Nat → Prop where
  | never :
      LastReach node [] 0
  | reached {records record} (reaches : record.Reaches node) :
      LastReach node (records ++ [record]) (records.length + 1)
  | missed {records record last} (misses : ¬ record.Reaches node)
      (earlier : LastReach node records last) :
      LastReach node (records ++ [record]) last

/--
No node that the walk is to reach, its start apart, was last reached a multiple
of 256 walks before.
-/
def Spaced (earlier : List Record) (record : Record) : Prop :=
  ∀ node last, record.Reaches node → node ≠ record.start →
    LastReach node earlier last →
      ¬ 256 ∣ earlier.length + 1 - last

namespace LastReach

variable {node : NodeId} {records : List Record}

theorem le_length {last : Nat} (reach : LastReach node records last) :
    last ≤ records.length := by
  induction reach with
  | never => exact Nat.le_refl 0
  | reached _ => simp
  | missed _ _ induction =>
      rw [List.length_append]
      exact induction.trans (Nat.le_add_right _ _)

theorem exists_last (node : NodeId) (records : List Record) :
    ∃ last, LastReach node records last := by
  induction records using List.reverseRecOn with
  | nil => exact ⟨0, never⟩
  | append_singleton records record induction =>
      by_cases reaches : record.Reaches node
      · exact ⟨records.length + 1, reached reaches⟩
      · obtain ⟨last, earlier⟩ := induction
        exact ⟨last, missed reaches earlier⟩

/-- The cases of the last walk of a nonempty list. -/
theorem append_cases {record : Record} {last : Nat}
    (reach : LastReach node (records ++ [record]) last) :
    (record.Reaches node ∧ last = records.length + 1) ∨
      (¬ record.Reaches node ∧ LastReach node records last) := by
  generalize whole : records ++ [record] = list at reach
  cases reach with
  | never => simp at whole
  | reached reaches =>
      obtain ⟨rfl, same⟩ := List.append_inj' whole rfl
      obtain rfl : record = _ := by simpa using same
      exact Or.inl ⟨reaches, rfl⟩
  | missed misses earlier =>
      obtain ⟨rfl, same⟩ := List.append_inj' whole rfl
      obtain rfl : record = _ := by simpa using same
      exact Or.inr ⟨misses, earlier⟩

theorem of_unreached :
    ∀ {records : List Record},
      (∀ record ∈ records, ¬ record.Reaches node) →
        LastReach node records 0 := by
  intro records
  induction records using List.reverseRecOn with
  | nil => exact fun _ => never
  | append_singleton records record induction =>
      intro unreached
      apply missed (unreached record (by simp))
      apply induction
      intro earlier member
      exact unreached earlier (List.mem_append_left _ member)

theorem eq_zero {last : Nat} (reach : LastReach node records last)
    (unreached : ∀ record ∈ records, ¬ record.Reaches node) :
    last = 0 := by
  induction reach with
  | never => rfl
  | reached reaches => exact (unreached _ (by simp) reaches).elim
  | missed _ _ induction =>
      apply induction
      intro record member
      exact unreached record (List.mem_append_left _ member)

end LastReach

/-! ## The invariant of a run -/

/--
What holds after every run: edges join allocated nodes, the graph counts its
walks modulo 256, and as long as all walks were complete every node carries the
number of the last walk that reached it.
-/
structure Consistent (heap : Heap) (records : List Record) : Prop where
  allocated : ∀ source target, target ∈ heap.successors source →
    source < heap.nodeCount ∧ target < heap.nodeCount
  unreached : ∀ record ∈ records, ∀ node, record.Reaches node →
    node < heap.nodeCount
  walkId_eq :
    (heap.graphs graph).walkId = BitVec.ofNat 8 records.length
  mark_eq : (∀ record ∈ records, record.Complete) →
    ∀ node last, LastReach node records last →
      (heap.nodes node).walkId = BitVec.ofNat 8 last

namespace Consistent

variable {heap : Heap} {records : List Record}

/-- Everything below an allocated node is allocated. -/
theorem reach_allocated (consistent : Consistent heap records)
    {start : NodeId} (startAllocated : start < heap.nodeCount)
    {node : NodeId} (path : MarkSearch.Reach heap.successors start node) :
    node < heap.nodeCount := by
  induction path with
  | refl => exact startAllocated
  | tail _ step _ => exact (consistent.allocated _ _ step).2

theorem fresh : Consistent freshHeap [] where
  allocated := by
    intro source target edge
    rcases source with _ | _ | source
    · have isExit : target = 1 := by
        simpa using (show target ∈ [1] from edge)
      rw [isExit]
      decide
    · exact (List.not_mem_nil edge).elim
    · exact (List.not_mem_nil edge).elim
  unreached := by simp
  walkId_eq := rfl
  mark_eq := by
    intro _ node last reach
    generalize empty : ([] : List Record) = list at reach
    cases reach with
    | never =>
        rcases node with _ | _ | node
        · rfl
        · rfl
        · rfl
    | reached _ => simp at empty
    | missed _ _ => simp at empty

theorem create (consistent : Consistent heap records)
    (deviceUniqueId : DeviceUniqueId) (type : CommandGraphNodeType) :
    Consistent (heap.commandGraphNodeNew deviceUniqueId type).2 records where
  allocated := by
    intro source target edge
    rw [Heap.commandGraphNodeNew_successors] at edge
    split at edge
    · simp at edge
    · have bounds := consistent.allocated source target edge
      rw [Heap.commandGraphNodeNew_nodeCount]
      exact
        ⟨Nat.lt_succ_of_lt bounds.1, Nat.lt_succ_of_lt bounds.2⟩
  unreached := by
    intro record member node reaches
    exact
      (consistent.unreached record member node reaches).trans
        (Nat.lt_succ_self _)
  walkId_eq := consistent.walkId_eq
  mark_eq := by
    intro complete node last reach
    rw [Heap.commandGraphNodeNew_nodes]
    split
    · -- No walk has reached a fresh node, and its mark is 0.
      rename_i isFresh
      have zero : last = 0 := by
        apply reach.eq_zero
        intro record member reaches
        exact
          (consistent.unreached record member node reaches).ne isFresh
      subst zero
      rfl
    · exact consistent.mark_eq complete node last reach

theorem precedes (consistent : Consistent heap records)
    {source target : NodeId} (sourceAllocated : source < heap.nodeCount)
    (targetAllocated : target < heap.nodeCount) :
    Consistent (heap.precedes source target) records := by
  have same : (heap.precedes source target).unlinked = heap.unlinked :=
    Heap.precedes_unlinked source target
  exact {
    allocated := by
      intro upper lower edge
      rw [Heap.precedes_successors] at edge
      rw [Heap.unlinked_nodeCount same]
      split at edge
      · rename_i isSource
        rw [List.mem_append, List.mem_singleton] at edge
        rcases edge with old | isTarget
        · exact isSource ▸ consistent.allocated source lower old
        · exact ⟨isSource ▸ sourceAllocated, isTarget ▸ targetAllocated⟩
      · exact consistent.allocated upper lower edge
    unreached := by
      rw [Heap.unlinked_nodeCount same]
      exact consistent.unreached
    walkId_eq := by
      rw [Heap.unlinked_graphs same]
      exact consistent.walkId_eq
    mark_eq := by
      intro complete node last reach
      rw [Heap.unlinked_walkId same]
      exact consistent.mark_eq complete node last reach }

/-- A walk returns, and its search is a sweep with the next number as its id. -/
theorem walk_returns (consistent : Consistent heap records)
    (kind : MarkSearch.Kind) {start : NodeId}
    (startAllocated : start < heap.nodeCount) :
    ∃ result : MarkSearch.State NodeId WalkId,
      heap.walkFrom graph kind start =
          some
            (heap.writeMarks graph (BitVec.ofNat 8 (records.length + 1))
              result.mark, result.visited) ∧
        MarkSearch.Sweep heap.successors
          (BitVec.ofNat 8 (records.length + 1))
          (fun node => (heap.nodes node).walkId) start result := by
  have next : (heap.graphs graph).walkId + 1 =
      BitVec.ofNat 8 (records.length + 1) := by
    rw [consistent.walkId_eq, BitVec.ofNat_add]
    rfl
  rw [← next]
  apply Heap.walkFrom_returns
  intro node path
  exact consistent.reach_allocated startAllocated path

theorem walk (consistent : Consistent heap records)
    {kind : MarkSearch.Kind} {start : NodeId} {after : Heap}
    {visited : List NodeId} (startAllocated : start < heap.nodeCount)
    (ran : heap.walkFrom graph kind start = some (after, visited)) :
    Consistent after (records ++ [⟨heap, start, visited⟩]) := by
  obtain ⟨result, returned, sweep⟩ :=
    consistent.walk_returns kind startAllocated
  rw [ran, Option.some.injEq, Prod.mk.injEq] at returned
  obtain ⟨rfl, rfl⟩ := returned
  exact {
    allocated := consistent.allocated
    unreached := by
      intro record member node reaches
      rcases List.mem_append.mp member with earlier | isLast
      · exact consistent.unreached record earlier node reaches
      · rw [List.mem_singleton] at isLast
        subst isLast
        exact consistent.reach_allocated startAllocated reaches
    walkId_eq := by simp [Heap.writeMarks]
    mark_eq := by
      intro complete node last reach
      have lastComplete : Record.Complete ⟨heap, start, result.visited⟩ :=
        complete _ (by simp)
      have markEq : ((heap.writeMarks graph
          (BitVec.ofNat 8 (records.length + 1)) result.mark).nodes
            node).walkId = result.mark node := rfl
      rw [markEq, sweep.mark_eq]
      rcases reach.append_cases with ⟨reaches, rfl⟩ | ⟨misses, earlier⟩
      · rw [if_pos ((lastComplete.2 node).mpr reaches)]
      · rw [if_neg fun member => misses ((lastComplete.2 node).mp member)]
        exact
          consistent.mark_eq
            (fun record member =>
              complete record (List.mem_append_left _ member))
            node last earlier }

end Consistent

theorem Run.consistent {heap : Heap} {records : List Record}
    (run : Run heap records) :
    Consistent heap records := by
  induction run with
  | fresh => exact Consistent.fresh
  | create deviceUniqueId type _ consistent =>
      exact consistent.create deviceUniqueId type
  | precedes _ sourceAllocated targetAllocated _ consistent =>
      exact consistent.precedes sourceAllocated targetAllocated
  | walk _ _ startAllocated ran consistent =>
      exact consistent.walk startAllocated ran

/-! ## Complete walks -/

/-- Two walk numbers have one identifier when they differ by a multiple of 256. -/
private theorem ofNat_eq_iff {last number : Nat} (le : last ≤ number) :
    BitVec.ofNat 8 last = BitVec.ofNat 8 number ↔ 256 ∣ number - last := by
  rw [← BitVec.toNat_inj, BitVec.toNat_ofNat, BitVec.toNat_ofNat]
  omega

/-- After complete walks, the next walk is complete exactly when it is spaced. -/
theorem complete_iff_spaced {heap : Heap} {records : List Record}
    (consistent : Consistent heap records)
    (complete : ∀ record ∈ records, record.Complete)
    {kind : MarkSearch.Kind} {start : NodeId} {after : Heap}
    {visited : List NodeId} (startAllocated : start < heap.nodeCount)
    (ran : heap.walkFrom graph kind start = some (after, visited)) :
    (⟨heap, start, visited⟩ : Record).Complete ↔
      Spaced records ⟨heap, start, visited⟩ := by
  obtain ⟨result, returned, sweep⟩ :=
    consistent.walk_returns kind startAllocated
  rw [ran, Option.some.injEq, Prod.mk.injEq] at returned
  obtain ⟨rfl, rfl⟩ := returned
  have bound : ∀ {node last}, LastReach node records last →
      last ≤ records.length + 1 := by
    intro node last reach
    exact reach.le_length.trans (Nat.le_succ _)
  constructor
  · rintro ⟨-, exact⟩ node last reaches notStart reach divides
    apply sweep.complete_iff.mp exact node reaches notStart
    rw [consistent.mark_eq complete node last reach,
      ofNat_eq_iff (bound reach)]
    exact divides
  · intro spaced
    refine ⟨sweep.nodup, sweep.complete_iff.mpr ?_⟩
    intro node reaches notStart stale
    obtain ⟨last, reach⟩ := LastReach.exists_last node records
    rw [consistent.mark_eq complete node last reach,
      ofNat_eq_iff (bound reach)] at stale
    exact spaced node last reaches notStart reach stale

/-- Every walk of the list is spaced from the walks before it. -/
def AllSpaced (records : List Record) : Prop :=
  ∀ earlier record later, records = earlier ++ record :: later →
    Spaced earlier record

private theorem allSpaced_append {records : List Record} {record : Record} :
    AllSpaced (records ++ [record]) ↔
      AllSpaced records ∧ Spaced records record := by
  constructor
  · intro spaced
    constructor
    · intro earlier middle later split
      apply spaced earlier middle (later ++ [record])
      rw [split, List.append_assoc, List.cons_append]
    · exact spaced records record [] rfl
  · rintro ⟨spaced, lastSpaced⟩ earlier middle later split
    rcases List.eq_nil_or_concat later with rfl | ⟨front, last, rfl⟩
    · obtain ⟨rfl, same⟩ := List.append_inj' split rfl
      obtain rfl : record = middle := by simpa using same
      exact lastSpaced
    · rw [List.concat_eq_append, ← List.cons_append,
        ← List.append_assoc] at split
      obtain ⟨rfl, -⟩ := List.append_inj' split rfl
      exact spaced earlier middle front rfl

/--
All walks of a history are complete if and only if every walk is spaced from
the walks before it.
-/
theorem completeWalks_iff_spaced {heap : Heap} {records : List Record}
    (run : Run heap records) :
    (∀ record ∈ records, record.Complete) ↔ AllSpaced records := by
  induction run with
  | fresh =>
      constructor
      · intro _ earlier record later split
        simp at split
      · simp
  | create _ _ _ induction => exact induction
  | precedes _ _ _ _ induction => exact induction
  | @walk before records start after visited kind run startAllocated ran
      induction =>
      have split : (∀ record ∈ records ++ [⟨before, start, visited⟩],
          record.Complete) ↔
          (∀ record ∈ records, record.Complete) ∧
            (⟨before, start, visited⟩ : Record).Complete := by
        simp [or_imp, forall_and]
      rw [split, allSpaced_append, induction]
      constructor
      · rintro ⟨spaced, lastComplete⟩
        exact
          ⟨spaced,
            (complete_iff_spaced run.consistent (induction.mpr spaced)
              startAllocated ran).mp lastComplete⟩
      · rintro ⟨spaced, lastSpaced⟩
        exact
          ⟨spaced,
            (complete_iff_spaced run.consistent (induction.mpr spaced)
              startAllocated ran).mpr lastSpaced⟩

/--
Every walk of a history returns, and all walks of a history call their callback
exactly once on every node reachable from their start and on no other node if
and only if no walk meets a node, its start apart, that was last reached a
multiple of 256 walks before.
-/
theorem walks_exact_iff_spaced {heap : Heap} {records : List Record}
    (run : Run heap records) :
    (∀ (kind : MarkSearch.Kind) (start : NodeId), start < heap.nodeCount →
        ∃ after visited,
          heap.walkFrom graph kind start = some (after, visited)) ∧
      ((∀ record ∈ records, record.Complete) ↔ AllSpaced records) := by
  constructor
  · intro kind start startAllocated
    obtain ⟨result, returned, -⟩ :=
      run.consistent.walk_returns kind startAllocated
    exact ⟨_, _, returned⟩
  · exact completeWalks_iff_spaced run

theorem walks_exact_iff_spaced_linked_node :
    ∃ heap records, Run heap records ∧ records.length = 3 ∧
      heap.nodeCount = 3 ∧
        ((∀ record ∈ records, record.Complete) ↔ AllSpaced records) := by
  have walked := @Run.walk _ _ 0 _ _ (.dfs .pre) Run.fresh (by decide) rfl
  have created := Run.create unspecifiedDeviceUniqueId .command walked
  have linked := @Run.precedes _ _ 0 2 created (by decide) (by decide) (by
    intro path
    rcases ReflTransGen.cases_head path with same | ⟨next, step, -⟩
    · cases same
    · exact List.not_mem_nil step)
  have again := @Run.walk _ _ 0 _ _ .bfs linked (by decide) rfl
  have below := @Run.walk _ _ 2 _ _ (.dfs .post) again (by decide) rfl
  exact ⟨_, _, below, rfl, rfl, (walks_exact_iff_spaced below).2⟩

/-! ## The wrap -/

/-- Any number of walks from the entry of a fresh graph. -/
private theorem exists_walks (number : Nat) :
    ∃ heap records, Run heap records ∧ records.length = number ∧
      heap.nodeCount = 2 := by
  induction number with
  | zero => exact ⟨freshHeap, [], Run.fresh, rfl, rfl⟩
  | succ number induction =>
      obtain ⟨heap, records, run, length, count⟩ := induction
      have startAllocated : (0 : NodeId) < heap.nodeCount := by
        rw [count]
        decide
      obtain ⟨result, returned, -⟩ :=
        run.consistent.walk_returns (.dfs .pre) startAllocated
      exact
        ⟨_, _, Run.walk (.dfs .pre) run startAllocated returned,
          by simp [length], count⟩

/--
After 255 walks of a fresh graph, a node is created and linked below the entry.
The next walk has identifier 0, which the new node already carries: the walk
does not visit it.
-/
theorem walk_after_wrap_incomplete :
    ¬ ∀ heap records, Run heap records →
      ∀ record ∈ records, record.Complete := by
  intro everyWalk
  obtain ⟨heap, records, run, length, count⟩ := exists_walks 255
  let created := (heap.commandGraphNodeNew 0 .command).2
  have createdCount : created.nodeCount = 3 := by
    simp [created, count]
  have noSuccessors : created.successors 2 = [] := by
    simp [created, count]
  have createdRun : Run created records := run.create 0 .command
  have linkedRun : Run (created.precedes 0 2) records := by
    refine createdRun.precedes ?_ ?_ ?_
    · rw [createdCount]
      decide
    · rw [createdCount]
      decide
    · intro path
      rcases ReflTransGen.cases_head path with equal | ⟨next, edge, -⟩
      · exact absurd equal (by decide)
      · rw [MarkSearch.Edge, noSuccessors] at edge
        exact List.not_mem_nil edge
  have startAllocated :
      (0 : NodeId) < (created.precedes 0 2).nodeCount := by
    rw [Heap.unlinked_nodeCount (Heap.precedes_unlinked 0 2), createdCount]
    decide
  obtain ⟨result, returned, -⟩ :=
    linkedRun.consistent.walk_returns (.dfs .pre) startAllocated
  have walkedRun := Run.walk (.dfs .pre) linkedRun startAllocated returned
  have spaced :=
    (completeWalks_iff_spaced walkedRun).mp (everyWalk _ _ walkedRun)
      records _ [] rfl
  have unreached : LastReach 2 records 0 := by
    apply LastReach.of_unreached
    intro record member reaches
    have bound := run.consistent.unreached record member 2 reaches
    rw [count] at bound
    exact absurd bound (by decide)
  refine spaced 2 0 ?_ ?_ unreached ?_
  · apply ReflTransGen.single
    simp [MarkSearch.Edge]
  · exact (by decide : (2 : NodeId) ≠ 0)
  · exact length.symm ▸ (by decide)

end Cgir.Walk.History
