import Cgir.Optimizer.Execution
import Cgir.Optimizer.Isolation
import Cgir.Pass.ProgRuns

/-!
# One pass

What a pass of a graph keeps (`Kept`), and what it may change of the outcomes of
the graph (`Refines`).  Five of the passes refine; all of them but prog-fuse keep
the outcomes as they are.  Fusion takes the orders away in which something runs
between the programs of a chain.
-/

namespace Cgir.Optimizer

open Relation
open Cgir.Library
open Cgir.Mlir
open Cgir.Model
open Cgir.Pass.CopyNormalize
open Cgir.Pass.ProgFuse

variable {World : Type} {run : Effect (Memory × World)} {heap after : Heap}
  {graph : GraphId}

/-! ## Nodes -/

/-- A control node, or a command node whose 2-D copy fits the address space. -/
structure Executable (node : CommandGraphNode) : Prop where
  importable : Importable node
  fits : ∀ direction copy, node.command = some (.copy2D direction copy) →
    Fits copy

instance (copy : CommandCopy2D) : Decidable (Fits copy) :=
  decidable_of_iff
    (copy.m.toNat * copy.sizeofType.toNat < 2 ^ 64 ∧
      copy.srcLd.toNat * copy.sizeofType.toNat < 2 ^ 64 ∧
        copy.dstLd.toNat * copy.sizeofType.toNat < 2 ^ 64 ∧
          copy.m.toNat * copy.n.toNat * copy.sizeofType.toNat < 2 ^ 64)
    ⟨fun ⟨column, srcPitch, dstPitch, total⟩ =>
      ⟨column, srcPitch, dstPitch, total⟩,
      fun fits => ⟨fits.column, fits.srcPitch, fits.dstPitch, fits.total⟩⟩

/-- The arguments of a 2-D copy. -/
def copied2D : Command → Option CommandCopy2D
  | .copy2D _ copy => some copy
  | _ => none

theorem copied2D_eq_some {command : Command} {copy : CommandCopy2D} :
    copied2D command = some copy ↔
      ∃ direction, command = .copy2D direction copy := by
  cases command <;> simp [copied2D]

instance (node : CommandGraphNode) : Decidable (Executable node) :=
  decidable_of_iff
    (Importable node ∧ ∀ copy ∈ node.command.bind copied2D, Fits copy) <| by
    simp only [Option.mem_def, Option.bind_eq_some_iff, copied2D_eq_some]
    constructor
    · rintro ⟨importable, fits⟩
      exact ⟨importable, fun direction copy held =>
        fits copy ⟨_, held, direction, rfl⟩⟩
    · rintro ⟨importable, fits⟩
      refine ⟨importable, ?_⟩
      rintro copy ⟨_, held, direction, rfl⟩
      exact fits direction copy held

/-- What a pass makes of a node. -/
structure NodeKept (node node' : CommandGraphNode) : Prop where
  type_eq : node'.type = node.type
  device_eq : node'.deviceUniqueId = node.deviceUniqueId
  executable : Executable node → Executable node'
  batch : ∀ sub, node'.command = some (.batch sub) →
    node.command = some (.batch sub)

theorem NodeKept.trans {node node' node'' : CommandGraphNode}
    (first : NodeKept node node') (second : NodeKept node' node'') :
    NodeKept node node'' where
  type_eq := second.type_eq.trans first.type_eq
  device_eq := second.device_eq.trans first.device_eq
  executable := fun holds => second.executable (first.executable holds)
  batch := fun sub held => first.batch sub (second.batch sub held)

theorem NodeKept.of_eq {node node' : CommandGraphNode}
    (type : node'.type = node.type)
    (device : node'.deviceUniqueId = node.deviceUniqueId)
    (command : node'.command = node.command) : NodeKept node node' where
  type_eq := type
  device_eq := device
  executable := by
    rintro ⟨importable, fits⟩
    constructor
    · rwa [Importable, type, command]
    · rwa [command]
  batch := fun _ held => command.symm.trans held

/-- A copy that is normalized is a copy that fits, of the same bytes. -/
theorem normalizeCommand_fits (direction : CopyDirection)
    {copy : CommandCopy2D} (fits : Fits copy) :
    (copyDirection (normalizeCommand (.copy2D direction copy))).isSome ∧
      (∀ transfer,
        CommandTransfers (normalizeCommand (.copy2D direction copy))
          transfer ↔ Copy2DTransfers copy transfer) ∧
        ∀ direction' copy',
          normalizeCommand (.copy2D direction copy) =
              .copy2D direction' copy' →
            Fits copy' := by
  rw [normalizeCommand_copy2D]
  split
  · rename_i contiguous
    exact
      ⟨rfl, flattened_transfers contiguous fits,
        fun _ _ same => nomatch same⟩
  · refine ⟨rfl, scaled_transfers fits, ?_⟩
    rintro direction' copy' same
    cases same
    have column := toNat_mul fits.column
    have one : (1 : BitVec 64).toNat = 1 := rfl
    exact {
      column := by
        simpa only [scaled, column, one, mul_one] using fits.column
      srcPitch := by
        simpa only [scaled, toNat_mul fits.srcPitch, one, mul_one]
          using fits.srcPitch
      dstPitch := by
        simpa only [scaled, toNat_mul fits.dstPitch, one, mul_one]
          using fits.dstPitch
      total := by
        simp only [scaled, column, one, mul_one]
        calc copy.m.toNat * copy.sizeofType.toNat * copy.n.toNat
            = copy.m.toNat * copy.n.toNat * copy.sizeofType.toNat :=
              Nat.mul_right_comm _ _ _
          _ < 2 ^ 64 := fits.total }

/-! ## Graphs -/

/-- A graph that all passes of a run can work on. -/
structure Optimizable (heap : Heap) (graph : GraphId) : Prop where
  formed : heap.WellFormed graph
  ready : heap.WalkReady graph
  executable : ∀ n, heap.Reachable graph n → Executable (heap.nodes n)
  entry_empty : (heap.nodes (heap.graphs graph).entry).type = .empty
  exit_empty : (heap.nodes (heap.graphs graph).exit).type = .empty

/-- A topologically numbered graph is checked node by node. -/
theorem Optimizable.of_numbered (numbered : heap.Numbered graph)
    (fresh : ∀ n : Nat, n < heap.nodeCount →
      (heap.nodes n).walkId ≠ (heap.graphs graph).walkId + 1)
    (executable : ∀ n : Nat, n < heap.nodeCount → Executable (heap.nodes n))
    (entry : (heap.nodes (heap.graphs graph).entry).type = .empty)
    (exit : (heap.nodes (heap.graphs graph).exit).type = .empty) :
    Optimizable heap graph where
  formed := numbered.wellFormed
  ready := numbered.walkReady fresh
  executable := fun n reachable =>
    executable n (numbered.lt_of_reachable reachable)
  entry_empty := entry
  exit_empty := exit

theorem workload_optimizable : Optimizable workload 0 :=
  .of_numbered workload_numbered (by decide) (by decide) rfl rfl

theorem Optimizable.plain (optimizable : Optimizable heap graph) :
    Plain heap graph where
  importable := fun n reachable =>
    (optimizable.executable n reachable).importable
  entry_empty := optimizable.entry_empty
  exit_empty := optimizable.exit_empty

/-- What a pass keeps of a graph. -/
structure Kept (graph : GraphId) (heap after : Heap) : Prop where
  formed : after.WellFormed graph
  remains : ∀ n, after.Reachable graph n → heap.Reachable graph n
  entry_eq : (after.graphs graph).entry = (heap.graphs graph).entry
  exit_eq : (after.graphs graph).exit = (heap.graphs graph).exit
  node : ∀ n, after.Reachable graph n →
    NodeKept (heap.nodes n) (after.nodes n)

theorem Kept.trans {middle : Heap} (first : Kept graph heap middle)
    (second : Kept graph middle after) : Kept graph heap after where
  formed := second.formed
  remains := fun n reachable => first.remains n (second.remains n reachable)
  entry_eq := second.entry_eq.trans first.entry_eq
  exit_eq := second.exit_eq.trans first.exit_eq
  node := fun n reachable =>
    (first.node n (second.remains n reachable)).trans
      (second.node n reachable)

/-- A pass leaves a graph that the next pass can work on. -/
theorem Optimizable.step (optimizable : Optimizable heap graph)
    (kept : Kept graph heap after) (ready : after.WalkReady graph) :
    Optimizable after graph where
  formed := kept.formed
  ready := ready
  executable := fun n reachable =>
    (kept.node n reachable).executable
      (optimizable.executable n (kept.remains n reachable))
  entry_empty := by
    have same := (kept.node _ Heap.reachable_entry).type_eq
    rw [same, kept.entry_eq]
    exact optimizable.entry_empty
  exit_empty := by
    have same := (kept.node _ kept.formed.reachable_exit).type_eq
    rw [same, kept.exit_eq]
    exact optimizable.exit_empty

/-! ## Refinement -/

/-- The outcomes of what a pass leaves; `exact` says that it leaves all. -/
structure Refines (run : Effect (Memory × World)) (graph : GraphId)
    (heap after : Heap) (exact : Prop) : Prop extends
    Kept graph heap after where
  sound : ∀ first last, Outcome run after graph first last →
    Outcome run heap graph first last
  complete : exact → ∀ first last, Outcome run heap graph first last →
    Outcome run after graph first last

theorem Refines.trans {middle : Heap} {exact exact' : Prop}
    (one : Refines run graph heap middle exact)
    (two : Refines run graph middle after exact') :
    Refines run graph heap after (exact ∧ exact') where
  toKept := one.toKept.trans two.toKept
  sound := fun first last outcome =>
    one.sound first last (two.sound first last outcome)
  complete := fun all first last outcome =>
    two.complete all.2 first last (one.complete all.1 first last outcome)

/-- The same commands, with the same effects and the same paths between them. -/
structure Tracks (run : Effect (Memory × World)) (graph : GraphId)
    (heap after : Heap) : Prop extends Kept graph heap after where
  removed : ∀ n, heap.Reachable graph n → ¬ after.Reachable graph n →
    (heap.nodes n).type ≠ .command
  paths : ∀ source target, after.Reachable graph source →
    after.Reachable graph target →
      (ReflTransGen (after.Link graph) source target ↔
        ReflTransGen (heap.Link graph) source target)
  effects : ∀ n, after.Reachable graph n → ∀ first last,
    performs run after n first last ↔ performs run heap n first last

theorem Tracks.commands_iff (tracks : Tracks run graph heap after)
    (n : NodeId) : Commands after graph n ↔ Commands heap graph n := by
  constructor
  · rintro ⟨reachable, type⟩
    exact
      ⟨tracks.remains n reachable,
        (tracks.node n reachable).type_eq ▸ type⟩
  · rintro ⟨reachable, type⟩
    have stays : after.Reachable graph n := by
      by_contra gone
      exact tracks.removed n reachable gone type
    exact ⟨stays, (tracks.node n stays).type_eq.trans type⟩

/-- In an acyclic graph a longer path joins two different nodes. -/
theorem transGen_of_paths {edge edge' : NodeId → NodeId → Prop}
    (acyclic : Digraph.Acyclic edge) {source target : NodeId}
    (paths : ReflTransGen edge source target →
      ReflTransGen edge' source target)
    (path : TransGen edge source target) : TransGen edge' source target := by
  rcases reflTransGen_iff_eq_or_transGen.mp (paths path.to_reflTransGen) with
    same | longer
  · exact (acyclic source (same ▸ path)).elim
  · exact longer

/-- A pass that tracks the commands keeps the outcomes. -/
theorem Tracks.refines (tracks : Tracks run graph heap after)
    (formed : heap.WellFormed graph) (exact : Prop) :
    Refines run graph heap after exact where
  toKept := tracks.toKept
  sound := by
    intro first last
    apply outcome_of_commands formed tracks.formed tracks.commands_iff
    · intro source target sourceIn targetIn path
      have before := (tracks.commands_iff source).mpr sourceIn
      have behind := (tracks.commands_iff target).mpr targetIn
      exact
        transGen_of_paths formed.acyclic
          (tracks.paths source target before.1 behind.1).mpr path
    · intro n inside first last
      exact
        (tracks.effects n ((tracks.commands_iff n).mpr inside).1 first
          last).mp
  complete := by
    intro _ first last
    apply outcome_of_commands tracks.formed formed
      (fun n => (tracks.commands_iff n).symm)
    · intro source target sourceIn targetIn path
      exact
        transGen_of_paths tracks.formed.acyclic
          (tracks.paths source target sourceIn.1 targetIn.1).mp path
    · intro n inside first last
      exact (tracks.effects n inside.1 first last).mpr

/-- A pass that leaves the lists as they are keeps reachability and paths. -/
theorem Tracks.of_sameLinks (formed : heap.WellFormed graph)
    (same : Heap.SameLinks heap after graph)
    (node : ∀ n, heap.Reachable graph n →
      NodeKept (heap.nodes n) (after.nodes n))
    (effects : ∀ n, heap.Reachable graph n → ∀ first last,
      performs run after n first last ↔ performs run heap n first last) :
    Tracks run graph heap after where
  formed := same.wellFormed formed
  remains := fun n reachable => same.reachable_eq ▸ reachable
  entry_eq := same.entry_eq
  exit_eq := same.exit_eq
  node := fun n reachable => node n (same.reachable_eq ▸ reachable)
  removed := fun n reachable gone =>
    (gone (same.reachable_eq.symm ▸ reachable)).elim
  paths := fun source target _ _ => by rw [same.link_eq]
  effects := fun n reachable => effects n (same.reachable_eq ▸ reachable)

/-- Two heaps that hold the same graph do the same. -/
theorem Tracks.of_sameGraph (formed : heap.WellFormed graph)
    (same : SameGraph graph heap after)
    (graphOld : graph < after.graphCount)
    (allocated : ∀ n, after.Reachable graph n → n < after.nodeCount) :
    Tracks run graph heap after := by
  have linkEq := same.link_eq
  exact {
    formed := {
      graph_lt := graphOld
      allocated := allocated
      successors_nodup := by
        intro n reachable
        have before := (same.reachable_iff n).mpr reachable
        exact
          (same.successors_perm n before).nodup_iff.mp
            (formed.successors_nodup n before)
      predecessors_nodup := by
        intro n reachable
        have before := (same.reachable_iff n).mpr reachable
        exact
          (same.predecessors_perm n before).nodup_iff.mp
            (formed.predecessors_nodup n before)
      mem_predecessors := by
        intro n reachable pred
        have before := (same.reachable_iff n).mpr reachable
        rw [← (same.predecessors_perm n before).mem_iff, linkEq]
        exact formed.mem_predecessors n before pred
      acyclic := by
        rw [linkEq]
        exact formed.acyclic
      reaches_exit := by
        intro n reachable
        have before := (same.reachable_iff n).mpr reachable
        have path := before.links (formed.reaches_exit n before)
        rw [← linkEq, same.exit_eq] at path
        exact ReflTransGen.mono (fun _ _ => Heap.Link.edge) _ _ path }
    remains := fun n reachable => (same.reachable_iff n).mpr reachable
    entry_eq := same.entry_eq.symm
    exit_eq := same.exit_eq.symm
    node := by
      intro n reachable
      obtain ⟨type, device, command⟩ :=
        same.object_eq n ((same.reachable_iff n).mpr reachable)
      exact .of_eq type.symm device.symm command.symm
    removed := fun n reachable gone =>
      (gone ((same.reachable_iff n).mp reachable)).elim
    paths := fun source target _ _ => by rw [linkEq]
    effects := by
      intro n reachable first last
      obtain ⟨type, device, command⟩ :=
        same.object_eq n ((same.reachable_iff n).mpr reachable)
      rw [performs_congr type.symm device.symm command.symm] }

end Cgir.Optimizer
