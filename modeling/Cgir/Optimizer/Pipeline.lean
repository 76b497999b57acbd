import Cgir.Optimizer.Sequencing
import Cgir.Optimizer.Soundness

/-!
# The whole optimizer

Passes that refine and sequence passes may be run in any order, by either
optimizer, and at the end a batch pass.  What the optimized graph does when the
batches that were created run their sub-graphs, the original can do
(`optimize_sound`); and if each command can be run then so can the optimized graph
(`optimize_progress`).
-/

namespace Cgir.Optimizer

open Relation
open Cgir.Library
open Cgir.Mlir
open Cgir.Model
open Cgir.Model.Heap
open Cgir.Pass.ProgFuse

variable {World : Type} {run : Effect (Memory × World)} {tools : Toolchain}
  {heap after : Heap} {graph : GraphId} {kind : Kind}
  {pass : CommandGraphPass} {passes : Nat}

/-! ## Walks -/

/-- A graph on which a number of passes can be run before a walk wraps. -/
structure Prepared (passes : Nat) (heap : Heap) (graph : GraphId) : Prop
    extends Optimizable heap graph where
  marks : ∀ n, heap.Reachable graph n → MarksUpTo graph heap n
  walks : (heap.graphs graph).walkId.toNat + 2 * passes + 1 < 2 ^ 8

theorem Prepared.mono {fewer : Nat} (prepared : Prepared passes heap graph)
    (less : fewer ≤ passes) : Prepared fewer heap graph where
  toOptimizable := prepared.toOptimizable
  marks := prepared.marks
  walks := by
    have bound := prepared.walks
    omega

/-- A pass walks the graph at most twice. -/
theorem Prepared.step (prepared : Prepared (passes + 1) heap graph)
    (ran : commandGraphOptimize tools kind heap graph pass = some after) :
    (∀ n, after.Reachable graph n → MarksUpTo graph after n) ∧
      (after.graphs graph).walkId.toNat + 2 * passes + 1 < 2 ^ 8 ∧
        heap.graphCount ≤ after.graphCount := by
  have formed := prepared.formed
  have bound := prepared.walks
  obtain ⟨walked, walks, -, counts, few, kept⟩ :=
    commandGraphOptimize_stays formed.confined formed.graph_lt
      (fun _ => ⟨formed.allocated, prepared.ready⟩) ran
  have walkedOld : graph < walked.graphCount := by
    rw [counts.graphCount_eq]
    exact formed.graph_lt
  have counted := counts.walkId_eq (by omega)
  refine ⟨?_, ?_, kept.graphCount_le⟩
  · intro n reachable
    have owned := kept.owned_of_reach kept.entry reachable
    refine MarksUpTo.steady kept.steady walkedOld ?_ fun old =>
      counts.marks (by omega) n (prepared.marks n ?_)
    · rcases owned with before | ⟨-, below⟩
      · exact (formed.allocated n before).trans_le kept.nodeCount_le
      · exact below
    · rcases owned with before | ⟨fresh, -⟩
      · exact before
      · rw [counts.nodeCount_eq] at old
        exact (Nat.not_lt.mpr fresh old).elim
  · rw [kept.steady.walkId_eq graph walkedOld, counted]
    omega

theorem Prepared.optimizable (prepared : Prepared (passes + 1) heap graph)
    (ran : commandGraphOptimize tools kind heap graph pass = some after)
    (optimizable : Optimizable after graph) : Prepared passes after graph where
  toOptimizable := optimizable
  marks := (prepared.step ran).1
  walks := (prepared.step ran).2.1

/-! ## All passes -/

/-- A program does the same whatever batches do. -/
theorem nested_prog {sub : Heap} {created : GraphId → Prop} {depth : Nat}
    {device : DeviceUniqueId} {prog : CommandProg}
    {first last : Memory × World} :
    nested run sub created (depth + 1) device (.prog prog) first last ↔
      run device (.prog prog) first last := by
  apply nested_old
  intro sub same
  cases same

/-- What is assumed of programs does not depend on what batches do. -/
theorem Lawful.nested (lawful : Lawful tools run heap graph pass)
    (sub : Heap) (created : GraphId → Prop) (depth : Nat) :
    Lawful tools (nested run sub created (depth + 1)) heap graph pass where
  jit := by
    intro isJit n prog reachable held first last
    rw [nested_prog, nested_prog]
    exact lawful.jit isJit n prog reachable held first last
  fuse := by
    intro isFuse chain u maximal isFirst first last fused
    rw [nested_prog] at fused
    refine (lawful.fuse isFuse chain u maximal isFirst _ _ fused).mono ?_
    intro n member first last acts
    obtain ⟨prog, held⟩ :=
      Option.isSome_iff_exists.mp (maximal.isRun.programs n member).2
    obtain ⟨type, command⟩ := command_of_llvmirProg held
    rw [performs_command type command] at acts ⊢
    exact (@nested_prog World run sub created depth _ prog first last).mpr acts

theorem LawfulSteps.nested {steps : List (Kind × CommandGraphPass)}
    (lawful : LawfulSteps tools run graph steps heap) (sub : Heap)
    (created : GraphId → Prop) (depth : Nat) :
    LawfulSteps tools (nested run sub created (depth + 1)) graph steps
      heap := by
  induction steps generalizing heap with
  | nil => trivial
  | cons step rest induction =>
      exact
        ⟨lawful.1.nested sub created depth, fun after ran =>
          induction (lawful.2 after ran)⟩

/--
What holds of an optimized graph whose created batches run their sub-graphs: it does
nothing that the original could not do, and if it is `alive` then it can be run
whenever the original can.
-/
structure Nests (run : Effect (Memory × World)) (graph : GraphId)
    (heap after : Heap) (alive : Prop) : Prop where
  graphCount_le : heap.graphCount ≤ after.graphCount
  sound : ∀ created, Avoids heap graph created →
    (∀ sub, Created heap after sub → created sub) →
      ∀ depth first last,
        Outcome (nested run after created depth) after graph first last →
          Outcome run heap graph first last
  runs : alive → Runnable run heap graph →
    ∀ created, Avoids heap graph created →
      (∀ sub, Created heap after sub → created sub) →
        ∃ depth, ∀ first, ∃ last,
          Outcome (nested run after created depth) after graph first last

theorem Nests.weaken {alive alive' : Prop}
    (nests : Nests run graph heap after alive) (weaker : alive' → alive) :
    Nests run graph heap after alive' :=
  { nests with runs := fun isAlive => nests.runs (weaker isAlive) }

theorem Nests.refl (formed : heap.WellFormed graph) (alive : Prop) :
    Nests run graph heap heap alive where
  graphCount_le := le_rfl
  sound := fun created avoids _ depth _ _ =>
    Outcome.mono (avoids.within depth)
  runs := by
    intro _ runnable created avoids _
    refine ⟨1, fun first => ?_⟩
    obtain ⟨last, outcome⟩ := runnable.outcome (exists_schedule formed) first
    exact ⟨last, (avoids.outcome_iff 0).mpr outcome⟩

theorem Regrouped.nests {image place : NodeId → NodeId} {alive : Prop}
    (regrouped : Regrouped heap after graph image place)
    (formed : heap.WellFormed graph)
    (grows : heap.graphCount ≤ after.graphCount)
    (schedulable : alive → Schedulable after graph ∧
      ∀ sub, Created heap after sub → Schedulable after sub) :
    Nests run graph heap after alive where
  graphCount_le := grows
  sound := fun _ avoids all depth _ _ =>
    regrouped.nested_sound formed avoids all depth
  runs := fun isAlive runnable _ avoids all =>
    ⟨2, regrouped.nested_runs (schedulable isAlive).1 (schedulable isAlive).2
      runnable avoids all⟩

section Trans

variable {middle : Heap} {alive : Prop}
  (grows : heap.graphCount ≤ middle.graphCount)

include grows

omit grows in
/-- A pass that refines makes no batches. -/
theorem Refines.runnable {exact : Prop}
    (refines : Refines run graph heap middle exact)
    (runnable : Runnable run heap graph) : Runnable run middle graph where
  plain := runnable.plain
  batch := by
    intro n sub reachable type held
    have kept := refines.node n reachable
    rw [kept.type_eq] at type
    exact
      runnable.batch n sub (refines.remains n reachable) type
        (kept.batch sub held)

/-- A pass that refines, and others after it. -/
theorem Refines.nests {exact : Prop}
    (refines : Refines run graph heap middle exact)
    (rest : Nests run graph middle after alive) :
    Nests run graph heap after alive := by
  have kept : ∀ {created}, Avoids heap graph created →
      Avoids middle graph created :=
    fun avoids n sub reachable held =>
      avoids n sub (refines.remains n reachable)
        ((refines.node n reachable).batch sub held)
  have later : ∀ {created : GraphId → Prop},
      (∀ sub, Created heap after sub → created sub) →
        ∀ sub, Created middle after sub → created sub :=
    fun all sub isNew => all sub ⟨grows.trans isNew.1, isNew.2⟩
  exact {
    graphCount_le := grows.trans rest.graphCount_le
    sound := fun created avoids all depth first last outcome =>
      refines.sound first last
        (rest.sound created (kept avoids) (later all) depth first last
          outcome)
    runs := fun isAlive runnable created avoids all =>
      rest.runs isAlive (refines.runnable runnable) created (kept avoids)
        (later all) }

/-- The sequence pass, and others after it. -/
theorem Sequenced.nests {block : NodeId → NodeId}
    (sequenced : Sequenced heap middle graph block)
    (formed : heap.WellFormed graph)
    (isolated : Isolated graph middle after)
    (rest : Nests (nested run middle (Created heap middle) 2) graph middle
      after alive) :
    Nests run graph heap after alive := by
  have made : ∀ {created : GraphId → Prop},
      (∀ sub, Created heap after sub → created sub) →
        ∀ sub, Created heap middle sub → created sub :=
    fun all sub isNew =>
      all sub ⟨isNew.1, isNew.2.trans_le rest.graphCount_le⟩
  have later : ∀ {created : GraphId → Prop},
      (∀ sub, Created heap after sub → created sub) →
        ∀ sub, Created middle after sub →
          created sub ∧ ¬ Created heap middle sub :=
    fun all sub isNew =>
      ⟨all sub ⟨grows.trans isNew.1, isNew.2⟩,
        fun before => Nat.not_lt.mpr isNew.1 before.2⟩
  have avoidsNew : ∀ {created : GraphId → Prop},
      (∀ sub, Created heap after sub → created sub) →
        Avoids heap graph created →
          Avoids heap graph (Created heap middle) :=
    fun all avoids n sub reachable held isNew =>
      avoids n sub reachable held (made all sub isNew)
  constructor
  · exact grows.trans rest.graphCount_le
  · intro created avoids all depth first last outcome
    have below :=
      sequenced.nested_le formed avoids (made all) isolated run depth
    have outcome' :=
      rest.sound _ (sequenced.avoids avoids) (later all) depth first last
        (Outcome.mono (fun _ command _ _ device => below device command)
          outcome)
    exact
      sequenced.toRegrouped.nested_sound formed (avoidsNew all avoids)
        (fun _ isNew => isNew) 2 outcome'
  · intro isAlive runnable created avoids all
    obtain ⟨depth, ends⟩ :=
      rest.runs isAlive
        (sequenced.runnable runnable (avoidsNew all avoids)) _
        (sequenced.avoids avoids) (later all)
    refine ⟨depth + 1, fun first => ?_⟩
    obtain ⟨last, outcome⟩ := ends first
    have above :=
      sequenced.nested_ge formed avoids (made all) isolated run depth
    exact
      ⟨last,
        Outcome.mono (fun _ command _ _ device => above device command)
          outcome⟩

end Trans

/--
Passes that refine and sequence passes, and at the end a batch pass, return.  Only
after a batch of the legacy optimizer it is open if the graph can be run.
-/
theorem optimizeSteps_nests {tail : List (Kind × CommandGraphPass)}
    (batch : tail = [] ∨ ∃ kind, tail = [(kind, .batch)])
    (front : List (Kind × CommandGraphPass))
    (gentle : ∀ step ∈ front, step.2.isRefining ∨ step.2 = .sequence)
    (lawful : LawfulSteps tools run graph (front ++ tail) heap)
    (matrix : MatrixFits heap graph (front ++ tail))
    (prepared : Prepared (front ++ tail).length heap graph) :
    ∃ after, optimizeSteps tools graph (front ++ tail) heap = some after ∧
      Nests run graph heap after
        ((Kind.legacy, CommandGraphPass.batch) ∉ front ++ tail) := by
  induction front generalizing heap run with
  | nil =>
      rcases batch with rfl | ⟨kind, rfl⟩
      · exact ⟨heap, rfl, Nests.refl prepared.formed _⟩
      · obtain ⟨after, image, place, ran, regrouped, schedulable⟩ :=
          batch_regroups tools kind prepared.formed prepared.ready
            prepared.plain
        refine
          ⟨after, ?_, regrouped.nests prepared.formed (prepared.step ran).2.2
            fun alive => schedulable ?_⟩
        · rw [List.nil_append, optimizeSteps, List.foldlM_cons, ran]
          rfl
        · cases kind with
          | legacy => exact (alive List.mem_cons_self).elim
          | mlir => rfl
  | cons step rest induction =>
      obtain ⟨kind, pass⟩ := step
      have gentle' : ∀ step ∈ rest, step.2.isRefining ∨ step.2 = .sequence :=
        fun step member => gentle step (List.mem_cons_of_mem _ member)
      have steps : ∀ {middle}, commandGraphOptimize tools kind heap graph pass =
          some middle →
            optimizeSteps tools graph ((kind, pass) :: rest ++ tail) heap =
              optimizeSteps tools graph (rest ++ tail) middle := by
        intro middle ran
        rw [optimizeSteps, List.cons_append, List.foldlM_cons, ran]
        rfl
      have alive :
          (Kind.legacy, CommandGraphPass.batch) ∉ (kind, pass) :: rest ++ tail →
            (Kind.legacy, CommandGraphPass.batch) ∉ rest ++ tail :=
        fun apart member => apart (List.mem_cons_of_mem _ member)
      rcases gentle (kind, pass) List.mem_cons_self with refining | isSequence
      · obtain ⟨middle, ran, optimizable, refines⟩ :=
          commandGraphOptimize_refines lawful.1 prepared.toOptimizable
            refining kind matrix.head
        have matrix' : MatrixFits middle graph (rest ++ tail) :=
          MatrixFits.rest matrix id fun n reachable =>
            ⟨n, refines.remains n reachable, rfl⟩
        obtain ⟨after, ranRest, nests⟩ :=
          induction gentle' (lawful.2 middle ran) matrix'
            (prepared.optimizable ran optimizable)
        exact
          ⟨after, (steps ran).trans ranRest,
            (refines.nests (prepared.step ran).2.2 nests).weaken alive⟩
      · obtain rfl : pass = .sequence := isSequence
        obtain ⟨middle, block, ranPass, sequenced⟩ :=
          passSequence_leaves prepared.formed prepared.ready
        have ran : commandGraphOptimize tools kind heap graph .sequence =
            some middle := by
          cases kind <;> exact ranPass
        obtain ⟨marks, walks, grows⟩ := prepared.step ran
        have prepared' : Prepared (rest ++ tail).length middle graph :=
          prepared.optimizable ran
            (sequenced.optimizable prepared.toOptimizable
              (MarksUpTo.ready marks (by omega)))
        have matrix' : MatrixFits middle graph (rest ++ tail) :=
          MatrixFits.rest matrix block fun _ top => sequenced.covers top
        obtain ⟨after, ranRest, nests⟩ :=
          induction gentle'
            ((lawful.2 middle ran).nested middle (Created heap middle) 1)
            matrix' prepared'
        have bound := prepared'.walks
        have isolated : Isolated graph middle after :=
          optimizeSteps_around sequenced.formed (rest ++ tail)
            (fun _ => ⟨marks, by omega⟩) ranRest
        exact
          ⟨after, (steps ran).trans ranRest,
            (sequenced.nests grows prepared.formed isolated nests).weaken
              alive⟩

/-- Optimizing with any set of passes but copy-fuse. -/
theorem optimize_nests (kind : Kind) (passes : BitVec 64)
    (lawful : LawfulSteps tools run graph (calls kind passes) heap)
    (matrix : MatrixFits heap graph (calls kind passes))
    (prepared : Prepared 8 heap graph)
    (apart : passes &&& CommandGraphPass.copyFuse.bit = 0) :
    ∃ after, optimize tools kind graph passes heap = some after ∧
      Nests run graph heap after
        (kind = .mlir ∨ passes &&& CommandGraphPass.batch.bit = 0) := by
  let set := fun list : List CommandGraphPass =>
    (list.filter fun pass => passes &&& pass.bit ≠ 0).map fun pass =>
      (kind, pass)
  let others : List CommandGraphPass :=
    [.copyNormalize, .copyFuse, .reduceNode, .reduceEdge, .progFuse, .jit,
      .sequence]
  have split : calls kind passes = set others ++ set [.batch] := by
    rw [calls, requested, ← List.map_append, ← List.filter_append]
    rfl
  have batch : set [.batch] = [] ∨ ∃ kind, set [.batch] = [(kind, .batch)] := by
    by_cases absent : passes &&& CommandGraphPass.batch.bit = 0
    · exact Or.inl (by simpa [set] using absent)
    · exact Or.inr ⟨kind, by simpa [set] using absent⟩
  have gentle : ∀ step ∈ set others,
      step.2.isRefining ∨ step.2 = .sequence := by
    intro step member
    obtain ⟨pass, inOthers, rfl⟩ := List.mem_map.mp member
    obtain ⟨listed, isRequested⟩ := List.mem_filter.mp inOthers
    by_cases isFuse : pass = .copyFuse
    · subst isFuse
      simp [apart] at isRequested
    · revert isFuse listed
      cases pass <;> simp [others, CommandGraphPass.isRefining]
  have few : (set others ++ set [.batch]).length ≤ 8 := by
    rw [← split, calls, List.length_map]
    exact List.length_filter_le _ _
  obtain ⟨after, ran, nests⟩ :=
    optimizeSteps_nests batch (set others) gentle (split ▸ lawful)
      (split ▸ matrix) (prepared.mono few)
  refine ⟨after, ?_, nests.weaken fun alive member => ?_⟩
  · rw [optimize_eq, split]
    exact ran
  · rw [← split] at member
    obtain ⟨pass, isRequested, same⟩ := List.mem_map.mp member
    cases same
    rcases alive with isMlir | absent
    · cases isMlir
    · have present := (List.mem_filter.mp isRequested).2
      simp [absent] at present

theorem workload_prepared : Prepared 8 workload 0 where
  toOptimizable := workload_optimizable
  marks := by
    have unmarked : ∀ n < 6, MarksUpTo 0 workload n := by
      decide
    exact fun n reachable =>
      unmarked n (workload_numbered.lt_of_reachable reachable)
  walks := by decide

theorem workload_avoids (created : GraphId → Prop) :
    Avoids workload 0 created :=
  .of_numbered workload_numbered (by decide) created

theorem traced_runnable (heap : Heap) (graph : GraphId) :
    Runnable traced heap graph where
  plain := by
    intro device command _ first
    cases command with
    | prog prog => exact ⟨(first.1, first.2 ++ functionsOf prog), rfl, rfl⟩
    | _ => exact ⟨first, rfl⟩
  batch := fun _ _ _ _ _ _ first => ⟨first, rfl⟩

end Cgir.Optimizer
