import Cgir.Library.Digraph
import Mathlib.Data.List.NodupEquivFin
import Mathlib.Data.List.Sort
import Mathlib.Data.Finset.Sort

/-!
# Running the vertices of a digraph

The vertices of a digraph are run one after another, each of them once and after
its predecessors (`Schedule`).  A vertex acts on a state; the outcomes of the
digraph are what its schedules can do to a state (`Outcome`).

Vertices that do nothing may be left out of a schedule.  What is left is a list
in which no vertex comes before one that it depends on (`Sorted`), and every such
list is left by some schedule (`outcome_iff`).  Two digraphs are thus compared on
the vertices that act, by the paths between them.
-/

namespace Cgir.Library

open Relation

variable {Vertex State : Type}

/-! ## Schedules -/

/-- All vertices, each of them after its predecessors. -/
structure Schedule (live : Vertex → Prop) (edge : Vertex → Vertex → Prop)
    (order : List Vertex) : Prop where
  nodup : order.Nodup
  mem_iff : ∀ vertex, vertex ∈ order ↔ live vertex
  ready : ∀ earlier vertex later, order = earlier ++ vertex :: later →
    ∀ pred, edge pred vertex → pred ∈ earlier

/-- No vertex of the list depends on a later one. -/
structure Sorted (live : Vertex → Prop) (edge : Vertex → Vertex → Prop)
    (part : List Vertex) : Prop where
  nodup : part.Nodup
  mem_iff : ∀ vertex, vertex ∈ part ↔ live vertex
  sorted : part.Pairwise fun first second => ¬ TransGen edge second first

section Schedules

variable {live : Vertex → Prop} {edge : Vertex → Vertex → Prop}
  {order : List Vertex}

/-- What a vertex depends on runs before it. -/
theorem Schedule.before (schedule : Schedule live edge order)
    {source target : Vertex} (path : TransGen edge source target) :
    ∀ earlier later, order = earlier ++ target :: later →
      source ∈ earlier := by
  induction path with
  | single step =>
      intro earlier later split
      exact schedule.ready earlier _ later split _ step
  | tail _ step before =>
      intro earlier later split
      have member := schedule.ready earlier _ later split _ step
      obtain ⟨front, back, rfl⟩ := List.append_of_mem member
      have earlierFront :=
        before front (back ++ _ :: later)
          (by rw [split, List.append_assoc, List.cons_append])
      exact List.mem_append_left _ earlierFront

/-- A digraph with a schedule has no cycle. -/
theorem Schedule.irreflexive (schedule : Schedule live edge order)
    {vertex : Vertex} (alive : live vertex) :
    ¬ TransGen edge vertex vertex := by
  intro cycle
  obtain ⟨earlier, later, split⟩ :=
    List.append_of_mem ((schedule.mem_iff vertex).mpr alive)
  have member := schedule.before cycle earlier later split
  have apart := (List.nodup_append.mp (split ▸ schedule.nodup)).2.2
  exact apart vertex member vertex List.mem_cons_self rfl

/-- Pairs of a list are read off at the split before the second member. -/
theorem pairwise_of_splits {related : Vertex → Vertex → Prop}
    {list : List Vertex}
    (splits : ∀ earlier vertex later, list = earlier ++ vertex :: later →
      ∀ first ∈ earlier, related first vertex) : list.Pairwise related := by
  induction list using List.reverseRecOn with
  | nil => exact List.Pairwise.nil
  | append_singleton front last induction =>
      rw [List.pairwise_append]
      refine ⟨induction ?_, List.pairwise_singleton _ _, ?_⟩
      · rintro earlier vertex later rfl
        exact splits earlier vertex (later ++ [last]) (by simp)
      · intro first member second isLast
        rw [List.mem_singleton.mp isLast]
        exact splits front last [] rfl first member

theorem Schedule.sorted (schedule : Schedule live edge order) :
    Sorted live edge order where
  nodup := schedule.nodup
  mem_iff := schedule.mem_iff
  sorted := by
    apply pairwise_of_splits
    rintro earlier vertex later split first member path
    obtain ⟨front, back, rfl⟩ := List.append_of_mem member
    have before : vertex ∈ front :=
      schedule.before path front (back ++ vertex :: later) (by simp [split])
    have apart := (List.nodup_append.mp (split ▸ schedule.nodup)).2.2
    exact
      apart vertex (List.mem_append_left _ before) vertex
        List.mem_cons_self rfl

/-- A chain of an acyclic digraph is sorted. -/
theorem Sorted.of_isChain (acyclic : Digraph.Acyclic edge)
    (chain : List.IsChain edge order)
    (memIff : ∀ vertex, vertex ∈ order ↔ live vertex) :
    Sorted live edge order := by
  have longer : List.IsChain (TransGen edge) order :=
    List.IsChain.imp (fun _ _ step => TransGen.single step) chain
  have paths := List.isChain_iff_pairwise.mp longer
  exact {
    nodup := by
      refine List.Pairwise.imp ?_ paths
      rintro first second path rfl
      exact acyclic first path
    mem_iff := memIff
    sorted := by
      refine List.Pairwise.imp ?_ paths
      intro first second path back
      exact acyclic first (path.trans back) }

/-- Leaving vertices out keeps a list sorted. -/
theorem Sorted.filter (sorted : Sorted live edge order)
    (keep : Vertex → Prop) [DecidablePred keep] :
    Sorted (fun vertex => live vertex ∧ keep vertex) edge
      (order.filter fun vertex => keep vertex) where
  nodup := sorted.nodup.filter _
  mem_iff := by
    intro vertex
    rw [List.mem_filter, decide_eq_true_iff, sorted.mem_iff]
  sorted := sorted.sorted.filter _

/-- A list is sorted for a relation with the same or fewer dependencies. -/
theorem Sorted.mono {live' : Vertex → Prop}
    {edge' : Vertex → Vertex → Prop} (sorted : Sorted live edge order)
    (liveIff : ∀ vertex, live' vertex ↔ live vertex)
    (fewer : ∀ source target, live source → live target →
      TransGen edge' source target → TransGen edge source target) :
    Sorted live' edge' order where
  nodup := sorted.nodup
  mem_iff := fun vertex => (sorted.mem_iff vertex).trans (liveIff vertex).symm
  sorted := by
    refine sorted.sorted.imp_of_mem ?_
    intro first second firstIn secondIn free path
    exact
      free (fewer second first ((sorted.mem_iff second).mp secondIn)
        ((sorted.mem_iff first).mp firstIn) path)

end Schedules

/-! ## Completing a sorted list -/

section Completion

variable {live keep : Vertex → Prop} {edge : Vertex → Vertex → Prop}
  {part : List Vertex} [DecidableEq Vertex]

/-- The dependencies, and the order in which a list has its members. -/
def Along (edge : Vertex → Vertex → Prop) (part : List Vertex)
    (first second : Vertex) : Prop :=
  edge first second ∨
    first ∈ part ∧ second ∈ part ∧ part.idxOf first < part.idxOf second

/-- A sorted list has what a member depends on at a smaller index. -/
theorem Sorted.idxOf_lt (sorted : Sorted live edge part)
    (acyclic : Digraph.Acyclic edge) {source target : Vertex}
    (sourceIn : source ∈ part) (targetIn : target ∈ part)
    (path : TransGen edge source target) :
    part.idxOf source < part.idxOf target := by
  by_contra notBefore
  have sourceBound := List.idxOf_lt_length_of_mem sourceIn
  have targetBound := List.idxOf_lt_length_of_mem targetIn
  rcases (Nat.not_lt.mp notBefore).eq_or_lt with same | after
  · rw [List.idxOf_inj targetIn] at same
    exact acyclic source (same ▸ path)
  · have free :=
      List.pairwise_iff_getElem.mp sorted.sorted _ _ targetBound sourceBound
        after
    rw [List.getElem_idxOf, List.getElem_idxOf] at free
    exact free path

/--
A path along the dependencies and a sorted list is a path along the dependencies,
or it passes from one member of the list to a later one.
-/
theorem Sorted.along_cases (sorted : Sorted live edge part)
    (acyclic : Digraph.Acyclic edge) {source target : Vertex}
    (path : TransGen (Along edge part) source target) :
    TransGen edge source target ∨
      ∃ first ∈ part, ∃ second ∈ part,
        part.idxOf first < part.idxOf second ∧
          ReflTransGen edge source first ∧
            ReflTransGen edge second target := by
  induction path with
  | single step =>
      rcases step with direct | ⟨firstIn, secondIn, before⟩
      · exact Or.inl (TransGen.single direct)
      · exact
          Or.inr ⟨_, firstIn, _, secondIn, before, ReflTransGen.refl,
            ReflTransGen.refl⟩
  | @tail middle last _ step before =>
      rcases step with direct | ⟨middleIn, lastIn, listed⟩
      · rcases before with path | ⟨first, firstIn, second, secondIn, order,
          toFirst, fromSecond⟩
        · exact Or.inl (path.tail direct)
        · exact
            Or.inr ⟨first, firstIn, second, secondIn, order, toFirst,
              fromSecond.tail direct⟩
      · rcases before with path | ⟨first, firstIn, second, secondIn, order,
          toFirst, fromSecond⟩
        · exact
            Or.inr ⟨middle, middleIn, last, lastIn, listed,
              path.to_reflTransGen, ReflTransGen.refl⟩
        · -- The member that the path enters comes no later than `middle`.
          have reached : part.idxOf second ≤ part.idxOf middle := by
            rcases reflTransGen_iff_eq_or_transGen.mp fromSecond with
              same | path
            · rw [same]
            · exact (sorted.idxOf_lt acyclic secondIn middleIn path).le
          exact
            Or.inr ⟨first, firstIn, last, lastIn,
              (order.trans_le reached).trans listed, toFirst,
              ReflTransGen.refl⟩

/-- Running the members of a sorted list in its order closes no cycle. -/
theorem Sorted.acyclic_along (sorted : Sorted live edge part)
    (acyclic : Digraph.Acyclic edge) :
    Digraph.Acyclic (Along edge part) := by
  intro vertex cycle
  rcases sorted.along_cases acyclic cycle with path | ⟨first, firstIn, second,
    secondIn, order, toFirst, fromSecond⟩
  · exact acyclic vertex path
  · rcases reflTransGen_iff_eq_or_transGen.mp (fromSecond.trans toFirst) with
      same | path
    · exact order.ne (congrArg part.idxOf same)
    · exact
        (sorted.idxOf_lt acyclic secondIn firstIn path).asymm order

/-- A sorted list of some of the vertices is what a schedule leaves of them. -/
theorem Sorted.complete [DecidablePred keep]
    (sorted : Sorted (fun vertex => live vertex ∧ keep vertex) edge part)
    (acyclic : Digraph.Acyclic edge)
    (inside : ∀ source target, edge source target →
      live source ∧ live target)
    (domain : Finset Vertex) (domainIff : ∀ v, v ∈ domain ↔ live v) :
    ∃ order, Schedule live edge order ∧
      (order.filter fun vertex => keep vertex) = part := by
  obtain ⟨rank, increases⟩ :
      ∃ rank : Vertex → Nat, ∀ source target,
        Along edge part source target → rank source < rank target := by
    obtain ⟨rank, increases⟩ :=
      (sorted.acyclic_along acyclic).reverse.exists_rank domain (by
        rintro target source (step | ⟨sourceIn, -, -⟩)
        · exact (domainIff source).mpr (inside source target step).1
        · exact (domainIff source).mpr ((sorted.mem_iff source).mp sourceIn).1)
    exact ⟨rank, fun source target step => increases target source step⟩
  let byRank := fun first second : Vertex =>
    decide (rank first ≤ rank second)
  let order := domain.toList.mergeSort byRank
  have ranked : order.Pairwise fun first second =>
      rank first ≤ rank second := by
    have sorts : order.Pairwise fun first second => byRank first second :=
      List.pairwise_mergeSort
        (by simp only [byRank, decide_eq_true_iff]; omega)
        (by
          simp only [byRank, Bool.or_eq_true, decide_eq_true_iff]
          omega)
        domain.toList
    exact sorts.imp fun {_ _} holds => of_decide_eq_true holds
  have perm : order.Perm domain.toList := List.mergeSort_perm _ _
  have nodup : order.Nodup := perm.nodup_iff.mpr domain.nodup_toList
  have memIff : ∀ vertex, vertex ∈ order ↔ live vertex := by
    intro vertex
    rw [perm.mem_iff, Finset.mem_toList, domainIff]
  refine ⟨order, ⟨nodup, memIff, ?_⟩, ?_⟩
  · intro earlier vertex later split pred step
    have listed := (memIff pred).mpr (inside pred vertex step).1
    rw [split] at listed ranked
    have lower := increases pred vertex (Or.inl step)
    rcases List.mem_append.mp listed with member | member
    · exact member
    · rcases List.mem_cons.mp member with rfl | after
      · exact (lt_irrefl _ lower).elim
      · have bound :=
          (List.pairwise_cons.mp (List.pairwise_append.mp ranked).2.1).1
            pred after
        omega
  · have listed : ∀ first ∈ part, ∀ second ∈ part,
        part.idxOf first < part.idxOf second → rank first < rank second := by
      intro first firstIn second secondIn before
      exact increases first second (Or.inr ⟨firstIn, secondIn, before⟩)
    have keptIff : ∀ vertex,
        vertex ∈ order.filter (fun vertex => keep vertex) ↔
          vertex ∈ part := by
      intro vertex
      rw [List.mem_filter, decide_eq_true_iff, memIff, sorted.mem_iff]
    -- Both lists hold the kept vertices by rising rank.
    refine
      List.Perm.eq_of_pairwise ?_ (ranked.filter _) ?_
        ((List.perm_ext_iff_of_nodup (nodup.filter _) sorted.nodup).mpr
          keptIff)
    · intro first second firstIn secondIn forth back
      rw [keptIff] at firstIn
      by_contra apart
      have apartIdx : part.idxOf first ≠ part.idxOf second := fun same =>
        apart ((List.idxOf_inj firstIn).mp same)
      rcases apartIdx.lt_or_gt with before | after
      · have := listed first firstIn second secondIn before
        omega
      · have := listed second secondIn first firstIn after
        omega
    · rw [List.pairwise_iff_getElem]
      intro i j iBound jBound before
      have lower :=
        listed part[i] (List.getElem_mem iBound) part[j]
          (List.getElem_mem jBound)
          (by
            rwa [sorted.nodup.idxOf_getElem i iBound,
              sorted.nodup.idxOf_getElem j jBound])
      exact lower.le

/-- An acyclic digraph has a schedule. -/
theorem exists_schedule (acyclic : Digraph.Acyclic edge)
    (inside : ∀ source target, edge source target →
      live source ∧ live target)
    (domain : Finset Vertex) (domainIff : ∀ v, v ∈ domain ↔ live v) :
    ∃ order, Schedule live edge order := by
  have nothing :
      Sorted (fun vertex => live vertex ∧ False) edge ([] : List Vertex) :=
    ⟨List.nodup_nil, fun vertex => by simp, List.Pairwise.nil⟩
  obtain ⟨order, schedule, -⟩ :=
    nothing.complete acyclic inside domain domainIff
  exact ⟨order, schedule⟩

end Completion

/-! ## Groups of vertices -/

section Groups

variable {Block : Type} {live : Vertex → Prop} {edge : Vertex → Vertex → Prop}
  {liveBlock : Block → Prop} {edgeBlock : Block → Block → Prop}

/--
Running the members of each block in its place gives a sorted list, when a path
between members of two blocks is a path between the blocks.
-/
theorem Sorted.flatMap {blocks : List Block}
    (sorted : Sorted liveBlock edgeBlock blocks) (place : Vertex → Block)
    (members : Block → List Vertex)
    (placed : ∀ vertex, live vertex → liveBlock (place vertex))
    (inner : ∀ block, liveBlock block →
      Sorted (fun vertex => live vertex ∧ place vertex = block) edge
        (members block))
    (across : ∀ source target, live source → live target →
      TransGen edge source target → place source ≠ place target →
        TransGen edgeBlock (place source) (place target)) :
    Sorted live edge (blocks.flatMap members) where
  nodup := by
    rw [List.nodup_flatMap]
    refine
      ⟨fun block member =>
        (inner block ((sorted.mem_iff block).mp member)).nodup, ?_⟩
    refine sorted.nodup.imp_of_mem ?_
    intro first second firstIn secondIn apart vertex inFirst inSecond
    have here :=
      (inner first ((sorted.mem_iff first).mp firstIn)).mem_iff vertex
    have there :=
      (inner second ((sorted.mem_iff second).mp secondIn)).mem_iff vertex
    exact apart ((here.mp inFirst).2.symm.trans (there.mp inSecond).2)
  mem_iff := by
    intro vertex
    rw [List.mem_flatMap]
    constructor
    · rintro ⟨block, member, inBlock⟩
      have blockLive := (sorted.mem_iff block).mp member
      exact (((inner block blockLive).mem_iff vertex).mp inBlock).1
    · intro alive
      have blockLive := placed vertex alive
      exact
        ⟨place vertex, (sorted.mem_iff _).mpr blockLive,
          ((inner _ blockLive).mem_iff vertex).mpr ⟨alive, rfl⟩⟩
  sorted := by
    rw [List.pairwise_flatMap]
    refine
      ⟨fun block member =>
        (inner block ((sorted.mem_iff block).mp member)).sorted, ?_⟩
    refine (sorted.nodup.and sorted.sorted).imp_of_mem ?_
    rintro first second firstIn secondIn ⟨apart, free⟩ vertex inFirst other
      inSecond path
    obtain ⟨vertexLive, rfl⟩ :=
      ((inner first ((sorted.mem_iff first).mp firstIn)).mem_iff vertex).mp
        inFirst
    obtain ⟨otherLive, rfl⟩ :=
      ((inner second ((sorted.mem_iff second).mp secondIn)).mem_iff other).mp
        inSecond
    exact free (across other vertex otherLive vertexLive path apart.symm)

end Groups

/-! ## Running a list -/

/-- What the vertices of a list do to a state one after another. -/
def Runs (act : Vertex → State → State → Prop) :
    List Vertex → State → State → Prop
  | [], first, last => last = first
  | vertex :: rest, first, last =>
      ∃ middle, act vertex first middle ∧ Runs act rest middle last

section Running

variable {act : Vertex → State → State → Prop}

theorem runs_append (front back : List Vertex) (first last : State) :
    Runs act (front ++ back) first last ↔
      ∃ middle, Runs act front first middle ∧
        Runs act back middle last := by
  induction front generalizing first with
  | nil => simp [Runs]
  | cons vertex rest induction =>
      simp only [List.cons_append, Runs, induction]
      constructor
      · rintro ⟨one, acts, two, runs, ends⟩
        exact ⟨two, ⟨one, acts, runs⟩, ends⟩
      · rintro ⟨two, ⟨one, acts, runs⟩, ends⟩
        exact ⟨one, acts, two, runs, ends⟩

/-- Vertices that do nothing may be left out. -/
theorem runs_filter (keep : Vertex → Prop) [DecidablePred keep]
    {list : List Vertex}
    (idle : ∀ vertex ∈ list, ¬ keep vertex → ∀ first last,
      act vertex first last ↔ last = first) (first last : State) :
    Runs act list first last ↔
      Runs act (list.filter fun vertex => keep vertex) first last := by
  induction list generalizing first with
  | nil => rfl
  | cons vertex rest induction =>
      have rest' := induction fun vertex member =>
        idle vertex (List.mem_cons_of_mem _ member)
      by_cases kept : keep vertex
      · rw [List.filter_cons_of_pos (by simpa using kept)]
        simp only [Runs, rest']
      · rw [List.filter_cons_of_neg (by simpa using kept)]
        simp only [Runs, rest', idle vertex List.mem_cons_self kept,
          exists_eq_left]

/-- A list runs as the expansion of its members does. -/
theorem Runs.flatMap {Block : Type} {act' : Block → State → State → Prop}
    {members : Block → List Vertex} {blocks : List Block}
    (expands : ∀ block ∈ blocks, ∀ first last, act' block first last →
      Runs act (members block) first last) {first last : State}
    (runs : Runs act' blocks first last) :
    Runs act (blocks.flatMap members) first last := by
  induction blocks generalizing first with
  | nil => exact runs
  | cons block rest induction =>
      obtain ⟨middle, acts, ends⟩ := runs
      rw [List.flatMap_cons, runs_append]
      exact
        ⟨middle, expands block List.mem_cons_self _ _ acts,
          induction
            (fun block member =>
              expands block (List.mem_cons_of_mem _ member)) ends⟩

/-- The expansion of a list runs as the list does. -/
theorem Runs.of_flatMap {Block : Type} {act' : Block → State → State → Prop}
    {members : Block → List Vertex} {blocks : List Block}
    (contracts : ∀ block ∈ blocks, ∀ first last,
      Runs act (members block) first last → act' block first last)
    {first last : State}
    (runs : Runs act (blocks.flatMap members) first last) :
    Runs act' blocks first last := by
  induction blocks generalizing first with
  | nil => exact runs
  | cons block rest induction =>
      rw [List.flatMap_cons, runs_append] at runs
      obtain ⟨middle, front, back⟩ := runs
      exact
        ⟨middle, contracts block List.mem_cons_self _ _ front,
          induction
            (fun block member =>
              contracts block (List.mem_cons_of_mem _ member)) back⟩

/-- A list can be run when each of its members can be run. -/
theorem exists_runs {list : List Vertex}
    (acts : ∀ vertex ∈ list, ∀ first, ∃ last, act vertex first last)
    (first : State) : ∃ last, Runs act list first last := by
  induction list generalizing first with
  | nil => exact ⟨first, rfl⟩
  | cons vertex rest induction =>
      obtain ⟨middle, step⟩ := acts vertex List.mem_cons_self first
      obtain ⟨last, runs⟩ :=
        induction
          (fun other member => acts other (List.mem_cons_of_mem _ member))
          middle
      exact ⟨last, middle, step, runs⟩

theorem Runs.mono {act' : Vertex → State → State → Prop}
    {list : List Vertex}
    (weaker : ∀ vertex ∈ list, ∀ first last, act vertex first last →
      act' vertex first last) {first last : State}
    (runs : Runs act list first last) : Runs act' list first last := by
  induction list generalizing first with
  | nil => exact runs
  | cons vertex rest induction =>
      obtain ⟨middle, acts, ends⟩ := runs
      exact
        ⟨middle, weaker vertex List.mem_cons_self _ _ acts,
          induction
            (fun vertex member =>
              weaker vertex (List.mem_cons_of_mem _ member)) ends⟩

end Running

/-! ## Regrouping -/

section Regrouping

variable {Block Node : Type} {live : Vertex → Prop}
  {edge : Vertex → Vertex → Prop} {act : Vertex → State → State → Prop}

/-- A path stays in the block of its source, or it leads to another block. -/
theorem transGen_within_or_across {edgeBlock : Block → Block → Prop}
    {place : Vertex → Block}
    (across : ∀ source target, edge source target →
      place source ≠ place target →
        edgeBlock (place source) (place target))
    {source target : Vertex} (path : TransGen edge source target) :
    TransGen
        (fun upper lower => edge upper lower ∧
          place upper = place source ∧ place lower = place source)
        source target ∨
      TransGen edgeBlock (place source) (place target) := by
  induction path with
  | @single target step =>
      by_cases same : place source = place target
      · exact Or.inl (TransGen.single ⟨step, rfl, same.symm⟩)
      · exact Or.inr (TransGen.single (across _ _ step same))
  | @tail middle last _ step before =>
      rcases before with within | leads
      · obtain ⟨_, -, -, -, here⟩ := TransGen.tail'_iff.mp within
        by_cases same : place middle = place last
        · exact
            Or.inl (within.tail ⟨step, here, same.symm.trans here⟩)
        · exact Or.inr (TransGen.single (here ▸ across _ _ step same))
      · by_cases same : place middle = place last
        · exact Or.inr (same ▸ leads)
        · exact Or.inr (leads.tail (across _ _ step same))

/-- The image of a vertex is traced back to it. -/
theorem exists_back (image : Vertex → Node) (live : Vertex → Prop)
    (injective : ∀ vertex other, live vertex → live other →
      image vertex = image other → vertex = other) :
    ∃ back : Node → Option Vertex, ∀ node vertex,
      back node = some vertex ↔ live vertex ∧ image vertex = node := by
  let onLive := fun vertex : { vertex // live vertex } => image vertex
  have onLiveInjective : Function.Injective onLive := by
    rintro ⟨vertex, alive⟩ ⟨other, otherAlive⟩ same
    exact Subtype.ext (injective vertex other alive otherAlive same)
  have partialInv := Function.Injective.isPartialInv onLiveInjective
  refine
    ⟨fun node => (Function.partialInv onLive node).map Subtype.val,
      fun node vertex => ?_⟩
  rw [Option.map_eq_some_iff]
  constructor
  · rintro ⟨⟨vertex, alive⟩, found, rfl⟩
    exact ⟨alive, (partialInv _ _).mp found⟩
  · rintro ⟨alive, rfl⟩
    exact ⟨⟨vertex, alive⟩, (partialInv _ _).mpr rfl, rfl⟩

/-- The vertices whose images are in a sorted list, in the order of these. -/
theorem Sorted.filterMap {liveNode : Node → Prop}
    {edgeNode : Node → Node → Prop} {list : List Node}
    (sorted : Sorted liveNode edgeNode list) {image : Vertex → Node}
    {back : Node → Option Vertex}
    (backIff : ∀ node vertex,
      back node = some vertex ↔ live vertex ∧ image vertex = node)
    (alive : ∀ vertex, live vertex → liveNode (image vertex))
    (paths : ∀ source target, live source → live target →
      TransGen edge source target →
        TransGen edgeNode (image source) (image target)) :
    Sorted live edge (list.filterMap back) where
  nodup := by
    refine sorted.nodup.filterMap ?_
    intro node other vertex inNode inOther
    rw [Option.mem_def, backIff] at inNode inOther
    exact inNode.2.symm.trans inOther.2
  mem_iff := by
    intro vertex
    simp only [List.mem_filterMap, backIff]
    constructor
    · rintro ⟨node, -, isLive, -⟩
      exact isLive
    · intro isLive
      exact
        ⟨image vertex, (sorted.mem_iff _).mpr (alive vertex isLive), isLive,
          rfl⟩
  sorted := by
    rw [List.pairwise_filterMap]
    refine sorted.sorted.imp ?_
    intro node other free first inNode second inOther path
    rw [backIff] at inNode inOther
    obtain ⟨firstLive, rfl⟩ := inNode
    obtain ⟨secondLive, rfl⟩ := inOther
    exact free (paths second first secondLive firstLive path)

/-- What a list does when its other members do nothing. -/
theorem Runs.filterMap {actNode : Node → State → State → Prop}
    {list : List Node} {back : Node → Option Vertex}
    (acts : ∀ node ∈ list, ∀ vertex, back node = some vertex →
      ∀ first last, actNode node first last → act vertex first last)
    (idle : ∀ node ∈ list, back node = none →
      ∀ first last, actNode node first last → last = first)
    {first last : State} (runs : Runs actNode list first last) :
    Runs act (list.filterMap back) first last := by
  induction list generalizing first with
  | nil => exact runs
  | cons node rest induction =>
      obtain ⟨middle, step, ends⟩ := runs
      have tail :=
        induction (fun other member =>
            acts other (List.mem_cons_of_mem _ member))
          (fun other member => idle other (List.mem_cons_of_mem _ member))
          ends
      cases known : back node with
      | none =>
          rw [List.filterMap_cons_none known]
          exact
            idle node List.mem_cons_self known first middle step ▸ tail
      | some vertex =>
          rw [List.filterMap_cons_some known]
          exact
            ⟨middle,
              acts node List.mem_cons_self vertex known first middle step,
              tail⟩

/-- A run of blocks is a run of members that each block runs. -/
theorem Runs.expand {actBlock : Block → State → State → Prop}
    {fits : Block → List Vertex → Prop} {blocks : List Block}
    (nodup : blocks.Nodup)
    (expands : ∀ block ∈ blocks, ∀ first last, actBlock block first last →
      ∃ members, fits block members ∧ Runs act members first last)
    {first last : State} (runs : Runs actBlock blocks first last) :
    ∃ members : Block → List Vertex,
      (∀ block ∈ blocks, fits block (members block)) ∧
        Runs act (blocks.flatMap members) first last := by
  classical
  induction blocks generalizing first with
  | nil => exact ⟨fun _ => [], nofun, runs⟩
  | cons block rest induction =>
      obtain ⟨middle, acts, ends⟩ := runs
      obtain ⟨fresh, nodup⟩ := List.nodup_cons.mp nodup
      obtain ⟨list, listFits, listRuns⟩ :=
        expands block List.mem_cons_self _ _ acts
      obtain ⟨members, membersFit, membersRun⟩ :=
        induction nodup
          (fun other member =>
            expands other (List.mem_cons_of_mem _ member)) ends
      have others : ∀ other ∈ rest,
          Function.update members block list other = members other := by
        intro other member
        refine Function.update_of_ne ?_ _ _
        rintro rfl
        exact fresh member
      refine ⟨Function.update members block list, ?_, ?_⟩
      · intro other member
        rcases List.mem_cons.mp member with rfl | later
        · rw [Function.update_self]
          exact listFits
        · rw [others other later]
          exact membersFit other later
      · rw [List.flatMap_cons, Function.update_self, runs_append,
          List.flatMap_congr others]
        exact ⟨middle, listRuns, membersRun⟩

/--
Blocks that are run one after another, each of them by its own members, run the
vertices of the digraph that was regrouped.
-/
theorem Schedule.regroup {liveBlock : Block → Prop}
    {edgeBlock : Block → Block → Prop}
    {actBlock : Block → State → State → Prop} {blocks : List Block}
    (schedule : Schedule liveBlock edgeBlock blocks) {place : Vertex → Block}
    (placed : ∀ vertex, live vertex → liveBlock (place vertex))
    (across : ∀ source target, edge source target →
      place source ≠ place target → edgeBlock (place source) (place target))
    (expands : ∀ block, liveBlock block → ∀ first last,
      actBlock block first last →
        ∃ members,
          Sorted (fun vertex => live vertex ∧ place vertex = block) edge
              members ∧
            Runs act members first last)
    {first last : State} (runs : Runs actBlock blocks first last) :
    ∃ part, Sorted live edge part ∧ Runs act part first last := by
  obtain ⟨members, sorted, membersRun⟩ :=
    Runs.expand schedule.nodup
      (fun block member =>
        expands block ((schedule.mem_iff block).mp member)) runs
  refine ⟨blocks.flatMap members, ?_, membersRun⟩
  refine
    Sorted.flatMap schedule.sorted place members placed
      (fun block alive => sorted block ((schedule.mem_iff block).mpr alive)) ?_
  intro source target _ _ path apart
  rcases transGen_within_or_across across path with within | leads
  · obtain ⟨_, -, -, -, here⟩ := TransGen.tail'_iff.mp within
    exact (apart here.symm).elim
  · exact leads

end Regrouping

/-! ## Outcomes -/

section Outcomes

variable {live : Vertex → Prop} {edge : Vertex → Vertex → Prop}
  {act : Vertex → State → State → Prop}

/-- What running all vertices can do to a state. -/
def Outcome (live : Vertex → Prop) (edge : Vertex → Vertex → Prop)
    (act : Vertex → State → State → Prop) (first last : State) : Prop :=
  ∃ order, Schedule live edge order ∧ Runs act order first last

/-- The outcomes are those of the sorted lists of the vertices that act. -/
theorem outcome_iff [DecidableEq Vertex] {keep : Vertex → Prop}
    [DecidablePred keep] (acyclic : Digraph.Acyclic edge)
    (inside : ∀ source target, edge source target →
      live source ∧ live target)
    (domain : Finset Vertex) (domainIff : ∀ v, v ∈ domain ↔ live v)
    (idle : ∀ vertex, live vertex → ¬ keep vertex → ∀ first last,
      act vertex first last ↔ last = first) {first last : State} :
    Outcome live edge act first last ↔
      ∃ part, Sorted (fun vertex => live vertex ∧ keep vertex) edge part ∧
        Runs act part first last := by
  constructor
  · rintro ⟨order, schedule, runs⟩
    refine ⟨_, schedule.sorted.filter keep, ?_⟩
    rwa [← runs_filter keep fun vertex member =>
      idle vertex ((schedule.mem_iff vertex).mp member)]
  · rintro ⟨part, sorted, runs⟩
    obtain ⟨order, schedule, rfl⟩ :=
      sorted.complete acyclic inside domain domainIff
    refine ⟨order, schedule, ?_⟩
    rwa [runs_filter keep fun vertex member =>
      idle vertex ((schedule.mem_iff vertex).mp member)]

/-- Two vertices may be swapped. -/
def Commute (act : Vertex → State → State → Prop) (one other : Vertex) :
    Prop :=
  ∀ first last, Runs act [one, other] first last →
    Runs act [other, one] first last

/-- A vertex may be run before a list that it commutes with. -/
theorem Runs.advance {list : List Vertex} {vertex : Vertex}
    (commute : ∀ other ∈ list, Commute act other vertex)
    {first last : State}
    (runs : Runs act (list ++ [vertex]) first last) :
    Runs act (vertex :: list) first last := by
  induction list generalizing first with
  | nil => exact runs
  | cons other rest induction =>
      obtain ⟨middle, acts, ends⟩ := runs
      obtain ⟨next, moved, tail⟩ :=
        induction
          (fun vertex member =>
            commute vertex (List.mem_cons_of_mem _ member)) ends
      obtain ⟨before, acts', next', moved', rfl⟩ :=
        commute other List.mem_cons_self first next
          ⟨middle, acts, next, moved, rfl⟩
      exact ⟨before, acts', next, moved', tail⟩

/-- Sorted lists of the same vertices do the same when unordered ones commute. -/
theorem Sorted.runs {part part' : List Vertex}
    (sorted : Sorted live edge part) (sorted' : Sorted live edge part')
    (commute : ∀ one other, live one → live other →
      ¬ TransGen edge one other → ¬ TransGen edge other one →
        Commute act one other) {first last : State}
    (runs : Runs act part' first last) : Runs act part first last := by
  induction part generalizing live part' first with
  | nil =>
      have empty : part' = [] :=
        List.eq_nil_iff_forall_not_mem.mpr fun vertex member =>
          List.not_mem_nil
            ((sorted.mem_iff vertex).mpr ((sorted'.mem_iff vertex).mp member))
      rwa [empty] at runs
  | cons vertex rest induction =>
      obtain ⟨fresh, nodup⟩ := List.nodup_cons.mp sorted.nodup
      obtain ⟨free, tailSorted⟩ := List.pairwise_cons.mp sorted.sorted
      have alive := (sorted.mem_iff vertex).mp List.mem_cons_self
      obtain ⟨earlier, later, rfl⟩ :=
        List.append_of_mem ((sorted'.mem_iff vertex).mpr alive)
      have apart := List.nodup_append.mp sorted'.nodup
      have pairs := List.pairwise_append.mp sorted'.sorted
      have moves : ∀ other ∈ earlier, Commute act other vertex := by
        intro other member
        have otherLive :=
          (sorted'.mem_iff other).mp (List.mem_append_left _ member)
        have different : other ≠ vertex :=
          apart.2.2 other member vertex List.mem_cons_self
        have inRest : other ∈ rest :=
          (List.mem_cons.mp ((sorted.mem_iff other).mpr otherLive)).resolve_left
            different
        exact
          commute other vertex otherLive alive (free other inRest)
            (pairs.2.2 other member vertex List.mem_cons_self)
      rw [← List.singleton_append, ← List.append_assoc, runs_append] at runs
      obtain ⟨middle, front, back⟩ := runs
      obtain ⟨next, acts, moved⟩ := Runs.advance moves front
      let liveRest := fun other => live other ∧ other ≠ vertex
      have restSorted : Sorted liveRest edge rest := by
        refine ⟨nodup, ?_, tailSorted⟩
        intro other
        show _ ↔ live other ∧ other ≠ vertex
        rw [← sorted.mem_iff, List.mem_cons]
        constructor
        · intro member
          exact ⟨Or.inr member, fun same => fresh (same ▸ member)⟩
        · rintro ⟨same | member, different⟩
          · exact (different same).elim
          · exact member
      have without : (earlier ++ later).Sublist (earlier ++ vertex :: later) :=
        (List.sublist_cons_self vertex later).append_left earlier
      have restSorted' : Sorted liveRest edge (earlier ++ later) := by
        refine
          ⟨sorted'.nodup.sublist without, ?_, sorted'.sorted.sublist without⟩
        intro other
        show _ ↔ live other ∧ other ≠ vertex
        rw [← sorted'.mem_iff, List.mem_append, List.mem_append, List.mem_cons]
        constructor
        · rintro (member | member)
          · exact
              ⟨Or.inl member,
                apart.2.2 other member vertex List.mem_cons_self⟩
          · refine ⟨Or.inr (Or.inr member), ?_⟩
            rintro rfl
            exact (List.nodup_cons.mp apart.2.1).1 member
        · rintro ⟨member | same | member, different⟩
          · exact Or.inl member
          · exact (different same).elim
          · exact Or.inr member
      refine
        ⟨next, acts, induction restSorted restSorted' ?_ ?_⟩
      · intro one other oneLive otherLive
        exact commute one other oneLive.1 otherLive.1
      · exact
          (runs_append earlier later next last).mpr ⟨middle, moved, back⟩

/-- Without races a digraph has one outcome in terms of any of its schedules. -/
theorem Outcome.of_schedule
    (commute : ∀ one other, live one → live other →
      ¬ TransGen edge one other → ¬ TransGen edge other one →
        Commute act one other) {order : List Vertex}
    (schedule : Schedule live edge order) {first last : State}
    (outcome : Outcome live edge act first last) :
    Runs act order first last := by
  obtain ⟨order', schedule', runs⟩ := outcome
  exact schedule.sorted.runs schedule'.sorted commute runs

end Outcomes

end Cgir.Library
