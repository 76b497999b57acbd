import Cgir.Library.Loop
import Cgir.Library.TwinFold
import Cgir.Pass.Batch

/-!
# The islands of the batch pass

The detection of islands terminates and computes the islands of the scene made
of the links, the candidates and the devices of the graph (`detect_spec`).  The
abstract value of the union-find array is a grouping of the nodes: uniting two
indices joins the groups of their nodes, the flood-fill yields the regions of
the scene, and every round of the twin loop is a sequence of folds.
-/

namespace Cgir.Pass.Batch

open Relation
open Cgir.Library
open Cgir.Model

/-- Links, candidates and devices of a command graph. -/
def scene (heap : Heap) (graph : GraphId) :
    TwinFold.Scene NodeId DeviceUniqueId where
  edge := heap.Link graph
  candidate := fun u =>
    heap.Reachable graph u ∧ boundary heap graph u = false
  color := fun u => (heap.nodes u).deviceUniqueId

section Candidates

variable {iterators : Iterators} (valid : iterators.Valid)

include valid

theorem cand_index {node : NodeId} (member : node ∈ iterators.nodes) :
    cand iterators (iterators.index node) ↔
      (scene iterators.heap iterators.graph).candidate node := by
  rw [cand, valid.node_index member]
  simp [scene, (valid.mem_iff node).mp member]

theorem cand_iff {i : Nat} (bound : i < iterators.count) :
    cand iterators i ↔
      (scene iterators.heap iterators.graph).candidate
        (iterators.node i) := by
  rw [← cand_index valid (Iterators.node_mem bound), valid.index_node bound]

end Candidates

/-! ## The grouping of a union-find array -/

/-- The indices of the nodes. -/
def domain (iterators : Iterators) : Finset Nat :=
  Finset.range iterators.count

@[simp]
theorem mem_domain {iterators : Iterators} {i : Nat} :
    i ∈ domain iterators ↔ i < iterators.count :=
  Finset.mem_range

/-- A union-find array over the indices of the nodes. -/
abbrev Forest (iterators : Iterators) (parent : Parents) : Prop :=
  UnionFind.Forest (domain iterators) parent

/-- The nodes whose indices have one root form a group. -/
noncomputable def groups (iterators : Iterators) (parent : Parents) :
    Setoid NodeId where
  r := fun first second => first = second ∨
    (first ∈ iterators.nodes ∧ second ∈ iterators.nodes ∧
      UnionFind.root parent (iterators.index first) =
        UnionFind.root parent (iterators.index second))
  iseqv := by
    constructor
    · intro node
      exact Or.inl rfl
    · rintro first second (rfl | ⟨left, right, same⟩)
      · exact Or.inl rfl
      · exact Or.inr ⟨right, left, same.symm⟩
    · rintro first second third (rfl | ⟨left, middle, same⟩) rest
      · exact rest
      · rcases rest with rfl | ⟨-, right, same'⟩
        · exact Or.inr ⟨left, middle, same⟩
        · exact Or.inr ⟨left, right, same.trans same'⟩

/-- For nodes of the vector, being in one group is having one root. -/
theorem groups_iff {iterators : Iterators} {parent : Parents}
    {first second : NodeId} (firstMember : first ∈ iterators.nodes)
    (secondMember : second ∈ iterators.nodes) :
    groups iterators parent first second ↔
      UnionFind.root parent (iterators.index first) =
        UnionFind.root parent (iterators.index second) := by
  constructor
  · rintro (rfl | ⟨-, -, same⟩)
    · rfl
    · exact same
  · intro same
    exact Or.inr ⟨firstMember, secondMember, same⟩

/-- The members of a group are in the vector, unless it is one other node. -/
theorem groups_mem {iterators : Iterators} {parent : Parents}
    {first second : NodeId} (same : groups iterators parent first second) :
    first ∈ iterators.nodes ↔ second ∈ iterators.nodes := by
  rcases same with rfl | ⟨left, right, -⟩
  · exact Iff.rfl
  · exact ⟨fun _ => right, fun _ => left⟩

theorem groups_congr {iterators : Iterators} (valid : iterators.Valid)
    {parent parent' : Parents}
    (same : ∀ other ∈ domain iterators,
      UnionFind.root parent' other = UnionFind.root parent other) :
    groups iterators parent' = groups iterators parent := by
  ext first second
  apply or_congr_right
  apply and_congr_right
  intro left
  apply and_congr_right
  intro right
  rw [same _ (mem_domain.mpr (valid.index_lt left)),
    same _ (mem_domain.mpr (valid.index_lt right))]

section Detection

variable {iterators : Iterators} (valid : iterators.Valid)

/-- `find` returns the root and keeps the grouping. -/
theorem find_spec {parent : Parents} (forest : Forest iterators parent)
    {i : Nat} (bound : i < iterators.count) :
    ∃ parent', find iterators parent i =
        some (UnionFind.root parent i, parent') ∧
      Forest iterators parent' ∧
        ∀ other ∈ domain iterators,
          UnionFind.root parent' other = UnionFind.root parent other :=
  UnionFind.find_spec forest (mem_domain.mpr bound)
    (Finset.card_range _).le

include valid

/-- `unite` joins the groups of two nodes. -/
theorem unite_spec {parent : Parents} (forest : Forest iterators parent)
    {i j : Nat} (iBound : i < iterators.count)
    (jBound : j < iterators.count) :
    ∃ parent', unite iterators parent i j = some parent' ∧
      Forest iterators parent' ∧
      (∀ other ∈ domain iterators, UnionFind.root parent' other =
        if UnionFind.root parent other = UnionFind.root parent i then
          UnionFind.root parent j
        else UnionFind.root parent other) ∧
      groups iterators parent' =
        groups iterators parent ⊔
          TwinFold.pair (iterators.node i) (iterators.node j) := by
  obtain ⟨parent', ran, forest', roots⟩ :=
    UnionFind.unite_spec forest (mem_domain.mpr iBound)
      (mem_domain.mpr jBound) (Finset.card_range _).le
  refine ⟨parent', ran, forest', roots, ?_⟩
  ext first second
  rw [TwinFold.sup_pair_iff]
  have iMember := Iterators.node_mem iBound
  have jMember := Iterators.node_mem jBound
  by_cases firstMember : first ∈ iterators.nodes
  · by_cases secondMember : second ∈ iterators.nodes
    · rw [groups_iff firstMember secondMember,
        groups_iff firstMember secondMember,
        groups_iff firstMember iMember,
        groups_iff jMember secondMember,
        groups_iff firstMember jMember,
        groups_iff iMember secondMember,
        valid.index_node iBound, valid.index_node jBound,
        roots _ (mem_domain.mpr (valid.index_lt firstMember)),
        roots _ (mem_domain.mpr (valid.index_lt secondMember))]
      split <;> split <;> grind
    · have apart : ∀ {parent : Parents} {other : NodeId},
          other ∈ iterators.nodes →
            ¬ groups iterators parent other second := by
        intro parent other otherMember same
        exact secondMember ((groups_mem same).mp otherMember)
      simp [apart firstMember, apart iMember, apart jMember]
  · have alone : ∀ {parent : Parents} {other : NodeId},
        groups iterators parent first other ↔ first = other := by
      intro parent other
      constructor
      · rintro (rfl | ⟨member, -⟩)
        · rfl
        · exact (firstMember member).elim
      · exact Or.inl
    have notI : first ≠ iterators.node i :=
      fun equal => firstMember (equal ▸ iMember)
    have notJ : first ≠ iterators.node j :=
      fun equal => firstMember (equal ▸ jMember)
    simp [alone, notI, notJ]

/-! ## Flood-fill -/

/-- The relation whose classes are the regions of the scene. -/
private def Adjoin (iterators : Iterators) (first second : NodeId) : Prop :=
  let scene := scene iterators.heap iterators.graph
  scene.candidate first ∧ scene.candidate second ∧
    scene.color first = scene.color second ∧ scene.edge first second

/-- A part of the flood-fill: it has joined the edges `covered`. -/
private structure Flooded (iterators : Iterators)
    (covered : NodeId → NodeId → Prop) (parent : Parents) : Prop where
  forest : Forest iterators parent
  below : groups iterators parent ≤
    (scene iterators.heap iterators.graph).regions
  joined : ∀ first second, covered first second →
    Adjoin iterators first second → groups iterators parent first second

private theorem flood_edge {covered : NodeId → NodeId → Prop}
    {parent : Parents} (flooded : Flooded iterators covered parent)
    {i : Nat} (bound : i < iterators.count) (isCand : cand iterators i)
    {s : NodeId}
    (edge : s ∈ iterators.heap.successors (iterators.node i)) :
    ∃ parent', floodEdge iterators i parent s = some parent' ∧
      Flooded iterators
        (fun first second => covered first second ∨
          (first = iterators.node i ∧ second = s)) parent' := by
  have iMember := Iterators.node_mem bound
  have sMember := valid.closed iMember edge
  have jBound := valid.index_lt sMember
  by_cases joins : cand iterators (iterators.index s) &&
      iterators.device (iterators.node i) = iterators.device s
  · obtain ⟨parent', ran, forest, -, groups⟩ :=
      unite_spec valid flooded.forest bound jBound
    rw [valid.node_index sMember] at groups
    rw [Bool.and_eq_true, decide_eq_true_eq] at joins
    refine ⟨parent', ?_, forest, ?_, ?_⟩
    · simp only [floodEdge]
      rw [if_pos (by simpa using joins)]
      exact ran
    · rw [groups]
      refine sup_le flooded.below (Setoid.eqvGen_le ?_)
      rintro _ _ ⟨rfl, rfl⟩
      exact
        EqvGen.rel _ _
          ⟨(cand_iff valid bound).mp isCand,
            (cand_index valid sMember).mp joins.1, joins.2,
            (valid.mem_iff _).mp iMember, edge⟩
    · intro first second isCovered adjoin
      rw [groups, TwinFold.sup_pair_iff]
      rcases isCovered with old | ⟨rfl, rfl⟩
      · exact Or.inl (flooded.joined first second old adjoin)
      · exact
          Or.inr (Or.inl
            ⟨Setoid.refl' _ _, Setoid.refl' _ _⟩)
  · refine ⟨parent, ?_, flooded.forest, flooded.below, ?_⟩
    · simp only [floodEdge]
      rw [if_neg joins]
    · intro first second isCovered adjoin
      rcases isCovered with old | ⟨rfl, rfl⟩
      · exact flooded.joined first second old adjoin
      · refine (joins ?_).elim
        rw [Bool.and_eq_true, decide_eq_true_eq]
        exact ⟨(cand_index valid sMember).mpr adjoin.2.1, adjoin.2.2.1⟩

private theorem flood_node {covered : NodeId → NodeId → Prop}
    {parent : Parents} (flooded : Flooded iterators covered parent)
    {i : Nat} (bound : i < iterators.count) :
    ∃ parent', floodNode iterators parent i = some parent' ∧
      Flooded iterators
        (fun first second => covered first second ∨
          first = iterators.node i) parent' := by
  by_cases isCand : cand iterators i
  · obtain ⟨parent', ran, final⟩ :=
      Loop.foldlM_invariant (floodEdge iterators i)
        (fun done parent =>
          Flooded iterators
            (fun first second => covered first second ∨
              (first = iterators.node i ∧ second ∈ done)) parent)
        (iterators.heap.successors (iterators.node i)) parent
        (by
          intro done s rest parent split holds
          obtain ⟨after, ran, kept⟩ :=
            flood_edge valid holds bound isCand (s := s) (by simp [split])
          refine ⟨after, ran, kept.forest, kept.below, ?_⟩
          intro first second isCovered adjoin
          apply kept.joined first second ?_ adjoin
          simp only [List.mem_append, List.mem_singleton] at isCovered
          tauto)
        { forest := flooded.forest
          below := flooded.below
          joined := by simpa using flooded.joined }
    refine ⟨parent', ?_, final.forest, final.below, ?_⟩
    · simp only [floodNode, isCand]
      exact ran
    · intro first second isCovered adjoin
      apply final.joined first second ?_ adjoin
      rcases isCovered with old | rfl
      · exact Or.inl old
      · exact Or.inr ⟨rfl, adjoin.2.2.2.2⟩
  · refine ⟨parent, ?_, flooded.forest, flooded.below, ?_⟩
    · simp [floodNode, isCand]
    · intro first second isCovered adjoin
      rcases isCovered with old | rfl
      · exact flooded.joined first second old adjoin
      · exact (isCand ((cand_iff valid bound).mpr adjoin.1)).elim

/-- The flood-fill computes the regions of the scene. -/
theorem flood_spec :
    ∃ parent, flood iterators = some parent ∧ Forest iterators parent ∧
      groups iterators parent =
        (scene iterators.heap iterators.graph).regions := by
  have discrete : groups iterators (id : Parents) ≤
      (scene iterators.heap iterators.graph).regions := by
    rintro first second (rfl | ⟨left, right, same⟩)
    · exact Setoid.refl' _ _
    · have sameIndex : iterators.index first = iterators.index second := by
        rw [show (id : Parents) = fun i => i from rfl] at same
        simpa using same
      have equal : first = second := by
        rw [← valid.node_index left, ← valid.node_index right, sameIndex]
      exact equal ▸ Setoid.refl' _ _
  obtain ⟨parent, ran, flooded⟩ :=
    Loop.foldlM_invariant (floodNode iterators)
      (fun done parent =>
        Flooded iterators
          (fun first _ => ∃ i ∈ done, first = iterators.node i) parent)
      (List.range iterators.count) id
      (by
        intro done i rest parent split holds
        have bound : i < iterators.count := by
          rw [← List.mem_range, split]
          simp
        obtain ⟨after, ran, kept⟩ := flood_node valid holds bound
        refine ⟨after, ran, kept.forest, kept.below, ?_⟩
        rintro first second ⟨k, member, rfl⟩ adjoin
        apply kept.joined _ second ?_ adjoin
        rcases List.mem_append.mp member with earlier | isLast
        · exact Or.inl ⟨k, earlier, rfl⟩
        · exact Or.inr (by rw [List.mem_singleton.mp isLast]))
      { forest := UnionFind.Forest.discrete _
        below := discrete
        joined := by simp }
  refine ⟨parent, ran, flooded.forest, ?_⟩
  apply le_antisymm flooded.below
  apply Setoid.eqvGen_le
  intro first second adjoin
  refine flooded.joined first second ?_ adjoin
  have member := (valid.mem_iff first).mpr adjoin.1.1
  exact
    ⟨iterators.index first, List.mem_range.mpr (valid.index_lt member),
      (valid.node_index member).symm⟩

/-! ## The quotient -/

/-- Some of the given edges joins members of two roots. -/
def Joins (iterators : Iterators) (parent : Parents)
    (covered : NodeId → NodeId → Prop) (ri rj : Nat) : Prop :=
  ∃ first second, covered first second ∧
    UnionFind.root parent (iterators.index first) = ri ∧
      UnionFind.root parent (iterators.index second) = rj

omit valid in
private theorem joins_or {parent : Parents}
    {covered : NodeId → NodeId → Prop} {node s : NodeId} {ri rj : Nat} :
    Joins iterators parent
        (fun first second => covered first second ∨
          (first = node ∧ second = s)) ri rj ↔
      Joins iterators parent covered ri rj ∨
        (ri = UnionFind.root parent (iterators.index node) ∧
          rj = UnionFind.root parent (iterators.index s)) := by
  constructor
  · rintro ⟨first, second, old | ⟨rfl, rfl⟩, rfl, rfl⟩
    · exact Or.inl ⟨first, second, old, rfl, rfl⟩
    · exact Or.inr ⟨rfl, rfl⟩
  · rintro (⟨first, second, old, rfl, rfl⟩ | ⟨rfl, rfl⟩)
    · exact ⟨first, second, Or.inl old, rfl, rfl⟩
    · exact ⟨node, s, Or.inr ⟨rfl, rfl⟩, rfl, rfl⟩

/-- A part of the quotient: the neighbours along the edges `covered`. -/
private structure Collected (iterators : Iterators) (original : Parents)
    (covered : NodeId → NodeId → Prop) (state : Parents × Neighbours) :
    Prop where
  forest : Forest iterators state.1
  roots : ∀ other ∈ domain iterators,
    UnionFind.root state.1 other = UnionFind.root original other
  rsucc_iff : ∀ ri rj, rj ∈ state.2.rsucc ri ↔ ri ≠ rj ∧
    Joins iterators original covered ri rj
  rpred_iff : ∀ ri rj, ri ∈ state.2.rpred rj ↔ ri ≠ rj ∧
    Joins iterators original covered ri rj

omit valid in
private theorem Collected.congr {original : Parents}
    {covered covered' : NodeId → NodeId → Prop}
    {state : Parents × Neighbours}
    (collected : Collected iterators original covered state)
    (same : ∀ first second, covered' first second ↔ covered first second) :
    Collected iterators original covered' state := by
  have equal : covered' = covered := by
    funext first second
    exact propext (same first second)
  exact equal ▸ collected

private theorem quotient_edge {original : Parents}
    {covered : NodeId → NodeId → Prop} {state : Parents × Neighbours}
    (collected : Collected iterators original covered state)
    {node s : NodeId} (member : node ∈ iterators.nodes)
    (edge : s ∈ iterators.heap.successors node) :
    ∃ after,
      quotientEdge iterators
          (UnionFind.root original (iterators.index node)) state s =
        some after ∧
      Collected iterators original
        (fun first second => covered first second ∨
          (first = node ∧ second = s)) after := by
  have sBound := valid.index_lt (valid.closed member edge)
  obtain ⟨parent, found, forest, roots⟩ := find_spec collected.forest sBound
  rw [collected.roots _ (mem_domain.mpr sBound)] at found
  have rootsSame : ∀ other ∈ domain iterators,
      UnionFind.root parent other = UnionFind.root original other := by
    intro other bound
    rw [roots other bound, collected.roots other bound]
  by_cases apart :
      UnionFind.root original (iterators.index node) ≠
        UnionFind.root original (iterators.index s)
  · let ri := UnionFind.root original (iterators.index node)
    let rj := UnionFind.root original (iterators.index s)
    refine
      ⟨(parent,
        { rsucc :=
            Function.update state.2.rsucc ri (insert rj (state.2.rsucc ri))
          rpred :=
            Function.update state.2.rpred rj
              (insert ri (state.2.rpred rj)) }),
        ?_, forest, rootsSame, ?_, ?_⟩
    · simp only [quotientEdge, found, Option.bind_eq_bind,
        Option.bind_some]
      rw [if_pos apart]
      rfl
    · intro ri rj
      simp only [Function.update_apply]
      split
      · rename_i isSource
        rw [Finset.mem_insert, collected.rsucc_iff, joins_or]
        grind
      · rw [collected.rsucc_iff, joins_or]
        grind
    · intro ri rj
      simp only [Function.update_apply]
      split
      · rename_i isTarget
        rw [Finset.mem_insert, collected.rpred_iff, joins_or]
        grind
      · rw [collected.rpred_iff, joins_or]
        grind
  · refine ⟨(parent, state.2), ?_, forest, rootsSame, ?_, ?_⟩
    · simp only [quotientEdge, found, Option.bind_eq_bind,
        Option.bind_some]
      rw [if_neg apart]
      rfl
    · intro ri rj
      rw [collected.rsucc_iff, joins_or]
      grind
    · intro ri rj
      rw [collected.rpred_iff, joins_or]
      grind

private theorem quotient_node {original : Parents}
    {covered : NodeId → NodeId → Prop} {state : Parents × Neighbours}
    (collected : Collected iterators original covered state)
    {i : Nat} (bound : i < iterators.count) :
    ∃ after, quotientNode iterators state i = some after ∧
      Collected iterators original
        (fun first second => covered first second ∨
          (first = iterators.node i ∧
            second ∈ iterators.heap.successors (iterators.node i)))
        after := by
  have member := Iterators.node_mem bound
  obtain ⟨parent, found, forest, roots⟩ := find_spec collected.forest bound
  rw [collected.roots _ (mem_domain.mpr bound)] at found
  obtain ⟨after, ran, final⟩ :=
    Loop.foldlM_invariant
      (quotientEdge iterators (UnionFind.root original i))
      (fun done state =>
        Collected iterators original
          (fun first second => covered first second ∨
            (first = iterators.node i ∧ second ∈ done)) state)
      (iterators.heap.successors (iterators.node i)) (parent, state.2)
      (by
        intro done s rest state split holds
        obtain ⟨after, ran, kept⟩ :=
          quotient_edge valid holds member (s := s) (by simp [split])
        rw [valid.index_node bound] at ran
        refine ⟨after, ran, kept.congr fun first second => ?_⟩
        simp only [List.mem_append, List.mem_singleton]
        tauto)
      { forest := forest
        roots := by
          intro other otherBound
          rw [roots other otherBound, collected.roots other otherBound]
        rsucc_iff := by simpa using collected.rsucc_iff
        rpred_iff := by simpa using collected.rpred_iff }
  refine ⟨after, ?_, final⟩
  simp only [quotientNode, found, Option.bind_eq_bind, Option.bind_some]
  exact ran

/-- The neighbour sets of the quotient by the roots of `parent`. -/
structure Quotient (iterators : Iterators) (parent : Parents)
    (neighbours : Neighbours) : Prop where
  rsucc_iff : ∀ ri rj, rj ∈ neighbours.rsucc ri ↔ ri ≠ rj ∧
    Joins iterators parent (iterators.heap.Link iterators.graph) ri rj
  rpred_iff : ∀ ri rj, ri ∈ neighbours.rpred rj ↔ ri ≠ rj ∧
    Joins iterators parent (iterators.heap.Link iterators.graph) ri rj

theorem quotient_spec {parent : Parents}
    (forest : Forest iterators parent) :
    ∃ parent' neighbours,
      quotient iterators parent = some (parent', neighbours) ∧
      Forest iterators parent' ∧
      (∀ other ∈ domain iterators,
        UnionFind.root parent' other = UnionFind.root parent other) ∧
      Quotient iterators parent neighbours := by
  obtain ⟨⟨parent', neighbours⟩, ran, final⟩ :=
    Loop.foldlM_invariant (quotientNode iterators)
      (fun done state =>
        Collected iterators parent
          (fun first second => ∃ i ∈ done, first = iterators.node i ∧
            second ∈ iterators.heap.successors (iterators.node i)) state)
      (List.range iterators.count)
      (parent, { rpred := fun _ => ∅, rsucc := fun _ => ∅ })
      (by
        intro done i rest state split holds
        have bound : i < iterators.count := by
          rw [← List.mem_range, split]
          simp
        obtain ⟨after, ran, kept⟩ := quotient_node valid holds bound
        refine ⟨after, ran, kept.congr fun first second => ?_⟩
        simp only [List.mem_append, List.mem_singleton]
        constructor
        · rintro ⟨k, earlier | rfl, sources⟩
          · exact Or.inl ⟨k, earlier, sources⟩
          · exact Or.inr sources
        · rintro (⟨k, earlier, sources⟩ | sources)
          · exact ⟨k, Or.inl earlier, sources⟩
          · exact ⟨i, Or.inr rfl, sources⟩)
      { forest := forest
        roots := fun _ _ => rfl
        rsucc_iff := by simp [Joins]
        rpred_iff := by simp [Joins] }
  have coveredIff : ∀ first second,
      (∃ i ∈ List.range iterators.count, first = iterators.node i ∧
        second ∈ iterators.heap.successors (iterators.node i)) ↔
        iterators.heap.Link iterators.graph first second := by
    intro first second
    constructor
    · rintro ⟨i, bound, rfl, edge⟩
      have member := Iterators.node_mem (List.mem_range.mp bound)
      exact ⟨(valid.mem_iff _).mp member, edge⟩
    · rintro ⟨reachable, edge⟩
      have member := (valid.mem_iff first).mpr reachable
      refine
        ⟨iterators.index first,
          List.mem_range.mpr (valid.index_lt member), ?_⟩
      rw [valid.node_index member]
      exact ⟨rfl, edge⟩
  refine ⟨parent', neighbours, ran, final.forest, final.roots, ?_, ?_⟩
  · intro ri rj
    rw [final.rsucc_iff]
    simp only [Joins, coveredIff]
  · intro ri rj
    rw [final.rpred_iff]
    simp only [Joins, coveredIff]

/-! ## Twins -/

section Keys

variable {parent : Parents} {neighbours : Neighbours}

/-- The successor groups of a node are the successor roots of its root. -/
private theorem after_iff (quotient : Quotient iterators parent neighbours)
    {first second : NodeId} (firstMember : first ∈ iterators.nodes)
    (secondMember : second ∈ iterators.nodes) :
    (scene iterators.heap iterators.graph).After (groups iterators parent)
        first second ↔
      UnionFind.root parent (iterators.index second) ∈
        neighbours.rsucc (UnionFind.root parent (iterators.index first)) := by
  rw [quotient.rsucc_iff]
  unfold TwinFold.Scene.After
  rw [groups_iff firstMember secondMember]
  apply and_congr_right
  intro _
  constructor
  · rintro ⟨first', second', near, near', edge⟩
    have firstMember' := (groups_mem near).mp firstMember
    have secondMember' := (groups_mem near').mp secondMember
    exact
      ⟨first', second', edge,
        ((groups_iff firstMember firstMember').mp near).symm,
        ((groups_iff secondMember secondMember').mp near').symm⟩
  · rintro ⟨first', second', edge, near, near'⟩
    have firstMember' := (valid.mem_iff first').mpr edge.1
    have secondMember' := (valid.mem_iff second').mpr edge.reachable
    exact
      ⟨first', second',
        (groups_iff firstMember firstMember').mpr near.symm,
        (groups_iff secondMember secondMember').mpr near'.symm,
        edge⟩

/-- The predecessor groups of a node are the predecessor roots of its root. -/
private theorem before_iff (quotient : Quotient iterators parent neighbours)
    {first second : NodeId} (firstMember : first ∈ iterators.nodes)
    (secondMember : second ∈ iterators.nodes) :
    (scene iterators.heap iterators.graph).reverse.After
        (groups iterators parent) first second ↔
      UnionFind.root parent (iterators.index second) ∈
        neighbours.rpred (UnionFind.root parent (iterators.index first)) := by
  rw [quotient.rpred_iff]
  unfold TwinFold.Scene.After
  rw [groups_iff firstMember secondMember, ne_comm]
  apply and_congr_right
  intro _
  constructor
  · rintro ⟨first', second', near, near', edge⟩
    have firstMember' := (groups_mem near).mp firstMember
    have secondMember' := (groups_mem near').mp secondMember
    exact
      ⟨second', first', edge,
        ((groups_iff secondMember secondMember').mp near').symm,
        ((groups_iff firstMember firstMember').mp near).symm⟩
  · rintro ⟨second', first', edge, near', near⟩
    have firstMember' := (valid.mem_iff first').mpr edge.reachable
    have secondMember' := (valid.mem_iff second').mpr edge.1
    exact
      ⟨first', second',
        (groups_iff firstMember firstMember').mpr near.symm,
        (groups_iff secondMember secondMember').mpr near'.symm,
        edge⟩

omit valid in
/-- No group outside the vector is a neighbour. -/
private theorem not_after_outside (parent : Parents)
    {edge : NodeId → NodeId → Prop}
    (inside : ∀ first second, edge first second → second ∈ iterators.nodes)
    (first : NodeId) {second : NodeId}
    (outside : second ∉ iterators.nodes) :
    ¬ TwinFold.Scene.After
        { scene iterators.heap iterators.graph with edge := edge }
        (groups iterators parent) first second := by
  rintro ⟨-, first', second', -, near, step⟩
  exact
    outside
      ((groups_mem near).mpr (inside first' second' step))

/-- Twins are groups whose roots have the same key. -/
private theorem twins_iff (quotient : Quotient iterators parent neighbours)
    {left right : NodeId} (leftMember : left ∈ iterators.nodes)
    (rightMember : right ∈ iterators.nodes) :
    (scene iterators.heap iterators.graph).Twins (groups iterators parent)
        left right ↔
      ((scene iterators.heap iterators.graph).candidate left ∧
        (scene iterators.heap iterators.graph).candidate right) ∧
      iterators.device left = iterators.device right ∧
      neighbours.rpred (UnionFind.root parent (iterators.index left)) =
        neighbours.rpred (UnionFind.root parent (iterators.index right)) ∧
      neighbours.rsucc (UnionFind.root parent (iterators.index left)) =
        neighbours.rsucc (UnionFind.root parent (iterators.index right)) := by
  constructor
  · intro twins
    refine
      ⟨⟨twins.left_candidate, twins.right_candidate⟩, twins.color_eq,
        ?_, ?_⟩
    · ext root
      constructor
      · intro member
        obtain ⟨-, first, second, edge, rfl, -⟩ :=
          (quotient.rpred_iff _ _).mp member
        have firstMember := (valid.mem_iff first).mpr edge.1
        rw [← before_iff valid quotient rightMember firstMember,
          ← twins.predecessors, before_iff valid quotient leftMember firstMember]
        exact member
      · intro member
        obtain ⟨-, first, second, edge, rfl, -⟩ :=
          (quotient.rpred_iff _ _).mp member
        have firstMember := (valid.mem_iff first).mpr edge.1
        rw [← before_iff valid quotient leftMember firstMember,
          twins.predecessors, before_iff valid quotient rightMember firstMember]
        exact member
    · ext root
      constructor
      · intro member
        obtain ⟨-, first, second, edge, -, rfl⟩ :=
          (quotient.rsucc_iff _ _).mp member
        have secondMember := (valid.mem_iff second).mpr edge.reachable
        rw [← after_iff valid quotient rightMember secondMember,
          ← twins.successors, after_iff valid quotient leftMember secondMember]
        exact member
      · intro member
        obtain ⟨-, first, second, edge, -, rfl⟩ :=
          (quotient.rsucc_iff _ _).mp member
        have secondMember := (valid.mem_iff second).mpr edge.reachable
        rw [← after_iff valid quotient leftMember secondMember,
          twins.successors, after_iff valid quotient rightMember secondMember]
        exact member
  · rintro ⟨⟨leftCandidate, rightCandidate⟩, device, preds, succs⟩
    refine
      { left_candidate := leftCandidate
        right_candidate := rightCandidate
        color_eq := device
        successors := fun other => ?_
        predecessors := fun other => ?_ }
    · by_cases member : other ∈ iterators.nodes
      · rw [after_iff valid quotient leftMember member,
          after_iff valid quotient rightMember member, ← succs]
      · have never := fun first : NodeId =>
          not_after_outside parent
            (fun first second (edge : iterators.heap.Link iterators.graph
              first second) => (valid.mem_iff second).mpr edge.reachable)
            first member
        exact ⟨fun after => (never left after).elim,
          fun after => (never right after).elim⟩
    · by_cases member : other ∈ iterators.nodes
      · rw [before_iff valid quotient leftMember member,
          before_iff valid quotient rightMember member, ← preds]
      · have never := fun first : NodeId =>
          not_after_outside parent
            (fun first second (edge : iterators.heap.Link iterators.graph
              second first) => (valid.mem_iff second).mpr edge.1)
            first member
        exact ⟨fun after => (never left after).elim,
          fun after => (never right after).elim⟩

end Keys

/-! ## A round of twin folding -/

/-- The roots of a union-find array. -/
noncomputable def rootSet (iterators : Iterators) (parent : Parents) :
    Finset Nat :=
  (domain iterators).filter fun i => UnionFind.root parent i = i

omit valid in
private theorem mem_rootSet {parent : Parents} {i : Nat} :
    i ∈ rootSet iterators parent ↔
      i < iterators.count ∧ UnionFind.root parent i = i := by
  rw [rootSet, Finset.mem_filter, mem_domain]

/-- A part of a round, which has treated the indices `done`. -/
private structure Round (iterators : Iterators) (original : Parents)
    (neighbours : Neighbours) (done : List Nat) (state : TwinState) :
    Prop where
  forest : Forest iterators state.parent
  folds : (scene iterators.heap iterators.graph).Folds
    (groups iterators original) (groups iterators state.parent)
  rootSet_subset : rootSet iterators state.parent ⊆ rootSet iterators original
  seen_spec : ∀ entry ∈ state.seen,
    entry.2 ∈ done ∧ cand iterators entry.2 ∧
      entry.2 ∈ rootSet iterators state.parent ∧
        entry.1 = twinKey iterators neighbours entry.2
  seen_inj : ∀ entry ∈ state.seen, ∀ entry' ∈ state.seen,
    entry.1 = entry'.1 → entry = entry'
  changed_lt : state.changed = true →
    rootSet iterators state.parent ⊂ rootSet iterators original
  unchanged : state.changed = false →
    (∀ other ∈ domain iterators,
      UnionFind.root state.parent other = UnionFind.root original other) ∧
    ∀ i ∈ done, cand iterators i → i ∈ rootSet iterators original →
      ∃ entry ∈ state.seen, entry.2 = i

section Rounds

variable {original : Parents} {neighbours : Neighbours}
  {done : List Nat} {state : TwinState}

omit valid in
/-- Skip an index that is no candidate or no root. -/
private theorem Round.skip
    (round : Round iterators original neighbours done state) {i : Nat}
    {parent : Parents} (forest : Forest iterators parent)
    (sameGroups : groups iterators parent = groups iterators state.parent)
    (sameRoots : ∀ other ∈ domain iterators,
      UnionFind.root parent other = UnionFind.root state.parent other)
    (skipped : state.changed = false → cand iterators i →
      i ∉ rootSet iterators original) :
    Round iterators original neighbours (done ++ [i])
      { state with parent := parent } := by
  have sameSet :
      rootSet iterators parent = rootSet iterators state.parent := by
    apply Finset.filter_congr
    intro other bound
    rw [sameRoots other bound]
  refine
    { forest := forest
      folds := by
        rw [sameGroups]
        exact round.folds
      rootSet_subset := by
        rw [sameSet]
        exact round.rootSet_subset
      seen_spec := ?_
      seen_inj := round.seen_inj
      changed_lt := by
        rw [sameSet]
        exact round.changed_lt
      unchanged := ?_ }
  · intro entry member
    obtain ⟨earlier, rest⟩ := round.seen_spec entry member
    rw [sameSet]
    exact ⟨List.mem_append_left _ earlier, rest⟩
  · intro settled
    obtain ⟨roots, all⟩ := round.unchanged settled
    constructor
    · intro other bound
      rw [sameRoots other bound, roots other bound]
    · intro k member isCand isRoot
      rcases List.mem_append.mp member with earlier | isLast
      · exact all k earlier isCand isRoot
      · rw [List.mem_singleton] at isLast
        subst isLast
        exact (skipped settled isCand isRoot).elim

omit valid in
/-- The first root with its key is remembered. -/
private theorem Round.remember
    (round : Round iterators original neighbours done state) {i : Nat}
    (isCand : cand iterators i)
    (isRoot : i ∈ rootSet iterators state.parent)
    (fresh : ∀ entry ∈ state.seen,
      entry.1 ≠ twinKey iterators neighbours i) :
    Round iterators original neighbours (done ++ [i])
      { state with
        seen := state.seen ++ [(twinKey iterators neighbours i, i)] } := by
  refine
    { forest := round.forest
      folds := round.folds
      rootSet_subset := round.rootSet_subset
      seen_spec := ?_
      seen_inj := ?_
      changed_lt := round.changed_lt
      unchanged := ?_ }
  · intro entry member
    rcases List.mem_append.mp member with earlier | isLast
    · obtain ⟨before, rest⟩ := round.seen_spec entry earlier
      exact ⟨List.mem_append_left _ before, rest⟩
    · rw [List.mem_singleton] at isLast
      subst isLast
      exact ⟨by simp, isCand, isRoot, rfl⟩
  · intro entry member entry' member' same
    rcases List.mem_append.mp member with earlier | isLast <;>
      rcases List.mem_append.mp member' with earlier' | isLast'
    · exact round.seen_inj entry earlier entry' earlier' same
    · rw [List.mem_singleton] at isLast'
      subst isLast'
      exact (fresh entry earlier same).elim
    · rw [List.mem_singleton] at isLast
      subst isLast
      exact (fresh entry' earlier' same.symm).elim
    · rw [List.mem_singleton.mp isLast, List.mem_singleton.mp isLast']
  · intro settled
    obtain ⟨roots, all⟩ := round.unchanged settled
    refine ⟨roots, ?_⟩
    intro k member isCand' isRoot'
    rcases List.mem_append.mp member with earlier | isLast
    · obtain ⟨entry, known, same⟩ := all k earlier isCand' isRoot'
      exact ⟨entry, List.mem_append_left _ known, same⟩
    · rw [List.mem_singleton] at isLast
      subst isLast
      exact ⟨_, List.mem_append_right _ (List.mem_singleton.mpr rfl), rfl⟩

/-- A root with the key of an earlier one is folded into it. -/
private theorem Round.fold
    (quotient : Quotient iterators original neighbours)
    (round : Round iterators original neighbours done state) {i first : Nat}
    (isCand : cand iterators i)
    (isRoot : i ∈ rootSet iterators state.parent) (fresh : i ∉ done)
    (seen : (twinKey iterators neighbours i, first) ∈ state.seen)
    {parent : Parents} (forest : Forest iterators parent)
    (joined : groups iterators parent = groups iterators state.parent ⊔
      TwinFold.pair (iterators.node i) (iterators.node first))
    (roots : ∀ other ∈ domain iterators, UnionFind.root parent other =
      if UnionFind.root state.parent other = UnionFind.root state.parent i
      then UnionFind.root state.parent first
      else UnionFind.root state.parent other) :
    Round iterators original neighbours (done ++ [i])
      { state with parent := parent, changed := true } := by
  obtain ⟨firstDone, firstCand, firstRoot, key⟩ := round.seen_spec _ seen
  dsimp only at firstDone firstCand firstRoot key
  have apart : first ≠ i := fun equal => fresh (equal ▸ firstDone)
  have iOriginal := mem_rootSet.mp (round.rootSet_subset isRoot)
  have firstOriginal := mem_rootSet.mp (round.rootSet_subset firstRoot)
  have twins :
      (scene iterators.heap iterators.graph).Twins
        (groups iterators original) (iterators.node i)
        (iterators.node first) := by
    rw [twins_iff valid quotient (Iterators.node_mem iOriginal.1)
      (Iterators.node_mem firstOriginal.1), valid.index_node iOriginal.1,
      valid.index_node firstOriginal.1, iOriginal.2, firstOriginal.2]
    simp only [twinKey, Prod.mk.injEq] at key
    exact
      ⟨⟨(cand_iff valid iOriginal.1).mp isCand,
          (cand_iff valid firstOriginal.1).mp firstCand⟩, key⟩
  have firstFixed := (mem_rootSet.mp firstRoot).2
  rw [(mem_rootSet.mp isRoot).2, firstFixed] at roots
  -- Folding removes exactly one root.
  have erased :
      rootSet iterators parent = (rootSet iterators state.parent).erase i := by
    ext other
    rw [Finset.mem_erase, mem_rootSet, mem_rootSet]
    by_cases bound : other < iterators.count
    · rw [roots other (mem_domain.mpr bound)]
      split <;> grind
    · simp [bound]
  have smaller :
      rootSet iterators parent ⊂ rootSet iterators state.parent := by
    rw [erased]
    exact Finset.erase_ssubset isRoot
  refine
    { forest := forest
      folds := by
        rw [joined]
        exact round.folds.merge twins
      rootSet_subset := smaller.subset.trans round.rootSet_subset
      seen_spec := ?_
      seen_inj := round.seen_inj
      changed_lt := fun _ => smaller.trans_subset round.rootSet_subset
      unchanged := by simp }
  intro entry member
  obtain ⟨earlier, entryCand, entryRoot, entryKey⟩ :=
    round.seen_spec entry member
  refine
    ⟨List.mem_append_left _ earlier, entryCand, ?_, entryKey⟩
  rw [erased, Finset.mem_erase]
  exact ⟨fun equal => fresh (equal ▸ earlier), entryRoot⟩

private theorem fold_twin
    (quotient : Quotient iterators original neighbours)
    (round : Round iterators original neighbours done state) {i : Nat}
    (bound : i < iterators.count) (fresh : i ∉ done) :
    ∃ after, foldTwin iterators neighbours state i = some after ∧
      Round iterators original neighbours (done ++ [i]) after := by
  by_cases isCand : cand iterators i
  swap
  · refine ⟨state, by simp [foldTwin, isCand], ?_⟩
    exact
      round.skip round.forest rfl (fun _ _ => rfl)
        (fun _ candidate => (isCand candidate).elim)
  obtain ⟨parent, found, forest, roots⟩ := find_spec round.forest bound
  have compressed : groups iterators parent = groups iterators state.parent :=
    groups_congr valid roots
  by_cases isRoot : UnionFind.root state.parent i = i
  swap
  · refine ⟨{ state with parent := parent }, ?_, ?_⟩
    · simp [foldTwin, isCand, found, isRoot]
    · apply round.skip forest compressed roots
      intro settled _ inOriginal
      rw [mem_rootSet] at inOriginal
      rw [(round.unchanged settled).1 i (mem_domain.mpr bound)]
        at isRoot
      exact isRoot inOriginal.2
  have current :
      Round iterators original neighbours done
        { state with parent := parent } := by
    have sameSet :
        rootSet iterators parent = rootSet iterators state.parent := by
      apply Finset.filter_congr
      intro other inside
      rw [roots other inside]
    exact
      { forest := forest
        folds := by
          rw [compressed]
          exact round.folds
        rootSet_subset := by
          rw [sameSet]
          exact round.rootSet_subset
        seen_spec := by
          rw [sameSet]
          exact round.seen_spec
        seen_inj := round.seen_inj
        changed_lt := by
          rw [sameSet]
          exact round.changed_lt
        unchanged := by
          intro settled
          obtain ⟨same, all⟩ := round.unchanged settled
          refine ⟨fun other inside => ?_, all⟩
          rw [roots other inside, same other inside] }
  have iRoot : i ∈ rootSet iterators parent := by
    rw [mem_rootSet, roots i (mem_domain.mpr bound)]
    exact ⟨bound, isRoot⟩
  cases lookup : state.seen.find?
      (fun entry => entry.1 = twinKey iterators neighbours i) with
  | none =>
      refine ⟨_, ?_, current.remember isCand iRoot ?_⟩
      · simp [foldTwin, isCand, found, isRoot, lookup]
      · intro entry member same
        have absent := List.find?_eq_none.mp lookup entry member
        exact absent (by simpa using same)
  | some entry =>
      obtain ⟨key, first⟩ := entry
      have member := List.mem_of_find?_eq_some lookup
      have same : key = twinKey iterators neighbours i := by
        simpa using List.find?_some lookup
      subst same
      have firstBound : first < iterators.count :=
        (mem_rootSet.mp (current.seen_spec _ member).2.2.1).1
      obtain ⟨joined, ran, joinedForest, joinedRoots, joinedGroups⟩ :=
        unite_spec valid forest bound firstBound
      refine ⟨{ state with parent := joined, changed := true }, ?_, ?_⟩
      · simp [foldTwin, isCand, found, isRoot, lookup, ran]
      · exact
          Round.fold valid quotient current isCand iRoot fresh member
            joinedForest joinedGroups joinedRoots

end Rounds

/-- The node at the root of a node is on the same island, if it has one. -/
private theorem root_node {parent : Parents}
    (forest : Forest iterators parent)
    (folds : (scene iterators.heap iterators.graph).Folds
      (scene iterators.heap iterators.graph).regions
      (groups iterators parent))
    {node : NodeId} (member : node ∈ iterators.nodes)
    (candidate : (scene iterators.heap iterators.graph).candidate node) :
    UnionFind.root parent (iterators.index node) ∈
        rootSet iterators parent ∧
      cand iterators (UnionFind.root parent (iterators.index node)) ∧
      iterators.device
          (iterators.node (UnionFind.root parent (iterators.index node))) =
        iterators.device node := by
  have inside := mem_domain.mpr (valid.index_lt member)
  have rootInside := mem_domain.mp (forest.root_mem inside)
  have rootMember := Iterators.node_mem rootInside
  have same : groups iterators parent node
      (iterators.node (UnionFind.root parent (iterators.index node))) := by
    rw [groups_iff member rootMember, valid.index_node rootInside,
      forest.root_root inside]
  refine
    ⟨mem_rootSet.mpr ⟨rootInside, forest.root_root inside⟩, ?_⟩
  rw [cand_iff valid rootInside]
  rcases folds.uniform same with equal | ⟨-, rootCandidate, color⟩
  · rw [← equal]
    exact ⟨candidate, rfl⟩
  · exact ⟨rootCandidate, color.symm⟩

/-- A round folds twins; without a change, none were left. -/
theorem foldTwins_spec {parent : Parents} (forest : Forest iterators parent)
    (folds : (scene iterators.heap iterators.graph).Folds
      (scene iterators.heap iterators.graph).regions
      (groups iterators parent)) :
    ∃ state, foldTwins iterators parent = some state ∧
      Forest iterators state.parent ∧
      (scene iterators.heap iterators.graph).Folds
        (scene iterators.heap iterators.graph).regions
        (groups iterators state.parent) ∧
      (state.changed = true →
        (rootSet iterators state.parent).card <
          (rootSet iterators parent).card) ∧
      (state.changed = false →
        (scene iterators.heap iterators.graph).Settled
          (groups iterators state.parent)) := by
  obtain ⟨compressed, neighbours, collected, forest', roots, quotient⟩ :=
    quotient_spec valid forest
  have sameGroups := groups_congr valid roots
  have sameSet : rootSet iterators compressed = rootSet iterators parent := by
    apply Finset.filter_congr
    intro other inside
    rw [roots other inside]
  obtain ⟨state, ran, round⟩ :=
    Loop.foldlM_invariant (foldTwin iterators neighbours)
      (Round iterators parent neighbours) (List.range iterators.count)
      { parent := compressed, seen := [], changed := false }
      (by
        intro done i rest state split holds
        have nodup := List.nodup_range (n := iterators.count)
        rw [split, List.nodup_middle, List.nodup_cons] at nodup
        have bound : i < iterators.count := by
          rw [← List.mem_range, split]
          simp
        exact
          fold_twin valid quotient holds bound
            fun earlier => nodup.1 (List.mem_append_left _ earlier))
      { forest := forest'
        folds := by
          rw [sameGroups]
          exact .refl _
        rootSet_subset := sameSet.subset
        seen_spec := by simp
        seen_inj := by simp
        changed_lt := by simp
        unchanged := fun _ => ⟨roots, by simp⟩ }
  refine
    ⟨state, ?_, round.forest, folds.trans round.folds,
      fun changed => Finset.card_lt_card (round.changed_lt changed), ?_⟩
  · simp only [foldTwins, collected, Option.bind_eq_bind, Option.bind_some]
    exact ran
  intro unchanged left right twins
  obtain ⟨same, all⟩ := round.unchanged unchanged
  rw [groups_congr valid same] at twins ⊢
  have leftMember := (valid.mem_iff left).mpr twins.left_candidate.1
  have rightMember := (valid.mem_iff right).mpr twins.right_candidate.1
  obtain ⟨-, device, preds, succs⟩ :=
    (twins_iff valid quotient leftMember rightMember).mp twins
  obtain ⟨leftRoot, leftCand, leftDevice⟩ :=
    root_node valid forest folds leftMember twins.left_candidate
  obtain ⟨rightRoot, rightCand, rightDevice⟩ :=
    root_node valid forest folds rightMember twins.right_candidate
  rw [groups_iff leftMember rightMember]
  obtain ⟨entry, member, entryEq⟩ :=
    all _ (List.mem_range.mpr (mem_rootSet.mp leftRoot).1) leftCand leftRoot
  obtain ⟨entry', member', entryEq'⟩ :=
    all _ (List.mem_range.mpr (mem_rootSet.mp rightRoot).1) rightCand
      rightRoot
  have keys : entry.1 = entry'.1 := by
    rw [(round.seen_spec entry member).2.2.2,
      (round.seen_spec entry' member').2.2.2, entryEq, entryEq']
    simp only [twinKey, Prod.mk.injEq]
    exact ⟨by rw [leftDevice, device, rightDevice], preds, succs⟩
  rw [← entryEq, ← entryEq',
    round.seen_inj entry member entry' member' keys]

/-- The loop ends, since every changing round removes a root. -/
theorem foldAllTwins_spec (fuel : Nat) {parent : Parents}
    (forest : Forest iterators parent)
    (folds : (scene iterators.heap iterators.graph).Folds
      (scene iterators.heap iterators.graph).regions
      (groups iterators parent))
    (enough : (rootSet iterators parent).card < fuel) :
    ∃ final, foldAllTwins iterators fuel parent = some final ∧
      Forest iterators final ∧
      (scene iterators.heap iterators.graph).Folds
        (scene iterators.heap iterators.graph).regions
        (groups iterators final) ∧
      (scene iterators.heap iterators.graph).Settled
        (groups iterators final) := by
  induction fuel generalizing parent with
  | zero => omega
  | succ fuel induction =>
      obtain ⟨state, ran, forest', folds', fewer, settled⟩ :=
        foldTwins_spec valid forest folds
      simp only [foldAllTwins, ran, Option.bind_eq_bind, Option.bind_some]
      by_cases changed : state.changed = true
      · rw [if_pos changed]
        have less := fewer changed
        exact induction forest' folds' (by omega)
      · rw [if_neg changed]
        exact
          ⟨state.parent, rfl, forest', folds',
            settled (Bool.eq_false_iff.mpr changed)⟩

/-! ## Grouping -/

/-- The indices of the candidates with one root. -/
private noncomputable def memberIndices (iterators : Iterators)
    (parent : Parents) (done : List Nat) (key : Nat) : List Nat :=
  done.filter fun i =>
    cand iterators i && decide (UnionFind.root parent i = key)

omit valid in
private theorem mem_memberIndices {parent : Parents} {done : List Nat}
    {key i : Nat} :
    i ∈ memberIndices iterators parent done key ↔
      i ∈ done ∧ cand iterators i ∧ UnionFind.root parent i = key := by
  simp [memberIndices]

omit valid in
/-- Grouping collects the candidates by their roots. -/
private theorem group_spec {parent : Parents}
    (forest : Forest iterators parent) :
    ∃ islands, group iterators parent = some islands ∧
      islands.keys.Nodup ∧
      (∀ key, key ∈ islands.keys ↔
        memberIndices iterators parent (List.range iterators.count) key ≠
          []) ∧
      ∀ key, islands.members key =
        (memberIndices iterators parent (List.range iterators.count)
          key).map iterators.node := by
  obtain ⟨⟨_, islands⟩, ran, -, -, final⟩ :=
    Loop.foldlM_invariant (groupNode iterators)
      (fun done state =>
        Forest iterators state.1 ∧
        (∀ other ∈ domain iterators,
          UnionFind.root state.1 other = UnionFind.root parent other) ∧
        state.2.keys.Nodup ∧
        (∀ key, key ∈ state.2.keys ↔
          memberIndices iterators parent done key ≠ []) ∧
        ∀ key, state.2.members key =
          (memberIndices iterators parent done key).map iterators.node)
      (List.range iterators.count)
      (parent, { keys := [], members := fun _ => [] })
      (by
        rintro done i rest state split
          ⟨forest, roots, nodup, keys, members⟩
        have bound : i < iterators.count := by
          rw [← List.mem_range, split]
          simp
        have inside := mem_domain.mpr bound
        by_cases isCand : cand iterators i
        swap
        · have same : ∀ key,
              memberIndices iterators parent (done ++ [i]) key =
                memberIndices iterators parent done key := by
            simp [memberIndices, isCand]
          simp only [same]
          exact
            ⟨state, by simp [groupNode, isCand], forest, roots, nodup, keys,
              members⟩
        obtain ⟨parent', found, forest', roots'⟩ := find_spec forest bound
        rw [roots i inside] at found
        refine
          ⟨_, by
            simp only [groupNode, isCand, found, Option.bind_eq_bind,
              Option.bind_some]
            rfl, forest', fun other known => by
              rw [roots' other known, roots other known], ?_, ?_, ?_⟩
        · dsimp only
          split
          · exact nodup
          · rename_i absent
            rw [List.nodup_append]
            refine ⟨nodup, List.nodup_singleton _, ?_⟩
            intro key member other isLast equal
            rw [List.mem_singleton.mp isLast] at equal
            exact absent (equal ▸ member)
        · intro key
          have appended :
              memberIndices iterators parent (done ++ [i]) key ≠ [] ↔
                memberIndices iterators parent done key ≠ [] ∨
                  UnionFind.root parent i = key := by
            by_cases same : UnionFind.root parent i = key
            · simp [memberIndices, isCand, same]
            · simp [memberIndices, same]
          rw [appended, ← keys]
          dsimp only
          split
          · rename_i known
            constructor
            · exact Or.inl
            · rintro (old | rfl)
              · exact old
              · exact known
          · simp [List.mem_append, eq_comm]
        · intro key
          dsimp only
          rw [Function.update_apply]
          split
          · rename_i same
            simp [memberIndices, isCand, same, members]
          · rename_i apart
            simp [memberIndices, Ne.symm apart, members])
      ⟨forest, fun _ _ => rfl, by simp, by simp [memberIndices],
        by simp [memberIndices]⟩
  refine ⟨islands, ?_, final⟩
  simp only [group, ran, Option.bind_eq_bind, Option.bind_some]
  rfl

end Detection

/-! ## The islands -/

/-- The map of islands holds the islands of the scene. -/
structure Detected (heap : Heap) (graph : GraphId) (islands : Islands) :
    Prop where
  keys_nodup : islands.keys.Nodup
  members_nodup : ∀ key, (islands.members key).Nodup
  key_of_mem : ∀ {key node}, node ∈ islands.members key → key ∈ islands.keys
  candidate : ∀ {key node}, node ∈ islands.members key →
    (scene heap graph).candidate node
  covered : ∀ {node}, (scene heap graph).candidate node →
    ∃ key, node ∈ islands.members key
  unique : ∀ {key key' node}, node ∈ islands.members key →
    node ∈ islands.members key' → key = key'
  color_eq : ∀ {key node node'}, node ∈ islands.members key →
    node' ∈ islands.members key →
      (heap.nodes node).deviceUniqueId = (heap.nodes node').deviceUniqueId
  connected : ∀ {key node node'}, node ∈ islands.members key →
    (scene heap graph).candidate node' → heap.Link graph node node' →
      (heap.nodes node).deviceUniqueId = (heap.nodes node').deviceUniqueId →
        node' ∈ islands.members key
  mem_iff : ∀ {key node}, node ∈ islands.members key → ∀ node',
    node' ∈ islands.members key ↔
      (scene heap graph).candidate node' ∧
        (scene heap graph).Island node node'

/-- Detection terminates with the islands of the scene. -/
theorem detect_spec {iterators : Iterators} (valid : iterators.Valid) :
    ∃ islands, detect iterators = some islands ∧
      Detected iterators.heap iterators.graph islands := by
  obtain ⟨flooded, floodRan, floodForest, regions⟩ := flood_spec valid
  obtain ⟨final, foldRan, forest, folds, settled⟩ :=
    foldAllTwins_spec valid (iterators.count + 1) floodForest
      (regions ▸ .refl _)
      (Nat.lt_succ_of_le
        ((Finset.card_filter_le _ _).trans (Finset.card_range _).le))
  obtain ⟨islands, groupRan, nodup, keys, members⟩ := group_spec forest
  have memIff : ∀ {key node}, node ∈ islands.members key ↔
      (scene iterators.heap iterators.graph).candidate node ∧
        UnionFind.root final (iterators.index node) = key := by
    intro key node
    rw [members, List.mem_map]
    constructor
    · rintro ⟨i, member, rfl⟩
      obtain ⟨inRange, isCand, same⟩ := mem_memberIndices.mp member
      have bound := List.mem_range.mp inRange
      rw [valid.index_node bound]
      exact ⟨(cand_iff valid bound).mp isCand, same⟩
    · rintro ⟨candidate, same⟩
      have member := (valid.mem_iff node).mpr candidate.1
      refine ⟨iterators.index node, ?_, valid.node_index member⟩
      exact
        mem_memberIndices.mpr
          ⟨List.mem_range.mpr (valid.index_lt member),
            (cand_index valid member).mpr candidate, same⟩
  have groupIff : ∀ {node node'},
      (scene iterators.heap iterators.graph).candidate node →
      (scene iterators.heap iterators.graph).candidate node' →
        (groups iterators final node node' ↔
          UnionFind.root final (iterators.index node) =
            UnionFind.root final (iterators.index node')) := by
    intro node node' candidate candidate'
    exact
      groups_iff ((valid.mem_iff _).mpr candidate.1)
        ((valid.mem_iff _).mpr candidate'.1)
  refine
    ⟨islands, ?_,
      { keys_nodup := nodup
        members_nodup := ?_
        key_of_mem := ?_
        candidate := fun member => (memIff.mp member).1
        covered := fun candidate => ⟨_, memIff.mpr ⟨candidate, rfl⟩⟩
        unique := fun member member' =>
          (memIff.mp member).2.symm.trans (memIff.mp member').2
        color_eq := ?_
        connected := ?_
        mem_iff := ?_ }⟩
  · simp only [detect, floodRan, foldRan, groupRan, Option.bind_eq_bind,
      Option.bind_some]
  · intro key
    rw [members]
    have inRange : ∀ i ∈ memberIndices iterators final
        (List.range iterators.count) key, i < iterators.count :=
      fun i member => List.mem_range.mp (mem_memberIndices.mp member).1
    refine
      List.Nodup.map_on ?_ (List.Nodup.filter _ List.nodup_range)
    intro i member j member' same
    rw [← valid.index_node (inRange i member), same,
      valid.index_node (inRange j member')]
  · intro key node member
    rw [keys]
    rw [members] at member
    intro empty
    rw [empty] at member
    exact (List.not_mem_nil member).elim
  · intro key node node' member member'
    obtain ⟨candidate, rfl⟩ := memIff.mp member
    obtain ⟨candidate', same⟩ := memIff.mp member'
    rcases folds.uniform ((groupIff candidate candidate').mpr same.symm) with
      equal | ⟨-, -, color⟩
    · rw [equal]
    · exact color
  · intro key node node' member candidate' edge device
    obtain ⟨candidate, rfl⟩ := memIff.mp member
    refine memIff.mpr ⟨candidate', ((groupIff candidate candidate').mp ?_).symm⟩
    exact folds.le (EqvGen.rel _ _ ⟨candidate, candidate', device, edge⟩)
  · intro key node member node'
    obtain ⟨candidate, rfl⟩ := memIff.mp member
    rw [memIff, TwinFold.Scene.island_iff folds settled]
    apply and_congr_right
    intro candidate'
    rw [groupIff candidate candidate', eq_comm]

end Cgir.Pass.Batch
