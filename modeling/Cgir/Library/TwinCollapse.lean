import Cgir.Library.Digraph
import Cgir.Library.TwinFold

/-!
# Collapsing settled groups

Put one vertex in the place of each of some groups of a settled grouping.  When
these vertices are no candidates, the groups that were not collapsed are the
islands of the smaller scene: every fold of twins that stay is a fold of the
smaller scene (`Collapses.folds`), and no new twins appear
(`Collapses.settled`).
-/

namespace Cgir.Library.TwinFold

open Relation

variable {Vertex Color : Type}

/--
The second scene is the first one with some groups of the result replaced by the
vertices that `block` maps their members to.
-/
structure Collapses (scene scene' : Scene Vertex Color)
    (result : Setoid Vertex) (block : Vertex → Vertex) : Prop where
  edge_iff : ∀ source target, scene'.edge source target ↔
    Digraph.Contract scene.edge block source target
  candidate_iff : ∀ vertex, scene'.candidate vertex ↔
    scene.candidate vertex ∧ block vertex = vertex
  color_eq : ∀ vertex, scene'.candidate vertex →
    scene'.color vertex = scene.color vertex
  moved_iff : ∀ first second, block first ≠ first →
    (result first second ↔
      block second ≠ second ∧ block second = block first)
  fresh : ∀ vertex, block vertex ≠ vertex →
    ¬ scene.candidate (block vertex) ∧
      ∀ other, ¬ scene.edge other (block vertex) ∧
        ¬ scene.edge (block vertex) other

/-- A grouping of the vertices that stay. -/
def keep (block : Vertex → Vertex) (groups : Setoid Vertex) :
    Setoid Vertex where
  r := fun first second =>
    first = second ∨
      (groups first second ∧ block first = first ∧ block second = second)
  iseqv := by
    constructor
    · intro vertex
      exact .inl rfl
    · rintro first second (rfl | ⟨related, stays, stays'⟩)
      · exact .inl rfl
      · exact .inr ⟨groups.symm related, stays', stays⟩
    · rintro first second third (rfl | ⟨related, stays, stays'⟩) next
      · exact next
      · rcases next with rfl | ⟨related', -, stays''⟩
        · exact .inr ⟨related, stays, stays'⟩
        · exact .inr ⟨groups.trans related related', stays, stays''⟩

theorem keep_iff (block : Vertex → Vertex) (groups : Setoid Vertex)
    (first second : Vertex) :
    keep block groups first second ↔
      first = second ∨
        (groups first second ∧ block first = first ∧
          block second = second) :=
  Iff.rfl

namespace Collapses

variable {scene scene' : Scene Vertex Color} {result groups : Setoid Vertex}
  {block : Vertex → Vertex}
  (collapses : Collapses scene scene' result block)

include collapses

theorem reverse :
    Collapses scene.reverse scene'.reverse result block where
  edge_iff := by
    intro source target
    refine (collapses.edge_iff target source).trans ?_
    constructor
    · rintro ⟨apart, from', to', step, fromEq, toEq⟩
      exact ⟨apart.symm, to', from', step, toEq, fromEq⟩
    · rintro ⟨apart, from', to', step, fromEq, toEq⟩
      exact ⟨apart.symm, to', from', step, toEq, fromEq⟩
  candidate_iff := collapses.candidate_iff
  color_eq := collapses.color_eq
  moved_iff := collapses.moved_iff
  fresh := fun vertex moved =>
    ⟨(collapses.fresh vertex moved).1, fun other =>
      ((collapses.fresh vertex moved).2 other).symm⟩

/-- A candidate stands for no other vertex. -/
theorem eq_of_candidate {vertex original : Vertex}
    (candidate : scene.candidate vertex) (same : block original = vertex) :
    original = vertex := by
  by_contra apart
  have moved : block original ≠ original := fun self =>
    apart (self.symm.trans same)
  exact (collapses.fresh original moved).1 (same ▸ candidate)

/-- A group stays or is collapsed as a whole. -/
theorem stays_iff {first second : Vertex} (related : result first second) :
    block first = first ↔ block second = second := by
  have oneWay : ∀ {first second}, result first second →
      block second = second → block first = first := by
    intro first second related stays
    by_contra moved
    exact ((collapses.moved_iff first second moved).mp related).1 stays
  exact ⟨oneWay (result.symm related), oneWay related⟩

section Groups

variable (below : groups ≤ result)
  (uniform : ∀ first second, result first second →
    first = second ∨ (scene.candidate first ∧ scene.candidate second))

include below uniform

omit collapses in
/-- A candidate that stays is grouped with candidates that stay. -/
theorem keep_candidate {first second : Vertex}
    (candidate : scene.candidate first) (stays : block first = first)
    (related : keep block groups first second) :
    scene.candidate second ∧ block second = second := by
  rcases related with rfl | ⟨related, -, stays'⟩
  · exact ⟨candidate, stays⟩
  · rcases uniform _ _ (below related) with rfl | ⟨-, candidate'⟩
    · exact ⟨candidate, stays⟩
    · exact ⟨candidate', stays'⟩

omit uniform in
/-- Vertices of one group have one place in the smaller scene. -/
theorem keep_block {first second : Vertex} (related : groups first second) :
    keep block groups (block first) (block second) := by
  by_cases stays : block first = first
  · have stays' := (collapses.stays_iff (below related)).mp stays
    rw [stays, stays']
    exact .inr ⟨related, stays, stays'⟩
  · exact
      .inl
        ((collapses.moved_iff first second stays).mp (below related)).2.symm

/--
The neighbour groups of a candidate that stays are the places of its old
neighbour groups.
-/
theorem after_iff {source : Vertex} (candidate : scene.candidate source)
    (stays : block source = source) (target : Vertex) :
    scene'.After (keep block groups) source target ↔
      ∃ old, scene.After groups source old ∧
        keep block groups target (block old) := by
  constructor
  · rintro ⟨apart, from', to', near, near', edge⟩
    obtain ⟨candidate', stays'⟩ :=
      keep_candidate below uniform candidate stays near
    obtain ⟨-, first, old, step, firstEq, rfl⟩ :=
      (collapses.edge_iff from' to').mp edge
    obtain rfl := collapses.eq_of_candidate candidate' firstEq
    have near'' : groups source first := by
      rcases near with rfl | ⟨related, -⟩
      · exact groups.refl source
      · exact related
    refine ⟨old, ⟨?_, first, old, near'', groups.refl old, step⟩, near'⟩
    intro related
    have lifted :=
      collapses.keep_block below related
    rw [stays] at lifted
    exact
      apart
        ((keep block groups).trans lifted ((keep block groups).symm near'))
  · rintro ⟨old, ⟨apart, from', to', near, near', step⟩, place⟩
    have fromStays := (collapses.stays_iff (below near)).mp stays
    have nearKept : keep block groups source from' :=
      .inr ⟨near, stays, fromStays⟩
    have fromCandidate :=
      (keep_candidate below uniform candidate stays nearKept).1
    -- the place of the neighbour is not in the group of the candidate
    have apart' : ¬ keep block groups source (block old) := by
      intro related
      obtain ⟨isCandidate, -⟩ :=
        keep_candidate below uniform candidate stays related
      have self := collapses.eq_of_candidate isCandidate rfl
      rw [← self] at related
      rcases related with rfl | ⟨related, -⟩
      · exact apart (groups.refl _)
      · exact apart related
    have samePlace := collapses.keep_block below near'
    refine
      ⟨fun related => apart' ((keep block groups).trans related place), from',
        block to', nearKept, (keep block groups).trans place samePlace, ?_⟩
    rw [collapses.edge_iff]
    refine ⟨?_, from', to', step, fromStays, rfl⟩
    intro equal
    apply apart'
    apply (keep block groups).trans nearKept
    rw [equal]
    exact (keep block groups).symm samePlace

/-- Twins that stay are twins in the smaller scene. -/
theorem twins {left right : Vertex} (twins : scene.Twins groups left right)
    (leftStays : block left = left) (rightStays : block right = right) :
    scene'.Twins (keep block groups) left right where
  left_candidate :=
    (collapses.candidate_iff left).mpr ⟨twins.left_candidate, leftStays⟩
  right_candidate :=
    (collapses.candidate_iff right).mpr ⟨twins.right_candidate, rightStays⟩
  color_eq := by
    rw [collapses.color_eq, collapses.color_eq]
    · exact twins.color_eq
    · exact
        (collapses.candidate_iff right).mpr
          ⟨twins.right_candidate, rightStays⟩
    · exact
        (collapses.candidate_iff left).mpr ⟨twins.left_candidate, leftStays⟩
  successors := by
    intro other
    rw [collapses.after_iff below uniform twins.left_candidate leftStays,
      collapses.after_iff below uniform twins.right_candidate rightStays]
    simp only [twins.successors]
  predecessors := by
    intro other
    rw [collapses.reverse.after_iff below uniform twins.left_candidate
        leftStays,
      collapses.reverse.after_iff below uniform twins.right_candidate
        rightStays]
    simp only [twins.predecessors]

end Groups

/-- The regions of the smaller scene are the old regions that stay. -/
theorem regions_eq (below : scene.regions ≤ result) :
    scene'.regions = keep block scene.regions := by
  apply le_antisymm
  · apply Setoid.eqvGen_le
    rintro first second ⟨isCandidate, isCandidate', color, edge⟩
    obtain ⟨candidate, stays⟩ := (collapses.candidate_iff first).mp isCandidate
    obtain ⟨candidate', stays'⟩ :=
      (collapses.candidate_iff second).mp isCandidate'
    obtain ⟨-, from', to', step, fromEq, toEq⟩ :=
      (collapses.edge_iff first second).mp edge
    obtain rfl := collapses.eq_of_candidate candidate fromEq
    obtain rfl := collapses.eq_of_candidate candidate' toEq
    rw [collapses.color_eq _ isCandidate,
      collapses.color_eq _ isCandidate'] at color
    exact
      .inr ⟨EqvGen.rel _ _ ⟨candidate, candidate', color, step⟩, stays, stays'⟩
  · -- along a path of a region every vertex stays or none does
    let lifted : Setoid Vertex := {
      r := fun first second => result first second ∧
        (block first = first → scene'.regions first second)
      iseqv := by
        constructor
        · intro vertex
          exact ⟨result.refl vertex, fun _ => Setoid.refl' _ vertex⟩
        · rintro first second ⟨related, region⟩
          refine ⟨result.symm related, fun stays => ?_⟩
          exact
            Setoid.symm' _
              (region ((collapses.stays_iff related).mpr stays))
        · rintro first second third ⟨related, region⟩ ⟨related', region'⟩
          refine ⟨result.trans related related', fun stays => ?_⟩
          exact
            Setoid.trans' _ (region stays)
              (region' ((collapses.stays_iff related).mp stays)) }
    have lifts : scene.regions ≤ lifted := by
      apply Setoid.eqvGen_le
      rintro first second ⟨candidate, candidate', color, step⟩
      have related : result first second :=
        below (EqvGen.rel _ _ ⟨candidate, candidate', color, step⟩)
      refine ⟨related, fun stays => ?_⟩
      have stays' := (collapses.stays_iff related).mp stays
      have isCandidate := (collapses.candidate_iff first).mpr ⟨candidate, stays⟩
      have isCandidate' :=
        (collapses.candidate_iff second).mpr ⟨candidate', stays'⟩
      by_cases same : first = second
      · exact same ▸ Setoid.refl' _ first
      · apply EqvGen.rel
        refine ⟨isCandidate, isCandidate', ?_, ?_⟩
        · rw [collapses.color_eq _ isCandidate,
            collapses.color_eq _ isCandidate']
          exact color
        · exact
            (collapses.edge_iff first second).mpr
              ⟨same, first, second, step, stays, stays'⟩
    rintro first second (rfl | ⟨region, stays, -⟩)
    · exact Setoid.refl' _ first
    · exact (lifts region).2 stays

omit collapses in
/-- Twins that are collapsed do not matter for the groups that stay. -/
theorem keep_sup_of_moved {left right : Vertex}
    (stays_iff : ∀ first second, (groups ⊔ pair left right) first second →
      (block first = first ↔ block second = second))
    (moved : block left ≠ left) :
    keep block (groups ⊔ pair left right) = keep block groups := by
  have lower : groups ≤ groups ⊔ pair left right := le_sup_left
  apply Setoid.ext
  intro first second
  rw [keep_iff, keep_iff]
  constructor
  · rintro (same | ⟨related, stays, stays'⟩)
    · exact .inl same
    · rcases (sup_pair_iff groups left right first second).mp related with
        old | ⟨toLeft, -⟩ | ⟨-, fromLeft⟩
      · exact .inr ⟨old, stays, stays'⟩
      · exact
          (moved ((stays_iff _ _ (lower toLeft)).mp stays)).elim
      · exact
          (moved ((stays_iff _ _ (lower fromLeft)).mpr stays')).elim
  · rintro (same | ⟨related, stays, stays'⟩)
    · exact .inl same
    · exact .inr ⟨lower related, stays, stays'⟩

omit collapses in
/-- Joining groups that stay. -/
theorem keep_sup_of_stays {left right : Vertex}
    (leftStays : block left = left) (rightStays : block right = right) :
    keep block (groups ⊔ pair left right) =
      keep block groups ⊔ pair left right := by
  apply le_antisymm
  · rintro first second (rfl | ⟨related, stays, stays'⟩)
    · exact Setoid.refl' _ first
    · have lower : keep block groups ≤ keep block groups ⊔ pair left right :=
        le_sup_left
      have joint : (keep block groups ⊔ pair left right) left right :=
        (le_sup_right :
          pair left right ≤ keep block groups ⊔ pair left right)
          (EqvGen.rel _ _ ⟨rfl, rfl⟩)
      rcases (sup_pair_iff groups left right first second).mp related with
        old | ⟨toLeft, fromRight⟩ | ⟨toRight, fromLeft⟩
      · exact lower (.inr ⟨old, stays, stays'⟩)
      · exact
          Setoid.trans' _ (lower (.inr ⟨toLeft, stays, leftStays⟩))
            (Setoid.trans' _ joint
              (lower (.inr ⟨fromRight, rightStays, stays'⟩)))
      · exact
          Setoid.trans' _ (lower (.inr ⟨toRight, stays, rightStays⟩))
            (Setoid.trans' _ (Setoid.symm' _ joint)
              (lower (.inr ⟨fromLeft, leftStays, stays'⟩)))
  · apply sup_le
    · rintro first second (rfl | ⟨related, stays, stays'⟩)
      · exact .inl rfl
      · have lower : groups ≤ groups ⊔ pair left right := le_sup_left
        exact .inr ⟨lower related, stays, stays'⟩
    · have upper : pair left right ≤ groups ⊔ pair left right :=
        le_sup_right
      apply Setoid.eqvGen_le
      rintro _ _ ⟨rfl, rfl⟩
      exact
        .inr ⟨upper (EqvGen.rel _ _ ⟨rfl, rfl⟩), leftStays, rightStays⟩

/-- Every fold of twins that stay is a fold of the smaller scene. -/
theorem folds (folds : scene.Folds groups result)
    (uniform : ∀ first second, result first second →
      first = second ∨ (scene.candidate first ∧ scene.candidate second)) :
    scene'.Folds (keep block groups) (keep block result) := by
  induction folds with
  | refl => exact .refl _
  | @fold groups left right _ twins rest induction =>
      have below := rest.le
      have continued := induction collapses uniform
      have joint : (groups ⊔ pair left right) left right :=
        (le_sup_right : pair left right ≤ groups ⊔ pair left right)
          (EqvGen.rel _ _ ⟨rfl, rfl⟩)
      by_cases leftStays : block left = left
      · have rightStays :=
          (collapses.stays_iff (below joint)).mp leftStays
        rw [keep_sup_of_stays leftStays rightStays] at continued
        exact
          .fold
            (collapses.twins (le_sup_left.trans below) uniform twins leftStays
              rightStays)
            continued
      · rwa [keep_sup_of_moved
          (fun _ _ related => collapses.stays_iff (below related)) leftStays]
          at continued

section Settled

variable
  (uniform : ∀ first second, result first second →
    first = second ∨ (scene.candidate first ∧ scene.candidate second))

include uniform

/-- The place of a collapsed group is the place of no other neighbour. -/
theorem related_of_moved {source first second : Vertex}
    (moved : block first ≠ first)
    (after : scene.After result source second)
    (place : keep block result (block first) (block second)) :
    result first second := by
  obtain ⟨notCandidate, apart⟩ := collapses.fresh first moved
  have alone : ∀ {vertex}, result (block first) vertex →
      block first = vertex := by
    intro vertex related
    exact
      (uniform _ _ related).resolve_right fun both => notCandidate both.1
  have same : block first = block second := by
    rcases place with same | ⟨related, -⟩
    · exact same
    · exact alone related
  rw [collapses.moved_iff first second moved]
  refine ⟨fun stays => ?_, same.symm⟩
  obtain ⟨-, from', to', -, near, step⟩ := after
  rw [← stays, ← same] at near
  rw [← alone near] at step
  exact (apart from').1 step

/-- Neighbours in one place are of one group. -/
theorem related_of_place {source source' first second : Vertex}
    (after : scene.After result source first)
    (after' : scene.After result source' second)
    (place : keep block result (block first) (block second)) :
    result first second := by
  by_cases stays : block first = first
  · by_cases stays' : block second = second
    · rw [stays, stays'] at place
      rcases place with rfl | ⟨related, -⟩
      · exact result.refl first
      · exact related
    · exact
        result.symm
          (collapses.related_of_moved uniform stays' after
            ((keep block result).symm place))
  · exact collapses.related_of_moved uniform stays after' place

/-- Neighbours of one candidate that stays are neighbours of another. -/
theorem after_of_keep {left right : Vertex}
    (leftCandidate : scene.candidate left) (leftStays : block left = left)
    (rightCandidate : scene.candidate right)
    (rightStays : block right = right)
    (included : ∀ other, scene'.After (keep block result) left other →
      scene'.After (keep block result) right other)
    {other : Vertex} (after : scene.After result left other) :
    scene.After result right other := by
  have lifted :=
    (collapses.after_iff le_rfl uniform leftCandidate leftStays
      (block other)).mpr ⟨other, after, (keep block result).refl _⟩
  obtain ⟨old, after', place⟩ :=
    (collapses.after_iff le_rfl uniform rightCandidate rightStays
      (block other)).mp (included (block other) lifted)
  have related := collapses.related_of_place uniform after after' place
  exact (Scene.After.congr_right related).mpr after'

/-- The smaller scene has no new twins. -/
theorem settled (settled : scene.Settled result) :
    scene'.Settled (keep block result) := by
  intro left right twins
  obtain ⟨leftCandidate, leftStays⟩ :=
    (collapses.candidate_iff left).mp twins.left_candidate
  obtain ⟨rightCandidate, rightStays⟩ :=
    (collapses.candidate_iff right).mp twins.right_candidate
  refine .inr ⟨settled left right ?_, leftStays, rightStays⟩
  have color := twins.color_eq
  rw [collapses.color_eq _ twins.left_candidate,
    collapses.color_eq _ twins.right_candidate] at color
  exact {
    left_candidate := leftCandidate
    right_candidate := rightCandidate
    color_eq := color
    successors := fun _ =>
      ⟨collapses.after_of_keep uniform leftCandidate leftStays
          rightCandidate rightStays fun other => (twins.successors other).mp,
        collapses.after_of_keep uniform rightCandidate rightStays
          leftCandidate leftStays fun other => (twins.successors other).mpr⟩
    predecessors := fun _ =>
      ⟨collapses.reverse.after_of_keep uniform leftCandidate leftStays
          rightCandidate rightStays fun other =>
            (twins.predecessors other).mp,
        collapses.reverse.after_of_keep uniform rightCandidate rightStays
          leftCandidate leftStays fun other =>
            (twins.predecessors other).mpr⟩ }

end Settled

/-- The islands of the smaller scene are the islands that stay. -/
theorem island_iff (folds : scene.Folds scene.regions result)
    (settled : scene.Settled result) (first second : Vertex) :
    scene'.Island first second ↔ keep block result first second := by
  have uniform : ∀ first second, result first second →
      first = second ∨
        (scene.candidate first ∧ scene.candidate second) := by
    intro first second related
    exact
      (folds.uniform related).imp_right fun both => ⟨both.1, both.2.1⟩
  have folds' := collapses.folds folds uniform
  rw [← collapses.regions_eq folds.le] at folds'
  exact
    Scene.island_iff folds' (collapses.settled uniform settled) first second

end Collapses

end Cgir.Library.TwinFold
