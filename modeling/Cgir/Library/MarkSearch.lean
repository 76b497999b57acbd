import Mathlib.Logic.Relation
import Mathlib.Data.Finset.Card
import Mathlib.Data.Finset.Filter
import Mathlib.Data.List.Nodup

/-!
# Graph search over persistent marks

Depth-first and breadth-first search on a graph given by successor lists.
Every vertex carries a mark; a search writes its own identifier into the mark
of each vertex it discovers and skips the vertices that already carry it.  The
marks survive the search, so a later search starts from whatever marks the
earlier ones left behind.

The main result is `sweep_walk`: a search returns, reports each vertex at most
once, reports only vertices reachable from its start, and leaves no edge from
a reported vertex to one that is neither reported nor stale.  A search is
complete exactly when no vertex reachable from the start is stale
(`Sweep.complete_iff`).
-/

namespace Cgir.Library.MarkSearch

open Relation

variable {Vertex Mark : Type}

/-- The edge relation of a successor function. -/
def Edge (succ : Vertex → List Vertex) (source target : Vertex) : Prop :=
  target ∈ succ source

/-- Reachability along zero or more edges. -/
abbrev Reach (succ : Vertex → List Vertex) : Vertex → Vertex → Prop :=
  ReflTransGen (Edge succ)

/-- Whether a depth-first search reports a vertex before or after its successors. -/
inductive Order where
  | pre
  | post
  deriving DecidableEq, Repr

/-- The marks of all vertices and the vertices reported so far. -/
structure State (Vertex Mark : Type) where
  mark : Vertex → Mark
  visited : List Vertex

namespace State

/-- Report one vertex. -/
def report (state : State Vertex Mark) (vertex : Vertex) :
    State Vertex Mark :=
  { state with visited := state.visited ++ [vertex] }

/-- Write `id` into the mark of one vertex. -/
def setMark [DecidableEq Vertex] (state : State Vertex Mark) (vertex : Vertex) (id : Mark) :
    State Vertex Mark :=
  { state with mark := Function.update state.mark vertex id }

@[simp]
theorem report_mark (state : State Vertex Mark) (vertex : Vertex) :
    (state.report vertex).mark = state.mark :=
  rfl

@[simp]
theorem report_visited (state : State Vertex Mark) (vertex : Vertex) :
    (state.report vertex).visited = state.visited ++ [vertex] :=
  rfl

@[simp]
theorem setMark_visited [DecidableEq Vertex]
    (state : State Vertex Mark) (vertex : Vertex) (id : Mark) :
    (state.setMark vertex id).visited = state.visited :=
  rfl

theorem setMark_mark [DecidableEq Vertex]
    (state : State Vertex Mark) (vertex other : Vertex) (id : Mark) :
    (state.setMark vertex id).mark other =
      if other = vertex then id else state.mark other := by
  simp [setMark, Function.update_apply]

end State

/-! ## The two searches -/

variable [DecidableEq Vertex]

section Searches

variable [DecidableEq Mark]

/-- Descend into `next` with `descend` unless it already carries `id`. -/
def discover
    (id : Mark)
    (descend : Vertex → State Vertex Mark → Option (State Vertex Mark))
    (state : State Vertex Mark) (next : Vertex) :
    Option (State Vertex Mark) :=
  if state.mark next = id then
    some state
  else
    descend next (state.setMark next id)

/-- Depth-first search below a vertex that already carries `id`. -/
def reach (succ : Vertex → List Vertex) (id : Mark) (order : Order) :
    Nat → Vertex → State Vertex Mark → Option (State Vertex Mark)
  | 0, _, _ => none
  | depth + 1, vertex, state => do
      let entered := if order = .pre then state.report vertex else state
      let below ←
        (succ vertex).foldlM (discover id (reach succ id order depth)) entered
      return if order = .post then below.report vertex else below

/-- Mark the unmarked successors of a vertex and append them to the queue. -/
def enqueue (id : Mark)
    (frontier : State Vertex Mark × List Vertex) (next : Vertex) :
    State Vertex Mark × List Vertex :=
  if frontier.1.mark next = id then
    frontier
  else
    (frontier.1.setMark next id, frontier.2 ++ [next])

/-- Breadth-first search: report the head of the queue until it is empty. -/
def drain (succ : Vertex → List Vertex) (id : Mark) :
    Nat → List Vertex → State Vertex Mark → Option (State Vertex Mark)
  | 0, _, _ => none
  | _ + 1, [], state => some state
  | fuel + 1, vertex :: queue, state =>
      let frontier :=
        (succ vertex).foldl (enqueue id) (state.report vertex, queue)
      drain succ id fuel frontier.2 frontier.1

/-- The kinds of search: depth-first in either order, or breadth-first. -/
inductive Kind where
  | dfs (order : Order)
  | bfs
  deriving DecidableEq, Repr

/-- Search from `start` with identifier `id`, from the given marks. -/
def walk (succ : Vertex → List Vertex) (id : Mark) (kind : Kind)
    (fuel : Nat) (mark : Vertex → Mark) (start : Vertex) :
    Option (State Vertex Mark) :=
  let state : State Vertex Mark := ⟨Function.update mark start id, []⟩
  match kind with
  | .dfs order => reach succ id order fuel start state
  | .bfs => drain succ id fuel [start] state

end Searches

/-! ## What a part of a search adds -/

/--
`found` is what a part of a search reports between two states: new vertices,
each once, all marked afterwards and with only marked successors.
-/
structure Explored
    (succ : Vertex → List Vertex) (id : Mark)
    (before after : State Vertex Mark) (found : List Vertex) : Prop where
  visited_eq : after.visited = before.visited ++ found
  nodup : found.Nodup
  mark_eq :
    ∀ vertex, after.mark vertex =
      if vertex ∈ found then id else before.mark vertex
  closed :
    ∀ vertex ∈ found, ∀ next ∈ succ vertex, after.mark next = id

namespace Explored

variable {succ : Vertex → List Vertex} {id : Mark}
  {before middle after : State Vertex Mark} {first second : List Vertex}

theorem refl (succ : Vertex → List Vertex) (id : Mark)
    (state : State Vertex Mark) :
    Explored succ id state state [] where
  visited_eq := by simp
  nodup := List.nodup_nil
  mark_eq := by simp
  closed := by simp

/-- A mark that equals `id` keeps doing so. -/
theorem mark_mono
    (explored : Explored succ id before after first)
    {vertex : Vertex} (marked : before.mark vertex = id) :
    after.mark vertex = id := by
  rw [explored.mark_eq]
  split
  · rfl
  · exact marked

/-- Two parts in a row, the second reporting only vertices still unmarked. -/
theorem trans
    (left : Explored succ id before middle first)
    (right : Explored succ id middle after second)
    (fresh : ∀ vertex ∈ second, middle.mark vertex ≠ id) :
    Explored succ id before after (first ++ second) where
  visited_eq := by
    rw [right.visited_eq, left.visited_eq, List.append_assoc]
  nodup := by
    refine List.nodup_append.mpr ⟨left.nodup, right.nodup, ?_⟩
    intro vertex leftMember other rightMember equal
    subst equal
    refine fresh vertex rightMember ?_
    rw [left.mark_eq, if_pos leftMember]
  mark_eq := by
    intro vertex
    rw [right.mark_eq, left.mark_eq]
    by_cases inSecond : vertex ∈ second <;>
      by_cases inFirst : vertex ∈ first <;>
        simp [inSecond, inFirst]
  closed := by
    intro vertex member next edge
    rcases List.mem_append.mp member with inFirst | inSecond
    · exact right.mark_mono (left.closed vertex inFirst next edge)
    · exact right.closed vertex inSecond next edge

end Explored

/--
The specification of a depth-first descent: from a state in which `vertex`
already carries `id`, it reports `vertex` and otherwise only unmarked vertices
reachable from it.
-/
structure Descended
    (succ : Vertex → List Vertex) (id : Mark) (vertex : Vertex)
    (before after : State Vertex Mark) (found : List Vertex) : Prop
    extends Explored succ id before after found where
  root_mem : vertex ∈ found
  fresh : ∀ other ∈ found, other ≠ vertex → before.mark other ≠ id
  sound : ∀ other ∈ found, Reach succ vertex other

/-- The specification of a scan of a successor list. -/
structure Scanned
    (succ : Vertex → List Vertex) (id : Mark) (list : List Vertex)
    (before after : State Vertex Mark) (found : List Vertex) : Prop
    extends Explored succ id before after found where
  marked : ∀ vertex ∈ list, after.mark vertex = id
  fresh : ∀ vertex ∈ found, before.mark vertex ≠ id
  sound : ∀ vertex ∈ found, ∃ root ∈ list, Reach succ root vertex

section DepthFirst

variable {succ : Vertex → List Vertex} {id : Mark}
  {before after : State Vertex Mark}

/-- Reporting a marked vertex before or after a scan of its successors. -/
private theorem descended_of_scanned
    {vertex : Vertex} {found : List Vertex}
    (rootMarked : before.mark vertex = id)
    (scanned : Scanned succ id (succ vertex) before after found)
    {reported : List Vertex} {first last : State Vertex Mark}
    (firstMark : first.mark = before.mark)
    (lastMark : last.mark = after.mark)
    (permuted : reported.Perm (vertex :: found))
    (visitedEq : last.visited = first.visited ++ reported) :
    Descended succ id vertex first last reported := by
  have rootFresh : vertex ∉ found :=
    fun member => scanned.fresh vertex member rootMarked
  have memberIff :
      ∀ other, other ∈ reported ↔ other = vertex ∨ other ∈ found := by
    intro other
    rw [permuted.mem_iff, List.mem_cons]
  exact {
    visited_eq := visitedEq
    nodup :=
      permuted.nodup_iff.mpr
        (List.nodup_cons.mpr ⟨rootFresh, scanned.nodup⟩)
    mark_eq := by
      intro other
      rw [lastMark, scanned.mark_eq, firstMark]
      by_cases isRoot : other = vertex
      · subst isRoot
        simp [memberIff, rootMarked]
      · simp [memberIff, isRoot]
    closed := by
      intro other member next edge
      rw [lastMark]
      rcases (memberIff other).mp member with isRoot | inFound
      · subst isRoot
        exact scanned.marked next edge
      · exact scanned.closed other inFound next edge
    root_mem := (memberIff vertex).mpr (Or.inl rfl)
    fresh := by
      intro other member notRoot
      rw [firstMark]
      rcases (memberIff other).mp member with isRoot | inFound
      · exact (notRoot isRoot).elim
      · exact scanned.fresh other inFound
    sound := by
      intro other member
      rcases (memberIff other).mp member with isRoot | inFound
      · rw [isRoot]
      · obtain ⟨root, edge, path⟩ := scanned.sound other inFound
        exact ReflTransGen.head edge path }

variable [DecidableEq Mark]

/-- One discovery, given that the descent meets its specification. -/
theorem discover_spec
    {descend : Vertex → State Vertex Mark → Option (State Vertex Mark)}
    (descends :
      ∀ vertex state result, state.mark vertex = id →
        descend vertex state = some result →
          ∃ found, Descended succ id vertex state result found)
    {next : Vertex}
    (ran : discover id descend before next = some after) :
    ∃ found, Scanned succ id [next] before after found := by
  unfold discover at ran
  split at ran
  · rename_i stale
    cases ran
    exact
      ⟨[], {
        toExplored := Explored.refl succ id before
        marked := by simpa using stale
        fresh := by simp
        sound := by simp }⟩
  · rename_i unmarked
    obtain ⟨found, spec⟩ :=
      descends next _ _ (by simp [State.setMark_mark]) ran
    have freshFound :
        ∀ vertex ∈ found, before.mark vertex ≠ id := by
      intro vertex member
      by_cases isNext : vertex = next
      · subst isNext
        exact unmarked
      · simpa [State.setMark_mark, isNext] using
          spec.fresh vertex member isNext
    refine ⟨found, {
      visited_eq := by simpa using spec.visited_eq
      nodup := spec.nodup
      mark_eq := ?_
      closed := spec.closed
      marked := ?_
      fresh := freshFound
      sound := fun vertex member =>
        ⟨next, by simp, spec.sound vertex member⟩ }⟩
    · intro vertex
      rw [spec.mark_eq, State.setMark_mark]
      by_cases member : vertex ∈ found
      · simp [member]
      · have notNext : vertex ≠ next :=
          fun equal => member (equal ▸ spec.root_mem)
        simp [member, notNext]
    · intro vertex member
      rw [List.mem_singleton] at member
      subst member
      rw [spec.mark_eq, if_pos spec.root_mem]

/-- A scan of a list is the composition of its discoveries. -/
theorem scan_spec
    {descend : Vertex → State Vertex Mark → Option (State Vertex Mark)}
    (descends :
      ∀ vertex state result, state.mark vertex = id →
        descend vertex state = some result →
          ∃ found, Descended succ id vertex state result found)
    (list : List Vertex) :
    ∀ {before after : State Vertex Mark},
      list.foldlM (discover id descend) before = some after →
        ∃ found, Scanned succ id list before after found := by
  induction list with
  | nil =>
      intro before after ran
      cases ran
      exact
        ⟨[], {
          toExplored := Explored.refl succ id before
          marked := by simp
          fresh := by simp
          sound := by simp }⟩
  | cons next rest induction =>
      intro before after ran
      rw [List.foldlM_cons] at ran
      obtain ⟨middle, headRan, tailRan⟩ := Option.bind_eq_some_iff.mp ran
      obtain ⟨first, head⟩ := discover_spec descends headRan
      obtain ⟨second, tail⟩ := induction tailRan
      refine ⟨first ++ second, {
        toExplored :=
          head.toExplored.trans tail.toExplored tail.fresh
        marked := ?_
        fresh := ?_
        sound := ?_ }⟩
      · intro vertex member
        rcases List.mem_cons.mp member with equal | inRest
        · exact
            tail.toExplored.mark_mono
              (head.marked vertex (by simp [equal]))
        · exact tail.marked vertex inRest
      · intro vertex member
        rcases List.mem_append.mp member with inFirst | inSecond
        · exact head.fresh vertex inFirst
        · intro stale
          exact
            tail.fresh vertex inSecond (head.toExplored.mark_mono stale)
      · intro vertex member
        rcases List.mem_append.mp member with inFirst | inSecond
        · obtain ⟨root, rootMember, path⟩ := head.sound vertex inFirst
          exact
            ⟨root, by simpa using Or.inl (List.mem_singleton.mp rootMember),
              path⟩
        · obtain ⟨root, rootMember, path⟩ := tail.sound vertex inSecond
          exact ⟨root, List.mem_cons_of_mem next rootMember, path⟩

/-- Every depth-first descent meets its specification. -/
theorem reach_spec (succ : Vertex → List Vertex) (id : Mark) (order : Order)
    (depth : Nat) :
    ∀ vertex state result, state.mark vertex = id →
      reach succ id order depth vertex state = some result →
        ∃ found, Descended succ id vertex state result found := by
  induction depth with
  | zero =>
      intro vertex state result _ ran
      simp [reach] at ran
  | succ depth induction =>
      intro vertex state result rootMarked ran
      simp only [reach] at ran
      obtain ⟨below, scanRan, resultEq⟩ := Option.bind_eq_some_iff.mp ran
      obtain ⟨found, scanned⟩ := scan_spec induction _ scanRan
      cases order with
      | pre =>
          simp only [if_true, reduceCtorEq, if_false, Option.pure_def,
            Option.some.injEq] at resultEq scanned
          subst resultEq
          have entered : (state.report vertex).mark vertex = id :=
            rootMarked
          refine
            ⟨vertex :: found,
              descended_of_scanned entered scanned rfl rfl
                (List.Perm.refl _) ?_⟩
          rw [scanned.visited_eq]
          simp
      | post =>
          simp only [if_true, reduceCtorEq, if_false, Option.pure_def,
            Option.some.injEq] at resultEq scanned
          subst resultEq
          refine
            ⟨found ++ [vertex],
              descended_of_scanned rootMarked scanned rfl rfl
                (List.perm_append_singleton vertex found) ?_⟩
          simp [scanned.visited_eq]

end DepthFirst

/-! ## Breadth-first search -/

/--
The state of a breadth-first search: `found` has been reported, `queue` is
discovered but not reported, and every successor of `settled` is discovered.
-/
structure Frontier
    (succ : Vertex → List Vertex) (id : Mark) (start : Vertex)
    (before : State Vertex Mark) (found settled : List Vertex)
    (frontier : State Vertex Mark × List Vertex) : Prop where
  visited_eq : frontier.1.visited = before.visited ++ found
  nodup : (found ++ frontier.2).Nodup
  mark_eq :
    ∀ vertex, frontier.1.mark vertex =
      if vertex ∈ found ++ frontier.2 then id else before.mark vertex
  closed :
    ∀ vertex ∈ settled, ∀ next ∈ succ vertex,
      frontier.1.mark next = id
  root_mem : start ∈ found ++ frontier.2
  fresh :
    ∀ vertex ∈ found ++ frontier.2, vertex ≠ start →
      before.mark vertex ≠ id
  sound : ∀ vertex ∈ found ++ frontier.2, Reach succ start vertex

section BreadthFirst

variable [DecidableEq Mark]
  {succ : Vertex → List Vertex} {id : Mark} {start : Vertex}
  {before : State Vertex Mark} {found settled : List Vertex}

/-- Discovering one reachable vertex keeps the state and marks the vertex. -/
theorem Frontier.enqueue
    {frontier : State Vertex Mark × List Vertex}
    (holds : Frontier succ id start before found settled frontier)
    {next : Vertex} (path : Reach succ start next) :
    Frontier succ id start before found settled
        (MarkSearch.enqueue id frontier next) ∧
      (MarkSearch.enqueue id frontier next).1.mark next = id ∧
      ∀ vertex, frontier.1.mark vertex = id →
        (MarkSearch.enqueue id frontier next).1.mark vertex = id := by
  unfold MarkSearch.enqueue
  split
  · rename_i stale
    exact ⟨holds, stale, fun _ marked => marked⟩
  · rename_i unmarked
    have nextFresh : next ∉ found ++ frontier.2 := by
      intro member
      exact unmarked (by rw [holds.mark_eq, if_pos member])
    have nextUnmarked : before.mark next ≠ id := by
      rw [holds.mark_eq, if_neg nextFresh] at unmarked
      exact unmarked
    have markMono :
        ∀ vertex, frontier.1.mark vertex = id →
          (frontier.1.setMark next id).mark vertex = id := by
      intro vertex marked
      rw [State.setMark_mark]
      split
      · rfl
      · exact marked
    have memberIff :
        ∀ vertex, vertex ∈ found ++ (frontier.2 ++ [next]) ↔
          vertex ∈ found ++ frontier.2 ∨ vertex = next := by
      intro vertex
      simp [or_assoc]
    refine ⟨?_, by simp [State.setMark_mark], markMono⟩
    exact {
      visited_eq := holds.visited_eq
      nodup := by
        rw [← List.append_assoc]
        refine List.nodup_append.mpr
          ⟨holds.nodup, List.nodup_singleton next, ?_⟩
        intro vertex member other otherMember equal
        rw [List.mem_singleton] at otherMember
        exact nextFresh (otherMember ▸ equal ▸ member)
      mark_eq := by
        intro vertex
        rw [State.setMark_mark, holds.mark_eq]
        by_cases isNext : vertex = next
        · simp [isNext]
        · rw [if_neg isNext]
          simp only [memberIff, isNext, or_false]
      closed := fun vertex member other edge =>
        markMono other (holds.closed vertex member other edge)
      root_mem := (memberIff start).mpr (Or.inl holds.root_mem)
      fresh := by
        intro vertex member notStart
        rcases (memberIff vertex).mp member with old | isNext
        · exact holds.fresh vertex old notStart
        · exact isNext ▸ nextUnmarked
      sound := by
        intro vertex member
        rcases (memberIff vertex).mp member with old | isNext
        · exact holds.sound vertex old
        · exact isNext ▸ path }

/-- Discovering a list of reachable vertices marks all of them. -/
theorem Frontier.enqueueAll
    (list : List Vertex) (paths : ∀ next ∈ list, Reach succ start next) :
    ∀ {frontier : State Vertex Mark × List Vertex},
      Frontier succ id start before found settled frontier →
        Frontier succ id start before found settled
            (list.foldl (MarkSearch.enqueue id) frontier) ∧
          (∀ next ∈ list,
            (list.foldl (MarkSearch.enqueue id) frontier).1.mark next = id) ∧
          ∀ vertex, frontier.1.mark vertex = id →
            (list.foldl (MarkSearch.enqueue id) frontier).1.mark vertex = id := by
  induction list with
  | nil =>
      intro frontier holds
      exact ⟨holds, by simp, fun _ marked => marked⟩
  | cons next rest induction =>
      intro frontier holds
      obtain ⟨headHolds, headMarked, headMono⟩ :=
        holds.enqueue (paths next (by simp))
      obtain ⟨tailHolds, tailMarked, tailMono⟩ :=
        induction
          (fun other member => paths other (List.mem_cons_of_mem next member))
          headHolds
      refine ⟨tailHolds, ?_, fun vertex marked =>
        tailMono vertex (headMono vertex marked)⟩
      intro other member
      rcases List.mem_cons.mp member with isNext | inRest
      · exact isNext ▸ tailMono next headMarked
      · exact tailMarked other inRest

/-- Reporting the head of the queue and discovering its successors. -/
theorem Frontier.step
    {state : State Vertex Mark} {vertex : Vertex} {queue : List Vertex}
    (holds :
      Frontier succ id start before found found (state, vertex :: queue)) :
    Frontier succ id start before (found ++ [vertex]) (found ++ [vertex])
      ((succ vertex).foldl (MarkSearch.enqueue id)
        (state.report vertex, queue)) := by
  have reported :
      Frontier succ id start before (found ++ [vertex]) found
        (state.report vertex, queue) := by
    have same : (found ++ [vertex]) ++ queue = found ++ vertex :: queue := by
      simp
    exact {
      visited_eq := by
        have visitedEq : state.visited = before.visited ++ found :=
          holds.visited_eq
        simp [visitedEq]
      nodup := by
        rw [same]
        exact holds.nodup
      mark_eq := by
        rw [same]
        exact holds.mark_eq
      closed := holds.closed
      root_mem := by
        rw [same]
        exact holds.root_mem
      fresh := by
        rw [same]
        exact holds.fresh
      sound := by
        rw [same]
        exact holds.sound }
  have vertexPath : Reach succ start vertex :=
    holds.sound vertex (by simp)
  obtain ⟨extended, marked, -⟩ :=
    Frontier.enqueueAll (succ vertex)
      (fun next edge => vertexPath.tail edge) reported
  exact { extended with
    closed := by
      intro other member next edge
      rcases List.mem_append.mp member with old | isVertex
      · exact extended.closed other old next edge
      · rw [List.mem_singleton.mp isVertex] at edge
        exact marked next edge }

/-- A breadth-first search that returns meets the specification of a descent. -/
theorem drain_spec (fuel : Nat) :
    ∀ {found queue : List Vertex} {state result : State Vertex Mark},
      Frontier succ id start before found found (state, queue) →
        drain succ id fuel queue state = some result →
          ∃ reported, Descended succ id start before result reported := by
  induction fuel with
  | zero =>
      intro found queue state result _ ran
      simp [drain] at ran
  | succ fuel induction =>
      intro found queue state result holds ran
      cases queue with
      | nil =>
          simp only [drain, Option.some.injEq] at ran
          subst ran
          refine ⟨found, {
            visited_eq := holds.visited_eq
            nodup := by simpa using holds.nodup
            mark_eq := by simpa using holds.mark_eq
            closed := holds.closed
            root_mem := by simpa using holds.root_mem
            fresh := by simpa using holds.fresh
            sound := by simpa using holds.sound }⟩
      | cons vertex queue =>
          exact induction holds.step ran

end BreadthFirst

/-! ## Every search returns -/

section Returns

variable [DecidableEq Mark] {succ : Vertex → List Vertex} {id : Mark}

/-- The number of vertices of a finite domain that do not carry `id`. -/
def unmarked (domain : Finset Vertex) (id : Mark)
    (mark : Vertex → Mark) : Nat :=
  (domain.filter fun vertex => mark vertex ≠ id).card

omit [DecidableEq Vertex] in
theorem unmarked_mono (domain : Finset Vertex)
    {mark mark' : Vertex → Mark}
    (mono : ∀ vertex, mark vertex = id → mark' vertex = id) :
    unmarked domain id mark' ≤ unmarked domain id mark := by
  refine Finset.card_le_card fun vertex member => ?_
  rw [Finset.mem_filter] at member ⊢
  exact ⟨member.1, fun marked => member.2 (mono vertex marked)⟩

theorem unmarked_setMark_lt {domain : Finset Vertex}
    {state : State Vertex Mark} {vertex : Vertex}
    (member : vertex ∈ domain) (fresh : state.mark vertex ≠ id) :
    unmarked domain id (state.setMark vertex id).mark <
      unmarked domain id state.mark := by
  refine Finset.card_lt_card ⟨?_, ?_⟩
  · intro other otherMember
    rw [Finset.mem_filter, State.setMark_mark] at otherMember
    rw [Finset.mem_filter]
    refine ⟨otherMember.1, fun marked => otherMember.2 ?_⟩
    split
    · rfl
    · exact marked
  · intro subset
    have inAfter :=
      subset (Finset.mem_filter.mpr ⟨member, fresh⟩)
    rw [Finset.mem_filter, State.setMark_mark, if_pos rfl] at inAfter
    exact inAfter.2 rfl

variable {domain : Finset Vertex}
  (closed : ∀ vertex ∈ domain, ∀ next ∈ succ vertex, next ∈ domain)
include closed

/-- A depth of more than the number of unmarked vertices is never exhausted. -/
theorem reach_returns (order : Order) (depth : Nat) :
    ∀ vertex ∈ domain, ∀ state : State Vertex Mark,
      state.mark vertex = id →
        unmarked domain id state.mark < depth →
          ∃ result, reach succ id order depth vertex state = some result := by
  induction depth with
  | zero =>
      intro vertex _ state _ bound
      exact (Nat.not_lt_zero _ bound).elim
  | succ depth induction =>
      have scanReturns :
          ∀ list : List Vertex, (∀ next ∈ list, next ∈ domain) →
            ∀ state : State Vertex Mark,
              unmarked domain id state.mark ≤ depth →
                ∃ result,
                  list.foldlM
                    (discover id (reach succ id order depth)) state =
                      some result := by
        intro list
        induction list with
        | nil => exact fun _ state _ => ⟨state, rfl⟩
        | cons next rest restInduction =>
            intro inDomain state bound
            have headReturns :
                ∃ middle,
                  discover id (reach succ id order depth) state next =
                    some middle := by
              unfold discover
              split
              · exact ⟨state, rfl⟩
              · rename_i fresh
                refine induction next (inDomain next (by simp)) _
                  (by simp [State.setMark_mark]) ?_
                exact
                  (unmarked_setMark_lt
                    (inDomain next (by simp)) fresh).trans_le bound
            obtain ⟨middle, headRan⟩ := headReturns
            obtain ⟨found, head⟩ :=
              discover_spec (reach_spec succ id order depth) headRan
            obtain ⟨result, tailRan⟩ :=
              restInduction
                (fun other member =>
                  inDomain other (List.mem_cons_of_mem next member))
                middle
                ((unmarked_mono domain
                  fun _ marked => head.toExplored.mark_mono marked).trans
                    bound)
            refine ⟨result, ?_⟩
            rw [List.foldlM_cons, headRan]
            exact tailRan
      intro vertex member state _ bound
      obtain ⟨below, scanRan⟩ :=
        scanReturns (succ vertex) (closed vertex member)
          (if order = .pre then state.report vertex else state)
          (by
            have sameMark :
                (if order = .pre then state.report vertex
                  else state).mark = state.mark := by
              split <;> rfl
            rw [sameMark]
            exact Nat.lt_succ_iff.mp bound)
      refine ⟨if order = .post then below.report vertex else below, ?_⟩
      rw [reach, scanRan]
      rfl

omit closed in
/-- Each discovery moves one vertex from the unmarked ones to the queue. -/
private theorem enqueueAll_measure (id : Mark)
    (list : List Vertex) (inDomain : ∀ next ∈ list, next ∈ domain) :
    ∀ frontier : State Vertex Mark × List Vertex,
      unmarked domain id (list.foldl (enqueue id) frontier).1.mark +
          (list.foldl (enqueue id) frontier).2.length ≤
        unmarked domain id frontier.1.mark + frontier.2.length := by
  induction list with
  | nil => exact fun _ => le_rfl
  | cons next rest induction =>
      intro frontier
      refine
        (induction
          (fun other member =>
            inDomain other (List.mem_cons_of_mem next member))
          (enqueue id frontier next)).trans ?_
      unfold enqueue
      split
      · exact le_rfl
      · rename_i fresh
        have fewer :=
          unmarked_setMark_lt (inDomain next (by simp)) fresh
        simp only [List.length_append, List.length_singleton]
        omega

omit closed in
private theorem enqueueAll_queue_mem (id : Mark)
    (list : List Vertex) (inDomain : ∀ next ∈ list, next ∈ domain) :
    ∀ frontier : State Vertex Mark × List Vertex,
      (∀ vertex ∈ frontier.2, vertex ∈ domain) →
        ∀ vertex ∈ (list.foldl (enqueue id) frontier).2,
          vertex ∈ domain := by
  induction list with
  | nil => exact fun _ queued => queued
  | cons next rest induction =>
      intro frontier queued
      refine
        induction
          (fun other member =>
            inDomain other (List.mem_cons_of_mem next member))
          (enqueue id frontier next) ?_
      unfold enqueue
      split
      · exact queued
      · intro vertex member
        rcases List.mem_append.mp member with old | isNext
        · exact queued vertex old
        · exact
            List.mem_singleton.mp isNext ▸ inDomain next (by simp)

theorem drain_returns (id : Mark) (fuel : Nat) :
    ∀ (queue : List Vertex) (state : State Vertex Mark),
      (∀ vertex ∈ queue, vertex ∈ domain) →
        unmarked domain id state.mark + queue.length < fuel →
          ∃ result, drain succ id fuel queue state = some result := by
  induction fuel with
  | zero =>
      intro queue state _ bound
      exact (Nat.not_lt_zero _ bound).elim
  | succ fuel induction =>
      intro queue state queued bound
      cases queue with
      | nil => exact ⟨state, rfl⟩
      | cons vertex queue =>
          have inDomain :=
            closed vertex (queued vertex (by simp))
          have measure :=
            enqueueAll_measure id (succ vertex) inDomain
              (state.report vertex, queue)
          rw [List.length_cons] at bound
          refine induction _ _ ?_ ?_
          · exact
              enqueueAll_queue_mem id (succ vertex) inDomain
                (state.report vertex, queue)
                (fun other member =>
                  queued other (List.mem_cons_of_mem vertex member))
          · simp only [State.report_mark] at measure
            omega

end Returns

/-! ## The specification of a whole search -/

/--
What a search from `start` has done when it returns, from the marks `mark` it
was started with.
-/
structure Sweep (succ : Vertex → List Vertex) (id : Mark)
    (mark : Vertex → Mark) (start : Vertex)
    (result : State Vertex Mark) : Prop where
  nodup : result.visited.Nodup
  start_mem : start ∈ result.visited
  sound : ∀ vertex ∈ result.visited, Reach succ start vertex
  unmarked :
    ∀ vertex ∈ result.visited, vertex ≠ start → mark vertex ≠ id
  mark_eq :
    ∀ vertex, result.mark vertex =
      if vertex ∈ result.visited then id else mark vertex
  closed :
    ∀ vertex ∈ result.visited, ∀ next ∈ succ vertex,
      next ∈ result.visited ∨ mark next = id

namespace Sweep

variable {succ : Vertex → List Vertex} {id : Mark}
  {mark : Vertex → Mark} {start : Vertex} {result : State Vertex Mark}

theorem of_descended {found : List Vertex}
    (spec :
      Descended succ id start ⟨Function.update mark start id, []⟩
        result found) :
    Sweep succ id mark start result := by
  have visitedEq : result.visited = found := by
    simpa using spec.visited_eq
  have unmarkedFound :
      ∀ vertex ∈ found, vertex ≠ start → mark vertex ≠ id := by
    intro vertex member notStart
    simpa [Function.update_apply, notStart] using
      spec.fresh vertex member notStart
  have markEq :
      ∀ vertex, result.mark vertex =
        if vertex ∈ found then id else mark vertex := by
    intro vertex
    rw [spec.mark_eq]
    by_cases member : vertex ∈ found
    · simp [member]
    · have notStart : vertex ≠ start :=
        fun equal => member (equal ▸ spec.root_mem)
      simp [member, notStart]
  exact {
    nodup := visitedEq ▸ spec.nodup
    start_mem := visitedEq ▸ spec.root_mem
    sound := visitedEq ▸ spec.sound
    unmarked := visitedEq ▸ unmarkedFound
    mark_eq := visitedEq ▸ markEq
    closed := by
      rw [visitedEq]
      intro vertex member next edge
      have marked := spec.closed vertex member next edge
      rw [markEq] at marked
      by_cases nextMember : next ∈ found
      · exact Or.inl nextMember
      · exact Or.inr (by simpa [nextMember] using marked) }

/--
A search reports exactly the vertices reachable from its start if and only if
none of them, the start apart, carried the identifier already.
-/
theorem complete_iff (sweep : Sweep succ id mark start result) :
    (∀ vertex, vertex ∈ result.visited ↔ Reach succ start vertex) ↔
      ∀ vertex, Reach succ start vertex → vertex ≠ start →
        mark vertex ≠ id := by
  constructor
  · intro complete vertex path notStart
    exact sweep.unmarked vertex ((complete vertex).mpr path) notStart
  · intro unmarked vertex
    refine ⟨sweep.sound vertex, fun path => ?_⟩
    induction path with
    | refl => exact sweep.start_mem
    | @tail middle last path edge member =>
        rcases sweep.closed middle member last edge with reported | stale
        · exact reported
        · by_cases isStart : last = start
          · exact isStart ▸ sweep.start_mem
          · exact
              (unmarked last (path.tail edge) isStart stale).elim

end Sweep

/-- A search that returns is a sweep. -/
theorem sweep_of_walk [DecidableEq Mark] {succ : Vertex → List Vertex}
    {id : Mark} {kind : Kind} {fuel : Nat} {mark : Vertex → Mark}
    {start : Vertex} {result : State Vertex Mark}
    (ran : walk succ id kind fuel mark start = some result) :
    Sweep succ id mark start result := by
  cases kind with
  | dfs order =>
      obtain ⟨found, spec⟩ :=
        reach_spec succ id order fuel start _ result (by simp) ran
      exact Sweep.of_descended spec
  | bfs =>
      have initial :
          Frontier succ id start
            (⟨Function.update mark start id, []⟩ : State Vertex Mark)
            [] [] (⟨Function.update mark start id, []⟩, [start]) := by
        exact {
          visited_eq := by simp
          nodup := by simp
          mark_eq := by
            intro vertex
            by_cases isStart : vertex = start <;>
              simp [isStart]
          closed := by simp
          root_mem := by simp
          fresh := by
            intro vertex vertexMember notStart
            exact (notStart (by simpa using vertexMember)).elim
          sound := by
            intro vertex vertexMember
            have isStart : vertex = start := by simpa using vertexMember
            rw [isStart] }
      obtain ⟨found, spec⟩ := drain_spec fuel initial ran
      exact Sweep.of_descended spec

/-- Every search of a graph inside a finite domain returns a sweep. -/
theorem sweep_walk [DecidableEq Mark]
    {succ : Vertex → List Vertex} {domain : Finset Vertex}
    (closed : ∀ vertex ∈ domain, ∀ next ∈ succ vertex, next ∈ domain)
    (id : Mark) (kind : Kind) {fuel : Nat} (enough : domain.card < fuel)
    (mark : Vertex → Mark) {start : Vertex} (member : start ∈ domain) :
    ∃ result, walk succ id kind fuel mark start = some result ∧
      Sweep succ id mark start result := by
  have fewer :
      unmarked domain id (Function.update mark start id) <
        domain.card := by
    refine Finset.card_lt_card
      ⟨Finset.filter_subset _ _, fun subset => ?_⟩
    simpa using (Finset.mem_filter.mp (subset member)).2
  obtain ⟨result, ran⟩ :
      ∃ result, walk succ id kind fuel mark start = some result := by
    cases kind with
    | dfs order =>
        exact
          reach_returns closed order fuel start member
            ⟨Function.update mark start id, []⟩ (by simp)
            (fewer.trans enough)
    | bfs =>
        exact
          drain_returns closed id fuel [start]
            ⟨Function.update mark start id, []⟩ (by simpa using member)
            (by
              simp only [List.length_singleton]
              omega)
  exact ⟨result, ran, sweep_of_walk ran⟩

/-! ## Post-order on an acyclic graph -/

/--
Every successor of a listed vertex is listed before it, unless it is excused.
-/
def PostSorted (succ : Vertex → List Vertex) (excused : Vertex → Prop)
    (found : List Vertex) : Prop :=
  ∀ earlier vertex later, found = earlier ++ vertex :: later →
    ∀ next ∈ succ vertex, next ∈ earlier ∨ excused next

omit [DecidableEq Vertex] in
theorem PostSorted.append
    {succ : Vertex → List Vertex} {excused excused' : Vertex → Prop}
    {first second : List Vertex}
    (left : PostSorted succ excused first)
    (right : PostSorted succ excused' second)
    (weaker : ∀ vertex, excused' vertex → vertex ∈ first ∨ excused vertex) :
    PostSorted succ excused (first ++ second) := by
  intro earlier vertex later split next edge
  rcases List.append_eq_append_iff.mp split with
    ⟨middle, earlierEq, secondEq⟩ | ⟨middle, firstEq, tailEq⟩
  · subst earlierEq
    rcases right middle vertex later secondEq next edge with before | other
    · exact Or.inl (List.mem_append_right first before)
    · rcases weaker next other with inFirst | stays
      · exact Or.inl (List.mem_append_left middle inFirst)
      · exact Or.inr stays
  · cases middle with
    | nil =>
        rw [List.append_nil] at firstEq
        rw [List.nil_append] at tailEq
        rcases right [] vertex later tailEq.symm next edge with
          before | other
        · exact (List.not_mem_nil before).elim
        · rcases weaker next other with inFirst | stays
          · exact Or.inl (firstEq ▸ inFirst)
          · exact Or.inr stays
    | cons head rest =>
        rw [List.cons_append, List.cons.injEq] at tailEq
        obtain ⟨rfl, -⟩ := tailEq
        exact left earlier vertex rest firstEq next edge

section PostOrder

variable [DecidableEq Mark]
  {succ : Vertex → List Vertex} {id : Mark} {start : Vertex}

/-- The induction hypothesis of `reach_postSorted`, for one descent. -/
def DescendsSorted (succ : Vertex → List Vertex) (id : Mark)
    (start : Vertex)
    (descend : Vertex → State Vertex Mark → Option (State Vertex Mark)) :
    Prop :=
  ∀ vertex state result, Reach succ start vertex →
    state.mark vertex = id → descend vertex state = some result →
      ∃ found, Descended succ id vertex state result found ∧
        PostSorted succ
          (fun other => state.mark other = id ∧ other ≠ vertex) found

theorem scan_postSorted
    {descend : Vertex → State Vertex Mark → Option (State Vertex Mark)}
    (spec :
      ∀ vertex state result, state.mark vertex = id →
        descend vertex state = some result →
          ∃ found, Descended succ id vertex state result found)
    (sorted : DescendsSorted succ id start descend)
    (list : List Vertex) (paths : ∀ next ∈ list, Reach succ start next) :
    ∀ {before after : State Vertex Mark} {found : List Vertex},
      list.foldlM (discover id descend) before = some after →
        Scanned succ id list before after found →
          PostSorted succ (fun other => before.mark other = id) found := by
  induction list with
  | nil =>
      intro before after found ran scanned
      cases ran
      have empty : found = [] := by simpa using scanned.visited_eq
      subst empty
      intro earlier vertex later split
      simp at split
  | cons next rest induction =>
      intro before after found ran scanned
      rw [List.foldlM_cons] at ran
      obtain ⟨middle, headRan, tailRan⟩ := Option.bind_eq_some_iff.mp ran
      obtain ⟨second, tail⟩ := scan_spec spec rest tailRan
      have tailSorted :=
        induction
          (fun other member => paths other (List.mem_cons_of_mem next member))
          tailRan tail
      unfold discover at headRan
      split at headRan
      · cases headRan
        have same : found = second := by
          simpa [tail.visited_eq] using scanned.visited_eq.symm
        exact same ▸ tailSorted
      · obtain ⟨first, head, headSorted⟩ :=
          sorted next _ _ (paths next (by simp))
            (by simp [State.setMark_mark]) headRan
        have same : found = first ++ second := by
          have whole := scanned.visited_eq
          rw [tail.visited_eq, head.visited_eq, List.append_assoc] at whole
          exact (List.append_cancel_left whole).symm
        subst same
        have headExcused :
            PostSorted succ (fun other => before.mark other = id) first := by
          intro earlier vertex later split other edge
          rcases headSorted earlier vertex later split other edge with
            listed | ⟨marked, notNext⟩
          · exact Or.inl listed
          · rw [State.setMark_mark, if_neg notNext] at marked
            exact Or.inr marked
        refine headExcused.append tailSorted ?_
        intro other marked
        rw [head.mark_eq] at marked
        by_cases inFirst : other ∈ first
        · exact Or.inl inFirst
        · rw [if_neg inFirst, State.setMark_mark] at marked
          by_cases isNext : other = next
          · exact (inFirst (isNext ▸ head.root_mem)).elim
          · exact Or.inr (by simpa [isNext] using marked)

/-- On an acyclic graph, post-order reports every vertex after its successors. -/
theorem reach_postSorted
    (acyclic :
      ∀ vertex, Reach succ start vertex →
        ¬ TransGen (Edge succ) vertex vertex)
    (depth : Nat) :
    DescendsSorted succ id start (reach succ id .post depth) := by
  induction depth with
  | zero =>
      intro vertex state result _ _ ran
      simp [reach] at ran
  | succ depth induction =>
      intro vertex state result path rootMarked ran
      obtain ⟨reported, spec⟩ :=
        reach_spec succ id .post (depth + 1) vertex state result
          rootMarked ran
      refine ⟨reported, spec, ?_⟩
      simp only [reach, reduceCtorEq, if_false, if_true] at ran
      obtain ⟨below, scanRan, resultEq⟩ := Option.bind_eq_some_iff.mp ran
      obtain ⟨found, scanned⟩ :=
        scan_spec (reach_spec succ id .post depth) _ scanRan
      have sorted :=
        scan_postSorted (reach_spec succ id .post depth) induction
          (succ vertex) (fun next edge => path.tail edge) scanRan scanned
      have reportedEq : reported = found ++ [vertex] := by
        have resultEq' : below.report vertex = result := by
          simpa using resultEq
        have whole := spec.visited_eq
        rw [← resultEq', State.report_visited, scanned.visited_eq,
          List.append_assoc] at whole
        exact (List.append_cancel_left whole).symm
      have noLoop : ∀ other, other ∈ found → vertex ∉ succ other := by
        intro other member edge
        obtain ⟨root, rootEdge, below⟩ := scanned.sound other member
        exact
          acyclic vertex path
            (TransGen.trans_left
              (TransGen.head' rootEdge below)
              (ReflTransGen.single edge))
      have innerSorted :
          PostSorted succ
            (fun other => state.mark other = id ∧ other ≠ vertex)
            found := by
        intro earlier other later split next edge
        rcases sorted earlier other later split next edge with
          listed | marked
        · exact Or.inl listed
        · refine Or.inr ⟨marked, fun equal => ?_⟩
          exact noLoop other (by simp [split]) (equal ▸ edge)
      rw [reportedEq]
      have rootSorted :
          PostSorted succ
            (fun other => other ∈ found ∨
              (state.mark other = id ∧ other ≠ vertex)) [vertex] := by
        intro earlier other later split next edge
        have isVertex : other = vertex := by
          rcases List.append_eq_cons_iff.mp split.symm with
            ⟨-, equal⟩ | ⟨rest, -, equal⟩
          · exact (List.cons.inj equal).1
          · simp at equal
        subst isVertex
        have marked := scanned.marked next edge
        rw [scanned.mark_eq] at marked
        right
        by_cases member : next ∈ found
        · exact Or.inl member
        · refine Or.inr ⟨by simpa [member] using marked, ?_⟩
          intro equal
          exact
            acyclic other path (TransGen.single (equal ▸ edge))
      exact innerSorted.append rootSorted fun other excused => excused

/-- A whole post-order search of an acyclic graph with no stale vertex. -/
theorem walk_postSorted
    {fuel : Nat} {mark : Vertex → Mark} {result : State Vertex Mark}
    (acyclic :
      ∀ vertex, Reach succ start vertex →
        ¬ TransGen (Edge succ) vertex vertex)
    (ran : walk succ id (.dfs .post) fuel mark start = some result) :
    PostSorted succ
      (fun other => mark other = id ∧ other ≠ start) result.visited := by
  obtain ⟨found, spec, sorted⟩ :=
    reach_postSorted acyclic fuel start
      ⟨Function.update mark start id, []⟩ result ReflTransGen.refl
      (by simp) ran
  have visitedEq : result.visited = found := by
    simpa using spec.visited_eq
  rw [visitedEq]
  intro earlier vertex later split next edge
  rcases sorted earlier vertex later split next edge with
    listed | ⟨marked, notStart⟩
  · exact Or.inl listed
  · exact Or.inr ⟨by simpa [notStart] using marked, notStart⟩

end PostOrder

/-! ## Pre-order -/

/-- Every listed vertex but the start has a predecessor that is listed before. -/
def PreSorted (succ : Vertex → List Vertex) (start : Vertex)
    (found : List Vertex) : Prop :=
  ∀ earlier vertex later, found = earlier ++ vertex :: later →
    vertex = start ∨ ∃ pred ∈ earlier, vertex ∈ succ pred

omit [DecidableEq Vertex] in
theorem PreSorted.concat {succ : Vertex → List Vertex} {start vertex : Vertex}
    {found : List Vertex} (sorted : PreSorted succ start found)
    (known : vertex = start ∨ ∃ pred ∈ found, vertex ∈ succ pred) :
    PreSorted succ start (found ++ [vertex]) := by
  intro earlier other later split
  rcases List.append_eq_append_iff.mp split with
    ⟨middle, earlierEq, tailEq⟩ | ⟨middle, foundEq, tailEq⟩
  · rcases List.append_eq_cons_iff.mp tailEq.symm with
      ⟨empty, same⟩ | ⟨rest, -, same⟩
    · rw [empty, List.append_nil] at earlierEq
      rw [(List.cons.inj same).1, earlierEq]
      exact known
    · simp at same
  · cases middle with
    | nil =>
        rw [List.append_nil] at foundEq
        rw [List.nil_append] at tailEq
        rw [(List.cons.inj tailEq).1, ← foundEq]
        exact known
    | cons head rest =>
        rw [List.cons_append, List.cons.injEq] at tailEq
        rw [tailEq.1]
        exact sorted earlier head rest foundEq

section PreOrder

variable [DecidableEq Mark]
  {succ : Vertex → List Vertex} {id : Mark} {start : Vertex}

/-- What a pre-order search below a vertex that is listed next keeps. -/
def DescendsPre (succ : Vertex → List Vertex) (start : Vertex)
    (descend : Vertex → State Vertex Mark → Option (State Vertex Mark)) :
    Prop :=
  ∀ vertex state result, PreSorted succ start state.visited →
    (vertex = start ∨ ∃ pred ∈ state.visited, vertex ∈ succ pred) →
      descend vertex state = some result →
        PreSorted succ start result.visited ∧
          state.visited ⊆ result.visited

theorem scan_preSorted
    {descend : Vertex → State Vertex Mark → Option (State Vertex Mark)}
    (spec : DescendsPre succ start descend) {vertex : Vertex}
    (list : List Vertex) (edges : ∀ next ∈ list, next ∈ succ vertex) :
    ∀ {before after : State Vertex Mark}, vertex ∈ before.visited →
      PreSorted succ start before.visited →
        list.foldlM (discover id descend) before = some after →
          PreSorted succ start after.visited ∧
            before.visited ⊆ after.visited := by
  induction list with
  | nil =>
      intro before after _ sorted ran
      cases ran
      exact ⟨sorted, List.Subset.refl _⟩
  | cons next rest induction =>
      intro before after listed sorted ran
      rw [List.foldlM_cons] at ran
      obtain ⟨middle, headRan, tailRan⟩ := Option.bind_eq_some_iff.mp ran
      have head : PreSorted succ start middle.visited ∧
          before.visited ⊆ middle.visited := by
        unfold discover at headRan
        split at headRan
        · cases headRan
          exact ⟨sorted, List.Subset.refl _⟩
        · exact
            spec next (before.setMark next id) middle sorted
              (Or.inr ⟨vertex, listed, edges next (by simp)⟩) headRan
      obtain ⟨tailSorted, subset⟩ :=
        induction
          (fun other member => edges other (List.mem_cons_of_mem next member))
          (head.2 listed) head.1 tailRan
      exact ⟨tailSorted, fun _ member => subset (head.2 member)⟩

/-- Pre-order reports every vertex after one of its predecessors. -/
theorem reach_preSorted (depth : Nat) :
    DescendsPre succ start (reach succ id .pre depth) := by
  induction depth with
  | zero =>
      intro vertex state result _ _ ran
      simp [reach] at ran
  | succ depth induction =>
      intro vertex state result sorted known ran
      simp only [reach, reduceCtorEq, if_false, if_true] at ran
      obtain ⟨below, scanRan, resultEq⟩ := Option.bind_eq_some_iff.mp ran
      have same : below = result := by
        simpa using resultEq
      subst same
      obtain ⟨belowSorted, subset⟩ :=
        scan_preSorted induction (succ vertex)
          (fun _ edge => edge) (by simp) (sorted.concat known) scanRan
      exact
        ⟨belowSorted,
          fun other member => subset (List.mem_append_left _ member)⟩

/-- A whole pre-order search. -/
theorem walk_preSorted {fuel : Nat} {mark : Vertex → Mark}
    {result : State Vertex Mark}
    (ran : walk succ id (.dfs .pre) fuel mark start = some result) :
    PreSorted succ start result.visited :=
  (reach_preSorted fuel start ⟨Function.update mark start id, []⟩ result
    (by intro earlier vertex later split; simp at split) (Or.inl rfl)
    ran).1

end PreOrder

end Cgir.Library.MarkSearch
