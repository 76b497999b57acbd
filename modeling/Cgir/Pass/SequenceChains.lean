import Cgir.Library.Strand
import Cgir.Pass.SequenceLossless

/-!
# The chains that the sequence pass finds

A sequence edge is the only edge between two inner task or control nodes of one
device.  The components of the sequence edges are strands, and the pass
contracts exactly the strands with two or more commands: the depth-first
pre-order meets the source of a sequence edge before its target
(`index_lt_of_seqEdge`), so every strand is walked from its head.
-/

namespace Cgir.Pass.Sequence

open Relation
open Cgir.Library
open Cgir.Model

/-! ## Sequence edges -/

/-- The only edge between two nodes that may share a sequence. -/
structure SeqEdge (heap : Heap) (graph : GraphId) (u v : NodeId) : Prop where
  sole : Sole (heap.Link graph) u v
  source : isCand heap graph u = true
  target : isCand heap graph v = true
  device_eq : (heap.nodes v).deviceUniqueId = (heap.nodes u).deviceUniqueId

/-- A node has at most one sequence edge on either side. -/
theorem seqEdge_biUnique (heap : Heap) (graph : GraphId) :
    Relator.BiUnique (SeqEdge heap graph) := by
  constructor
  · intro u v w first second
    exact second.sole.only_prev u first.sole.step
  · intro u v w first second
    exact second.sole.only_next v first.sole.step

/-- The members of a sequence of two or more are inner nodes of the graph. -/
theorem mem_of_seqEdges {heap : Heap} {graph : GraphId} {run : List NodeId}
    (inOrder : List.IsChain (SeqEdge heap graph) run)
    (long : 2 ≤ run.length) {u : NodeId} (member : u ∈ run) :
    heap.Reachable graph u ∧ isCand heap graph u = true := by
  obtain ⟨v, edge | edge⟩ := Strand.exists_neighbour inOrder long member
  · exact ⟨edge.sole.step.1, edge.source⟩
  · exact ⟨edge.sole.step.reachable, edge.target⟩

theorem commands_le_length (heap : Heap) (run : List NodeId) :
    commands heap run ≤ run.length := by
  induction run with
  | nil => exact Nat.le_refl 0
  | cons first rest induction =>
      have one : commandCount heap first ≤ 1 := by
        unfold commandCount
        split <;> omega
      rw [commands, List.map_cons, List.sum_cons, List.length_cons]
      rw [commands] at induction
      omega

section Scan

variable {iterators : Iterators} {chains : List Chain}
  {block : NodeId → NodeId} {state : Scan}

/-- The vector lists the source of a sequence edge before its target. -/
theorem index_lt_of_seqEdge (valid : iterators.Valid)
    (sorted : MarkSearch.PreSorted iterators.heap.successors
      (iterators.heap.graphs iterators.graph).entry iterators.nodes)
    {u v : NodeId} (edge : SeqEdge iterators.heap iterators.graph u v) :
    iterators.index u < iterators.index v := by
  have link := edge.sole.step
  have uMember := (valid.mem_iff u).mpr link.1
  have vMember := (valid.mem_iff v).mpr link.reachable
  obtain ⟨earlier, later, split⟩ := List.append_of_mem vMember
  have position : iterators.nodes[earlier.length]? = some v := by
    rw [split]
    simp
  have vIndex : iterators.index v = earlier.length :=
    ((List.getElem?_inj (valid.index_lt vMember) valid.nodup).mp
      ((valid.index_eq v vMember).trans position.symm))
  have uEarlier : u ∈ earlier := by
    rcases sorted earlier v later split with isEntry | ⟨pred, before, step⟩
    · have candidate := edge.target
      simp [isCand, isEntry] at candidate
    · have predReachable : iterators.heap.Reachable iterators.graph pred := by
        rw [← valid.mem_iff, split]
        exact List.mem_append_left _ before
      rwa [← edge.sole.only_prev pred ⟨predReachable, step⟩]
  obtain ⟨i, bound, here⟩ := List.getElem_of_mem uEarlier
  have position' : iterators.nodes[i]? = some u := by
    rw [split, List.getElem?_append_left bound, List.getElem?_eq_getElem bound,
      here]
  have uIndex : iterators.index u = i :=
    ((List.getElem?_inj (valid.index_lt uMember) valid.nodup).mp
      ((valid.index_eq u uMember).trans position'.symm))
  omega

namespace Sequenced

variable (sequenced : Sequenced iterators chains block state)
  (formed : iterators.heap.WellFormed iterators.graph)

include sequenced formed

/-- Outside the chains a sequence edge continues a chain. -/
theorem continues_of_seqEdge {cur nxt : NodeId}
    (edge : SeqEdge iterators.heap iterators.graph cur nxt)
    (curOutside : ∀ p, ¬ InChain chains p cur)
    (nxtOutside : ∀ p, ¬ InChain chains p nxt) :
    state.heap.successors cur = [nxt] ∧
      continues state.heap iterators.graph cur nxt = true := by
  have link := edge.sole.step
  have curSelf := sequenced.block_other cur curOutside
  have nxtSelf := sequenced.block_other nxt nxtOutside
  have curOld := formed.allocated cur link.1
  have nxtOld := formed.allocated nxt link.reachable
  have curLive : Live iterators chains cur := .inl link.1
  have nxtLive : Live iterators chains nxt := .inl link.reachable
  have regrouped : StraightPath.Regroup
      (iterators.heap.Link iterators.graph) block cur nxt := by
    have regrouped :=
      (sequenced.regroup_of_link formed curOutside (.inl link)).1 link
    rwa [nxtSelf] at regrouped
  have onlyNext : state.heap.successors cur = [nxt] := by
    apply List.perm_singleton.mp
    rw [List.perm_ext_iff_of_nodup
      (sequenced.represents.successors_nodup cur curLive)
      (List.nodup_singleton nxt)]
    intro other
    rw [sequenced.represents.mem_successors cur curLive, List.mem_singleton]
    constructor
    · rintro (⟨-, from', to', step, fromEq, rfl⟩ | ⟨step, -⟩)
      · have fromSelf := sequenced.eq_of_block_lt (fromEq.symm ▸ curOld)
        rw [fromSelf, fromEq] at step
        rw [edge.sole.only_next to' step, nxtSelf]
      · exact edge.sole.only_next other step
    · exact fun same => same ▸ regrouped
  have onlyPrev : state.heap.predecessors nxt = [cur] := by
    apply List.perm_singleton.mp
    rw [List.perm_ext_iff_of_nodup
      (sequenced.represents.predecessors_nodup nxt nxtLive)
      (List.nodup_singleton cur)]
    intro other
    rw [sequenced.represents.mem_predecessors nxt nxtLive, List.mem_singleton]
    constructor
    · rintro (⟨-, from', to', step, rfl, toEq⟩ | ⟨step, -⟩)
      · have toSelf := sequenced.eq_of_block_lt (toEq.symm ▸ nxtOld)
        rw [toSelf, toEq] at step
        rw [edge.sole.only_prev from' step, curSelf]
      · exact edge.sole.only_prev other step
    · exact fun same => same ▸ regrouped
  refine ⟨onlyNext, ?_⟩
  have curDevice :=
    (congrArg CommandGraphNode.deviceUniqueId
      (sequenced.node_old cur curOld) :)
  have nxtDevice :=
    (congrArg CommandGraphNode.deviceUniqueId
      (sequenced.node_old nxt nxtOld) :)
  simp only [CommandGraphNode.unlinked] at curDevice nxtDevice
  rw [continues, sequenced.isCand_old formed.graph_lt nxtOld, edge.target,
    onlyPrev, curDevice, nxtDevice, edge.device_eq]
  simp

/-- Original nodes are counted as before. -/
theorem commands_eq {members : List NodeId}
    (old : ∀ n ∈ members, iterators.heap.Reachable iterators.graph n) :
    commands state.heap members = commands iterators.heap members := by
  unfold commands
  congr 1
  apply List.map_congr_left
  intro n member
  have type :=
    (congrArg CommandGraphNode.type
      (sequenced.node_old n (formed.allocated n (old n member))) :)
  simp only [CommandGraphNode.unlinked] at type
  rw [commandCount, commandCount, type]

end Sequenced

/-! ## The scan -/

/-- A strand of the original graph. -/
abbrev SeqStrand (iterators : Iterators) (run : List NodeId) : Prop :=
  Strand (SeqEdge iterators.heap iterators.graph) run

/-- A member of the list is among the first nodes of the vector. -/
def Met (iterators : Iterators) (k : Nat) (run : List NodeId) : Prop :=
  ∃ h ∈ run, iterators.index h < k

/-- The chains that are found once the first `k` nodes are scanned. -/
structure Scanned (iterators : Iterators) (k : Nat) (chains : List Chain)
    (state : Scan) : Prop where
  strand : ∀ (p : Nat) (chain : Chain), chains[p]? = some chain →
    SeqStrand iterators chain.members ∧
      2 ≤ commands iterators.heap chain.members
  found : ∀ run, SeqStrand iterators run → 2 ≤ commands iterators.heap run →
    Met iterators k run →
      ∃ (p : Nat) (chain : Chain), chains[p]? = some chain ∧
        chain.members = run
  contracted_iff : ∀ n, iterators.heap.Reachable iterators.graph n →
    (state.contracted (iterators.index n) = true ↔
      ∃ run, SeqStrand iterators run ∧ n ∈ run ∧ 2 ≤ run.length ∧
        Met iterators k run)
  idle : chains = [] → state.heap = iterators.heap

section Step

variable (valid : iterators.Valid)
  (sorted : MarkSearch.PreSorted iterators.heap.successors
    (iterators.heap.graphs iterators.graph).entry iterators.nodes)
  (formed : iterators.heap.WellFormed iterators.graph)

include valid sorted

/-- Strands with a common member are equal. -/
theorem SeqStrand.unique {run other : List NodeId}
    (strand : SeqStrand iterators run) (strand' : SeqStrand iterators other)
    {u : NodeId} (member : u ∈ run) (member' : u ∈ other) : run = other :=
  Strand.unique iterators.index
    (fun _ _ edge => index_lt_of_seqEdge valid sorted edge) strand strand'
    member member'

theorem exists_seqStrand (u : NodeId) :
    ∃ run, SeqStrand iterators run ∧ u ∈ run :=
  Strand.exists_strand iterators.index
    (fun _ _ edge => index_lt_of_seqEdge valid sorted edge)
    (seqEdge_biUnique _ _)
    (fun _ _ edge =>
      valid.index_lt ((valid.mem_iff _).mpr edge.sole.step.reachable)) u

omit sorted in
/-- The strands met by the next node are the old ones and its own. -/
theorem met_succ {run : List NodeId}
    (strand : SeqStrand iterators run) (long : 2 ≤ run.length) {k : Nat}
    (met : Met iterators (k + 1) run) :
    Met iterators k run ∨ iterators.node k ∈ run := by
  obtain ⟨h, member, index⟩ := met
  rcases Nat.lt_succ_iff_lt_or_eq.mp index with before | here
  · exact .inl ⟨h, member, before⟩
  · have reachable := (mem_of_seqEdges strand.inOrder long member).1
    have isNode := valid.node_index ((valid.mem_iff h).mpr reachable)
    rw [here] at isNode
    exact .inr (isNode ▸ member)

include formed

variable {k : Nat} (bound : k < iterators.count)
  (sequenced : Sequenced iterators chains block state)
  (scanned : Scanned iterators k chains state)

include scanned

omit valid sorted formed in
/-- A member of a chain brings its whole strand along. -/
theorem inChain_of_seqEdge {u v : NodeId} {p : Nat}
    (edge : SeqEdge iterators.heap iterators.graph u v) :
    InChain chains p u ↔ InChain chains p v := by
  have joined := EqvGen.rel u v edge
  constructor
  · rintro ⟨chain, position, member⟩
    exact
      ⟨chain, position,
        (((scanned.strand p chain position).1.whole u member v).mpr joined)⟩
  · rintro ⟨chain, position, member⟩
    exact
      ⟨chain, position,
        (((scanned.strand p chain position).1.whole v member u).mpr
          (joined.symm _ _))⟩

include bound

omit formed in
/-- An unmarked node is the head of its strand. -/
theorem no_prev_of_unmarked
    (unmarked : ¬ state.contracted k = true) (p : NodeId) :
    ¬ SeqEdge iterators.heap iterators.graph p (iterators.node k) := by
  intro edge
  have below := index_lt_of_seqEdge valid sorted edge
  have reachable := edge.sole.step.reachable
  rw [valid.index_node bound] at below
  obtain ⟨run, strand, member⟩ := exists_seqStrand valid sorted p
  have together : iterators.node k ∈ run :=
    (strand.whole p member _).mpr (EqvGen.rel _ _ edge)
  apply unmarked
  rw [← valid.index_node bound, scanned.contracted_iff _ reachable]
  refine ⟨run, strand, together, ?_, p, member, below⟩
  have apart : p ≠ iterators.node k := by
    rintro same
    rw [same, valid.index_node bound] at below
    exact Nat.lt_irrefl _ below
  rcases run with - | ⟨first, - | ⟨second, rest⟩⟩
  · cases member
  · rw [List.mem_singleton] at member together
    exact (apart (member.trans together.symm)).elim
  · simp

include sequenced

/-- A node that is skipped unmarked is in no sequence of two or more. -/
theorem short_of_stops (unmarked : ¬ state.contracted k = true)
    (stops : ¬ isCand state.heap iterators.graph (iterators.node k) ∨
      Stops state.heap iterators.graph (iterators.node k))
    {run : List NodeId} (strand : SeqStrand iterators run)
    (member : iterators.node k ∈ run) : run.length < 2 := by
  by_contra long
  rw [Nat.not_lt] at long
  have noPrev :=
    no_prev_of_unmarked valid sorted bound scanned unmarked
  obtain ⟨v, edge | edge⟩ :=
    Strand.exists_neighbour strand.inOrder long member
  · have reachable := edge.sole.step.1
    have outside : ∀ p, ¬ InChain chains p (iterators.node k) := by
      intro p inside
      have marked := sequenced.contracted p _ inside
      rw [valid.index_node bound] at marked
      exact unmarked marked
    have outside' : ∀ p, ¬ InChain chains p v := fun p inside =>
      outside p ((inChain_of_seqEdge scanned edge).mpr inside)
    obtain ⟨only, continued⟩ :=
      sequenced.continues_of_seqEdge formed edge outside outside'
    rcases stops with notCand | stops
    · rw [sequenced.isCand_old formed.graph_lt
        (formed.allocated _ reachable)] at notCand
      exact notCand edge.source
    · exact stops v only continued
  · exact noPrev v edge

/-- The members of a walked chain are the strand of the node. -/
theorem strand_of_walk {chain : Chain} {after : Scan}
    (starts : chain.head = iterators.node k)
    (unmarked : ¬ state.contracted k = true)
    (walk : ScanWalk iterators chains state chain after) :
    SeqStrand iterators chain.members ∧ 2 ≤ chain.members.length := by
  have straight := walk.fresh.straight
  have long : 2 ≤ chain.members.length := by
    by_contra short
    apply walk.fresh.ends_ne
    have first := straight.head?
    have last := straight.getLast?
    rcases membersEq : chain.members with - | ⟨only, - | ⟨second, rest⟩⟩
    · rw [membersEq] at first
      cases first
    · rw [membersEq] at first last
      exact (Option.some.inj first).symm.trans (Option.some.inj last)
    · rw [membersEq] at short
      simp at short
  refine ⟨?_, long⟩
  have biUnique := seqEdge_biUnique iterators.heap iterators.graph
  apply Strand.of_ends biUnique.2 biUnique.1
  · exact List.ne_nil_of_mem straight.first_mem
  · refine List.IsChain.imp_of_mem_imp ?_ straight.isChain
    intro u v uMember vMember sole
    exact {
      sole := sole
      source := walk.fresh.candidate u uMember
      target := walk.fresh.candidate v vMember
      device_eq :=
        (walk.fresh.device_eq v vMember).trans
          (walk.fresh.device_eq u uMember).symm }
  · intro first isFirst p
    rw [straight.head?, Option.some.injEq] at isFirst
    rw [← isFirst, starts]
    exact
      no_prev_of_unmarked valid sorted bound scanned unmarked p
  · intro last isLast q edge
    rw [straight.getLast?, Option.some.injEq] at isLast
    subst isLast
    have outside := walk.fresh.outside _ straight.last_mem
    have outside' : ∀ p, ¬ InChain chains p q := fun p inside =>
      outside p ((inChain_of_seqEdge scanned edge).mpr inside)
    obtain ⟨only, continued⟩ :=
      sequenced.continues_of_seqEdge formed edge outside outside'
    exact walk.stops q only continued

/-- The marks after a walk are those of one more strand. -/
theorem contracted_iff_of_walk {chain : Chain} {after : Scan}
    (starts : chain.head = iterators.node k)
    (unmarked : ¬ state.contracted k = true)
    (walk : ScanWalk iterators chains state chain after) {n : NodeId}
    (reachable : iterators.heap.Reachable iterators.graph n) :
    after.contracted (iterators.index n) = true ↔
      ∃ run, SeqStrand iterators run ∧ n ∈ run ∧ 2 ≤ run.length ∧
        Met iterators (k + 1) run := by
  obtain ⟨strand, long⟩ :=
    strand_of_walk valid sorted formed bound sequenced scanned starts
      unmarked walk
  have headMember : iterators.node k ∈ chain.members :=
    starts ▸ walk.fresh.straight.first_mem
  rw [walk.contracted_iff, scanned.contracted_iff n reachable]
  constructor
  · rintro (⟨run, strand', member, long', h, hMember, before⟩ |
      ⟨m, member, same⟩)
    · exact
        ⟨run, strand', member, long', h, hMember, Nat.lt_succ_of_lt before⟩
    · have equal : n = m := by
        rw [← valid.node_index ((valid.mem_iff n).mpr reachable), same,
          valid.node_index
            ((valid.mem_iff m).mpr (walk.fresh.reachable m member))]
      refine
        ⟨chain.members, strand, equal ▸ member, long, _, headMember, ?_⟩
      rw [valid.index_node bound]
      exact Nat.lt_succ_self k
  · rintro ⟨run, strand', member, long', met⟩
    rcases met_succ valid strand' long' met with before | here
    · exact .inl ⟨run, strand', member, long', before⟩
    · have same :=
        SeqStrand.unique valid sorted strand' strand here headMember
      exact .inr ⟨n, same ▸ member, rfl⟩

/-- One iteration of the scan. -/
theorem scanned_step {chains' : List Chain} {after : Scan}
    (scans : Scans iterators chains state (iterators.node k) chains' after) :
    Scanned iterators (k + 1) chains' after := by
  have long_of : ∀ {run}, 2 ≤ commands iterators.heap run →
      2 ≤ run.length := fun {run} enough =>
    enough.trans (commands_le_length _ run)
  cases scans with
  | skipped idle =>
      rw [valid.index_node bound] at idle
      -- no strand of two or more is met for the first time
      have old : ∀ {run}, SeqStrand iterators run → 2 ≤ run.length →
          Met iterators (k + 1) run → Met iterators k run := by
        intro run strand long met
        rcases met_succ valid strand long met with before | here
        · exact before
        · by_cases marked : state.contracted k = true
          · have reachable :=
              (mem_of_seqEdges strand.inOrder long here).1
            rw [← valid.index_node bound,
              scanned.contracted_iff _ reachable] at marked
            obtain ⟨other, strand', here', -, before⟩ := marked
            rwa [SeqStrand.unique valid sorted strand strand' here here']
          · have short :=
              short_of_stops valid sorted formed bound sequenced scanned
                marked (idle.resolve_left marked) strand here
            omega
      exact {
        strand := scanned.strand
        found := fun run strand enough met =>
          scanned.found run strand enough (old strand (long_of enough) met)
        contracted_iff := by
          intro n reachable
          rw [scanned.contracted_iff n reachable]
          constructor
          · rintro ⟨run, strand, member, long, h, hMember, before⟩
            exact
              ⟨run, strand, member, long, h, hMember,
                Nat.lt_succ_of_lt before⟩
          · rintro ⟨run, strand, member, long, met⟩
            exact ⟨run, strand, member, long, old strand long met⟩
        idle := scanned.idle }
  | @short chain after starts unmarked walk few same =>
      rw [valid.index_node bound] at unmarked
      obtain ⟨strand, -⟩ :=
        strand_of_walk valid sorted formed bound sequenced scanned starts
          unmarked walk
      rw [sequenced.commands_eq formed walk.fresh.reachable] at few
      exact {
        strand := scanned.strand
        found := by
          intro run strand' enough met
          rcases met_succ valid strand' (long_of enough) met with
            before | here
          · exact scanned.found run strand' enough before
          · have equal :=
              SeqStrand.unique valid sorted strand' strand here
                (starts ▸ walk.fresh.straight.first_mem)
            rw [equal] at enough
            omega
        contracted_iff := fun _ reachable =>
          contracted_iff_of_walk valid sorted formed bound sequenced scanned
            starts unmarked walk reachable
        idle := fun empty => same.trans (scanned.idle empty) }
  | @contracted chain after starts unmarked walk enough =>
      rw [valid.index_node bound] at unmarked
      obtain ⟨strand, -⟩ :=
        strand_of_walk valid sorted formed bound sequenced scanned starts
          unmarked walk
      rw [sequenced.commands_eq formed walk.fresh.reachable] at enough
      exact {
        strand := by
          intro p other position
          rcases Nat.lt_or_ge p chains.length with before | behind
          · rw [List.getElem?_append_left before] at position
            exact scanned.strand p other position
          · rw [List.getElem?_append_right behind] at position
            have isNew := List.mem_of_getElem? position
            rw [List.mem_singleton.mp isNew]
            exact ⟨strand, enough⟩
        found := by
          intro run strand' enough' met
          rcases met_succ valid strand' (long_of enough') met with
            before | here
          · obtain ⟨p, other, position, same⟩ :=
              scanned.found run strand' enough' before
            refine ⟨p, other, ?_, same⟩
            rw [List.getElem?_append_left
              (List.getElem?_eq_some_iff.mp position).1]
            exact position
          · have equal :=
              SeqStrand.unique valid sorted strand' strand here
                (starts ▸ walk.fresh.straight.first_mem)
            exact
              ⟨chains.length, chain, List.getElem?_concat_length,
                equal.symm⟩
        contracted_iff := fun _ reachable =>
          contracted_iff_of_walk valid sorted formed bound sequenced scanned
            starts unmarked walk reachable
        idle := fun empty =>
          (List.append_ne_nil_of_right_ne_nil chains
            (List.cons_ne_nil chain []) empty).elim }

end Step

end Scan

end Cgir.Pass.Sequence
