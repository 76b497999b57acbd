import Cgir.Mlir.CopyMerge
import Cgir.Optimizer.RaceFree

/-!
# Fused copies

A copy that moves the bytes of several copies at once does what these do one after
another, in any order, when none of them overwrites what another one reads.  So the
copy-fuse pass of the dialect refines graphs whose unordered copies are apart in
this sense, and keeps the outcomes of those without races.
-/

namespace Cgir.Optimizer

open Relation
open Cgir.Library
open Cgir.Mlir (CopiesMerged KinNodes Plain copyOf copyOf_eq_some)
open Cgir.Model
open Cgir.Pass.CopyFuse
open Cgir.Pass.CopyNormalize

variable {World : Type} {run : Effect (Memory × World)} {heap after : Heap}
  {graph : GraphId} {place : NodeId → NodeId}

/-! ## Copies at once and one after another -/

/-- No byte that the first one writes is read by the second one. -/
def Unread (transfers transfers' : Transfer → Prop) : Prop :=
  ∀ source place source' place' : Place,
    transfers (source.1, source.2, place.1, place.2) →
      transfers' (source'.1, source'.2, place'.1, place'.2) →
        place ≠ source'

/-- A step of a copy, next to what copies do not touch. -/
def CopyStep (transfers : Transfer → Prop) (first last : Memory × World) :
    Prop :=
  Copied transfers first.1 last.1 ∧ last.2 = first.2

section Steps

variable {Item : Type} {moves : Item → Transfer → Prop} {list : List Item}

/-- All transfers of a list at once. -/
def Together (moves : Item → Transfer → Prop) (list : List Item)
    (transfer : Transfer) : Prop :=
  ∃ item ∈ list, moves item transfer

/-- Transfers that are not read can be made one after another. -/
theorem runs_of_together (nodup : list.Nodup)
    (apart : ∀ one ∈ list, ∀ other ∈ list, one ≠ other →
      Unread (moves one) (moves other))
    (agree : ∀ one ∈ list, ∀ other ∈ list,
      ∀ source source' place : Place,
        moves one (source.1, source.2, place.1, place.2) →
          moves other (source'.1, source'.2, place.1, place.2) →
            source = source') {first last : Memory × World}
    (step : CopyStep (Together moves list) first last) :
    Runs (fun item => CopyStep (moves item)) list first last := by
  induction list generalizing first with
  | nil =>
      obtain ⟨copied, world⟩ := step
      have memory : last.1 = first.1 := by
        funext place
        rcases copied place with ⟨source, ⟨item, member, -⟩, -⟩ | ⟨-, same⟩
        · cases member
        · exact same
      exact Prod.ext memory world
  | cons item rest induction =>
      classical
      obtain ⟨copied, world⟩ := step
      obtain ⟨fresh, restNodup⟩ := List.nodup_cons.mp nodup
      -- The first transfers are made; the others are still to come.
      obtain ⟨middle, onWritten, onOther⟩ : ∃ middle : Memory,
          (∀ place, Writes (moves item) place → middle place = last.1 place) ∧
            ∀ place, ¬ Writes (moves item) place →
              middle place = first.1 place :=
        ⟨fun place =>
          if Writes (moves item) place then last.1 place else first.1 place,
          fun _ writes => if_pos writes, fun _ free => if_neg free⟩
      have fromFirst : ∀ {one source place}, one ∈ item :: rest →
          moves one (source.1, source.2, place.1, place.2) →
            last.1 place = first.1 source := by
        intro one source place member enters
        rcases copied place with ⟨source', ⟨other, inList, enters'⟩, same⟩ |
          ⟨free, -⟩
        · rw [same, agree one member other inList source source' place enters
            enters']
        · exact (free source ⟨one, member, enters⟩).elim
      refine ⟨(middle, first.2), ⟨fun place => ?_, rfl⟩, induction restNodup
        (fun one member other inRest =>
          apart one (List.mem_cons_of_mem _ member) other
            (List.mem_cons_of_mem _ inRest))
        (fun one member other inRest =>
          agree one (List.mem_cons_of_mem _ member) other
            (List.mem_cons_of_mem _ inRest)) ⟨fun place => ?_, world⟩⟩
      · by_cases writes : Writes (moves item) place
        · obtain ⟨source, enters⟩ := writes
          left
          exact
            ⟨source, enters,
              (onWritten place ⟨source, enters⟩).trans
                (fromFirst List.mem_cons_self enters)⟩
        · right
          exact
            ⟨fun source enters => writes ⟨source, enters⟩,
              onOther place writes⟩
      · by_cases writes : Writes (Together moves rest) place
        · obtain ⟨source, other, inRest, enters⟩ := writes
          left
          refine ⟨source, ⟨other, inRest, enters⟩, ?_⟩
          have different : item ≠ other := fun same => fresh (same ▸ inRest)
          have untouched : ¬ Writes (moves item) source := by
            rintro ⟨origin, enters'⟩
            exact
              apart item List.mem_cons_self other
                (List.mem_cons_of_mem _ inRest) different _ _ _ _ enters'
                enters rfl
          show last.1 place = middle source
          rw [onOther source untouched]
          exact fromFirst (List.mem_cons_of_mem _ inRest) enters
        · right
          refine ⟨fun source enters => writes ⟨source, enters⟩, ?_⟩
          by_cases isFirst : Writes (moves item) place
          · exact (onWritten place isFirst).symm
          · show last.1 place = middle place
            rw [onOther place isFirst]
            rcases copied place with ⟨source, ⟨one, member, enters⟩, -⟩ |
              ⟨-, same⟩
            · rcases List.mem_cons.mp member with rfl | inRest
              · exact (isFirst ⟨source, enters⟩).elim
              · exact (writes ⟨source, one, inRest, enters⟩).elim
            · exact same

/-- One after another, transfers that are not read do what they do at once. -/
theorem together_of_runs (nodup : list.Nodup)
    (apart : ∀ one ∈ list, ∀ other ∈ list, one ≠ other →
      Unread (moves one) (moves other)) {first last : Memory × World}
    (runs : Runs (fun item => CopyStep (moves item)) list first last) :
    CopyStep (Together moves list) first last := by
  induction list generalizing first with
  | nil =>
      obtain rfl : last = first := runs
      refine ⟨fun place => Or.inr ⟨?_, rfl⟩, rfl⟩
      rintro source ⟨item, member, -⟩
      cases member
  | cons item rest induction =>
      obtain ⟨fresh, restNodup⟩ := List.nodup_cons.mp nodup
      obtain ⟨middle, ⟨front, world⟩, back⟩ := runs
      obtain ⟨copied, world'⟩ :=
        induction restNodup
          (fun one member other inRest =>
            apart one (List.mem_cons_of_mem _ member) other
              (List.mem_cons_of_mem _ inRest)) back
      refine ⟨fun place => ?_, world'.trans world⟩
      rcases copied place with ⟨source, ⟨other, inRest, enters⟩, same⟩ |
        ⟨free, same⟩
      · left
        refine ⟨source, ⟨other, List.mem_cons_of_mem _ inRest, enters⟩, ?_⟩
        have different : item ≠ other := fun same => fresh (same ▸ inRest)
        rcases front source with ⟨origin, enters', -⟩ | ⟨-, untouched⟩
        · exact
            (apart item List.mem_cons_self other
              (List.mem_cons_of_mem _ inRest) different _ _ _ _ enters' enters
              rfl).elim
        · rw [same, untouched]
      · rcases front place with ⟨source, enters, moved⟩ | ⟨free', untouched⟩
        · left
          exact
            ⟨source, ⟨item, List.mem_cons_self, enters⟩, same.trans moved⟩
        · right
          refine ⟨?_, same.trans untouched⟩
          rintro source ⟨one, member, enters⟩
          rcases List.mem_cons.mp member with rfl | inRest
          · exact free' source enters
          · exact free source ⟨one, inRest, enters⟩

end Steps

/-! ## Nodes -/

/-- The bytes that the 1-D copy of a node moves. -/
def NodeMoves (heap : Heap) (m : NodeId) (transfer : Transfer) : Prop :=
  ∃ direction copy, copyOf (heap.nodes m) = some (direction, copy) ∧
    CopyTransfers copy transfer

theorem nodeMoves_iff {m : NodeId} {direction : CopyDirection}
    {copy : CommandCopy1D} (held : copyOf (heap.nodes m) = some (direction, copy))
    (transfer : Transfer) :
    NodeMoves heap m transfer ↔ CopyTransfers copy transfer := by
  constructor
  · rintro ⟨direction', copy', held', moves⟩
    rw [held, Option.some.injEq, Prod.mk.injEq] at held'
    exact held'.2 ▸ moves
  · exact fun moves => ⟨direction, copy, held, moves⟩

/-- A node with a 1-D copy moves its bytes. -/
theorem performs_copy {m : NodeId} {direction : CopyDirection}
    {copy : CommandCopy1D}
    (held : copyOf (heap.nodes m) = some (direction, copy))
    {first last : Memory × World} :
    performs run heap m first last ↔ CopyStep (NodeMoves heap m) first last := by
  obtain ⟨type, command⟩ := copyOf_eq_some.mp held
  have copies : (copyDirection (.copy1D direction copy)).isSome := rfl
  rw [performs_command type command, execute_copy copies, CopyStep,
    funext fun transfer => propext (nodeMoves_iff held transfer)]
  rfl

/-- The bias of a copy tells where a byte comes from. -/
theorem source_eq {copy : CommandCopy1D} {source place : Place}
    (moves : CopyTransfers copy (source.1, source.2, place.1, place.2)) :
    source = (copy.srcDeviceUniqueId,
      place.2 + (copy.srcDeviceAddr - copy.dstDeviceAddr)) := by
  obtain ⟨offset, -, same⟩ := moves
  simp only [Prod.mk.injEq] at same
  obtain ⟨device, byte, -, byte'⟩ := same
  apply Prod.ext device
  rw [byte, byte']
  grind

/-! ## Graphs -/

/-- No copy overwrites what a copy reads that is not ordered with it. -/
def Unclobbered (heap : Heap) (graph : GraphId) : Prop :=
  ∀ m n command command', Commands heap graph m → Commands heap graph n →
    m ≠ n → ¬ TransGen (heap.Link graph) m n →
      ¬ TransGen (heap.Link graph) n m →
        (heap.nodes m).command = some command →
          (heap.nodes n).command = some command' →
            Unread (CommandTransfers command) (CommandTransfers command')

section Merged

variable (formed : heap.WellFormed graph)
  (entryEmpty : (heap.nodes (heap.graphs graph).entry).type = .empty)
  (merged : CopiesMerged heap graph place after)

include merged

/-- The members of a class have the devices and the bias of their survivor. -/
theorem exists_parallel {n : NodeId} {direction : CopyDirection}
    {copy : CommandCopy1D}
    (held : copyOf (heap.nodes n) = some (direction, copy)) {m : NodeId}
    (reachable : heap.Reachable graph m) (here : place m = n) :
    ∃ direction' copy', copyOf (heap.nodes m) = some (direction', copy') ∧
      (Mlir.Copy1DAttrs.ofCopy direction' copy').Parallel
        (Mlir.Copy1DAttrs.ofCopy direction copy) := by
  by_cases same : m = n
  · subst same
    exact ⟨direction, copy, held, rfl, rfl, rfl⟩
  · subst here
    obtain ⟨direction', copy', direction'', copy'', held', held'', parallel⟩ :=
      (merged.kin m reachable (Ne.symm same)).copies
    rw [held, Option.some.injEq, Prod.mk.injEq] at held''
    obtain ⟨rfl, rfl⟩ := held''
    exact ⟨direction', copy', held', parallel⟩

/-- Two copies of a class that move a byte to one place take it from one place. -/
theorem sources_agree {n : NodeId} {direction : CopyDirection}
    {copy : CommandCopy1D}
    (held : copyOf (heap.nodes n) = some (direction, copy)) {m : NodeId}
    (reachable : heap.Reachable graph m) (here : place m = n)
    {source place' : Place}
    (moves : NodeMoves heap m (source.1, source.2, place'.1, place'.2)) :
    source = (copy.srcDeviceUniqueId,
      place'.2 + (copy.srcDeviceAddr - copy.dstDeviceAddr)) := by
  obtain ⟨direction', copy', held', parallel⟩ :=
    exists_parallel merged held reachable here
  rw [source_eq ((nodeMoves_iff held' _).mp moves)]
  have device := Mlir.duidAttr_injective parallel.srcDuid_eq
  have bias : copy'.srcDeviceAddr - copy'.dstDeviceAddr =
      copy.srcDeviceAddr - copy.dstDeviceAddr := parallel.bias_eq
  rw [device, bias]

include formed entryEmpty

/-- No path joins two nodes of a class. -/
theorem class_unordered {m n : NodeId} (same : place m = place n) :
    ¬ TransGen (heap.Link graph) m n := by
  intro path
  have cycle := merged.transGen_place entryEmpty path
  rw [same] at cycle
  exact
    formed.acyclic (place n)
      (TransGen.mono
        (fun source target link =>
          ((merged.link_iff entryEmpty source target).mp link).1) _ _ cycle)

/-- A survivor does what its class does in any order. -/
theorem performs_merged (unclobbered : Unclobbered heap graph) {n : NodeId}
    (reachable : heap.Reachable graph n) (stays : place n = n)
    {members : List NodeId} (nodup : members.Nodup)
    (memIff : ∀ m, m ∈ members ↔ heap.Reachable graph m ∧ place m = n)
    {first last : Memory × World} :
    performs run after n first last ↔
      Runs (performs run heap) members first last := by
  obtain ⟨typeEq, deviceEq⟩ := merged.object_eq n reachable stays
  cases held : copyOf (heap.nodes n) with
  | none =>
      have only : ∀ m, m ∈ members ↔ m ∈ [n] := by
        intro m
        rw [memIff, List.mem_singleton]
        constructor
        · rintro ⟨mReachable, here⟩
          by_contra other
          obtain ⟨_, _, direction, copy, -, held', -⟩ :=
            (merged.kin m mReachable (here.symm ▸ Ne.symm other)).copies
          rw [here, held] at held'
          cases held'
        · rintro rfl
          exact ⟨reachable, stays⟩
      have alone : members = [n] :=
        List.perm_singleton.mp
          ((List.perm_ext_iff_of_nodup nodup (List.nodup_singleton n)).mpr
            only)
      rw [alone, performs_congr typeEq deviceEq
        (merged.other_eq n reachable stays held)]
      constructor
      · exact fun acts => ⟨last, acts, rfl⟩
      · rintro ⟨middle, acts, ends⟩
        obtain rfl : last = middle := ends
        exact acts
  | some copy =>
      obtain ⟨direction, copy⟩ := copy
      obtain ⟨copy', command, -, movesIff⟩ :=
        merged.copy_eq n reachable stays direction copy held
      obtain ⟨type, -⟩ := copyOf_eq_some.mp held
      have copies : (copyDirection (.copy1D direction copy')).isSome := rfl
      have together : ∀ transfer,
          CommandTransfers (.copy1D direction copy') transfer ↔
            Together (NodeMoves heap) members transfer := by
        intro transfer
        refine (movesIff transfer).trans (exists_congr fun m => ?_)
        rw [memIff, and_assoc]
        rfl
      have apart : ∀ one ∈ members, ∀ other ∈ members, one ≠ other →
          Unread (NodeMoves heap one) (NodeMoves heap other) := by
        intro one oneIn other otherIn different source target source' target'
          moves moves'
        obtain ⟨oneReachable, oneHere⟩ := (memIff one).mp oneIn
        obtain ⟨otherReachable, otherHere⟩ := (memIff other).mp otherIn
        obtain ⟨_, _, oneHeld, oneMoves⟩ := moves
        obtain ⟨_, _, otherHeld, otherMoves⟩ := moves'
        obtain ⟨oneType, oneCommand⟩ := copyOf_eq_some.mp oneHeld
        obtain ⟨otherType, otherCommand⟩ := copyOf_eq_some.mp otherHeld
        exact
          unclobbered one other _ _ ⟨oneReachable, oneType⟩
            ⟨otherReachable, otherType⟩ different
            (class_unordered formed entryEmpty merged
              (oneHere.trans otherHere.symm))
            (class_unordered formed entryEmpty merged
              (otherHere.trans oneHere.symm))
            oneCommand otherCommand source target source' target' oneMoves
            otherMoves
      have steps : ∀ m ∈ members, ∀ first last : Memory × World,
          performs run heap m first last ↔
            CopyStep (NodeMoves heap m) first last := by
        intro m member first last
        obtain ⟨mReachable, here⟩ := (memIff m).mp member
        obtain ⟨direction', copy'', held', -⟩ :=
          exists_parallel merged held mReachable here
        exact performs_copy held'
      rw [performs_command (typeEq.trans type) command, execute_copy copies,
        funext fun transfer => propext (together transfer)]
      constructor
      · intro step
        refine (runs_of_together nodup apart ?_ step).mono ?_
        · intro one oneIn other otherIn source source' target moves moves'
          obtain ⟨oneReachable, oneHere⟩ := (memIff one).mp oneIn
          obtain ⟨otherReachable, otherHere⟩ := (memIff other).mp otherIn
          exact
            (sources_agree merged held oneReachable oneHere moves).trans
              (sources_agree merged held otherReachable otherHere moves').symm
        · exact fun m member first last => (steps m member first last).mpr
      · intro runs
        exact
          together_of_runs nodup apart
            (runs.mono fun m member first last =>
              (steps m member first last).mp)

end Merged

/-- Merging copies keeps the nodes that stay, and their commands but for these. -/
theorem kept_of_merged (formed : heap.WellFormed graph)
    (plain : Plain heap graph)
    (merged : CopiesMerged heap graph place after) :
    Kept graph heap after where
  formed :=
    merged.wellFormed plain.entry_empty formed plain.exit_empty
  remains := fun n reachable =>
    ((merged.reachable_iff plain.entry_empty n).mp reachable).1
  entry_eq := merged.entry_eq
  exit_eq := merged.exit_eq
  node := by
    intro n live
    obtain ⟨reachable, stays⟩ :=
      (merged.reachable_iff plain.entry_empty n).mp live
    obtain ⟨type, device⟩ := merged.object_eq n reachable stays
    cases held : copyOf (heap.nodes n) with
    | none => exact .of_eq type device (merged.other_eq n reachable stays held)
    | some copy =>
        obtain ⟨direction, copy⟩ := copy
        obtain ⟨copy', command, -⟩ :=
          merged.copy_eq n reachable stays direction copy held
        have isCommand := type.trans (copyOf_eq_some.mp held).1
        exact {
          type_eq := type
          device_eq := device
          executable := by
            intro _
            refine ⟨Or.inr ⟨isCommand, by rw [command]; rfl⟩, ?_⟩
            intro direction' copy'' same
            rw [command] at same
            cases same
          batch := by
            intro sub same
            rw [command] at same
            cases same }

/--
Merged copies do nothing new when no copy overwrites what another one reads, and
all that the graph could do if it is free of races.
-/
theorem refines_of_merged (formed : heap.WellFormed graph)
    (plain : Plain heap graph) (unclobbered : Unclobbered heap graph)
    (merged : CopiesMerged heap graph place after) :
    Refines run graph heap after (RaceFree run heap graph) := by
  have entryEmpty := plain.entry_empty
  have kept := kept_of_merged formed plain merged
  obtain ⟨domain, domainIff, -⟩ := Heap.exists_domain formed.allocated
  let members := fun n : NodeId => domain.toList.filter fun m => place m = n
  have nodup : ∀ n, (members n).Nodup := fun n =>
    domain.nodup_toList.filter _
  have memIff : ∀ n m, m ∈ members n ↔
      heap.Reachable graph m ∧ place m = n := by
    intro n m
    rw [List.mem_filter, decide_eq_true_eq, Finset.mem_toList]
    exact and_congr_left' (domainIff m)
  have survivors : ∀ {n}, Commands after graph n →
      heap.Reachable graph n ∧ place n = n := fun inside =>
    (merged.reachable_iff entryEmpty _).mp inside.1
  -- A survivor is a command when the nodes of its class are.
  have commands : ∀ {n m}, Commands after graph n →
      heap.Reachable graph m → place m = n → Commands heap graph m := by
    intro n m inside reachable here
    refine ⟨reachable, ?_⟩
    by_cases same : place m = m
    · obtain rfl : m = n := same.symm.trans here
      rw [← (merged.object_eq m reachable same).1]
      exact inside.2
    · obtain ⟨_, _, _, _, held, -⟩ := (merged.kin m reachable same).copies
      exact (copyOf_eq_some.mp held).1
  have placed : ∀ m, Commands heap graph m →
      Commands after graph (place m) := by
    rintro m ⟨reachable, type⟩
    obtain ⟨reachable', stays⟩ := merged.placed m reachable
    refine
      ⟨(merged.reachable_iff entryEmpty _).mpr ⟨reachable', stays⟩, ?_⟩
    rw [(merged.object_eq _ reachable' stays).1]
    by_cases same : place m = m
    · rwa [same]
    · obtain ⟨_, _, _, _, -, held, -⟩ := (merged.kin m reachable same).copies
      exact (copyOf_eq_some.mp held).1
  have expand : ∀ {part}, Sorted (Commands after graph) (after.Link graph) part →
      Sorted (Commands heap graph) (heap.Link graph)
        (part.flatMap members) := by
    intro part sorted
    refine sorted.flatMap place members placed ?_ ?_
    · intro n inside
      refine ⟨nodup n, fun m => ?_, ?_⟩
      · rw [memIff]
        constructor
        · rintro ⟨reachable, here⟩
          exact ⟨commands inside reachable here, here⟩
        · rintro ⟨isCommand, here⟩
          exact ⟨isCommand.1, here⟩
      · apply List.Pairwise.imp_of_mem _ (nodup n)
        intro one other oneIn otherIn _
        exact
          class_unordered formed entryEmpty merged
            (((memIff n other).mp otherIn).2.trans
              ((memIff n one).mp oneIn).2.symm)
    · intro source target _ _ path _
      exact merged.transGen_place entryEmpty path
  exact {
    toKept := kept
    sound := by
      intro first last outcome
      rw [outcome_iff formed]
      obtain ⟨part, sorted, runs⟩ := (outcome_iff kept.formed).mp outcome
      refine ⟨part.flatMap members, expand sorted, Runs.flatMap ?_ runs⟩
      intro n member first last acts
      obtain ⟨reachable, stays⟩ := survivors ((sorted.mem_iff n).mp member)
      exact
        (performs_merged formed entryEmpty merged unclobbered reachable stays
          (nodup n) (memIff n)).mp acts
    complete := by
      intro raceFree first last outcome
      rw [outcome_iff kept.formed]
      obtain ⟨order, schedule⟩ := exists_schedule kept.formed
      have sorted : Sorted (Commands after graph) (after.Link graph)
          (order.filter fun n => (after.nodes n).type = .command) :=
        schedule.sorted.filter fun n => (after.nodes n).type = .command
      obtain ⟨part, sorted', runs⟩ := (outcome_iff formed).mp outcome
      refine ⟨_, sorted, Runs.of_flatMap ?_
        ((expand sorted).runs sorted' ?_ runs)⟩
      · intro n member first last acts
        obtain ⟨reachable, stays⟩ := survivors ((sorted.mem_iff n).mp member)
        exact
          (performs_merged formed entryEmpty merged unclobbered reachable stays
            (nodup n) (memIff n)).mpr acts
      · exact raceFree }

/-- The copy-fuse pass of the dialect returns and refines. -/
theorem mlirCopyFuse_refines (tools : Toolchain)
    (formed : heap.WellFormed graph) (ready : heap.WalkReady graph)
    (plain : Plain heap graph)
    (unwrapped : Mlir.SourcesUnwrapped heap graph)
    (unclobbered : Unclobbered heap graph) :
    ∃ after, commandGraphOptimize tools .mlir heap graph .copyFuse = some after ∧
      Refines run graph heap after (RaceFree run heap graph) := by
  obtain ⟨indexed, cg, fused, after, place, imports, fuses, exports, merged⟩ :=
    Mlir.copyFuse_merged formed ready plain unwrapped tools.getUsers_perm
  refine ⟨after, ?_, refines_of_merged formed plain unclobbered merged⟩
  show optimizeCopyFuse tools heap graph = some after
  simp only [optimizeCopyFuse, imports, Option.bind_eq_bind, Option.bind_some,
    fuses, exports]

/--
The copy-fuse pass of the dialect returns.  The graph that it leaves does nothing
that the original could not do, and without races it does all that this one does.
-/
theorem copyFuse_sound (tools : Toolchain)
    (run : Effect (Memory × World)) (formed : heap.WellFormed graph)
    (ready : heap.WalkReady graph) (plain : Plain heap graph)
    (unwrapped : Mlir.SourcesUnwrapped heap graph)
    (unclobbered : Unclobbered heap graph) :
    ∃ after,
      commandGraphOptimize tools .mlir heap graph .copyFuse = some after ∧
        (∀ first last, Outcome run after graph first last →
          Outcome run heap graph first last) ∧
          (RaceFree run heap graph → ∀ first last,
            Outcome run heap graph first last →
              Outcome run after graph first last) := by
  obtain ⟨after, ran, refines⟩ :=
    mlirCopyFuse_refines tools formed ready plain unwrapped unclobbered
  exact ⟨after, ran, refines.sound, refines.complete⟩

/-! ## Copies between different devices -/

/-- The devices of a copy. -/
def copyDevices : Command → Option (DeviceUniqueId × DeviceUniqueId)
  | .copy1D _ copy => some (copy.srcDeviceUniqueId, copy.dstDeviceUniqueId)
  | .copy2D _ copy => some (copy.srcDeviceUniqueId, copy.dstDeviceUniqueId)
  | _ => none

theorem copyDevices_eq {command : Command} {transfer : Transfer}
    (moves : CommandTransfers command transfer) :
    copyDevices command = some (transfer.1, transfer.2.2.1) := by
  cases command with
  | copy1D direction copy =>
      obtain ⟨offset, -, rfl⟩ := moves
      rfl
  | copy2D direction copy =>
      obtain ⟨i, -, j, -, b, -, rfl⟩ := moves
      rfl
  | _ => exact moves.elim

/-- No copy reads the memory of a device that a copy writes. -/
def splitDevices (command command' : Option Command) : Bool :=
  match command.bind copyDevices, command'.bind copyDevices with
  | some (_, written), some (read, _) => written ≠ read
  | _, _ => true

theorem unclobbered_of_numbered (numbered : heap.Numbered graph)
    (all : ∀ m : Nat, m < heap.nodeCount → ∀ n : Nat, n < heap.nodeCount →
      splitDevices (heap.nodes m).command (heap.nodes n).command = true) :
    Unclobbered heap graph := by
  rintro m n command command' inside inside' - - - held held' source place
    source' place' moves moves' rfl
  have split :=
    all m (numbered.lt_of_reachable inside.1) n
      (numbered.lt_of_reachable inside'.1)
  simp [held, held', splitDevices, copyDevices_eq moves,
    copyDevices_eq moves'] at split

theorem copySiblings_optimizable : Optimizable Mlir.copySiblings 0 :=
  .of_numbered (by decide) (by decide) (by decide) rfl rfl

theorem copySiblings_unwrapped : Mlir.SourcesUnwrapped Mlir.copySiblings 0 :=
  Mlir.sourcesUnwrapped_of_numbered (by decide) (by decide)

theorem copySiblings_unclobbered : Unclobbered Mlir.copySiblings 0 :=
  unclobbered_of_numbered (by decide) (by decide)

theorem copyFuse_sound_copySiblings :
    ∃ after,
      commandGraphOptimize keeping .mlir Mlir.copySiblings 0 .copyFuse =
          some after ∧
        ∀ first last, Outcome traced after 0 first last →
          Outcome traced Mlir.copySiblings 0 first last := by
  obtain ⟨after, ran, sound, -⟩ :=
    copyFuse_sound keeping traced copySiblings_optimizable.formed
      copySiblings_optimizable.ready copySiblings_optimizable.plain
      copySiblings_unwrapped copySiblings_unclobbered
  exact ⟨after, ran, sound⟩

end Cgir.Optimizer
