import Cgir.Library.SetVector
import Cgir.Mlir.Agreement
import Cgir.Pass.ReduceNode

/-!
# The reduce-node pass of the dialect

`ReduceNodePass` sweeps over the ops of the block.  An inner `cg.empty` whose
operands and uses are cheap to join is taken out: its users get its operands,
and the op is erased.  This eliminates a vertex of the block, as `remove` does
on the heap, so that both sweeps take the same decisions.

The order in which a token lists its users is a parameter.
-/

namespace Cgir.Mlir.ReduceNode

open Relation
open Cgir.Library
open Cgir.Model

/-! ## The source functions -/

/-- Drop the token of `e` from a user and connect the predecessors of `e`. -/
def rewireUser (e : OpId) (preds : List OpId) (cg : Graph) (user : OpId) :
    Graph :=
  let newops := SetVector.insertAll [] ((cg.operands user).filter (· ≠ e))
  cg.setOperands user (SetVector.insertAll newops preds)

/-- Take an op out of the block. -/
def bypass (getUsers : Graph → OpId → List OpId) (cg : Graph) (e : OpId) :
    Option Graph :=
  let preds := cg.operands e
  let users := SetVector.insertAll [] (getUsers cg e)
  (users.foldl (rewireUser e preds) cg).eraseUnused e

/-- One op of the block. -/
def reduceOp (getUsers : Graph → OpId → List OpId) (cg : Graph) (op : OpId) :
    Option Graph :=
  match (cg.ops op).kind with
  | .empty isEntry isExit =>
      if isEntry || isExit then
        some cg
      else
        let m := (cg.operands op).length
        let n := (getUsers cg op).length
        if m * n < 1 + m + n then bypass getUsers cg op else some cg
  | _ => some cg

/-- `ReduceNodePass::runOnOperation`. -/
def reduceNode (getUsers : Graph → OpId → List OpId) (cg : Graph) :
    Option Graph :=
  cg.body.foldlM (reduceOp getUsers) cg

/-- `command_graph_optimize_mlir` with the reduce-node pass. -/
def optimizeReduceNode (getUsers : Graph → OpId → List OpId) (heap : Heap)
    (graph : GraphId) : Option Heap := do
  let (heap, cg) ← importCommandGraph heap graph
  let cg ← reduceNode getUsers cg
  exportCommandGraph cg heap graph

/-! ## Taking an op out -/

section Bypass

variable {getUsers : Graph → OpId → List OpId}
  (usersPerm : ∀ cg token, (getUsers cg token).Perm (cg.users token))
  {cg : Graph} {live : OpId → Prop} {edge : OpId → OpId → Prop} {e : OpId}

/-- The operands of a user once it is rewired. -/
def rewired (cg : Graph) (e op : OpId) : List OpId :=
  SetVector.insertAll
    (SetVector.insertAll [] ((cg.operands op).filter (· ≠ e)))
    (cg.operands e)

theorem mem_rewired {op pred : OpId} :
    pred ∈ rewired cg e op ↔
      (pred ∈ cg.operands op ∧ pred ≠ e) ∨ pred ∈ cg.operands e := by
  simp [rewired]

/-- Different users are rewired independently of each other. -/
theorem rewireUsers_spec (cg : Graph) (e : OpId) {users : List OpId}
    (nodup : users.Nodup) :
    (users.foldl (rewireUser e (cg.operands e)) cg).body = cg.body ∧
      ∀ op, (users.foldl (rewireUser e (cg.operands e)) cg).ops op =
        if op ∈ users then (cg.ops op).withOperands (rewired cg e op)
        else cg.ops op := by
  refine
    Loop.foldl_invariant _
      (fun done (after : Graph) => after.body = cg.body ∧
        ∀ op, after.ops op =
          if op ∈ done then (cg.ops op).withOperands (rewired cg e op)
          else cg.ops op)
      users cg ?_ ?_
  · rintro done user rest after rfl ⟨bodyEq, opsEq⟩
    refine ⟨bodyEq, ?_⟩
    have fresh : user ∉ done := fun member =>
      (List.nodup_append.mp nodup).2.2 user member user List.mem_cons_self rfl
    have untouched : after.ops user = cg.ops user := by
      rw [opsEq, if_neg fresh]
    intro op
    rw [rewireUser, Graph.setOperands_ops]
    by_cases same : op = user
    · subst same
      have listed : op ∈ done ++ [op] := by simp
      rw [if_pos rfl, if_pos listed, Graph.operands, untouched]
      rfl
    · rw [if_neg same, opsEq]
      simp [same]
  · simp

include usersPerm

/-- The op is eliminated from the represented relation. -/
theorem bypass_spec (represents : cg.Represents live edge) (alive : live e)
    (loopless : ¬ edge e e) :
    ∃ after, bypass getUsers cg e = some after ∧ Pruned cg after ∧
      after.Represents (fun op => live op ∧ op ≠ e)
        (Digraph.Eliminate edge e) := by
  let users := SetVector.insertAll [] (getUsers cg e)
  let middle := users.foldl (rewireUser e (cg.operands e)) cg
  have usersNodup : users.Nodup := SetVector.nodup_insertAll List.nodup_nil _
  have memUsers : ∀ op, op ∈ users ↔ edge e op := by
    intro op
    rw [SetVector.mem_insertAll, (usersPerm cg e).mem_iff,
      represents.mem_users]
    exact or_iff_right List.not_mem_nil
  have memPreds : ∀ pred, pred ∈ cg.operands e ↔ edge pred e :=
    represents.mem_operands e alive
  obtain ⟨bodyEq, opsEq⟩ := rewireUsers_spec cg e usersNodup
  have operandsEq : ∀ op, middle.operands op =
      if op ∈ users then rewired cg e op else cg.operands op := by
    intro op
    rw [Graph.operands, opsEq]
    split <;> rfl
  have memOperands : ∀ op, live op → op ≠ e → ∀ pred,
      pred ∈ middle.operands op ↔ Digraph.Eliminate edge e pred op := by
    intro op opLive away pred
    have memBefore := represents.mem_operands op opLive pred
    rw [operandsEq]
    split
    · rename_i uses
      have step := (memUsers op).mp uses
      rw [mem_rewired, memBefore, memPreds]
      constructor
      · rintro (⟨direct, apart⟩ | into)
        · exact ⟨apart, away, Or.inl direct⟩
        · exact
            ⟨fun same => loopless (same ▸ into), away, Or.inr ⟨into, step⟩⟩
      · rintro ⟨apart, -, direct | ⟨into, -⟩⟩
        · exact Or.inl ⟨direct, apart⟩
        · exact Or.inr into
    · rename_i unused
      rw [memUsers] at unused
      rw [memBefore]
      constructor
      · intro direct
        refine ⟨?_, away, Or.inl direct⟩
        rintro rfl
        exact unused direct
      · rintro ⟨-, -, direct | ⟨-, step⟩⟩
        · exact direct
        · exact (unused step).elim
  have free : middle.users e = [] := by
    rw [List.eq_nil_iff_forall_not_mem]
    intro user uses
    obtain ⟨member, isOperand⟩ := Graph.mem_users.mp uses
    have userLive := (represents.mem_body user).mp (bodyEq ▸ member)
    by_cases same : user = e
    · subst same
      rw [operandsEq] at isOperand
      split at isOperand
      · rename_i uses
        exact loopless ((memUsers user).mp uses)
      · exact loopless ((memPreds user).mp isOperand)
    · exact ((memOperands user userLive same e).mp isOperand).1 rfl
  have nodup : middle.body.Nodup := bodyEq.symm ▸ represents.nodup
  refine ⟨middle.erase e, if_pos free, ⟨?_, ?_⟩, ?_⟩
  · exact bodyEq ▸ List.erase_sublist
  · intro op
    show (middle.ops op).withOperands [] = _
    rw [opsEq]
    split <;> rfl
  · exact {
      nodup := nodup.erase e
      mem_body := by
        intro op
        rw [Graph.erase, nodup.mem_erase_iff, bodyEq, represents.mem_body,
          and_comm]
      operands_nodup := by
        rintro op ⟨opLive, -⟩
        show (middle.operands op).Nodup
        rw [operandsEq]
        split
        · exact
            SetVector.nodup_insertAll
              (SetVector.nodup_insertAll List.nodup_nil _) _
        · exact represents.operands_nodup op opLive
      mem_operands := by
        rintro op ⟨opLive, away⟩
        exact memOperands op opLive away
      inside := by
        rintro pred op ⟨predAway, opAway, direct | ⟨into, out⟩⟩
        · obtain ⟨predLive, opLive⟩ := represents.inside pred op direct
          exact ⟨⟨predLive, predAway⟩, opLive, opAway⟩
        · exact
            ⟨⟨(represents.inside pred e into).1, predAway⟩,
              (represents.inside e op out).2, opAway⟩ }

end Bypass

/-! ## The sweep -/

section Sweep

variable {getUsers : Graph → OpId → List OpId}
  (usersPerm : ∀ cg token, (getUsers cg token).Perm (cg.users token))
  {heap state start : Heap} {iterators : Iterators} {cg now : Graph}
  (mirrors : Mirrors heap iterators cg) (imported : Imported iterators cg)

/-- What `create_node_iterators` without the ends lists of all nodes. -/
def inner (heap : Heap) (graph : GraphId) (nodes : List NodeId) :
    List NodeId :=
  nodes.filter fun n => !Heap.skipsNode (heap.graphs graph) false n

theorem mem_inner {graph : GraphId} {nodes : List NodeId} {n : NodeId} :
    n ∈ inner heap graph nodes ↔ n ∈ nodes ∧
      n ≠ (heap.graphs graph).entry ∧ n ≠ (heap.graphs graph).exit := by
  simp [inner, Heap.skipsNode]

theorem inner_append {graph : GraphId} (first second : List NodeId) :
    inner heap graph (first ++ second) =
      inner heap graph first ++ inner heap graph second :=
  List.filter_append first second

include mirrors in
/-- Removing the node of an op is taking the op out. -/
theorem linkOp_eliminate {removed : Heap} {u : OpId} (member : u ∈ cg.body)
    (link_iff : ∀ source target,
      removed.Link iterators.graph source target ↔
        Digraph.Eliminate (state.Link iterators.graph) (iterators.node u)
          source target) (pred op : OpId) :
    LinkOp iterators cg removed pred op ↔
      Digraph.Eliminate (LinkOp iterators cg state) u pred op := by
  have awayIff : ∀ {other}, other ∈ cg.body →
      (iterators.node other ≠ iterators.node u ↔ other ≠ u) :=
    fun otherMember =>
      not_congr
        ⟨mirrors.injective otherMember member, congrArg iterators.node⟩
  constructor
  · rintro ⟨predMember, opMember, link⟩
    obtain ⟨predAway, opAway, cases⟩ := (link_iff _ _).mp link
    rw [awayIff predMember] at predAway
    rw [awayIff opMember] at opAway
    refine ⟨predAway, opAway, ?_⟩
    rcases cases with direct | ⟨into, out⟩
    · exact Or.inl ⟨predMember, opMember, direct⟩
    · exact Or.inr ⟨⟨predMember, member, into⟩, member, opMember, out⟩
  · rintro ⟨predAway, opAway, ⟨predMember, opMember, direct⟩ |
      ⟨⟨predMember, -, into⟩, -, opMember, out⟩⟩
    · rw [← awayIff predMember] at predAway
      rw [← awayIff opMember] at opAway
      exact
        ⟨predMember, opMember,
          (link_iff _ _).mpr ⟨predAway, opAway, Or.inl direct⟩⟩
    · rw [← awayIff predMember] at predAway
      rw [← awayIff opMember] at opAway
      exact
        ⟨predMember, opMember,
          (link_iff _ _).mpr ⟨predAway, opAway, Or.inr ⟨into, out⟩⟩⟩

include usersPerm mirrors imported

/-- An inner op is taken out when its node is removed. -/
theorem reduceOp_spec {u : OpId} (member : u ∈ cg.body)
    (stateFormed : state.WellFormed iterators.graph)
    (inside : ∀ n, state.Reachable iterators.graph n →
      heap.Reachable iterators.graph n)
    (isInner : Pass.ReduceNode.Inner state iterators.graph
      (iterators.node u))
    (ends : (state.graphs iterators.graph).entry =
        (heap.graphs iterators.graph).entry ∧
      (state.graphs iterators.graph).exit =
        (heap.graphs iterators.graph).exit)
    (typeEq : ∀ n, (state.nodes n).type = (heap.nodes n).type)
    (follows : Follows iterators cg state now) :
    ∃ after, reduceOp getUsers now u = some after ∧
      Follows iterators cg
        (Pass.ReduceNode.reduceNode state (iterators.node u)) after := by
  obtain ⟨reachable, notEntry, notExit⟩ := isInner
  have preds :=
    (follows.operands_perm mirrors stateFormed inside member
      reachable).length_eq
  have succs :=
    (follows.users_perm mirrors stateFormed inside member
      reachable).length_eq
  rw [List.length_map] at preds succs
  rw [← (usersPerm now u).length_eq] at succs
  have kindEq : (now.ops u).kind = (cg.ops u).kind :=
    (congrArg Op.kind (follows.pruned.ops_eq u) :)
  have indexedEnds := Heap.unmarked_graphs mirrors.same iterators.graph
  rcases imported.kind_cases member with ⟨isEmpty, kind⟩ | ⟨isCommand, kind⟩
  · rw [ends.1, ← indexedEnds.1] at notEntry
    rw [ends.2, ← indexedEnds.2.1] at notExit
    rw [Heap.unmarked_type mirrors.same, ← typeEq] at isEmpty
    rw [decide_eq_false notEntry, decide_eq_false notExit] at kind
    by_cases cheap :
        (now.operands u).length * (getUsers now u).length <
          1 + (now.operands u).length + (getUsers now u).length
    · have removable :
          Pass.ReduceNode.Removable state (iterators.node u) := by
        rw [preds, succs] at cheap
        exact ⟨isEmpty, cheap⟩
      have loopless : ¬ LinkOp iterators cg state u u := fun loop =>
        stateFormed.acyclic _ (TransGen.single loop.2.2)
      obtain ⟨after, ran, pruned, represents⟩ :=
        bypass_spec usersPerm follows.represents ⟨member, reachable⟩ loopless
      rw [indexedEnds.1, ← ends.1] at notEntry
      rw [indexedEnds.2.1, ← ends.2] at notExit
      have removed :=
        Pass.ReduceNode.remove_spec stateFormed reachable notEntry notExit
      refine ⟨after, ?_, follows.pruned.trans pruned, ?_⟩
      · simp only [reduceOp, kindEq, kind, Bool.or_self]
        exact (if_pos cheap).trans ran
      · rw [Pass.ReduceNode.reduceNode, if_pos removable]
        refine represents.congr (fun op => ?_)
          (linkOp_eliminate mirrors member removed.link_iff)
        rw [ReachableOp, ReachableOp, removed.reachable_iff, and_assoc]
        apply and_congr_right
        intro opMember
        apply and_congr_right'
        exact
          not_congr
            ⟨mirrors.injective opMember member, congrArg iterators.node⟩
    · refine ⟨now, ?_, ?_⟩
      · simp only [reduceOp, kindEq, kind, Bool.or_self]
        exact if_neg cheap
      · rw [Pass.ReduceNode.reduceNode, if_neg]
        · exact follows
        · rintro ⟨-, cheap'⟩
          rw [preds, succs] at cheap
          exact cheap cheap'
  · refine ⟨now, ?_, ?_⟩
    · obtain ⟨command, -, kind⟩ := kind
      rw [reduceOp, kindEq, kind]
      cases command <;> rfl
    · rw [Pass.ReduceNode.reduceNode, if_neg]
      · exact follows
      · rintro ⟨isEmpty, -⟩
        rw [typeEq, ← Heap.unmarked_type mirrors.same, isCommand] at isEmpty
        cases isEmpty

omit usersPerm in
/-- The ends are left alone. -/
theorem reduceOp_end {u : OpId} (plain : Plain heap iterators.graph)
    (member : u ∈ cg.body)
    (isEnd : iterators.node u = (heap.graphs iterators.graph).entry ∨
      iterators.node u = (heap.graphs iterators.graph).exit)
    (pruned : Pruned cg now) : reduceOp getUsers now u = some now := by
  have kindEq : (now.ops u).kind = (cg.ops u).kind :=
    (congrArg Op.kind (pruned.ops_eq u) :)
  have indexedEnds := Heap.unmarked_graphs mirrors.same iterators.graph
  rcases imported.kind_cases member with ⟨-, kind⟩ | ⟨isCommand, -⟩
  · rw [indexedEnds.1, indexedEnds.2.1] at kind
    simp only [reduceOp, kindEq, kind]
    apply if_pos
    rw [Bool.or_eq_true, decide_eq_true_eq, decide_eq_true_eq]
    exact isEnd
  · rw [Heap.unmarked_type mirrors.same] at isCommand
    rcases isEnd with isEntry | isExit
    · rw [isEntry, plain.entry_empty] at isCommand
      cases isCommand
    · rw [isExit, plain.exit_empty] at isCommand
      cases isCommand

/-- Both sweeps take out the same nodes. -/
theorem reduceNode_spec (formed : heap.WellFormed iterators.graph)
    (plain : Plain heap iterators.graph)
    (same : start.unmarked = heap.unmarked) :
    ∃ after, reduceNode getUsers cg = some after ∧
      Follows iterators cg
        ((inner heap iterators.graph iterators.nodes).foldl
          Pass.ReduceNode.reduceNode start) after := by
  have startFormed : start.WellFormed iterators.graph := formed.congr same
  have startEnds := Heap.unmarked_graphs same iterators.graph
  have nodup : (inner heap iterators.graph iterators.nodes).Nodup :=
    mirrors.valid.nodup.filter _
  have allInner : ∀ n ∈ inner heap iterators.graph iterators.nodes,
      Pass.ReduceNode.Inner start iterators.graph n := by
    intro n member
    rw [mem_inner, mirrors.mem_nodes] at member
    rw [Pass.ReduceNode.inner_congr same]
    exact member
  obtain ⟨after, ran, follows⟩ :=
    Loop.foldlM_invariant (reduceOp getUsers)
      (fun done now => Follows iterators cg
        ((inner heap iterators.graph (done.map iterators.node)).foldl
          Pass.ReduceNode.reduceNode start) now)
      cg.body cg
      (by
        intro done u rest now split follows
        have member : u ∈ cg.body := by simp [split]
        rw [List.map_append, List.map_singleton, inner_append]
        by_cases isEnd : iterators.node u =
            (heap.graphs iterators.graph).entry ∨
          iterators.node u = (heap.graphs iterators.graph).exit
        · have skipped :
              inner heap iterators.graph [iterators.node u] = [] := by
            rw [List.eq_nil_iff_forall_not_mem]
            intro n isInner
            obtain ⟨single, notEntry, notExit⟩ := mem_inner.mp isInner
            rw [List.mem_singleton] at single
            subst single
            exact isEnd.elim notEntry notExit
          rw [skipped, List.append_nil]
          exact
            ⟨now, reduceOp_end mirrors imported plain member isEnd
              follows.pruned, follows⟩
        · rw [not_or] at isEnd
          have kept : inner heap iterators.graph [iterators.node u] =
              [iterators.node u] := by
            rw [inner, List.filter_eq_self]
            intro n single
            rw [List.mem_singleton] at single
            subst single
            simp [Heap.skipsNode, isEnd]
          have split' : inner heap iterators.graph iterators.nodes =
              inner heap iterators.graph (done.map iterators.node) ++
                iterators.node u ::
                  inner heap iterators.graph (rest.map iterators.node) := by
            rw [← mirrors.places, split, List.map_append, List.map_cons,
              ← List.singleton_append, inner_append, inner_append, kept,
              List.singleton_append]
          obtain ⟨simplified, isInner⟩ :=
            Pass.ReduceNode.sweep_at startFormed nodup allInner split'
          rw [kept, List.foldl_append, List.foldl_cons, List.foldl_nil]
          apply reduceOp_spec usersPerm mirrors imported member
            simplified.formed _ isInner
          · exact
              ⟨simplified.entry_eq.trans startEnds.1,
                simplified.exit_eq.trans startEnds.2.1⟩
          · intro n
            rw [(simplified.kept n).1, Heap.unmarked_type same]
          · exact follows
          · intro n reachable
            have before := simplified.remains n reachable
            rwa [Heap.reachable_congr same] at before)
      (by
        obtain ⟨pruned, represents⟩ := mirrors.follows formed
        refine ⟨pruned, represents.congr (fun op => ?_) fun pred op => ?_⟩
        · show _ ∧ start.Reachable _ _ ↔ _
          rw [Heap.reachable_congr same]
          rfl
        · show _ ∧ _ ∧ start.Link _ _ _ ↔ _
          rw [Heap.link_congr same]
          rfl)
  rw [mirrors.places] at follows
  exact ⟨after, ran, follows⟩

end Sweep

/--
Import, the pass of the dialect and export make the graph that the legacy pass
makes.
-/
theorem optimizeReduceNode_agrees {getUsers : Graph → OpId → List OpId}
    (usersPerm : ∀ cg token, (getUsers cg token).Perm (cg.users token))
    {heap : Heap} {graph : GraphId} (formed : heap.WellFormed graph)
    (ready : heap.WalkReady graph) (plain : Plain heap graph) :
    ∃ legacy result,
      Pass.ReduceNode.passReduceNode heap graph = some legacy ∧
        optimizeReduceNode getUsers heap graph = some result ∧
          SameGraph graph legacy result := by
  obtain ⟨indexed, nodes, cg, imports, listed, iterated, imported⟩ :=
    importCommandGraph_listed formed ready plain.importable
  obtain ⟨visited, all, inside, ranAll, ranInside, -⟩ :=
    Heap.createNodeIterators_order formed.allocated ready
  obtain ⟨rfl, rfl⟩ :=
    Prod.mk.inj (Option.some.inj (listed.symm.trans ranAll))
  obtain ⟨start, inner', listed', ran, same, -, nodup, memIff⟩ :=
    Pass.ReduceNode.exists_nodes formed ready
  obtain ⟨rfl, rfl⟩ :=
    Prod.mk.inj (Option.some.inj (listed'.symm.trans ranInside))
  have mirrors := imported.mirrors plain iterated
  obtain ⟨after, reduces, follows⟩ :=
    reduceNode_spec usersPerm mirrors imported formed plain same
  have simplified :=
    (Pass.ReduceNode.Simplified.of_unmarked formed same).trans
      (Pass.ReduceNode.sweep_spec (formed.congr same) nodup
        (by
          intro n member
          rw [Pass.ReduceNode.inner_congr same]
          exact (memIff n).mp member)).1
  obtain ⟨result, exports, agrees⟩ :=
    follows.export_spec formed mirrors simplified.formed simplified.remains
      simplified.entry_eq simplified.exit_eq simplified.kept
  refine ⟨_, result, ran, ?_, agrees⟩
  have exports' : exportCommandGraph after indexed graph = some result :=
    exports
  simp only [optimizeReduceNode, imports, Option.bind_eq_bind,
    Option.bind_some, reduces, exports']

end Cgir.Mlir.ReduceNode
