import Cgir.Library.UnionFind
import Cgir.Model.Iterators

/-!
# The batch pass

`command_graph_t::pass_batch`: find the islands of same-device nodes by a
union-find flood-fill and by folding false twins, materialize each island with
two or more commands as a BATCH node over a sub-graph of the very same nodes,
and rewire the boundaries.

The iteration order of the hash maps of the source is a parameter.
-/

namespace Cgir.Pass.Batch

open Cgir.Library
open Cgir.Model

/-! ## The nodes of the pass -/

/--
Entry, exit, nested graphs and existing batches are opaque boundaries that are
never grouped.
-/
def boundary (heap : Heap) (graph : GraphId) (u : NodeId) : Bool :=
  u = (heap.graphs graph).entry || u = (heap.graphs graph).exit ||
    (heap.nodes u).type = .commandGraph ||
      ((heap.nodes u).type = .command &&
        (heap.nodes u).command.any Command.isBatch)

/-- `nodes[i].data.cand`. -/
def cand (iterators : Iterators) (i : Nat) : Bool :=
  !boundary iterators.heap iterators.graph (iterators.node i)

/-! ## Union-find -/

/-- `nodes[i].data.parent`. -/
abbrev Parents := Nat → Nat

def find (iterators : Iterators) (parent : Parents) (x : Nat) :
    Option (Nat × Parents) :=
  UnionFind.find iterators.count parent x

def unite (iterators : Iterators) (parent : Parents) (a b : Nat) :
    Option Parents :=
  UnionFind.unite iterators.count parent a b

/-! ## Flood-fill along same-device edges -/

/-- One successor of node `i`. -/
def floodEdge (iterators : Iterators) (i : Nat) (parent : Parents)
    (s : NodeId) : Option Parents :=
  let j := iterators.index s
  if cand iterators j &&
      iterators.device (iterators.node i) = iterators.device s then
    unite iterators parent i j
  else
    some parent

/-- One node. -/
def floodNode (iterators : Iterators) (parent : Parents) (i : Nat) :
    Option Parents :=
  if !cand iterators i then
    some parent
  else
    (iterators.heap.successors (iterators.node i)).foldlM
      (floodEdge iterators i) parent

def flood (iterators : Iterators) : Option Parents :=
  (List.range iterators.count).foldlM (floodNode iterators) id

/-! ## Folding false twins -/

/-- The neighbour islands of every island root. -/
structure Neighbours where
  rpred : Nat → Finset Nat
  rsucc : Nat → Finset Nat

/-- One edge of the quotient, out of the island `ri`. -/
def quotientEdge (iterators : Iterators) (ri : Nat)
    (state : Parents × Neighbours) (s : NodeId) :
    Option (Parents × Neighbours) := do
  let (rj, parent) ← find iterators state.1 (iterators.index s)
  if ri ≠ rj then
    return (parent,
      { rsucc :=
          Function.update state.2.rsucc ri (insert rj (state.2.rsucc ri))
        rpred :=
          Function.update state.2.rpred rj (insert ri (state.2.rpred rj)) })
  else
    return (parent, state.2)

/-- The edges out of one node. -/
def quotientNode (iterators : Iterators) (state : Parents × Neighbours)
    (i : Nat) : Option (Parents × Neighbours) := do
  let (ri, parent) ← find iterators state.1 i
  (iterators.heap.successors (iterators.node i)).foldlM
    (quotientEdge iterators ri) (parent, state.2)

def quotient (iterators : Iterators) (parent : Parents) :
    Option (Parents × Neighbours) :=
  (List.range iterators.count).foldlM (quotientNode iterators)
    (parent, { rpred := fun _ => ∅, rsucc := fun _ => ∅ })

/-- The key of an island: its device and its neighbour islands. -/
abbrev Key := DeviceUniqueId × Finset Nat × Finset Nat

def twinKey (iterators : Iterators) (neighbours : Neighbours) (i : Nat) : Key :=
  (iterators.device (iterators.node i), neighbours.rpred i, neighbours.rsucc i)

/-- The state of a round of twin folding. -/
structure TwinState where
  parent : Parents
  seen : List (Key × Nat)
  changed : Bool

/-- One island root: fold it into the first one seen with the same key. -/
def foldTwin (iterators : Iterators) (neighbours : Neighbours)
    (state : TwinState) (i : Nat) : Option TwinState :=
  if !cand iterators i then
    some state
  else do
    let (ri, parent) ← find iterators state.parent i
    if ri ≠ i then
      return { state with parent := parent }
    else
      let key := twinKey iterators neighbours i
      match state.seen.find? (fun entry => entry.1 = key) with
      | none =>
          return { state with
            parent := parent
            seen := state.seen ++ [(key, i)] }
      | some (_, first) =>
          let parent ← unite iterators parent i first
          return { state with parent := parent, changed := true }

/-- One round: recompute the quotient, then fold twins. -/
def foldTwins (iterators : Iterators) (parent : Parents) :
    Option TwinState := do
  let (parent, neighbours) ← quotient iterators parent
  (List.range iterators.count).foldlM (foldTwin iterators neighbours)
    { parent := parent, seen := [], changed := false }

/-- `while (changed)`. -/
def foldAllTwins (iterators : Iterators) : Nat → Parents → Option Parents
  | 0, _ => none
  | fuel + 1, parent => do
      let state ← foldTwins iterators parent
      if state.changed then
        foldAllTwins iterators fuel state.parent
      else
        return state.parent

/-! ## Grouping -/

/-- The map from island roots to their members. -/
structure Islands where
  keys : List Nat
  members : Nat → List NodeId

/-- `island[find(i)].push_back(nodes[i].node)`. -/
def groupNode (iterators : Iterators) (state : Parents × Islands) (i : Nat) :
    Option (Parents × Islands) :=
  if !cand iterators i then
    some state
  else do
    let (ri, parent) ← find iterators state.1 i
    return (parent,
      { keys :=
          if ri ∈ state.2.keys then state.2.keys else state.2.keys ++ [ri]
        members :=
          Function.update state.2.members ri
            (state.2.members ri ++ [iterators.node i]) })

def group (iterators : Iterators) (parent : Parents) : Option Islands := do
  let (_, islands) ←
    (List.range iterators.count).foldlM (groupNode iterators)
      (parent, { keys := [], members := fun _ => [] })
  return islands

/-- Islands of the graph: flood-fill, twin folding, grouping. -/
def detect (iterators : Iterators) : Option Islands := do
  let parent ← flood iterators
  let parent ← foldAllTwins iterators (iterators.count + 1) parent
  group iterators parent

/-! ## Materialization -/

/-- `island_mat_t`. -/
structure IslandMat where
  sub : GraphId
  sEntry : NodeId
  sExit : NodeId
  deriving DecidableEq, Repr

/-- The heap, `nodes[i].data.rep` and the materialized islands. -/
structure Materialized where
  heap : Heap
  rep : Nat → NodeId
  mat : List (Nat × IslandMat)

/-- `m->type == COMMAND_GRAPH_NODE_TYPE_COMMAND`. -/
def isCommand (heap : Heap) (m : NodeId) : Bool :=
  (heap.nodes m).type = .command

/-- The device of the first command of an island, or of its root. -/
def islandDevice (iterators : Iterators) (key : Nat)
    (members : List NodeId) : DeviceUniqueId :=
  match members.find? (isCommand iterators.heap) with
  | some m => iterators.device m
  | none => iterators.device (iterators.node key)

/-- One island: nothing unless it has two commands. -/
def materialize (iterators : Iterators) (members : Nat → List NodeId)
    (state : Materialized) (key : Nat) : Materialized :=
  if (members key).countP (isCommand iterators.heap) < 2 then
    state
  else
    let (sub, heap) := state.heap.commandGraphNew none
    let sEntry := (heap.graphs sub).entry
    let sExit := (heap.graphs sub).exit
    -- Drop the default edge between the ends.
    let heap := (heap.setSuccessors sEntry []).setPredecessors sExit []
    let (batch, heap) :=
      heap.commandGraphNodeNew (islandDevice iterators key (members key))
        .command
    { heap := heap.setCommand batch (.batch sub)
      rep :=
        (members key).foldl
          (fun rep m => Function.update rep (iterators.index m) batch)
          state.rep
      mat :=
        state.mat ++ [(key, { sub := sub, sEntry := sEntry, sExit := sExit })] }

/-! ## Rewiring -/

/-- All edges of the graph, taken before any of them is moved. -/
def edges (heap : Heap) (nodes : List NodeId) : List (NodeId × NodeId) :=
  nodes.flatMap fun u => (heap.successors u).map fun v => (u, v)

/-- Move one boundary edge to the representatives of its ends. -/
def rewireEdge (iterators : Iterators) (rep : Nat → NodeId) (heap : Heap)
    (edge : NodeId × NodeId) : Heap :=
  let ru := rep (iterators.index edge.1)
  let rv := rep (iterators.index edge.2)
  if ru = rv then
    heap
  else if ru = edge.1 && rv = edge.2 then
    heap
  else
    let heap := heap.detach edge.1 edge.2
    if rv ∈ heap.successors ru then heap else heap.precedes ru rv

/-- Connect one member to the ends of its sub-graph. -/
def connectMember (island : IslandMat) (heap : Heap) (m : NodeId) : Heap :=
  let heap :=
    if heap.predecessors m = [] then heap.precedes island.sEntry m else heap
  if heap.successors m = [] then heap.precedes m island.sExit else heap

/-- Connect the sources and sinks of one island. -/
def connectIsland (members : Nat → List NodeId) (heap : Heap)
    (entry : Nat × IslandMat) : Heap :=
  (members entry.1).foldl (connectMember entry.2) heap

/-! ## The pass -/

/-- Materialize the islands in the given order, rewire and connect. -/
def build (islandOrder : List Nat → List Nat)
    (matOrder : List (Nat × IslandMat) → List (Nat × IslandMat))
    (iterators : Iterators) (islands : Islands) : Heap :=
  let state :=
    (islandOrder islands.keys).foldl
      (materialize iterators islands.members)
      { heap := iterators.heap, rep := iterators.node, mat := [] }
  let heap :=
    (edges state.heap iterators.nodes).foldl
      (rewireEdge iterators state.rep) state.heap
  (matOrder state.mat).foldl (connectIsland islands.members) heap

/-- `command_graph_t::pass_batch`. -/
def passBatch (islandOrder : List Nat → List Nat)
    (matOrder : List (Nat × IslandMat) → List (Nat × IslandMat))
    (heap : Heap) (graph : GraphId) : Option Heap := do
  let (heap, nodes) ← heap.createNodeIterators graph true
  let iterators : Iterators := { heap := heap, graph := graph, nodes := nodes }
  if nodes.length ≤ 2 then
    return heap
  else
    let islands ← detect iterators
    return build islandOrder matOrder iterators islands

end Cgir.Pass.Batch
