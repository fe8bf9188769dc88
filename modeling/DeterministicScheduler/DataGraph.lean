import DeterministicScheduler.Types
import DeterministicScheduler.Logic.Ancestry
import Mathlib

/-!
# Generated workloads

A workload is a tree of VMs, a list of writes between two of them, and for each
write a pipe that one VM creates and the spawns below it pass on. The generator
draws the tree and the writes at random and works out who creates and who passes
which pipe.

The graph library is a parameter. It counts nodes and edges from zero as they are
added, it reports the edges at a node in an order of its own, and it has a test for
cycles. `none` is a failed assertion, an `unwrap` of nothing or an index out of range.
-/
namespace DeterministicScheduler.DataGraph

/-- A directed graph whose nodes are the numbers below `nodes`. An edge is known by
its position. -/
structure Dag where
  nodes : ℕ
  edges : List (ℕ × ℕ)

namespace Dag

def addChild (g : Dag) (parent : ℕ) : Dag where
  nodes := g.nodes + 1
  edges := g.edges ++ [(parent, g.nodes)]

def edgeEndpoints (g : Dag) (e : ℕ) : Option (ℕ × ℕ) :=
  g.edges[e]?

end Dag

/-- The graph library. A walk over the parents or the children of a node comes to each of its
edges once, with the node at the other end. -/
structure Daggy where
  /-- Whether an edge can be added beside those there are. -/
  accepts : List (ℕ × ℕ) → ℕ × ℕ → Bool
  parents : Dag → ℕ → List (ℕ × ℕ)
  children : Dag → ℕ → List (ℕ × ℕ)
  mem_parents : ∀ {g n e p}, (e, p) ∈ parents g n ↔ g.edges[e]? = some (p, n)
  parents_nodup : ∀ g n, (parents g n).Nodup
  mem_children : ∀ {g n e c}, (e, c) ∈ children g n ↔ g.edges[e]? = some (n, c)
  children_nodup : ∀ g n, (children g n).Nodup

def Daggy.addEdge (daggy : Daggy) (g : Dag) (source target : ℕ) : Option (Dag × ℕ) :=
  if daggy.accepts g.edges (source, target) then
    some ({ g with edges := g.edges ++ [(source, target)] }, g.edges.length)
  else none

/-- All that is drawn at random: an earlier node for each spawn, two endpoints for
each attempt at each write, and the bytes of each write. -/
structure Draws where
  previous : ℕ → ℕ
  endpoints : ℕ → ℕ → ℕ × ℕ
  payload : ℕ → Bytes
  payload_length : ∀ e, 1 ≤ (payload e).length ∧ (payload e).length ≤ 1024

/-- A number below `n`. -/
def genRange (draw n : ℕ) : ℕ :=
  draw % n

/-- A number below `n` other than `first`, which is drawn until there is one. -/
def genOther (draw n first : ℕ) : ℕ :=
  if draw % (n - 1) < first then draw % (n - 1) else draw % (n - 1) + 1

/-- The tree of VMs: each is spawned by one of those there are. -/
def drawSpawnDag (draws : Draws) : ℕ → Dag
  | 0 => { nodes := 1, edges := [] }
  | k + 1 =>
    let dag := drawSpawnDag draws k
    dag.addChild (genRange (draws.previous k) dag.nodes)

section Writes

variable (daggy : Daggy)

/-- Attempts at one write, until an edge is accepted. -/
def attemptWrite (draw : ℕ → ℕ × ℕ) (dag : Dag) : ℕ → ℕ → Option (Dag × ℕ)
  | 0, _ => none
  | attempts + 1, k =>
    let firstIndex := genRange (draw k).1 dag.nodes
    let secondIndex := genOther (draw k).2 dag.nodes firstIndex
    match daggy.addEdge dag firstIndex secondIndex with
    | some added => some added
    | none => attemptWrite draw dag attempts (k + 1)

/-- Writes one after another, until all attempts at one are refused. -/
def drawWriteEdges (draws : Draws) (convergingThreshold : ℕ) :
    ℕ → ℕ → Dag → List ℕ → Dag × List ℕ
  | 0, _, dag, writeEdges => (dag, writeEdges)
  | writes + 1, k, dag, writeEdges =>
    match attemptWrite daggy (draws.endpoints k) dag convergingThreshold 0 with
    | some (dag, e) =>
      drawWriteEdges draws convergingThreshold writes (k + 1) dag (writeEdges ++ [e])
    | none => (dag, writeEdges)

def drawWriteDag (draws : Draws) (spawns writes convergingThreshold : ℕ) : Dag × List ℕ :=
  if 0 < spawns then
    drawWriteEdges daggy draws convergingThreshold writes 0
      { nodes := spawns + 1, edges := [] } []
  else ({ nodes := spawns + 1, edges := [] }, [])

end Writes

abbrev SpawnOps := Std.ExtTreeMap ℕ (List ℕ)

abbrev PipesOps := Std.ExtTreeMap ℕ (List (ℕ × ℕ))

/-- The pipes that each spawn passes, by its edge, and the pairs that each VM
creates. -/
structure Tables where
  spawnOps : SpawnOps
  pipesOps : PipesOps

section Routing

variable (daggy : Daggy)

/-- Visit the tree breadth first. Every node is visited once, so their number is fuel
enough. -/
def traverse (dag : Dag) : ℕ → List ℕ → Tables → List ℕ → Option (Tables × List ℕ)
  | _, [], tables, spawnEdges => some (tables, spawnEdges)
  | 0, _ :: _, _, _ => none
  | fuel + 1, node :: processing, tables, spawnEdges =>
    let children := (daggy.children dag node).reverse
    traverse dag fuel (processing ++ children.map Prod.snd)
      { spawnOps := children.foldl (fun ops child => ops.insert child.1 []) tables.spawnOps
        pipesOps := tables.pipesOps.insert node [] }
      (spawnEdges ++ children.map Prod.fst)

/-- One side of the search for the ancestor goes up, unless it is at the root. -/
def moveUp (parents : List (ℕ × ℕ)) (node : ℕ) (visited : List ℕ) : ℕ × List ℕ :=
  match parents with
  | [(_, parent)] => (parent, parent :: visited)
  | _ => (node, visited)

/-- Both sides go up in step until one comes to a node that the other has visited. -/
def ancestorLoop (dag : Dag) : ℕ → ℕ → ℕ → List ℕ → List ℕ → Option ℕ
  | 0, _, _, _, _ => none
  | fuel + 1, a, b, setA, setB =>
    let parentsA := daggy.parents dag a
    let parentsB := daggy.parents dag b
    if (parentsA.length = 1 ∧ parentsB.length = 1) ∨ (parentsA = [] ∧ parentsB.length = 1) ∨
        (parentsA.length = 1 ∧ parentsB = []) then
      let (a, setA) := moveUp parentsA a setA
      let (b, setB) := moveUp parentsB b setB
      if parentsA.length = 1 ∧ a ∈ setB then some a
      else if parentsB.length = 1 ∧ b ∈ setA then some b
      else ancestorLoop dag fuel a b setA setB
    else none

/-- Let every spawn on the way from `ancestor` down to a node pass a pipe. -/
def passDown (dag : Dag) (ancestor pipe : ℕ) : ℕ → ℕ → SpawnOps → Option SpawnOps
  | fuel, node, spawnOps =>
    if node = ancestor then some spawnOps
    else
      match fuel with
      | 0 => none
      | fuel + 1 =>
        match daggy.parents dag node with
        | [(e, parent)] => do
          let pipes ← spawnOps[e]?
          passDown dag ancestor pipe fuel parent (spawnOps.insert e (pipes ++ [pipe]))
        | _ => none

def writerPipeIndex (e : ℕ) : ℕ :=
  e * 2 + 1

def readerPipeIndex (e : ℕ) : ℕ :=
  e * 2

/-- Enter the pipes of one write: created at the lowest common ancestor of writer and
reader, and passed down to both. A way up is shorter than the number of nodes. -/
def routeWrite (dag : Dag) (e writer reader : ℕ) (tables : Tables) : Option Tables := do
  let ancestor ← ancestorLoop daggy dag dag.nodes writer reader [writer] [reader]
  let spawnOps ← passDown daggy dag ancestor (writerPipeIndex e) dag.nodes writer tables.spawnOps
  let spawnOps ← passDown daggy dag ancestor (readerPipeIndex e) dag.nodes reader spawnOps
  let pairs ← tables.pipesOps[ancestor]?
  return {
    spawnOps
    pipesOps := tables.pipesOps.insert ancestor
      (pairs ++ [(readerPipeIndex e, writerPipeIndex e)]) }

structure Pipe where
  vm : ℕ
  readPipe : ℕ
  writePipe : ℕ
  deriving DecidableEq

structure Write where
  fromVm : ℕ
  fromPipe : ℕ
  toVm : ℕ
  toPipe : ℕ
  data : Bytes
  deriving DecidableEq

structure Spawn where
  fromVm : ℕ
  child : ℕ
  pipes : List ℕ
  deriving DecidableEq

structure Data where
  spawns : List Spawn
  pipes : List Pipe
  writes : List Write
  deriving DecidableEq

/-- Go through the write edges in the order they were drawn. -/
def routeWrites (spawnDag writeDag : Dag) (draws : Draws) :
    List ℕ → Tables → List Write → Option (Tables × List Write)
  | [], tables, writes => some (tables, writes)
  | e :: writeEdges, tables, writes => do
    let (writer, reader) ← writeDag.edgeEndpoints e
    if writer = reader then none
    else
      let tables ← routeWrite daggy spawnDag e writer reader tables
      routeWrites spawnDag writeDag draws writeEdges tables (writes ++ [{
        fromVm := writer
        fromPipe := writerPipeIndex e
        toVm := reader
        toPipe := readerPipeIndex e
        data := draws.payload e }])

end Routing

def buildSpawn (dag : Dag) (spawnOps : SpawnOps) (e : ℕ) : Option Spawn := do
  let (parent, child) ← dag.edgeEndpoints e
  let pipes ← spawnOps[e]?
  return { fromVm := parent, child, pipes }

def buildPipes (pipesOps : PipesOps) : List Pipe :=
  pipesOps.toList.flatMap fun (vm, pairs) => pairs.map fun (readPipe, writePipe) =>
    { vm, readPipe, writePipe }

def generateDataGraph (daggy : Daggy) (draws : Draws)
    (spawns writes convergingThreshold : ℕ) : Option Data := do
  let spawnDag := drawSpawnDag draws spawns
  let (writeDag, writeEdges) := drawWriteDag daggy draws spawns writes convergingThreshold
  let (tables, spawnEdges) ←
    traverse daggy spawnDag spawnDag.nodes [0] { spawnOps := ∅, pipesOps := ∅ } []
  let (tables, writes) ← routeWrites daggy spawnDag writeDag draws writeEdges tables []
  let spawns ← spawnEdges.mapM (buildSpawn spawnDag tables.spawnOps)
  return { spawns, pipes := buildPipes tables.pipesOps, writes }

end DeterministicScheduler.DataGraph
