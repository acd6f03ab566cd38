import Mathlib
import Vibr.Lib.Dfs
import Vibr.Lib.FinGraph

/-!
# Quasi-topological sorting

`quasi_topological_sort_nodes` collapses the strongly connected components of a graph into
placeholders, sorts the acyclic graph that is left, and puts the nodes of each component in
the place of its placeholder. For these a head of the component is chosen, the edges into
the head are removed, and the rest is sorted in the same way.

The order in which sets and dictionaries are listed is a parameter. Functions return `none`
where the source raises.
-/

namespace Angr.GraphUtils

/-- The nodes of the collapsed graph: nodes, placeholders of components, and the node that is
put before several heads. -/
inductive Place (T : Type)
  | node (n : T)
  | scc (sccId : Nat) (addr : Int)
  | head
  deriving DecidableEq

/-- What the functions are given besides a graph: the addresses of nodes, the orders in which
sets are listed, and the comparison `len(edges) <= len(nodes) * 1.4` of floating-point
numbers. -/
structure Setting (T : Type) where
  addr : T → Int
  nodes : Enumeration T
  places : Enumeration (Place T)
  few : (edges nodes : Nat) → Bool

variable {T : Type} [DecidableEq T] (S : Setting T)

/-- `sorted(.., key=GraphUtils.sort_node)` -/
def sortNodes (l : List T) : List T := l.mergeSort fun a b => S.addr a ≤ S.addr b

/-- `sorted(.., key=GraphUtils.sort_edge)` -/
def sortEdges (l : List (T × T)) : List (T × T) :=
  l.mergeSort fun a b => S.addr a.1 + S.addr a.2 ≤ S.addr b.1 + S.addr b.2

/-! ## Collapsing components -/

/-- The least address of a component. -/
def sccAddr (scc : Finset T) : Int := (((S.nodes.list scc).map S.addr).min?).getD 0

/-- The components with several nodes, by size and least address. -/
def sccs (g : FinGraph T) : List (Finset T) :=
  ((((S.nodes.list g.nodes).map (g.component S.nodes)).dedup.filter fun scc => 1 < scc.card)).mergeSort fun a b =>
    a.card < b.card ∨ a.card = b.card ∧ sccAddr S a ≤ sccAddr S b

/-- The node, or the placeholder of its component. -/
def place (sccs : List (Finset T)) (n : T) : Place T :=
  match sccs.findIdx? (n ∈ ·) with
  | some i => .scc i (sccAddr S (sccs.getD i ∅))
  | none => .node n

/-- The places that have an edge, or that have no edge but one to themselves, or none at all. -/
def collapse (sccs : List (Finset T)) (g : FinGraph T) : FinGraph (Place T) where
  nodes := g.edges.image (fun e => place S sccs e.1) ∪ g.edges.image (fun e => place S sccs e.2) ∪
    (g.nodes.filter fun n => g.succ n = ∅ ∧ g.pred n = ∅).image .node
  edges := (g.edges.image fun e => (place S sccs e.1, place S sccs e.2)).filter fun e => e.1 ≠ e.2
  closed {u v} h := by
    obtain ⟨e, he, heq⟩ := Finset.mem_image.mp (Finset.mem_filter.mp h).1
    cases heq
    simp only [Finset.mem_union, Finset.mem_image]
    exact ⟨.inl (.inl ⟨e, he, rfl⟩), .inl (.inr ⟨e, he, rfl⟩)⟩

/-- The nodes of a graph without predecessors. -/
def heads {P : Type} [DecidableEq P] (g : FinGraph P) : Finset P := g.nodes.filter fun n => g.pred n = ∅

/-- A node before all heads. -/
def addHead (g : FinGraph (Place T)) : FinGraph (Place T) where
  nodes := insert .head g.nodes
  edges := g.edges ∪ (heads g).image fun n => (.head, n)
  closed {u v} h := by
    rcases Finset.mem_union.mp h with h | h
    · exact ⟨Finset.mem_insert_of_mem (g.closed h).1, Finset.mem_insert_of_mem (g.closed h).2⟩
    · obtain ⟨n, hn, heq⟩ := Finset.mem_image.mp h
      cases heq
      exact ⟨Finset.mem_insert_self _ _, Finset.mem_insert_of_mem (Finset.mem_filter.mp hn).1⟩

def Place.addr : Place T → Int
  | .node n => S.addr n
  | .scc _ addr => addr
  | .head => -1

/-- The sorted successors of a place. -/
def nextPlaces (g : FinGraph (Place T)) (p : Place T) : List (Place T) :=
  (g.next S.places p).mergeSort fun a b => a.addr S ≤ b.addr S

/-- `dfs_postorder_nodes_deterministic` -/
def dfsPostorderNodesDeterministic (g : FinGraph (Place T)) (source : Place T) : List (Place T) :=
  Dfs.postorder (nextPlaces S g) (Dfs.work (nextPlaces S g) g.nodes [(source, true)] ∅) [(source, true)] ∅

/-! ## Choosing the head of a component -/

/-- The length of a shortest path, which is below the number of nodes. -/
def shortestPathLength (g : FinGraph T) (u v : T) : Option Nat :=
  (List.range g.nodes.card).find? fun k => v ∈ g.layer u k

/-- The sum of the lengths of the paths to the other nodes. -/
def totalDistance (g : FinGraph T) (nodes : List T) (n : T) : Option Nat :=
  nodes.foldlM (fun sum other => if other = n then some sum else (shortestPathLength g n other).map (sum + ·)) 0

/-- The nearer of two nodes; of two equally near ones the later. -/
def nearer (best : Option (T × Nat)) (n : T) (distance : Nat) : T × Nat :=
  match best with
  | some (n', distance') => if distance ≤ distance' then (n, distance) else (n', distance')
  | none => (n, distance)

/-- The last of the nodes whose total distance is least. -/
def nearest (g : FinGraph T) (nodes : List T) : Option T :=
  (nodes.foldlM (fun best n => (totalDistance g nodes n).map fun distance => some (nearer best n distance)) none).bind
    fun best => best.map Prod.fst

/-- The head that follows from a node that has been sorted before; `none` for the head if it
has no successor in the component. -/
def headBelow (g : FinGraph T) (scc : Finset T) (parent : T) : Option (Option T) :=
  let sccSuccs := scc ∩ g.succ parent
  if sccSuccs = ∅ then some none
  else if sccSuccs.card = 1 then some (S.nodes.list sccSuccs).head?
  else (nearest g (sortNodes S (S.nodes.list sccSuccs))).map some

/-- The loop over the nodes that have been sorted, the last one first. -/
def headFromParents (g : FinGraph T) (scc : Finset T) : List T → Option (Option T)
  | [] => some none
  | parent :: parents =>
    match headBelow S g scc parent with
    | none => none
    | some (some n) => some (some n)
    | some none => headFromParents g scc parents

def loopHead (g : FinGraph T) (ordered : List T) (scc : Finset T) (candidates : Option (List T)) : Option T :=
  match candidates.bind fun hints => (S.nodes.list scc).find? (· ∈ hints) with
  | some n => some n
  | none =>
    match headFromParents S g scc ordered.reverse with
    | none => none
    | some (some n) => some n
    | some none => (sortNodes S (S.nodes.list scc)).head?

/-! ## Panic mode -/

/-- The loop of `dfs_back_edges`; the stack has the nodes with the children that are left. -/
def dfsBackEdges (next : T → List T) : Nat → List (T × List T) → (visited finished : Finset T) → List (T × T)
  | 0, _, _, _ => []
  | _ + 1, [], _, _ => []
  | fuel + 1, (node, []) :: stack, visited, finished =>
    dfsBackEdges next fuel stack (insert node visited) (insert node finished)
  | fuel + 1, (node, child :: children) :: stack, visited, finished =>
    if child ∈ insert node visited then
      if child ∉ finished then
        (node, child) :: dfsBackEdges next fuel ((node, children) :: stack) (insert node visited) finished
      else dfsBackEdges next fuel ((node, children) :: stack) (insert node visited) finished
    else if child ∉ finished then
      dfsBackEdges next fuel ((child, next child) :: (node, children) :: stack) (insert node visited) finished
    else dfsBackEdges next fuel ((node, children) :: stack) (insert node visited) finished

/-- The rounds of that loop at most. -/
def backEdgesWork (next : T → List T) (U : Finset T) (stack : List (T × List T)) (visited : Finset T) : Nat :=
  (stack.map fun x => 1 + x.2.length).sum + ∑ x ∈ U \ (visited ∪ (stack.map Prod.fst).toFinset), (1 + (next x).length)

def backEdges (g : FinGraph T) (start : T) : List (T × T) :=
  let next := fun n => sortNodes S (g.next S.nodes n)
  dfsBackEdges next (backEdgesWork next g.nodes [(start, next start)] ∅) [(start, next start)] ∅ ∅

/-- Edges are removed until few are left. -/
def removeUntilFew : List (T × T) → FinGraph T → Option (FinGraph T)
  | [], g => some g
  | e :: es, g =>
    if e ∈ g.edges then
      let g := g.dropEdges (· = e)
      if S.few g.edges.card g.nodes.card then some g else removeUntilFew es g
    else none

/-! ## Sorting -/

/-- `_append_scc`, with the function that sorts the rest of the component. -/
def appendScc (sort : FinGraph T → Option (List T)) (g : FinGraph T) (loopHeads : Option (List T)) (threshold : Nat)
    (ordered : List T) (scc : Finset T) : Option (List T) :=
  (loopHead S g ordered scc loopHeads).bind fun head =>
    let subgraph := (g.induce scc).dropEdges (·.2 = head)
    let subgraph :=
      if threshold < subgraph.nodes.card ∧ ¬ S.few subgraph.edges.card subgraph.nodes.card then
        removeUntilFew S (sortEdges S (backEdges S subgraph head)) subgraph
      else some subgraph
    subgraph.bind fun subgraph => (sort subgraph).map (ordered ++ ·)

/-- The loop over the sorted places. -/
def expand (append : List T → Finset T → Option (List T)) (sccs : List (Finset T)) :
    List (Place T) → List T → Option (List T)
  | [], ordered => some ordered
  | .head :: places, ordered => expand append sccs places ordered
  | .node n :: places, ordered => expand append sccs places (ordered ++ [n])
  | .scc i _ :: places, ordered =>
    match sccs[i]? with
    | none => none
    | some scc => (append ordered scc).bind (expand append sccs places)

/-- The collapsed graph with one head. -/
def collapsed (sccs : List (Finset T)) (g : FinGraph T) : Option (FinGraph (Place T) × Place T) :=
  let graph := collapse S sccs g
  match S.places.list (heads graph) with
  | [] => none
  | [source] => some (graph, source)
  | _ => some (addHead graph, .head)

/-- The loop of `quasi_topological_sort_nodes`; each recursive call has fewer edges. -/
def quasiTopologicalSort : (fuel : Nat) → Option (List T) → (panicModeThreshold : Nat) → FinGraph T → Option (List T)
  | 0, _, _, _ => none
  | fuel + 1, loopHeads, threshold, g =>
    if g.nodes.card = 0 then some []
    else if g.nodes.card = 1 then some (S.nodes.list g.nodes)
    else
      let sccs := sccs S g
      (collapsed S sccs g).bind fun p =>
        expand (appendScc S (quasiTopologicalSort fuel none 3000) g loopHeads threshold) sccs
          (dfsPostorderNodesDeterministic S p.1 p.2).reverse []

/-- The sorted nodes, or those of them that are asked for. -/
def quasiTopologicalSortNodes (nodes loopHeads : Option (List T)) (panicModeThreshold : Nat) (g : FinGraph T) :
    Option (List T) :=
  (quasiTopologicalSort S (g.edges.card + 1) loopHeads panicModeThreshold g).map fun ordered =>
    match nodes with
    | none => ordered
    | some nodes => ordered.filter (· ∈ nodes)

/-- `to_acyclic_graph` without a given order. -/
def toAcyclicGraph (loopHeads : Option (List T)) (g : FinGraph T) : Option (FinGraph T) :=
  (quasiTopologicalSortNodes S none loopHeads 3000 g).map fun ordered =>
    g.dropEdges fun e => ordered.idxOf e.1 ≥ ordered.idxOf e.2

end Angr.GraphUtils
