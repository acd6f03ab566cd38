import Vibr.Lib.DiGraph
import Vibr.Lib.Forest

/-!
# Region overlays

`angr/analyses/decompiler/region_overlay.py`. All regions are views of one shared graph, which
the manager owns. A region has members, which are nodes of the graph or other regions; what
can be seen of the graph in it is derived.

Regions are objects of the source and are known by numbers here; the root is number 0. Sets
and dictionaries are listed in an order that is left open (`IterOrder`). The inverses in the undo
log are closures of the source and data here, and the operations that raise an error give
`none`.
-/

namespace Angr.Overlay

open DiGraph

variable {T V : Type} [DecidableEq T]

/-- A node of a view: a node of the shared graph, or a region. -/
inductive Tx (T : Type) where
  | node (n : T)
  | region (i : Nat)
  deriving DecidableEq

structure IterOrder (T : Type) where
  nodes : Enumeration T
  views : Enumeration (Tx T)

/-- The sets of edges that a region has beside the graph: `_hidden`, `_hidden_full`,
`_extra_full_edges`, and `edge_marks` with its keys. -/
inductive Kind where
  | hidden
  | hiddenFull
  | extraFull
  | mark (key : String)
  deriving DecidableEq

def Kind.isMark : Kind → Bool
  | mark _ => true
  | _ => false

@[ext] structure Region (T : Type) where
  head : Option (Tx T)
  cyclic : Bool
  cyclicAncestor : Bool := false
  parent : Option Nat
  /-- A list in the source; its order is not used. -/
  children : Multiset Nat := ∅
  members : Finset (Tx T) := ∅
  under : Finset T := ∅
  pairs : Finset (Kind × Tx T × Tx T) := ∅
  replacement : Option T := none

/-- What a rollback restores. -/
structure Core (T V : Type) where
  graph : DiGraph T V
  owner : T → Option Nat
  region : Nat → Region T
  /-- The number of the next region. -/
  next : Nat
  exposeLoopHeadBackedges : Bool

/-! ## The tree -/

namespace Core

variable (c : Core T V) (self : Nat)

def parent (i : Nat) : Option Nat := (c.region i).parent

/-- A region and those that enclose it. -/
def ancestors (i : Nat) : List Nat := Forest.up c.parent c.next i

def modify (i : Nat) (f : Region T → Region T) : Core T V :=
  { c with region := Function.update c.region i (f (c.region i)) }

def underlying : Tx T → Finset T
  | .node n => {n}
  | .region i => (c.region i).under

def representativeIn (n : T) : Option (Tx T) :=
  match c.owner n with
  | none => none
  | some o =>
    if o = self then some (.node n)
    else ((c.ancestors o).find? fun cur => c.parent cur = some self).map .region

def representativeOutside (n : T) : Option (Tx T) :=
  let anc := c.ancestors self
  match c.owner n with
  | none => none
  | some o =>
    if o ∈ anc then some (.node n)
    else ((c.ancestors o).find? fun cur =>
      match c.parent cur with
      | none => true
      | some p => decide (p ∈ anc)).map .region

/-- The entry of a view node, through the heads of regions; `none` if there is none. -/
def resolveEntryFrom : (fuel : Nat) → Tx T → Option T
  | _, .node n => some n
  | 0, .region _ => none
  | fuel + 1, .region i => (c.region i).head.bind (resolveEntryFrom fuel)

def resolveEntry (x : Tx T) : Option T := c.resolveEntryFrom (c.next + 1) x

/-! ## Views -/

def isHidden (u v : T) : Bool := (Kind.hidden, Tx.node u, Tx.node v) ∈ (c.region self).pairs

/-- The head of the context that the region is processed in, which was not seen when the
region was identified. -/
def hiddenContextHeadUnder : Finset T :=
  if (c.region self).cyclic || c.exposeLoopHeadBackedges then ∅
  else
    match c.parent self with
    | none => ∅
    | some p =>
      let context := (c.ancestors p).find? fun anc => (c.region anc).cyclic || (c.parent anc).isNone
      match context.bind fun anc => (c.region anc).head with
      | none => ∅
      | some (.node h) => if h ∈ (c.region self).under then ∅ else {h}
      | some (.region h) => (c.region h).under

def crossingTargets : Finset T :=
  (c.region self).under.biUnion fun u => (c.graph.succ u).filter fun v =>
    v ∉ (c.region self).under ∧ v ∉ c.hiddenContextHeadUnder self ∧ ¬ c.isHidden self u v

def successorNodes : Finset (Tx T) :=
  (c.crossingTargets self).biUnion fun v => (c.representativeOutside self v).toFinset

def inLoop : Bool := (c.region self).cyclic || (c.region self).cyclicAncestor

/-- The targets of the extra edges from a view node. -/
def extraTargets (n : Tx T) : Finset (Tx T) :=
  ((c.region self).pairs.filter fun e => e.1 = .extraFull ∧ e.2.1 = n).image fun e => e.2.2

def extraSources (n : Tx T) : Finset (Tx T) :=
  ((c.region self).pairs.filter fun e => e.1 = .extraFull ∧ e.2.2 = n).image fun e => e.2.1

/-- Only the first entry for a key is kept. -/
def firsts {α β : Type} [DecidableEq α] : List (α × β) → List (α × β)
  | [] => []
  | e :: es => e :: (firsts es).filter fun e' => e'.1 ≠ e.1

/-- An edge between two nodes in the same child region is not seen. -/
def notInternal (n : Tx T) (rep : Tx T) : Bool :=
  match n with
  | .node _ => true
  | .region _ => rep ≠ n

variable (it : IterOrder T)

/-- The edges out of a view node, the extra ones aside: those of a member, and in a loop those
from one successor to another. -/
def directOutEdges (n : Tx T) (full : Bool) : List (Tx T × EdgeData V) :=
  let under := (c.region self).under
  let succs := c.successorNodes self
  if n ∈ (c.region self).members then
    (it.nodes.list (c.underlying n)).flatMap fun u =>
      (it.nodes.list (c.graph.succ u)).filterMap fun v =>
        let rep :=
          if c.isHidden self u v then none
          else if v ∈ under then (c.representativeIn self v).filter (notInternal n)
          else if full ∧ v ∉ c.hiddenContextHeadUnder self then c.representativeOutside self v
          else none
        rep.map fun rep => (rep, c.graph.data u v)
  else if full ∧ n ∈ succs ∧ c.inLoop self then
    (it.nodes.list (c.underlying n)).flatMap fun u =>
      (it.nodes.list (c.graph.succ u)).filterMap fun v =>
        if v ∈ c.underlying n then none
        else ((it.views.list succs).find? fun s => s ≠ n ∧ v ∈ c.underlying s).map fun s =>
          (s, c.graph.data u v)
  else []

def iterViewOutEdges (n : Tx T) (full : Bool) : List (Tx T × EdgeData V) :=
  let extra := (it.views.list (c.extraTargets self n)).map fun v => (v, EdgeData.empty)
  firsts (c.directOutEdges self it n full ++ if full then extra else [])

/-- The edges into a view node: those of a member are from members. -/
def directInEdges (n : Tx T) (full : Bool) : List (Tx T × EdgeData V) :=
  let under := (c.region self).under
  let succs := c.successorNodes self
  if n ∈ (c.region self).members then
    (it.nodes.list (c.underlying n)).flatMap fun u =>
      (it.nodes.list (c.graph.pred u)).filterMap fun p =>
        let rep :=
          if c.isHidden self p u then none
          else if p ∈ under then (c.representativeIn self p).filter (notInternal n)
          else none
        rep.map fun rep => (rep, c.graph.data p u)
  else if full ∧ n ∈ succs then
    (it.nodes.list (c.underlying n)).flatMap fun u =>
      (it.nodes.list (c.graph.pred u)).filterMap fun p =>
        let rep :=
          if p ∈ under then
            if c.isHidden self p u ∨ u ∈ c.hiddenContextHeadUnder self then none
            else c.representativeIn self p
          else if c.inLoop self ∧ p ∉ c.underlying n then
            (c.representativeOutside self p).filter fun rep => rep ≠ n ∧ rep ∈ succs
          else none
        rep.map fun rep => (rep, c.graph.data p u)
  else []

def iterViewInEdges (n : Tx T) (full : Bool) : List (Tx T × EdgeData V) :=
  let extra := (it.views.list (c.extraSources self n)).map fun u => (u, EdgeData.empty)
  firsts (c.directInEdges self it n full ++ if full then extra else [])

/-- The member that a node is in; the last one, if there were several. -/
def memberOf (n : T) : Option (Tx T) :=
  (it.views.list (c.region self).members).reverse.find? fun m => n ∈ c.underlying m

/-- All edges of a view at once, the extra ones aside. -/
def quotientEdges (withSuccessors : Bool) : List (Tx T × Tx T × EdgeData V) :=
  let under := (c.region self).under
  let succs := c.successorNodes self
  let fromMembers := (it.nodes.list under).flatMap fun u =>
    match c.memberOf self it u with
    | none => []
    | some repU =>
      (it.nodes.list (c.graph.succ u)).filterMap fun v =>
        let rep :=
          if c.isHidden self u v then none
          else if v ∈ under then (c.memberOf self it v).filter (notInternal repU)
          else if withSuccessors ∧ v ∉ c.hiddenContextHeadUnder self then c.representativeOutside self v
          else none
        rep.map fun rep => (repU, rep, c.graph.data u v)
  let fromSuccessors :=
    if withSuccessors ∧ c.inLoop self then
      (it.views.list succs).flatMap fun s₀ =>
        (it.nodes.list (c.underlying s₀)).flatMap fun u =>
          (it.nodes.list (c.graph.succ u)).filterMap fun v =>
            if v ∈ c.underlying s₀ then none
            else ((it.views.list succs).find? fun s₁ => s₁ ≠ s₀ ∧ v ∈ c.underlying s₁).map fun s₁ =>
              (s₀, s₁, c.graph.data u v)
    else []
  fromMembers ++ fromSuccessors

/-- The nodes of a view. -/
def nodeSet (full : Bool) : Finset (Tx T) :=
  let r := c.region self
  if full then
    r.members ∪ c.successorNodes self ∪
      (r.pairs.filter fun e => e.1 = .extraFull).image fun e => e.2.2
  else r.members

def underlyingEdgePairs (src dst : Tx T) : List (T × T) :=
  (it.nodes.list (c.underlying src)).flatMap fun u =>
    ((it.nodes.list (c.graph.succ u)).filter fun v => v ∈ c.underlying dst).map fun v => (u, v)

end Core

end Angr.Overlay
