import Vibr.Decompiler.RegionOverlay

/-!
# Mutations

The primitives of the manager change the shared graph, the owners and the regions, record how
to take the change back, and count up the versions that the views are cached by. The verbs of a
region are composed of them.
-/

namespace Angr.Overlay

open DiGraph

variable {T V : Type} [DecidableEq T]

abbrev Pairs (T : Type) := Finset (Kind × Tx T × Tx T)

inductive Inverse (T V : Type) where
  | removeNode (n : T)
  | restoreNode (n : T) (edges : List (T × T × EdgeData V))
  | removeEdge (u v : T)
  | replaceData (u v : T) (old : EdgeData V)
  | addEdge (u v : T) (old : EdgeData V)
  | setOwner (n : T) (old : Option Nat)
  | nodeAdded (self : Nat) (n : T)
  | nodeRemoved (owner : Nat) (n : T)
  | setPairs (self : Nat) (drop add : Pairs T)
  | setHead (self : Nat) (old : Option (Tx T))
  | createSubregion (self sub : Nat)
  | finalize (self parent : Nat) (result : T) (old : Pairs T)
  | dissolve (self parent : Nat) (members : Finset (Tx T)) (hidden : Pairs T)

def regionsOf (ms : Finset (Tx T)) : Finset Nat :=
  ms.biUnion fun
    | .node _ => ∅
    | .region i => {i}

def nodesOf (ms : Finset (Tx T)) : Finset T :=
  ms.biUnion fun
    | .node n => {n}
    | .region _ => ∅

/-! ## Regions -/

namespace Core

variable (c : Core T V)

def setOwner (n : T) (o : Option Nat) : Core T V := { c with owner := Function.update c.owner n o }

/-- A node becomes a member of a region; it is in the region and in those that enclose it. -/
def insertNode (self : Nat) (n : T) : Core T V :=
  { c with
    region := fun i =>
      { c.region i with
        members := if i = self then insert (.node n) (c.region i).members else (c.region i).members
        under := if i ∈ c.ancestors self then insert n (c.region i).under else (c.region i).under } }

def eraseNode (self : Nat) (n : T) : Core T V :=
  { c with
    region := fun i =>
      { c.region i with
        members := if i = self then (c.region i).members.erase (.node n) else (c.region i).members
        under := if i ∈ c.ancestors self then (c.region i).under.erase n else (c.region i).under } }

def setPairs (self : Nat) (drop add : Pairs T) : Core T V :=
  c.modify self fun r => { r with pairs := r.pairs \ drop ∪ add }

def setHead (self : Nat) (head : Option (Tx T)) : Core T V := c.modify self fun r => { r with head := head }

/-- The regions among some members are given a parent. -/
def reparent (ms : Finset (Tx T)) (p : Nat) : Core T V :=
  { c with
    region := fun i => if .region i ∈ ms then { c.region i with parent := some p } else c.region i }

/-- Some members of a region become those of a new one, which takes their place. -/
def carve (self : Nat) (head : Tx T) (ms : Finset (Tx T)) (cyclic cyclicAncestor : Bool) : Core T V :=
  let sub := c.next
  let c' := c.reparent ms sub
  let c' := c'.modify self fun r =>
    { r with
      members := insert (.region sub) (r.members \ ms)
      children := r.children - (regionsOf ms).val + {sub} }
  { c' with
    region := Function.update c'.region sub
      { head := some head
        cyclic := cyclic
        cyclicAncestor := cyclicAncestor
        parent := some self
        children := (regionsOf ms).val
        members := ms
        under := ms.biUnion c.underlying }
    next := sub + 1 }

def undoCreateSubregion (self sub : Nat) : Core T V :=
  let ms := (c.region sub).members
  (c.reparent ms self).modify self fun r =>
    { r with
      members := r.members.erase (.region sub) ∪ ms
      children := r.children.erase sub + (regionsOf ms).val }

/-- The only member of a region takes its place in its parent. -/
def collapse (self parent : Nat) (result : T) : Core T V :=
  let c' := c.modify self fun r =>
    { r with
      members := r.members.erase (.node result)
      under := r.under.erase result
      replacement := some result
      pairs := ∅ }
  c'.modify parent fun r =>
    { r with
      members := insert (.node result) (r.members.erase (.region self))
      children := r.children.erase self
      head := if r.head = some (.region self) then some (.node result) else r.head }

def undoFinalize (self parent : Nat) (result : T) (old : Pairs T) : Core T V :=
  let c' := c.modify parent fun r =>
    { r with
      head := if r.head = some (.node result) then some (.region self) else r.head
      children := r.children + {self}
      members := insert (.region self) (r.members.erase (.node result)) }
  c'.modify self fun r =>
    { r with
      replacement := none
      pairs := old
      members := insert (.node result) r.members
      under := insert result r.under }

/-- The members of a region become those of its parent. -/
def merge (self parent : Nat) (ms : Finset (Tx T)) (hidden : Pairs T) : Core T V :=
  let head := (c.region self).head
  let c' := (c.reparent ms parent).modify self fun r =>
    { r with members := ∅, children := r.children - (regionsOf ms).val }
  c'.modify parent fun r =>
    { r with
      members := (r.members ∪ ms).erase (.region self)
      children := (r.children + (regionsOf ms).val).erase self
      pairs := r.pairs ∪ hidden
      head := if r.head = some (.region self) then head else r.head }

def undoDissolve (self parent : Nat) (ms : Finset (Tx T)) (hidden : Pairs T) : Core T V :=
  let head := (c.region self).head
  let c' := (c.reparent ms self).modify parent fun r =>
    { r with
      head := if r.head = head then some (.region self) else r.head
      pairs := r.pairs \ hidden
      children := r.children + {self} - (regionsOf ms).val
      members := insert (.region self) r.members \ ms }
  c'.modify self fun r =>
    { r with members := r.members ∪ ms, children := r.children + (regionsOf ms).val }

end Core

def Inverse.run (inv : Inverse T V) (c : Core T V) : Core T V :=
  match inv with
  | removeNode n => { c with graph := c.graph.removeNode n }
  | restoreNode n edges => { c with graph := (c.graph.addNode n).addEdges edges }
  | removeEdge u v => { c with graph := c.graph.removeEdge u v }
  | replaceData u v old => { c with graph := c.graph.replaceData u v old }
  | addEdge u v old => { c with graph := c.graph.addEdge u v old }
  | setOwner n old => c.setOwner n old
  | nodeAdded self n => c.eraseNode self n
  | nodeRemoved owner n => c.insertNode owner n
  | setPairs self drop add => c.setPairs self drop add
  | setHead self old => c.setHead self old
  | createSubregion self sub => c.undoCreateSubregion self sub
  | finalize self parent result old => c.undoFinalize self parent result old
  | dissolve self parent members hidden => c.undoDissolve self parent members hidden

structure OverlayManager (T V : Type) where
  core : Core T V
  version : Nat
  nodeVersion : Tx T → Nat
  adjEpoch : Nat
  /-- The latest change comes first. -/
  undoLog : Option (List (Inverse T V))

namespace OverlayManager

/-- The root has all nodes; its head is set from outside. -/
def new (graph : DiGraph T V) (exposeLoopHeadBackedges : Bool) (head : Option (Tx T)) : OverlayManager T V where
  core :=
    { graph := graph
      owner := fun n => if n ∈ graph.nodes then some 0 else none
      region := Function.update (fun _ => { head := none, cyclic := false, parent := none }) 0
        { head := head
          cyclic := false
          parent := none
          members := graph.nodes.image .node
          under := graph.nodes }
      next := 1
      exposeLoopHeadBackedges := exposeLoopHeadBackedges }
  version := 0
  nodeVersion := fun _ => 0
  adjEpoch := 0
  undoLog := none

variable (s : OverlayManager T V)

def bump : OverlayManager T V := { s with version := s.version + 1 }

def bumpEpoch : OverlayManager T V := { s with adjEpoch := s.adjEpoch + 1 }

/-- The version of a node counts up, and that of every region around it. -/
def touch (x : Tx T) : OverlayManager T V :=
  let enclosing : List Nat :=
    match x with
    | .node n => ((s.core.owner n).map s.core.ancestors).getD []
    | .region _ => []
  { s with
    nodeVersion := fun y =>
      s.nodeVersion y + (if y = x then 1 else 0) + if y ∈ enclosing.map Tx.region then 1 else 0 }

/-- Change the core, and record the inverse if a transaction is active. -/
def mutate (core : Core T V) (inverse : Inverse T V) : OverlayManager T V :=
  { s with core := core, undoLog := s.undoLog.map fun log => inverse :: log }

/-! ## The undo log -/

def checkpoint : OverlayManager T V × Nat :=
  let log := s.undoLog.getD []
  ({ s with undoLog := some log }, log.length)

def undo (log : List (Inverse T V)) (c : Core T V) : Core T V := log.foldl (fun c inv => inv.run c) c

def rollback (target : Nat) : Option (OverlayManager T V) := do
  let log ← s.undoLog
  let core := undo (log.take (log.length - target)) s.core
  return (bump { s with core := core, undoLog := some (log.drop (log.length - target)) }).bumpEpoch

def commit (target : Nat) : Option (OverlayManager T V) := do
  let log ← s.undoLog
  return { s with undoLog := if target = 0 then none else some (log.drop (log.length - target)) }

/-! ## Primitives -/

variable (it : IterOrder T) (self : Nat)

def graphAddNode (n : T) : OverlayManager T V :=
  let s :=
    if n ∈ s.core.graph.nodes then s
    else s.mutate { s.core with graph := s.core.graph.addNode n } (.removeNode n)
  (s.touch (.node n)).bump

def touchAll (xs : List (Tx T)) : OverlayManager T V := xs.foldl touch s

def graphRemoveNode (n : T) : Option (OverlayManager T V) :=
  if n ∈ s.core.graph.nodes then
    let g := s.core.graph
    let edges := g.edgesAt it.nodes n
    let s := s.mutate { s.core with graph := g.removeNode n } (.restoreNode n edges)
    let s := s.touch (.node n)
    let s := s.touchAll ((it.nodes.list (g.pred n)).map .node)
    some (s.touchAll ((it.nodes.list (g.succ n)).map .node)).bump
  else none

def graphAddEdge (u v : T) (d : EdgeData V) : OverlayManager T V :=
  let g := s.core.graph
  let s := s.mutate { s.core with graph := g.addEdge u v d }
    (if g.hasEdge u v then .replaceData u v (g.data u v) else .removeEdge u v)
  ((s.touch (.node u)).touch (.node v)).bump

def graphRemoveEdge (u v : T) : OverlayManager T V :=
  let g := s.core.graph
  let s := s.mutate { s.core with graph := g.removeEdge u v } (.addEdge u v (g.data u v))
  ((s.touch (.node u)).touch (.node v)).bump

def setOwner (n : T) (o : Option Nat) : OverlayManager T V :=
  s.mutate (s.core.setOwner n o) (.setOwner n (s.core.owner n))

def setOwners (ns : List T) (o : Option Nat) : OverlayManager T V := ns.foldl (fun s n => s.setOwner n o) s

def onNodeAdded (n : T) : OverlayManager T V :=
  let s := s.setOwner n (some self)
  s.mutate (s.core.insertNode self n) (.nodeAdded self n)

def onNodeRemoved (n : T) : Option (OverlayManager T V) :=
  match s.core.owner n with
  | none => none
  | some owner =>
    let s := s.setOwner n none
    some (s.mutate (s.core.eraseNode owner n) (.nodeRemoved owner n))

/-- A node leaves the graph and its owner. -/
def remove (n : T) : Option (OverlayManager T V) := (s.graphRemoveNode it n).bind fun s => s.onNodeRemoved n

/-- Edges are added to a set of a region, if there are any; the inverse removes them. -/
def addPairs (added : Pairs T) : OverlayManager T V :=
  if added = ∅ then s else s.mutate (s.core.setPairs self ∅ added) (.setPairs self added ∅)

def dropPairs (removed : Pairs T) : OverlayManager T V :=
  if removed = ∅ then s else s.mutate (s.core.setPairs self removed ∅) (.setPairs self ∅ removed)

/-! ## Nodes and edges -/

def addNode (n : T) : Option (OverlayManager T V) :=
  if n ∈ s.core.graph.nodes then none else some ((s.graphAddNode n).onNodeAdded self n).bump

/-- The edges to hide, and the members that they leave. -/
def hideEdgeToSuccessor (succ : Tx T) : OverlayManager T V :=
  let r := s.core.region self
  let added : Finset (T × T) := (r.under ×ˢ s.core.underlying succ).filter fun e =>
    s.core.graph.hasEdge e.1 e.2 ∧ ¬ s.core.isHidden self e.1 e.2
  if added = ∅ then s
  else
    let reps := (it.nodes.list (added.image Prod.fst)).filterMap (s.core.representativeIn self)
    let s := s.addPairs self (added.image fun e => (.hidden, .node e.1, .node e.2))
    ((s.touch succ).touchAll reps).bump

def rewire (absorbed : T) (edges : List (T × EdgeData V)) : OverlayManager T V :=
  edges.foldl (fun s e => s.graphAddEdge e.1 absorbed e.2) s

def rewireOut (absorbed : T) (edges : List (T × EdgeData V)) : OverlayManager T V :=
  edges.foldl (fun s e => s.graphAddEdge absorbed e.1 e.2) s

/-- A node of the region is removed from the graph; if it was absorbed into another one, the
edges that enclosing regions have to it, and its own, are given to that one. -/
def removeNode (x : Tx T) (absorbedInto : Option T) (absorbOutEdges : Bool) : Option (OverlayManager T V) :=
  let r := s.core.region self
  let g := s.core.graph
  match x with
  | .region _ => some (s.hideEdgeToSuccessor it self x)
  | .node n =>
    if n ∉ r.under then some (s.hideEdgeToSuccessor it self x)
    else do
      let s' ← s.remove it n
      match absorbedInto with
      | none => return s'.bump
      | some absorbed =>
        let ins := (it.nodes.list (g.pred n)).filter fun u =>
          u ∉ r.under ∧ u ≠ absorbed ∧ ¬ s.core.isHidden self u n
        let outs := (it.nodes.list (g.succ n)).filter fun v =>
          absorbOutEdges ∧ v ≠ absorbed ∧ ¬ s.core.isHidden self n v
        let hides := outs.filter fun v => .node v ∉ r.members ∧
          (v ∉ r.under ∨ v ∈ s.core.hiddenContextHeadUnder self)
        let s' := s'.rewire absorbed (ins.map fun u => (u, g.data u n))
        let s' := s'.rewireOut absorbed (outs.map fun v => (v, g.data n v))
        let added := (hides.map fun v => (Kind.hidden, Tx.node absorbed, Tx.node v)).toFinset
        return (s'.addPairs self (added \ (s'.core.region self).pairs)).bump

/-- A node is added if it is not in the graph. -/
def ensureNode (n : T) : Option (OverlayManager T V) := if n ∈ s.core.graph.nodes then some s else s.addNode self n

def addEdge (src : T) (dst : Tx T) (d : EdgeData V) : Option (OverlayManager T V) := do
  let dst ← s.core.resolveEntry dst
  let s ← s.ensureNode self src
  let s ← s.ensureNode self dst
  let s := s.graphAddEdge src dst d
  return (s.dropPairs self
    ((s.core.region self).pairs.filter fun e => e = (.hidden, .node src, .node dst))).bump

def detachEdge (src dst : Tx T) : OverlayManager T V :=
  let s := (s.core.underlyingEdgePairs it src dst).foldl (fun s e => s.graphRemoveEdge e.1 e.2) s
  let extra := (s.core.region self).pairs.filter fun e => e = (.extraFull, src, dst)
  if extra = ∅ then s.bump else (((s.dropPairs self extra).touch src).touch dst).bump

def markEdge (src dst : Tx T) (attrs : List String) : OverlayManager T V :=
  attrs.foldl (fun s key =>
    if (Kind.mark key, src, dst) ∈ (s.core.region self).pairs then s
    else (((s.addPairs self {(.mark key, src, dst)}).touch src).touch dst).bump) s

/-- The edges of the successor are given to a member, in this view only. The set of extra edges is
not to be changed while its own edges are listed. -/
def absorbSuccessorInto (succ newNode : Tx T) : Option (OverlayManager T V) :=
  let pairs := (s.core.region self).pairs
  let isNew (dst : Tx T) : Bool := dst ≠ newNode ∧ (Kind.extraFull, newNode, dst) ∉ pairs
  let direct := (s.core.directOutEdges self it succ true).map Prod.fst
  if ∃ dst ∈ s.core.extraTargets self succ, dst ∉ direct ∧ isNew dst then none
  else
    let dsts := direct.dedup.filter isNew
    let s :=
      if dsts = [] then s
      else
        ((s.addPairs self (dsts.map fun dst => (Kind.extraFull, newNode, dst)).toFinset).touch newNode).touchAll dsts
    some (s.hideEdgeToSuccessor it self succ)

def dropEdgeMarksFrom (n : Tx T) (key : String) : OverlayManager T V :=
  let removed := (s.core.region self).pairs.filter fun e => e.1 = .mark key ∧ e.2.1 = n
  if removed = ∅ then s
  else
    (((s.dropPairs self removed).touch n).touchAll (it.views.list (removed.image fun e => e.2.2))).bump

def removeEdgeWithSuccessorsOnly (src dst : Tx T) : OverlayManager T V :=
  if (Kind.hiddenFull, src, dst) ∈ (s.core.region self).pairs then s
  else (((s.addPairs self {(.hiddenFull, src, dst)}).touch src).touch dst).bump

def hideEdge (src dst : Tx T) : OverlayManager T V :=
  let added := ((s.core.underlyingEdgePairs it src dst).map fun e =>
    (Kind.hidden, Tx.node e.1, Tx.node e.2)).toFinset \ (s.core.region self).pairs
  if added = ∅ then s else (((s.addPairs self added).touch src).touch dst).bump

/-! ## Replacing nodes -/

def isOneOf (old : Finset T) : Tx T → Bool
  | .node n => n ∈ old
  | .region _ => false

def renamed (old : Finset T) (new : T) (x : Tx T) : Tx T := if isOneOf old x then .node new else x

def renamedPair (old : Finset T) (new : T) (e : Kind × Tx T × Tx T) : Kind × Tx T × Tx T :=
  (e.1, renamed old new e.2.1, renamed old new e.2.2)

/-- The edges of some kind that have a replaced node are given the new one. -/
def remapPairs (old : Finset T) (new : T) (i : Nat) (kinds : Kind → Bool) : OverlayManager T V :=
  let stale := (s.core.region i).pairs.filter fun e => kinds e.1 ∧ (isOneOf old e.2.1 ∨ isOneOf old e.2.2)
  let remapped := stale.image (renamedPair old new)
  if stale = ∅ then s
  else s.mutate (s.core.setPairs i stale remapped) (.setPairs i remapped stale)

/-- The marks are those of the region itself, at every region that encloses it. -/
def remapBookkeeping (old : Finset T) (new : T) : OverlayManager T V :=
  (s.core.ancestors self).foldl (fun s anc =>
    let s := s.remapPairs old new anc fun k => k = .hidden
    let s := s.remapPairs old new anc fun k => k = .hiddenFull
    let s := s.remapPairs old new anc fun k => k = .extraFull
    s.remapPairs old new self Kind.isMark) s

/-- The edges of the old nodes, given to the new one. -/
def rewiredEdges (g : DiGraph T V) (under : Finset T) (old₀ : T) (old₁ : Option T) (new : T)
    (selfLoop : Bool) : List (T × T × EdgeData V) :=
  let old : Finset T := insert old₀ old₁.toFinset
  let loop (u v : T) : Bool := selfLoop && old₁ = some u && v = old₀
  let ins := (it.nodes.list (g.pred old₀)).filterMap fun u =>
    if u ∉ old then some (u, new, g.data u old₀)
    else if loop u old₀ then some (new, new, g.data u old₀) else none
  let ins₁ := old₁.toList.flatMap fun o => (it.nodes.list (g.pred o)).filterMap fun u =>
    if u ∉ old ∧ u ∉ under then some (u, new, g.data u o) else none
  let outs := (old₀ :: old₁.toList).flatMap fun o => (it.nodes.list (g.succ o)).filterMap fun v =>
    if v ∉ old then some (new, v, g.data o v)
    else if loop o v then some (new, new, g.data o v) else none
  ins ++ ins₁ ++ outs

def removeAll (s : OverlayManager T V) (it : IterOrder T) : List T → Option (OverlayManager T V)
  | [] => some s
  | n :: ns => (s.remove it n).bind fun s => s.removeAll it ns

/-- The head of a region is replaced if it was one of the old nodes. -/
def replaceHead (old : Finset T) (new : T) : OverlayManager T V :=
  let head := (s.core.region self).head
  if head.any (isOneOf old) then s.mutate (s.core.setHead self (some (.node new))) (.setHead self head) else s

def replaceNodes (old₀ new : T) (old₁ : Option T) (selfLoop : Bool) : Option (OverlayManager T V) :=
  let g := s.core.graph
  let old : Finset T := insert old₀ old₁.toFinset
  if ∀ o ∈ old, o ∈ g.nodes ∧ o ∈ (s.core.region self).under then do
    let s ← s.removeAll it (old₀ :: old₁.toList)
    let s := if new ∈ s.core.graph.nodes then s else (s.graphAddNode new).onNodeAdded self new
    -- an entry edge is one from outside what is left of the region
    let edges := rewiredEdges it g (s.core.region self).under old₀ old₁ new selfLoop
    let s := edges.foldl (fun s e => s.graphAddEdge e.1 e.2.1 e.2.2) s
    let s := s.remapBookkeeping self old new
    return (s.replaceHead self old new).bump
  else none

/-! ## The life of a region -/

def createSubregion (head : Tx T) (ms : Finset (Tx T)) (cyclic cyclicAncestor : Bool) :
    Option (OverlayManager T V × Nat) :=
  let r := s.core.region self
  let sub := s.core.next
  if head ∈ ms ∧ ms ⊆ r.members ∧ (regionsOf ms).val ≤ r.children then
    let s := s.setOwners (it.nodes.list (nodesOf ms)) (some sub)
    let s := s.mutate (s.core.carve self head ms cyclic cyclicAncestor) (.createSubregion self sub)
    some (s.bumpEpoch.bump, sub)
  else none

/-- The edges to the successors that the region had are added again. -/
def reconnect (result : T) (loopHead : Option T) (snapshot : List (Tx T)) : OverlayManager T V :=
  snapshot.foldl (fun s x =>
    match s.core.resolveEntry x with
    | none => s
    | some e =>
      if e ≠ result ∧ some e ≠ loopHead ∧ e ∈ s.core.graph.nodes ∧ ¬ s.core.graph.hasEdge result e then
        s.graphAddEdge result e EdgeData.empty
      else s) s

/-- A leftover edge from the result to itself is removed. -/
def removeSelfLoop (result : T) : OverlayManager T V :=
  if s.core.graph.hasEdge result result then s.graphRemoveEdge result result else s

def finalize (resultNode : Option (Tx T)) (succSnapshot : Finset (Tx T)) : Option (OverlayManager T V) :=
  let r := s.core.region self
  match r.parent, resultNode.or (it.views.list r.members).head? with
  | some parent, some (.node result) =>
    if r.members = {.node result} ∧ self ∈ (s.core.region parent).children then
      let s := s.removeSelfLoop result
      let loopHead :=
        if (s.core.region parent).cyclic then (s.core.region parent).head.bind s.core.resolveEntry else none
      let s := s.reconnect result loopHead (it.views.list succSnapshot)
      let s := s.setOwner result (some parent)
      let s := s.mutate (s.core.collapse self parent result) (.finalize self parent result r.pairs)
      some s.bumpEpoch.bump
    else none
  | _, _ => none

def dissolve : Option (OverlayManager T V) :=
  let r := s.core.region self
  match r.parent with
  | none => none
  | some parent =>
    let ms := r.members
    if self ∈ (s.core.region parent).children ∧ (regionsOf ms).val ≤ r.children then
      let hidden := r.pairs.filter (fun e => e.1 = .hidden) \ (s.core.region parent).pairs
      let s := s.setOwners (it.nodes.list (nodesOf ms)) (some parent)
      let s := s.mutate (s.core.merge self parent ms hidden) (.dissolve self parent ms hidden)
      some s.bumpEpoch.bump
    else none

end OverlayManager

end Angr.Overlay
