import Vibr.Decompiler.RegionSessions
import Vibr.Decompiler.RegionViews

/-!
# Region graphs

`RegionOverlayGraph` stores no edges. Its adjacency mappings derive the edges of a node from the
region, and leave out those that are marked, blacklisted or hidden. `reverse_view` swaps the two
mappings.
-/

namespace Angr.Overlay

open DiGraph

variable {T V : Type} [DecidableEq T]

structure RegionOverlayGraph (T : Type) where
  overlay : Nat
  full : Bool := false
  includeMarked : Bool := false
  blacklistedEdges : Finset (Tx T × Tx T) := ∅
  /-- The mappings `_adj` and `_pred` have been swapped. -/
  swapped : Bool := false

namespace RegionOverlayGraph

variable (g : RegionOverlayGraph T) (c : Core T V) (it : IterOrder T)

def nodeSet : Finset (Tx T) := c.nodeSet g.overlay g.full

/-- `edge_marked` -/
def edgeMarked (src dst : Tx T) : Bool := ∃ e ∈ (c.region g.overlay).pairs, e.1.isMark = true ∧ e.2 = (src, dst)

def pairVisible (src dst : Tx T) : Bool :=
  if ¬ g.includeMarked ∧ g.edgeMarked c src dst then false
  else if (src, dst) ∈ g.blacklistedEdges then false
  else ¬ (g.full ∧ (.hiddenFull, src, dst) ∈ (c.region g.overlay).pairs)

/-- `_OverlayAdjInner` -/
def overlayAdjInner (pred : Bool) (n : Tx T) : List (Tx T × EdgeData V) :=
  if pred then (c.iterViewInEdges g.overlay it n g.full).filter fun e => g.pairVisible c e.1 n
  else (c.iterViewOutEdges g.overlay it n g.full).filter fun e => g.pairVisible c n e.1

/-- The entry of a node in `_adj`, which is `_succ` as well. -/
def adj (n : Tx T) : Option (List (Tx T × EdgeData V)) :=
  if n ∈ g.nodeSet c then some (g.overlayAdjInner c it g.swapped n) else none

def hasEdge (u v : Tx T) : Bool :=
  match g.adj c it u with
  | none => false
  | some targets => targets.any fun e => e.1 = v

def edges : List (Tx T × Tx T) :=
  (it.views.list (g.nodeSet c)).flatMap fun u => (g.overlayAdjInner c it g.swapped u).map fun e => (u, e.1)

def toAcyclic (blacklisted : List (Tx T × Tx T)) : RegionOverlayGraph T where
  overlay := g.overlay
  full := g.full
  includeMarked := g.includeMarked
  blacklistedEdges := g.blacklistedEdges ∪ blacklisted.toFinset

/-- Edges that do not ascend are blacklisted. -/
def toAcyclicByOrder (nodeOrder : Tx T → Nat) : RegionOverlayGraph T :=
  g.toAcyclic ((g.edges c it).filter fun e => nodeOrder e.1 ≥ nodeOrder e.2)

def reverseView : RegionOverlayGraph T where
  overlay := g.overlay
  full := g.full
  includeMarked := g.includeMarked
  blacklistedEdges := g.blacklistedEdges.image fun e => (e.2, e.1)
  swapped := true

/-- The graph without a blacklist, and with the mappings in their places. -/
def unlisted : RegionOverlayGraph T := { g with blacklistedEdges := ∅, swapped := false }

/-- The blacklist and the edges are alike in both directions where it matters: for a graph with its
mappings in their places an edge is blacklisted iff its reverse is, and for a reversed graph what is
not blacklisted has its reverse. -/
def Symmetric (u v : Tx T) : Prop :=
  if g.swapped then
    (v, u) ∉ g.blacklistedEdges → (g.unlisted.hasEdge c it u v = true ↔ g.unlisted.hasEdge c it v u = true)
  else g.unlisted.hasEdge c it u v = true → ((u, v) ∈ g.blacklistedEdges ↔ (v, u) ∈ g.blacklistedEdges)

variable {g c it} {live : Finset Nat} {u v : Tx T}

theorem pairVisible_iff : g.pairVisible c u v = true ↔
    g.unlisted.pairVisible c u v = true ∧ (u, v) ∉ g.blacklistedEdges := by
  unfold pairVisible unlisted edgeMarked
  dsimp only
  split
  · simp
  · split <;> simp_all

theorem mem_overlayAdjInner_out (htree : Tree c live) (hself : g.overlay ∈ live) :
    v ∈ (g.overlayAdjInner c it false u).map Prod.fst ↔ Seen c g.overlay g.full u v ∧ g.pairVisible c u v = true := by
  have hview : v ∈ (c.iterViewOutEdges g.overlay it u g.full).map Prod.fst ↔ Seen c g.overlay g.full u v :=
    htree.mem_iterViewOutEdges hself
  rw [← hview]
  unfold overlayAdjInner
  simp only [Bool.false_eq_true, if_false, List.mem_map, List.mem_filter]
  constructor
  · rintro ⟨e, ⟨he, hvisible⟩, rfl⟩
    exact ⟨⟨e, he, rfl⟩, hvisible⟩
  · rintro ⟨⟨e, he, rfl⟩, hvisible⟩
    exact ⟨e, ⟨he, hvisible⟩, rfl⟩

theorem mem_overlayAdjInner_in (htree : Tree c live) (hself : g.overlay ∈ live) :
    u ∈ (g.overlayAdjInner c it true v).map Prod.fst ↔ Seen c g.overlay g.full u v ∧ g.pairVisible c u v = true := by
  have hview : u ∈ (c.iterViewInEdges g.overlay it v g.full).map Prod.fst ↔ Seen c g.overlay g.full u v :=
    htree.mem_iterViewInEdges hself
  rw [← hview]
  unfold overlayAdjInner
  simp only [if_true, List.mem_map, List.mem_filter]
  constructor
  · rintro ⟨e, ⟨he, hvisible⟩, rfl⟩
    exact ⟨⟨e, he, rfl⟩, hvisible⟩
  · rintro ⟨⟨e, he, rfl⟩, hvisible⟩
    exact ⟨e, ⟨he, hvisible⟩, rfl⟩

theorem any_fst_iff {targets : List (Tx T × EdgeData V)} :
    (targets.any fun e => decide (e.1 = v)) = true ↔ v ∈ targets.map Prod.fst := by
  simp

theorem hasEdge_unlisted (htree : Tree c live) (hself : g.overlay ∈ live) (hu : u ∈ g.nodeSet c) :
    g.unlisted.hasEdge c it u v = true ↔ Seen c g.overlay g.full u v ∧ g.unlisted.pairVisible c u v = true := by
  unfold hasEdge adj
  rw [if_pos (show u ∈ g.unlisted.nodeSet c from hu)]
  dsimp only
  rw [any_fst_iff]
  exact mem_overlayAdjInner_out (g := g.unlisted) htree hself

/-- The edges of a graph with its mappings in their places: those of the region but for the blacklist. -/
theorem hasEdge_of_not_swapped (htree : Tree c live) (hself : g.overlay ∈ live) (hu : u ∈ g.nodeSet c)
    (hswapped : g.swapped = false) :
    g.hasEdge c it u v = true ↔ g.unlisted.hasEdge c it u v = true ∧ (u, v) ∉ g.blacklistedEdges := by
  rw [hasEdge_unlisted htree hself hu]
  unfold hasEdge adj
  rw [if_pos hu]
  dsimp only
  rw [any_fst_iff, hswapped, mem_overlayAdjInner_out htree hself, pairVisible_iff, and_assoc]

/-- The edges of a reversed graph. -/
theorem hasEdge_of_swapped (htree : Tree c live) (hself : g.overlay ∈ live) (hu : u ∈ g.nodeSet c) (hv : v ∈ g.nodeSet c)
    (hswapped : g.swapped = true) :
    g.hasEdge c it v u = true ↔ g.unlisted.hasEdge c it u v = true ∧ (u, v) ∉ g.blacklistedEdges := by
  rw [hasEdge_unlisted htree hself hu]
  unfold hasEdge adj
  rw [if_pos hv]
  dsimp only
  rw [any_fst_iff, hswapped, mem_overlayAdjInner_in htree hself, pairVisible_iff, and_assoc]

theorem unlisted_reverseView : g.reverseView.unlisted = g.unlisted := rfl

theorem mem_blacklist_reverseView : (u, v) ∈ g.reverseView.blacklistedEdges ↔ (v, u) ∈ g.blacklistedEdges := by
  unfold reverseView
  simp only [Finset.mem_image, Prod.mk.injEq]
  constructor
  · rintro ⟨e, he, rfl, rfl⟩
    exact he
  · exact fun h => ⟨(v, u), h, rfl, rfl⟩

/-- The reversed graph has the reverse of an edge exactly when the blacklist is symmetric there. -/
theorem reverseView_hasEdge_iff (htree : Tree c live) (hself : g.overlay ∈ live) (hu : u ∈ g.nodeSet c)
    (hv : v ∈ g.nodeSet c) :
    (g.reverseView.hasEdge c it v u = true ↔ g.hasEdge c it u v = true) ↔ g.Symmetric c it u v := by
  rw [hasEdge_of_swapped (g := g.reverseView) htree hself hu hv rfl, unlisted_reverseView, mem_blacklist_reverseView]
  unfold Symmetric
  cases hswapped : g.swapped with
  | false =>
    rw [hasEdge_of_not_swapped htree hself hu hswapped, if_neg Bool.false_ne_true]
    tauto
  | true =>
    rw [hasEdge_of_swapped htree hself hv hu hswapped, if_pos rfl]
    tauto

end RegionOverlayGraph

/-! ## Every state of a session -/

namespace Session

variable {it : IterOrder T} {s : Session T V}

/-- The loop at 2 as a region of its own. -/
def nestedLoop : Session Nat Unit := (start loopAtEnd false none).step inOrder
  (.call 0 (.createSubregion (.node 2) {.node 2} true false))

theorem nestedLoop_reach : Runs.Reach (step inOrder) (fun s cmd => s.Legal inOrder cmd) (start loopAtEnd false none)
    nestedLoop := by
  refine .tail .refl ?_
  unfold Legal World.Legal
  decide +kernel

/-- 1 → 2 → 1. -/
def twoWay : DiGraph Nat Unit := (DiGraph.empty.addEdge 1 2 EdgeData.empty).addEdge 2 1 EdgeData.empty

/-- The root's graph without the edge back. -/
def oneWay : RegionOverlayGraph Nat :=
  ({ overlay := 0 } : RegionOverlayGraph Nat).toAcyclicByOrder (start twoWay false none).world.manager.core inOrder
    fun x => if x = .node 1 then 1 else 2

end Session

end Angr.Overlay
