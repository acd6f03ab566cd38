import Vibr.Lib.Dfs
import Vibr.Lib.Dict
import Vibr.Lib.Dominance

/-!
# Dominance frontiers

`compute_dominance_frontier` visits the nodes of the dominator tree after their children. The
frontier of a node has the successors that are not its children in the tree, and what is left of
the frontiers of its children.
-/

namespace Angr.GraphUtils

variable {T : Type} [DecidableEq T]

/-- `networkx.dfs_postorder_nodes`: all nodes of a graph, and if there is no cycle each one after
its successors. -/
structure DfsPostorderNodes (T : Type) where
  list : FinGraph T → List T
  mem_list : ∀ {g}, g.Acyclic → ∀ n, n ∈ list g ↔ n ∈ g.nodes
  after : ∀ {g}, g.Acyclic → ∀ front n back, list g = front ++ n :: back → ∀ s, g.Edge n s → s ∈ front

/-- A search that takes the nodes and the successors in a given order. -/
def postorderFrom (E : Enumeration T) (g : FinGraph T) : List T :=
  let stack := (E.list g.nodes).map fun n => (n, true)
  Dfs.postorder (g.next E) (Dfs.work (g.next E) g.nodes stack ∅) stack ∅

theorem postorderFrom_spec (E : Enumeration T) {g : FinGraph T} (hacyclic : g.Acyclic) :
    Dfs.Closed (g.next E) (postorderFrom E g) ∧ ∀ n, n ∈ postorderFrom E g ↔ n ∈ g.nodes := by
  have hclosed : ∀ x ∈ g.nodes, ∀ y ∈ g.next E x, y ∈ g.nodes := fun x _ y hy => (g.closed (FinGraph.mem_next.mp hy)).2
  have hstep : Dfs.Step (g.next E) = g.Edge := by
    funext a b
    exact propext FinGraph.mem_next
  obtain ⟨hafter, hall, hsound⟩ := Dfs.postorder_forest hclosed (hstep ▸ hacyclic)
    (fun x hx => (E.mem_list g.nodes x).mp hx) (Nat.le_refl _)
  exact ⟨hafter, fun n => ⟨hsound n, fun hn => hall n ((E.mem_list g.nodes n).mpr hn)⟩⟩

def DfsPostorderNodes.ofOrder (E : Enumeration T) : DfsPostorderNodes T where
  list := postorderFrom E
  mem_list hacyclic := (postorderFrom_spec E hacyclic).2
  after hacyclic front n back heq s hedge :=
    (postorderFrom_spec E hacyclic).1 front n back heq s (FinGraph.mem_next.mpr hedge)

/-! ## Frontiers -/

variable (g domtree : FinGraph T)

/-- The successors that the node does not dominate immediately. -/
def localSet (x : T) : Finset T := (g.succ x).filter fun y => x ∉ domtree.pred y

/-- What the frontiers of the children leave. -/
def upSet (df : Dict T (Finset T)) (x : T) : Finset T :=
  (domtree.succ x).biUnion fun z =>
    if z = x then ∅
    else match df.get? z with
      | none => ∅
      | some ys => ys.filter fun y => x ∉ domtree.pred y

/-- One round of the loop; `domtree.predecessors` raises for a node that is not in the tree. -/
def frontierStep (df : Dict T (Finset T)) (x : T) : Option (Dict T (Finset T)) :=
  if x ∉ g.nodes then some df
  else if g.succ x ⊆ domtree.nodes then some (df.set x (localSet g domtree x ∪ upSet domtree df x))
  else none

def computeDominanceFrontier (postorder : DfsPostorderNodes T) : Option (Dict T (Finset T)) :=
  (postorder.list domtree).foldlM (frontierStep g domtree) []

/-- The frontiers of the nodes of a graph among `nodes`, as the definition has them. -/
structure Frontiers (g : FinGraph T) (entry : T) (df : Dict T (Finset T)) (nodes : List T) : Prop where
  frontier : ∀ x ∈ nodes, x ∈ g.nodes → ∃ ys, df.get? x = some ys ∧ ∀ y, y ∈ ys ↔ g.InFrontier entry x y
  others : ∀ x, x ∉ nodes ∨ x ∉ g.nodes → df.get? x = none

variable {g} {entry x y : T} {tree : g.DominatorTree entry} {df : Dict T (Finset T)} {done rest : List T}

theorem notMem_pred (hx : x ∈ g.nodes) (hy : y ∈ g.nodes) :
    x ∉ tree.graph.pred y ↔ ¬ g.ImmediatelyDominates entry x y := by
  rw [FinGraph.mem_pred, tree.edge_iff x hx y hy]

theorem mem_localSet (hx : x ∈ g.nodes) :
    y ∈ localSet g tree.graph x ↔ g.Edge x y ∧ ¬ g.ImmediatelyDominates entry x y := by
  unfold localSet
  rw [Finset.mem_filter, FinGraph.mem_succ]
  exact and_congr_right fun hedge => notMem_pred hx (g.closed hedge).2

theorem mem_upSet (hreach : ∀ v ∈ g.nodes, g.Reach entry v) (hentry : entry ∈ g.nodes) (hx : x ∈ g.nodes)
    (hdone : ∀ z, tree.graph.Edge x z → z ∈ done)
    (h : Frontiers g entry df done) :
    y ∈ upSet tree.graph df x ↔
      ∃ z, g.ImmediatelyDominates entry x z ∧ g.InFrontier entry z y ∧ ¬ g.ImmediatelyDominates entry x y := by
  unfold upSet
  rw [Finset.mem_biUnion]
  constructor
  · rintro ⟨z, hz, hy⟩
    have hedge := FinGraph.mem_succ.mp hz
    split at hy
    · exact absurd hy (Finset.notMem_empty y)
    split at hy
    · exact absurd hy (Finset.notMem_empty y)
    rename_i ys hys
    obtain ⟨hy, hnot⟩ := Finset.mem_filter.mp hy
    have hz_mem : z ∈ g.nodes := by
      by_contra hz_not
      rw [h.others z (.inr hz_not)] at hys
      cases hys
    obtain ⟨ys', hys', hiff⟩ := h.frontier z (hdone z hedge) hz_mem
    rw [hys] at hys'
    cases hys'
    have hfrontier := (hiff y).mp hy
    obtain ⟨p, hpy, -⟩ := hfrontier.1
    exact ⟨z, (tree.edge_iff x hx z hz_mem).mp hedge, hfrontier, (notMem_pred hx (g.closed hpy).2).mp hnot⟩
  · rintro ⟨z, hxz, hfrontier, hnot⟩
    obtain ⟨p, hpy, hzp⟩ := hfrontier.1
    obtain ⟨hp, hy⟩ := g.closed hpy
    have hz : z ∈ g.nodes := (hzp.reach (hreach p hp)).mem hentry
    have hedge := (tree.edge_iff x hx z hz).mpr hxz
    obtain ⟨ys, hys, hiff⟩ := h.frontier z (hdone z hedge) hz
    refine ⟨z, FinGraph.mem_succ.mpr hedge, ?_⟩
    rw [if_neg hxz.1.2.symm, hys]
    exact Finset.mem_filter.mpr ⟨(hiff y).mpr hfrontier, (notMem_pred hx hy).mpr hnot⟩

theorem frontierStep_spec (hreach : ∀ v ∈ g.nodes, g.Reach entry v) (hentry : entry ∈ g.nodes)
    (hdone : ∀ z, tree.graph.Edge x z → z ∈ done) (h : Frontiers g entry df done) :
    ∃ df', frontierStep g tree.graph df x = some df' ∧ Frontiers g entry df' (done ++ [x]) := by
  unfold frontierStep
  by_cases hx : x ∈ g.nodes
  · have hsub : g.succ x ⊆ tree.graph.nodes := fun y hy => tree.covers (g.closed (FinGraph.mem_succ.mp hy)).2
    rw [if_neg (not_not.mpr hx), if_pos hsub]
    refine ⟨_, rfl, fun w hw hw_mem => ?_, fun w hw => ?_⟩
    · rw [Dict.get?_set]
      split
      · rename_i heq
        subst heq
        refine ⟨_, rfl, fun y => ?_⟩
        rw [Finset.mem_union, mem_localSet hx, mem_upSet hreach hentry hx hdone h, FinGraph.inFrontier_iff hreach hentry]
      · rename_i hne
        refine h.frontier w ((List.mem_append.mp hw).resolve_right ?_) hw_mem
        exact fun hin => hne (List.mem_singleton.mp hin).symm
    · have hne : x ≠ w := by
        rintro rfl
        exact hw.elim (fun hnot => hnot (List.mem_append_right _ (List.mem_singleton_self x))) (fun hnot => hnot hx)
      rw [Dict.get?_set, if_neg hne]
      exact h.others w (hw.imp_left fun hnot hin => hnot (List.mem_append_left _ hin))
  · rw [if_pos hx]
    refine ⟨df, rfl, fun w hw hw_mem => ?_, fun w hw => ?_⟩
    · refine h.frontier w ((List.mem_append.mp hw).resolve_right ?_) hw_mem
      intro hin
      rw [List.mem_singleton.mp hin] at hw_mem
      exact hx hw_mem
    · exact h.others w (hw.imp_left fun hnot hin => hnot (List.mem_append_left _ hin))

theorem foldlM_frontierStep (hreach : ∀ v ∈ g.nodes, g.Reach entry v) (hentry : entry ∈ g.nodes)
    (hafter : ∀ front n back, done ++ rest = front ++ n :: back → ∀ s, tree.graph.Edge n s → s ∈ front)
    (h : Frontiers g entry df done) :
    ∃ df', rest.foldlM (frontierStep g tree.graph) df = some df' ∧ Frontiers g entry df' (done ++ rest) := by
  induction rest generalizing df done with
  | nil => exact ⟨df, rfl, by rwa [List.append_nil]⟩
  | cons x rest ih =>
    obtain ⟨df', hstep, h'⟩ := frontierStep_spec hreach hentry (hafter done x rest rfl) h
    have hassoc : done ++ x :: rest = done ++ [x] ++ rest := by simp
    rw [List.foldlM_cons, hstep, hassoc]
    refine ih ?_ h'
    rwa [← hassoc]

/-- The computed frontiers are those of the definition. -/
theorem computeDominanceFrontier_spec (postorder : DfsPostorderNodes T) (tree : g.DominatorTree entry)
    (hentry : entry ∈ g.nodes) (hreach : ∀ v ∈ g.nodes, g.Reach entry v) :
    ∃ df, computeDominanceFrontier g tree.graph postorder = some df ∧
      (∀ x, (df.get? x).isSome ↔ x ∈ g.nodes) ∧
      ∀ x ys, df.get? x = some ys → ∀ y, y ∈ ys ↔ g.InFrontier entry x y := by
  have hstart : Frontiers g entry [] [] := ⟨fun x hx => absurd hx List.not_mem_nil, fun _ _ => rfl⟩
  obtain ⟨df, hdf, h⟩ := foldlM_frontierStep hreach hentry (postorder.after tree.acyclic) hstart
  rw [List.nil_append] at h
  have hlisted : ∀ x ∈ g.nodes, x ∈ postorder.list tree.graph := fun x hx =>
    (postorder.mem_list tree.acyclic x).mpr (tree.covers hx)
  have hmem : ∀ x, (df.get? x).isSome → x ∈ g.nodes := by
    intro x hx
    by_contra hnot
    rw [h.others x (.inr hnot)] at hx
    cases hx
  refine ⟨df, hdf, fun x => ⟨hmem x, fun hx => ?_⟩, fun x ys hys => ?_⟩
  · obtain ⟨ys, hys, -⟩ := h.frontier x (hlisted x hx) hx
    rw [hys]
    rfl
  · have hx := hmem x (by rw [hys]; rfl)
    obtain ⟨ys', hys', hiff⟩ := h.frontier x (hlisted x hx) hx
    rw [hys] at hys'
    cases hys'
    exact hiff

/-! ## A loop -/

/-- 0 → 1 → 2 → 1. -/
def loop : FinGraph Nat where
  nodes := {0, 1, 2}
  edges := {(0, 1), (1, 2), (2, 1)}
  closed {u v} h := by
    simp only [Finset.mem_insert, Finset.mem_singleton, Prod.mk.injEq] at h ⊢
    omega

theorem edge_loop {u v : Nat} : loop.Edge u v ↔ u = 0 ∧ v = 1 ∨ u = 1 ∧ v = 2 ∨ u = 2 ∧ v = 1 := by
  simp [FinGraph.Edge, loop]

theorem path_loop {v : Nat} (h : v ≤ 2) : loop.Path 0 v (List.range (v + 1)) := by
  have h0 : loop.Path 0 0 [0] := .single 0
  have h1 : loop.Path 0 1 [0, 1] := h0.snoc (edge_loop.mpr (.inl ⟨rfl, rfl⟩))
  have h2 : loop.Path 0 2 [0, 1, 2] := h1.snoc (edge_loop.mpr (.inr (.inl ⟨rfl, rfl⟩)))
  rcases (by omega : v = 0 ∨ v = 1 ∨ v = 2) with rfl | rfl | rfl
  · exact h0
  · exact h1
  · exact h2

theorem dominates_loop {d v : Nat} (hv : v ≤ 2) : loop.Dominates 0 d v ↔ d ≤ v := by
  constructor
  · intro h
    have := h _ (path_loop hv)
    rw [List.mem_range] at this
    omega
  intro hd l hl
  -- no edge goes up by more than one
  have hvisits : ∀ {u v l}, loop.Path u v l → ∀ d, u ≤ d → d ≤ v → d ∈ l := by
    intro u v l hl
    induction hl with
    | single u =>
      intro d hu hv
      exact List.mem_singleton.mpr (Nat.le_antisymm hv hu)
    | @cons u w v l hedge _ ih =>
      intro d hu hv
      rcases Nat.eq_or_lt_of_le hu with rfl | hlt
      · exact List.mem_cons_self
      · have := edge_loop.mp hedge
        exact List.mem_cons_of_mem _ (ih d (by omega) hv)
  exact hvisits hl d (Nat.zero_le d) hd

theorem immediatelyDominates_loop {d v : Nat} (hd : d ≤ 2) (hv : v ≤ 2) :
    loop.ImmediatelyDominates 0 d v ↔ d + 1 = v := by
  unfold FinGraph.ImmediatelyDominates FinGraph.StrictlyDominates
  rw [dominates_loop hv]
  constructor
  · intro h
    obtain ⟨⟨hle, hne⟩, hall⟩ := h
    have hpred := (dominates_loop hd).mp (hall (v - 1) ⟨(dominates_loop hv).mpr (Nat.sub_le v 1), by omega⟩)
    omega
  intro heq
  refine ⟨by omega, fun c hc => (dominates_loop hd).mpr ?_⟩
  have := (dominates_loop hv).mp hc.1
  omega

/-- 0 → 1 → 2. -/
def loopTree : loop.DominatorTree 0 where
  graph :=
    { nodes := {0, 1, 2}
      edges := {(0, 1), (1, 2)}
      closed := fun {u v} h => by
        simp only [Finset.mem_insert, Finset.mem_singleton, Prod.mk.injEq] at h ⊢
        omega }
  covers := Finset.Subset.refl _
  edge_iff x hx y hy := by
    have hle : ∀ n ∈ loop.nodes, n ≤ 2 := by decide
    have hx' := hle x hx
    have hy' := hle y hy
    rw [immediatelyDominates_loop hx' hy']
    simp only [FinGraph.Edge, Finset.mem_insert, Finset.mem_singleton, Prod.mk.injEq]
    omega
  acyclic := by
    refine @FinGraph.acyclic_of_lt Nat _ id fun u v h => ?_
    simp only [FinGraph.Edge, Finset.mem_insert, Finset.mem_singleton, Prod.mk.injEq] at h
    simp only [id_eq]
    omega

/-- The head of the loop is in its own frontier. -/
theorem computeDominanceFrontier_loop :
    ∃ df, computeDominanceFrontier loop loopTree.graph (.ofOrder .ascending) = some df ∧
      ∃ ys, df.get? 1 = some ys ∧ 1 ∈ ys := by
  have hreach : ∀ v ∈ loop.nodes, loop.Reach 0 v := by
    have hle : ∀ n ∈ loop.nodes, n ≤ 2 := by decide
    exact fun v hv => (path_loop (hle v hv)).reach
  obtain ⟨df, hdf, hmem, hfrontier⟩ :=
    computeDominanceFrontier_spec (.ofOrder .ascending) loopTree (by decide) hreach
  obtain ⟨ys, hys⟩ := Option.isSome_iff_exists.mp ((hmem 1).mpr (by decide))
  refine ⟨df, hdf, ys, hys, (hfrontier 1 ys hys 1).mpr ⟨⟨2, ?_, ?_⟩, fun h => h.2 rfl⟩⟩
  · exact edge_loop.mpr (.inr (.inr ⟨rfl, rfl⟩))
  · exact (dominates_loop (Nat.le_refl 2)).mpr (by decide)

end Angr.GraphUtils
