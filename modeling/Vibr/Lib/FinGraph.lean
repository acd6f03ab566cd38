import Mathlib.Order.Lattice.Nat
import Vibr.Lib.Explore

/-!
# Finite directed graphs

A graph has finitely many nodes and edges between them. Reachability is the reflexive
transitive closure of its edges; it is computed by exploring the graph.
-/

/-- The order in which the elements of a set are listed. -/
structure Enumeration (α : Type*) where
  list : Finset α → List α
  nodup : ∀ s, (list s).Nodup
  mem_list : ∀ s x, x ∈ list s ↔ x ∈ s

/-- Numbers in ascending order. -/
def Enumeration.ascending : Enumeration Nat where
  list s := (List.range (s.sup id + 1)).filter (· ∈ s)
  nodup s := List.nodup_range.filter _
  mem_list s x := by
    rw [List.mem_filter, List.mem_range, decide_eq_true_iff, and_iff_right_iff_imp]
    exact fun hx => Nat.lt_succ_of_le (Finset.le_sup (f := id) hx)

@[ext] structure FinGraph (T : Type*) where
  nodes : Finset T
  edges : Finset (T × T)
  closed : ∀ {u v}, (u, v) ∈ edges → u ∈ nodes ∧ v ∈ nodes

namespace FinGraph

variable {T : Type*} [DecidableEq T] (g : FinGraph T) (E : Enumeration T) {u v w : T}

def Edge (u v : T) : Prop := (u, v) ∈ g.edges

def succ (u : T) : Finset T := g.nodes.filter fun v => (u, v) ∈ g.edges

def pred (v : T) : Finset T := g.nodes.filter fun u => (u, v) ∈ g.edges

/-- The successors of a node in some order. -/
def next (u : T) : List T := E.list (g.succ u)

def Reach : T → T → Prop := Relation.ReflTransGen g.Edge

/-- The nodes that are reached from a node. -/
def reachFrom (u : T) : Finset T :=
  Explore.run .stack (g.next E) (Explore.work (g.next E) g.nodes [u] ∅) [u] ∅

/-- The nodes at the end of the paths with `k` edges. -/
def layer (u : T) (k : Nat) : Finset T := (fun s : Finset T => s.biUnion g.succ)^[k] {u}

/-- The strongly connected component of a node. -/
def component (u : T) : Finset T := (g.reachFrom E u).filter fun v => u ∈ g.reachFrom E v

/-- The subgraph of the nodes in `s`. -/
def induce (s : Finset T) : FinGraph T where
  nodes := g.nodes ∩ s
  edges := g.edges.filter fun e => e.1 ∈ s ∧ e.2 ∈ s
  closed {u v} h := by
    obtain ⟨hedge, hu, hv⟩ := Finset.mem_filter.mp h
    exact ⟨Finset.mem_inter.mpr ⟨(g.closed hedge).1, hu⟩, Finset.mem_inter.mpr ⟨(g.closed hedge).2, hv⟩⟩

/-- The graph without the edges that meet `p`. -/
def dropEdges (p : T × T → Bool) : FinGraph T where
  nodes := g.nodes
  edges := g.edges.filter fun e => ¬ p e
  closed h := g.closed (Finset.mem_filter.mp h).1

variable {g E}

theorem mem_succ : v ∈ g.succ u ↔ g.Edge u v := by
  unfold succ
  rw [Finset.mem_filter]
  exact ⟨And.right, fun h => ⟨(g.closed h).2, h⟩⟩

theorem mem_pred : u ∈ g.pred v ↔ g.Edge u v := by
  unfold pred
  rw [Finset.mem_filter]
  exact ⟨And.right, fun h => ⟨(g.closed h).1, h⟩⟩

theorem mem_next : v ∈ g.next E u ↔ g.Edge u v := by
  rw [next, E.mem_list, mem_succ]

omit [DecidableEq T] in
theorem Reach.mem (h : g.Reach u v) (hu : u ∈ g.nodes) : v ∈ g.nodes := by
  induction h with
  | refl => exact hu
  | tail _ hedge _ => exact (g.closed hedge).2

theorem mem_reachFrom (hu : u ∈ g.nodes) : v ∈ g.reachFrom E u ↔ g.Reach u v := by
  have hclosed : ∀ x ∈ g.nodes, ∀ y ∈ g.next E x, y ∈ g.nodes := fun x _ y hy => (g.closed (mem_next.mp hy)).2
  unfold reachFrom
  constructor
  · refine Explore.run_sound (P := g.Reach u) (fun x hx y hy => hx.tail (mem_next.mp hy)) ?_ ?_ v
    · intro x hx
      rw [List.mem_singleton.mp hx]
      exact .refl
    · exact fun x hx => absurd hx (Finset.notMem_empty x)
  obtain ⟨-, hstart, hstep⟩ := @Explore.run_complete T _ Explore.Agenda.stack (g.next E) [u] ∅ g.nodes hclosed _
    (Nat.le_refl _) (by simpa using hu) fun x hx => absurd hx (Finset.notMem_empty x)
  intro h
  induction h with
  | refl => exact hstart u List.mem_cons_self
  | tail _ hedge ih => exact hstep _ ih _ (mem_next.mpr hedge)

theorem mem_component (hu : u ∈ g.nodes) : v ∈ g.component E u ↔ g.Reach u v ∧ g.Reach v u := by
  unfold component
  rw [Finset.mem_filter, mem_reachFrom hu]
  exact and_congr_right fun huv => mem_reachFrom (huv.mem hu)

theorem component_eq (hu : u ∈ g.nodes) (huv : g.Reach u v) (hvu : g.Reach v u) :
    g.component E u = g.component E v := by
  ext w
  rw [mem_component hu, mem_component (huv.mem hu)]
  exact ⟨fun h => ⟨hvu.trans h.1, h.2.trans huv⟩, fun h => ⟨huv.trans h.1, h.2.trans hvu⟩⟩

/-! ## Distances -/

theorem mem_layer_succ {k : Nat} : w ∈ g.layer u (k + 1) ↔ ∃ v ∈ g.layer u k, g.Edge v w := by
  unfold layer
  rw [Function.iterate_succ_apply', Finset.mem_biUnion]
  simp only [mem_succ]

theorem reach_of_mem_layer {k : Nat} (h : v ∈ g.layer u k) : g.Reach u v := by
  induction k generalizing v with
  | zero =>
    rw [Finset.mem_singleton.mp h]
    exact .refl
  | succ k ih =>
    obtain ⟨w, hw, hedge⟩ := mem_layer_succ.mp h
    exact (ih hw).tail hedge

theorem Reach.exists_layer (h : g.Reach u v) : ∃ k, v ∈ g.layer u k := by
  induction h with
  | refl => exact ⟨0, Finset.mem_singleton_self u⟩
  | tail _ hedge ih =>
    obtain ⟨k, hk⟩ := ih
    exact ⟨k + 1, mem_layer_succ.mpr ⟨_, hk, hedge⟩⟩

/-- On the way to a node at distance `k` there is a node at every lower distance. -/
theorem exists_at_distance {k i : Nat} (hv : v ∈ g.layer u k) (hmin : ∀ j < k, v ∉ g.layer u j) (hi : i ≤ k) :
    ∃ w ∈ g.layer u i, ∀ j < i, w ∉ g.layer u j := by
  obtain ⟨d, rfl⟩ := Nat.exists_eq_add_of_le hi
  induction d generalizing v with
  | zero => exact ⟨v, hv, hmin⟩
  | succ d ih =>
    obtain ⟨w, hw, hedge⟩ := mem_layer_succ.mp hv
    refine ih hw (fun j hj hmem => hmin (j + 1) ?_ (mem_layer_succ.mpr ⟨w, hmem, hedge⟩)) (Nat.le_add_right i d)
    exact Nat.succ_lt_succ hj

/-- A node is reached in fewer steps than there are nodes. -/
theorem Reach.exists_layer_lt_card (h : g.Reach u v) (hu : u ∈ g.nodes) :
    ∃ k < g.nodes.card, v ∈ g.layer u k := by
  have hex := h.exists_layer
  let k := Nat.find hex
  have hmin : ∀ j < k, v ∉ g.layer u j := fun j hj => Nat.find_min hex hj
  have hv : v ∈ g.layer u k := Nat.find_spec hex
  -- nodes at different distances are different
  have : Nonempty T := ⟨u⟩
  choose! w hw hw_min using fun i (hi : i ≤ k) => exists_at_distance hv hmin hi
  have hinj : Set.InjOn w (Finset.range (k + 1) : Set Nat) := by
    intro i hi j hj heq
    rw [Finset.coe_range, Set.mem_Iio] at hi hj
    rcases Nat.lt_trichotomy i j with hlt | heq' | hlt
    · exact absurd (heq ▸ hw i (by omega)) (hw_min j (by omega) i hlt)
    · exact heq'
    · exact absurd (heq.symm ▸ hw j (by omega)) (hw_min i (by omega) j hlt)
  have hsub : (Finset.range (k + 1)).image w ⊆ g.nodes := by
    intro x hx
    obtain ⟨i, hi, rfl⟩ := Finset.mem_image.mp hx
    have hle : i ≤ k := Nat.lt_succ_iff.mp (Finset.mem_range.mp hi)
    exact (reach_of_mem_layer (hw i hle)).mem hu
  have hcard := Finset.card_le_card hsub
  rw [Finset.card_image_of_injOn hinj, Finset.card_range] at hcard
  exact ⟨k, hcard, hv⟩

/-! ## Acyclic graphs -/

def Acyclic (g : FinGraph T) : Prop := ∀ x, ¬ Relation.TransGen g.Edge x x

omit [DecidableEq T] in
/-- A graph whose edges ascend in some order has no cycle. -/
theorem acyclic_of_lt {f : T → Nat} (h : ∀ u v, g.Edge u v → f u < f v) : g.Acyclic := by
  have hlt : ∀ u v, Relation.TransGen g.Edge u v → f u < f v := by
    intro u v huv
    induction huv with
    | single hedge => exact h _ _ hedge
    | tail _ hedge ih => exact ih.trans (h _ _ hedge)
  exact fun x hx => absurd (hlt x x hx) (Nat.lt_irrefl _)

/-- Every node of an acyclic graph is reached from one without predecessors. -/
theorem Acyclic.exists_source (h : g.Acyclic) (hv : v ∈ g.nodes) :
    ∃ s ∈ g.nodes, g.pred s = ∅ ∧ g.Reach s v := by
  classical
  -- by induction on the number of nodes from which `v` is reached
  generalize hn : (g.nodes.filter fun u => Relation.TransGen g.Edge u v).card = n
  induction n using Nat.strong_induction_on generalizing v with
  | _ n ih =>
    by_cases hpred : g.pred v = ∅
    · exact ⟨v, hv, hpred, .refl⟩
    obtain ⟨u, hu⟩ := Finset.nonempty_iff_ne_empty.mpr hpred
    have hedge := mem_pred.mp hu
    have hu_mem := (g.closed hedge).1
    have hsub : (g.nodes.filter fun x => Relation.TransGen g.Edge x u) ⊂
        g.nodes.filter fun x => Relation.TransGen g.Edge x v := by
      refine Finset.ssubset_iff_subset_ne.mpr ⟨fun x hx => ?_, fun heq => ?_⟩
      · obtain ⟨hx, hxu⟩ := Finset.mem_filter.mp hx
        exact Finset.mem_filter.mpr ⟨hx, hxu.tail hedge⟩
      have huv : u ∈ g.nodes.filter fun x => Relation.TransGen g.Edge x v :=
        Finset.mem_filter.mpr ⟨hu_mem, .single hedge⟩
      rw [← heq] at huv
      exact h u (Finset.mem_filter.mp huv).2
    obtain ⟨s, hs, hsource, hreach⟩ := ih _ (hn ▸ Finset.card_lt_card hsub) hu_mem rfl
    exact ⟨s, hs, hsource, hreach.tail hedge⟩

end FinGraph
