import Vibr.Lib.Path

/-!
# Dominance

A node dominates another one if every path from the entry to that one visits it. The dominators of
a node that is reached from the entry are in a chain, whose last element before the node is its
immediate dominator. The frontier of a node is where its dominance ends.
-/

namespace FinGraph

variable {T : Type*} (g : FinGraph T) (entry : T)

/-- Every path from the entry to `v` visits `d`. -/
def Dominates (d v : T) : Prop := ∀ l, g.Path entry v l → d ∈ l

def StrictlyDominates (d v : T) : Prop := g.Dominates entry d v ∧ d ≠ v

/-- The strict dominator that every other one dominates. -/
def ImmediatelyDominates (d v : T) : Prop :=
  g.StrictlyDominates entry d v ∧ ∀ c, g.StrictlyDominates entry c v → g.Dominates entry c d

/-- `x` dominates a predecessor of `y`, but does not strictly dominate `y`. -/
def InFrontier (x y : T) : Prop :=
  (∃ p, g.Edge p y ∧ g.Dominates entry x p) ∧ ¬ g.StrictlyDominates entry x y

variable {g entry} {c d u v x y z : T}

/-! ## The order of the dominators -/

theorem Dominates.refl (v : T) : g.Dominates entry v v := fun _ h => h.last_mem

theorem Dominates.trans (hcd : g.Dominates entry c d) (hdv : g.Dominates entry d v) : g.Dominates entry c v := by
  intro l h
  obtain ⟨front, back, rfl⟩ := List.append_of_mem (hdv l h)
  have hc := hcd _ (Path.append_iff.mp h).1
  rcases List.mem_append.mp hc with hc | hc
  · exact List.mem_append_left _ hc
  · rw [List.mem_singleton.mp hc]
    exact List.mem_append_right _ List.mem_cons_self

theorem Dominates.antisymm (hd : g.Reach entry d) (hdv : g.Dominates entry d v) (hvd : g.Dominates entry v d) :
    d = v := by
  by_contra hne
  have hnone : ∀ n, ∀ l, l.length = n → ¬ g.Path entry d l := by
    -- each path to `d` has a shorter one inside, through `v`
    intro n
    induction n using Nat.strong_induction_on with
    | _ n ih =>
      intro l hn h
      obtain ⟨front, back, rfl⟩ := List.append_of_mem (hvd l h)
      have hmem := hdv _ (Path.append_iff.mp h).1
      have hfront : d ∈ front := (List.mem_append.mp hmem).resolve_right fun hin => hne (List.mem_singleton.mp hin)
      obtain ⟨front, mid, rfl⟩ := List.append_of_mem hfront
      rw [List.append_assoc] at h
      refine ih _ ?_ _ rfl (Path.append_iff.mp h).1
      simp only [List.length_append, List.length_cons, List.length_nil] at hn ⊢
      omega
  obtain ⟨l, hl⟩ := hd.exists_path
  exact hnone _ l rfl hl

theorem exists_last_of_mem {a : T} {l : List T} (h : a ∈ l) : ∃ front back, l = front ++ a :: back ∧ a ∉ back := by
  obtain ⟨front, back, heq, hnot⟩ := List.eq_append_cons_of_mem (List.mem_reverse.mpr h)
  refine ⟨back.reverse, front.reverse, ?_, fun hin => hnot (List.mem_reverse.mp hin)⟩
  have := congrArg List.reverse heq
  simpa using this

/-- Of two dominators of a node one dominates the other. -/
theorem Dominates.total (hv : g.Reach entry v) (hc : g.Dominates entry c v) (hd : g.Dominates entry d v) :
    g.Dominates entry c d ∨ g.Dominates entry d c := by
  by_contra hneither
  rw [not_or] at hneither
  obtain ⟨hcd, hdc⟩ := hneither
  unfold Dominates at hcd hdc
  push Not at hcd hdc
  obtain ⟨toD, htoD, hc_notin⟩ := hcd
  obtain ⟨toC, htoC, hd_notin⟩ := hdc
  -- after the last visit of `d` a path to `v` can be led around `c`, and then around `d`
  obtain ⟨l, hl⟩ := hv.exists_path
  obtain ⟨front, back, rfl, hd_back⟩ := exists_last_of_mem (hd l hl)
  have haround := htoD.append (Path.append_iff.mp hl).2
  have hc_back : c ∈ back := (List.mem_append.mp (hc _ haround)).resolve_left hc_notin
  obtain ⟨mid, back, rfl⟩ := List.append_of_mem hc_back
  have hrest : g.Path c v (c :: back) := by
    have := (Path.append_iff.mp hl).2
    rw [← List.cons_append] at this
    exact (Path.append_iff.mp this).2
  rcases List.mem_append.mp (hd _ (htoC.append hrest)) with hin | hin
  · exact hd_notin hin
  · exact hd_back (List.mem_append_right _ (List.mem_cons_of_mem _ hin))

theorem Dominates.strict_trans (hcd : g.Dominates entry c d) (hdv : g.StrictlyDominates entry d v)
    (hd : g.Reach entry d) : g.StrictlyDominates entry c v := by
  refine ⟨hcd.trans hdv.1, ?_⟩
  rintro rfl
  exact hdv.2 (hdv.1.antisymm hd hcd)

theorem StrictlyDominates.trans_right (hcd : g.StrictlyDominates entry c d) (hdv : g.Dominates entry d v)
    (hd : g.Reach entry d) : g.StrictlyDominates entry c v := by
  refine ⟨hcd.1.trans hdv, ?_⟩
  rintro rfl
  exact hcd.2 (hdv.antisymm hd hcd.1).symm

theorem Dominates.reach (h : g.Dominates entry d v) (hv : g.Reach entry v) : g.Reach entry d := by
  obtain ⟨l, hl⟩ := hv.exists_path
  obtain ⟨front, back, rfl⟩ := List.append_of_mem (h l hl)
  exact (Path.append_iff.mp hl).1.reach

/-- What strictly dominates a node dominates its predecessors. -/
theorem StrictlyDominates.dominates_pred (h : g.StrictlyDominates entry d y) (hedge : g.Edge x y) :
    g.Dominates entry d x := by
  intro l hl
  refine (List.mem_append.mp (h.1 _ (hl.snoc hedge))).resolve_right ?_
  exact fun hin => h.2 (List.mem_singleton.mp hin)

/-! ## Immediate dominators -/

/-- The number of the dominators of a node. -/
noncomputable def depth (g : FinGraph T) (entry v : T) : Nat :=
  open Classical in (g.nodes.filter fun d => g.Dominates entry d v).card

theorem StrictlyDominates.depth_lt (h : g.StrictlyDominates entry d v) (hd : g.Reach entry d) (hv : v ∈ g.nodes) :
    g.depth entry d < g.depth entry v := by
  classical
  unfold depth
  refine Finset.card_lt_card ((Finset.ssubset_iff_of_subset ?_).mpr ⟨v, ?_, ?_⟩)
  · intro c hc
    obtain ⟨hc_mem, hcd⟩ := Finset.mem_filter.mp hc
    exact Finset.mem_filter.mpr ⟨hc_mem, hcd.trans h.1⟩
  · exact Finset.mem_filter.mpr ⟨hv, .refl v⟩
  · intro hmem
    exact h.2 (h.1.antisymm hd (Finset.mem_filter.mp hmem).2)

theorem StrictlyDominates.exists_immediate (h : g.StrictlyDominates entry c v) (hv : g.Reach entry v)
    (hentry : entry ∈ g.nodes) : ∃ d, g.ImmediatelyDominates entry d v := by
  classical
  have hreach : ∀ {d}, g.StrictlyDominates entry d v → g.Reach entry d := fun hd => hd.1.reach hv
  have hnonempty : (g.nodes.filter fun d => g.StrictlyDominates entry d v).Nonempty :=
    ⟨c, Finset.mem_filter.mpr ⟨(hreach h).mem hentry, h⟩⟩
  -- the strict dominator with the most dominators
  obtain ⟨d, hd, hmax⟩ := Finset.exists_max_image _ (g.depth entry) hnonempty
  have hdv := (Finset.mem_filter.mp hd).2
  refine ⟨d, hdv, fun b hb => ?_⟩
  rcases hb.1.total hv hdv.1 with hbd | hdb
  · exact hbd
  by_cases heq : d = b
  · rw [heq]
    exact .refl b
  have hb_mem := (hreach hb).mem hentry
  have hless := StrictlyDominates.depth_lt ⟨hdb, heq⟩ (hreach hdv) hb_mem
  have := hmax b (Finset.mem_filter.mpr ⟨hb_mem, hb⟩)
  omega

/-- On the way down from a strict dominator there is a node that it immediately dominates. -/
theorem StrictlyDominates.exists_child (h : g.StrictlyDominates entry x v) (hv : g.Reach entry v)
    (hentry : entry ∈ g.nodes) : ∃ z, g.ImmediatelyDominates entry x z ∧ g.Dominates entry z v := by
  generalize hn : g.depth entry v = n
  induction n using Nat.strong_induction_on generalizing v with
  | _ n ih =>
    obtain ⟨d, hdv⟩ := h.exists_immediate hv hentry
    have hxd := hdv.2 x h
    have hd := hdv.1.1.reach hv
    by_cases heq : x = d
    · subst heq
      exact ⟨v, hdv, .refl v⟩
    · have hless := hdv.1.depth_lt hd (hv.mem hentry)
      obtain ⟨z, hz, hzd⟩ := ih _ (hn ▸ hless) ⟨hxd, heq⟩ hd rfl
      exact ⟨z, hz, hzd.trans hdv.1.1⟩

/-! ## Dominance frontiers -/

/-- A strict dominator that has an edge to the node dominates it immediately. -/
theorem StrictlyDominates.immediate_of_edge (h : g.StrictlyDominates entry x y) (hedge : g.Edge x y) :
    g.ImmediatelyDominates entry x y :=
  ⟨h, fun _ hc => hc.dominates_pred hedge⟩

/-- What is in the frontier of a child is not strictly dominated but immediately. -/
theorem InFrontier.immediate (h : g.InFrontier entry z y) (hxz : g.ImmediatelyDominates entry x z)
    (hxy : g.StrictlyDominates entry x y) (hreach : ∀ v ∈ g.nodes, g.Reach entry v) (hentry : entry ∈ g.nodes) :
    g.ImmediatelyDominates entry x y := by
  obtain ⟨⟨p, hedge, hzp⟩, hzy⟩ := h
  have hp := hreach p (g.closed hedge).1
  have hy := hreach y (g.closed hedge).2
  obtain ⟨d, hdy⟩ := hxy.exists_immediate hy hentry
  have hd := hdy.1.1.reach hy
  have hxd := hdy.2 x hxy
  -- both `d` and `z` dominate the predecessor
  rcases hzp.total hp (hdy.1.dominates_pred hedge) with hzd | hdz
  · exact absurd (hzd.strict_trans hdy.1 hd) hzy
  have hne : d ≠ z := by
    rintro rfl
    exact hzy hdy.1
  have heq := hxd.antisymm (hxy.1.reach hy) (hxz.2 d ⟨hdz, hne⟩)
  rw [heq]
  exact hdy

/-- The frontier of a node from the edges of the node and the frontiers of the nodes that it
immediately dominates. -/
theorem inFrontier_iff (hreach : ∀ v ∈ g.nodes, g.Reach entry v) (hentry : entry ∈ g.nodes) :
    g.InFrontier entry x y ↔ (g.Edge x y ∧ ¬ g.ImmediatelyDominates entry x y) ∨
      ∃ z, g.ImmediatelyDominates entry x z ∧ g.InFrontier entry z y ∧ ¬ g.ImmediatelyDominates entry x y := by
  constructor
  · rintro ⟨⟨p, hedge, hxp⟩, hnot⟩
    have hnot_immediate : ¬ g.ImmediatelyDominates entry x y := fun h => hnot h.1
    by_cases heq : x = p
    · subst heq
      exact .inl ⟨hedge, hnot_immediate⟩
    have hp := hreach p (g.closed hedge).1
    obtain ⟨z, hxz, hzp⟩ := StrictlyDominates.exists_child ⟨hxp, heq⟩ hp hentry
    refine .inr ⟨z, hxz, ⟨⟨p, hedge, hzp⟩, fun hzy => hnot ?_⟩, hnot_immediate⟩
    exact hxz.1.trans_right hzy.1 (hzp.reach hp)
  · rintro (⟨hedge, hnot⟩ | ⟨z, hxz, hz, hnot⟩)
    · exact ⟨⟨x, hedge, .refl x⟩, fun h => hnot (h.immediate_of_edge hedge)⟩
    · obtain ⟨p, hedge, hzp⟩ := hz.1
      exact ⟨⟨p, hedge, hxz.1.1.trans hzp⟩, fun h => hnot (hz.immediate hxz h hreach hentry)⟩

/-! ## Dominator trees -/

/-- A dominator tree has an edge from each immediate dominator. It may have other nodes as well,
such as one above the entry. -/
structure DominatorTree (g : FinGraph T) (entry : T) where
  graph : FinGraph T
  covers : g.nodes ⊆ graph.nodes
  edge_iff : ∀ x ∈ g.nodes, ∀ y ∈ g.nodes, graph.Edge x y ↔ g.ImmediatelyDominates entry x y
  acyclic : graph.Acyclic

/-- The dominator tree without other nodes. -/
noncomputable def dominatorTree (g : FinGraph T) (entry : T) (hreach : ∀ v ∈ g.nodes, g.Reach entry v) :
    DominatorTree g entry where
  graph :=
    { nodes := g.nodes
      edges := open Classical in (g.nodes ×ˢ g.nodes).filter fun e => g.ImmediatelyDominates entry e.1 e.2
      closed := fun h => by
        classical
        exact Finset.mem_product.mp (Finset.mem_filter.mp h).1 }
  covers := Finset.Subset.refl _
  edge_iff x hx y hy := by
    classical
    unfold Edge
    rw [Finset.mem_filter]
    exact and_iff_right (Finset.mem_product.mpr ⟨hx, hy⟩)
  acyclic := by
    classical
    refine @acyclic_of_lt T _ (g.depth entry) fun u v h => ?_
    obtain ⟨hmem, himm⟩ := Finset.mem_filter.mp h
    obtain ⟨hu, hv⟩ := Finset.mem_product.mp hmem
    exact himm.1.depth_lt (hreach u hu) hv

end FinGraph
