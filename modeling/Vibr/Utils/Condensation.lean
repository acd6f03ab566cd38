import Vibr.Utils.GraphUtils

/-!
# The collapsed graph

Two nodes have the same place exactly if they reach each other. Edges between places are
edges between different components, so that the collapsed graph is acyclic, and from its
heads every place is reached.
-/

namespace Angr.GraphUtils

variable {T : Type} [DecidableEq T] {S : Setting T} {g : FinGraph T} {u v n : T} {scc : Finset T} {p q : Place T}

/-! ## Places -/

theorem mem_sccs : scc ∈ sccs S g ↔ (∃ n ∈ g.nodes, g.component S.nodes n = scc) ∧ 1 < scc.card := by
  unfold sccs
  rw [List.mem_mergeSort, List.mem_filter, List.mem_dedup, List.mem_map, decide_eq_true_iff]
  simp only [S.nodes.mem_list]

/-- A component that has a node is the component of the node. -/
theorem eq_component (hscc : scc ∈ sccs S g) (hn : n ∈ scc) : n ∈ g.nodes ∧ g.component S.nodes n = scc := by
  obtain ⟨⟨m, hm, rfl⟩, -⟩ := mem_sccs.mp hscc
  obtain ⟨hmn, hnm⟩ := (FinGraph.mem_component hm).mp hn
  exact ⟨hmn.mem hm, (FinGraph.component_eq hm hmn hnm).symm⟩

theorem findIdx?_isSome {α : Type} {p : α → Bool} {l : List α} {x : α} (hx : x ∈ l) (hp : p x) :
    ∃ i, l.findIdx? p = some i := by
  cases h : l.findIdx? p with
  | some i => exact ⟨i, rfl⟩
  | none => exact absurd (List.findIdx?_eq_none_iff.mp h x hx) (by simp [hp])

theorem findIdx?_congr {α : Type} {p q : α → Bool} {l : List α} (h : ∀ x ∈ l, p x = q x) :
    l.findIdx? p = l.findIdx? q := by
  induction l with
  | nil => rfl
  | cons x l ih =>
    rw [List.findIdx?_cons, List.findIdx?_cons, h x List.mem_cons_self,
      ih fun y hy => h y (List.mem_cons_of_mem _ hy)]

/-- A node in a component has the component's placeholder as its place. -/
theorem place_of_mem (hscc : scc ∈ sccs S g) (hn : n ∈ scc) :
    ∃ i, (sccs S g)[i]? = some scc ∧ place S (sccs S g) n = .scc i (sccAddr S scc) := by
  obtain ⟨i, hi⟩ := @findIdx?_isSome _ (n ∈ ·) _ _ hscc (by simpa using hn)
  obtain ⟨hlt, hmem, -⟩ := List.findIdx?_eq_some_iff_getElem.mp hi
  have hmem : n ∈ (sccs S g)[i] := by simpa using hmem
  have heq : (sccs S g)[i] = scc := by
    rw [← (eq_component hscc hn).2, (eq_component (List.getElem_mem hlt) hmem).2]
  refine ⟨i, by rw [List.getElem?_eq_getElem hlt, heq], ?_⟩
  have hget : (sccs S g).getD i ∅ = scc := by
    rw [List.getD_eq_getElem?_getD, List.getElem?_eq_getElem hlt, heq]
    rfl
  unfold place
  rw [hi]
  exact congrArg (fun s => Place.scc i (sccAddr S s)) hget

theorem place_of_not_mem (h : ∀ scc ∈ sccs S g, n ∉ scc) : place S (sccs S g) n = .node n := by
  have hnone : (sccs S g).findIdx? (n ∈ ·) = none :=
    List.findIdx?_eq_none_iff.mpr fun scc hscc => by simpa using h scc hscc
  unfold place
  rw [hnone]

/-- The places of the nodes of a graph. -/
theorem place_cases (S : Setting T) (g : FinGraph T) (n : T) :
    (∃ scc ∈ sccs S g, n ∈ scc ∧ ∃ i, (sccs S g)[i]? = some scc ∧ place S (sccs S g) n = .scc i (sccAddr S scc)) ∨
      (∀ scc ∈ sccs S g, n ∉ scc) ∧ place S (sccs S g) n = .node n := by
  by_cases h : ∃ scc ∈ sccs S g, n ∈ scc
  · obtain ⟨scc, hscc, hn⟩ := h
    exact .inl ⟨scc, hscc, hn, place_of_mem hscc hn⟩
  · push Not at h
    exact .inr ⟨h, place_of_not_mem h⟩

theorem place_eq_iff (hu : u ∈ g.nodes) (hv : v ∈ g.nodes) :
    place S (sccs S g) u = place S (sccs S g) v ↔ g.Reach u v ∧ g.Reach v u := by
  constructor
  · intro heq
    rcases place_cases S g u with ⟨scc, hscc, hu_mem, i, hi, hplace⟩ | ⟨-, hplace⟩
    · rcases place_cases S g v with ⟨scc', hscc', hv_mem, i', hi', hplace'⟩ | ⟨-, hplace'⟩
      · rw [hplace, hplace'] at heq
        obtain ⟨hindex, -⟩ := Place.scc.inj heq
        rw [← hindex, hi] at hi'
        rw [← Option.some.inj hi', ← (eq_component hscc hu_mem).2] at hv_mem
        exact (FinGraph.mem_component hu).mp hv_mem
      · rw [hplace, hplace'] at heq
        cases heq
    rcases place_cases S g v with ⟨scc', hscc', hv_mem, i', hi', hplace'⟩ | ⟨-, hplace'⟩
    · rw [hplace, hplace'] at heq
      cases heq
    · rw [hplace, hplace'] at heq
      cases heq
      exact ⟨.refl, .refl⟩
  · rintro ⟨huv, hvu⟩
    have hsame : ∀ scc ∈ sccs S g, decide (u ∈ scc) = decide (v ∈ scc) := by
      intro scc hscc
      rw [decide_eq_decide]
      constructor
      · intro hmem
        rw [← (eq_component hscc hmem).2]
        exact (FinGraph.mem_component hu).mpr ⟨huv, hvu⟩
      · intro hmem
        rw [← (eq_component hscc hmem).2]
        exact (FinGraph.mem_component hv).mpr ⟨hvu, huv⟩
    by_cases heq : u = v
    · rw [heq]
    have hcard : g.component S.nodes u ∈ sccs S g := by
      refine mem_sccs.mpr ⟨⟨u, hu, rfl⟩, Finset.one_lt_card.mpr ⟨u, ?_, v, ?_, heq⟩⟩
      · exact (FinGraph.mem_component hu).mpr ⟨.refl, .refl⟩
      · exact (FinGraph.mem_component hu).mpr ⟨huv, hvu⟩
    have hmem : u ∈ g.component S.nodes u := (FinGraph.mem_component hu).mpr ⟨.refl, .refl⟩
    obtain ⟨i, hi⟩ := @findIdx?_isSome _ (u ∈ ·) _ _ hcard (by simpa using hmem)
    have hi' : (sccs S g).findIdx? (v ∈ ·) = some i := by rw [← findIdx?_congr hsame, hi]
    unfold place
    rw [hi, hi']

/-! ## The collapsed graph -/

theorem edge_collapse : (collapse S (sccs S g) g).Edge p q ↔
    (∃ u v, g.Edge u v ∧ place S (sccs S g) u = p ∧ place S (sccs S g) v = q) ∧ p ≠ q := by
  unfold FinGraph.Edge collapse
  rw [Finset.mem_filter, Finset.mem_image]
  refine and_congr ⟨?_, ?_⟩ Iff.rfl
  · rintro ⟨⟨u, v⟩, he, heq⟩
    obtain ⟨rfl, rfl⟩ := Prod.mk.inj heq
    exact ⟨u, v, he, rfl, rfl⟩
  · rintro ⟨u, v, he, rfl, rfl⟩
    exact ⟨(u, v), he, rfl⟩

/-- A node without edges is its own place. -/
theorem place_of_loner (hsucc : g.succ n = ∅) : place S (sccs S g) n = .node n := by
  refine place_of_not_mem fun scc hscc hn => ?_
  obtain ⟨hn_mem, hcomponent⟩ := eq_component hscc hn
  obtain ⟨-, hcard⟩ := mem_sccs.mp hscc
  obtain ⟨m, hm, hne⟩ := Finset.exists_mem_ne hcard n
  rw [← hcomponent, FinGraph.mem_component hn_mem] at hm
  rcases Relation.ReflTransGen.cases_head hm.1 with heq | ⟨w, hedge, -⟩
  · exact hne heq.symm
  · have hw : w ∈ g.succ n := FinGraph.mem_succ.mpr hedge
    rw [hsucc] at hw
    exact Finset.notMem_empty w hw

theorem mem_collapse : p ∈ (collapse S (sccs S g) g).nodes ↔ ∃ n ∈ g.nodes, place S (sccs S g) n = p := by
  unfold collapse
  simp only [Finset.mem_union, Finset.mem_image, Finset.mem_filter]
  constructor
  · rintro ((⟨⟨u, v⟩, he, rfl⟩ | ⟨⟨u, v⟩, he, rfl⟩) | ⟨n, ⟨hn, hsucc, -⟩, rfl⟩)
    · exact ⟨u, (g.closed he).1, rfl⟩
    · exact ⟨v, (g.closed he).2, rfl⟩
    · exact ⟨n, hn, place_of_loner hsucc⟩
  rintro ⟨n, hn, rfl⟩
  by_cases hsucc : g.succ n = ∅
  · by_cases hpred : g.pred n = ∅
    · exact .inr ⟨n, ⟨hn, hsucc, hpred⟩, (place_of_loner hsucc).symm⟩
    · obtain ⟨m, hm⟩ := Finset.nonempty_iff_ne_empty.mpr hpred
      exact .inl (.inr ⟨(m, n), FinGraph.mem_pred.mp hm, rfl⟩)
  · obtain ⟨m, hm⟩ := Finset.nonempty_iff_ne_empty.mpr hsucc
    exact .inl (.inl ⟨(n, m), FinGraph.mem_succ.mp hm, rfl⟩)

/-- Between places there is only one direction. -/
theorem reach_of_collapse (h : Relation.TransGen (collapse S (sccs S g) g).Edge p q) (hu : u ∈ g.nodes)
    (hv : v ∈ g.nodes) (hp : place S (sccs S g) u = p) (hq : place S (sccs S g) v = q) :
    g.Reach u v ∧ ¬ g.Reach v u := by
  induction h generalizing v with
  | single hedge =>
    obtain ⟨⟨u', v', he, hp', hq'⟩, hne⟩ := edge_collapse.mp hedge
    have huu' := ((place_eq_iff hu (g.closed he).1).mp (hp.trans hp'.symm)).1
    have hv'v := ((place_eq_iff (g.closed he).2 hv).mp (hq'.trans hq.symm)).1
    have huv : g.Reach u v := (huu'.tail he).trans hv'v
    refine ⟨huv, fun hvu => hne ?_⟩
    rw [← hp, ← hq]
    exact (place_eq_iff hu hv).mpr ⟨huv, hvu⟩
  | tail _ hedge ih =>
    obtain ⟨⟨w, v', he, hw, hq'⟩, -⟩ := edge_collapse.mp hedge
    obtain ⟨huw, hwu⟩ := ih (g.closed he).1 hw
    have hv'v := ((place_eq_iff (g.closed he).2 hv).mp (hq'.trans hq.symm)).1
    have hwv : g.Reach w v := (Relation.ReflTransGen.single he).trans hv'v
    exact ⟨huw.trans hwv, fun hvu => hwu (hwv.trans hvu)⟩

theorem acyclic_collapse : (collapse S (sccs S g) g).Acyclic := by
  intro p hp
  obtain ⟨q, hedge, -⟩ := Relation.TransGen.head'_iff.mp hp
  obtain ⟨u, hu, hplace⟩ := mem_collapse.mp ((collapse S (sccs S g) g).closed hedge).1
  obtain ⟨hreach, hnot⟩ := reach_of_collapse hp hu hu hplace hplace
  exact hnot hreach

/-- A path between components is a path between their places. -/
theorem collapse_of_reach (h : g.Reach u v) (hvu : ¬ g.Reach v u) :
    Relation.TransGen (collapse S (sccs S g) g).Edge (place S (sccs S g) u) (place S (sccs S g) v) := by
  have hreach : Relation.ReflTransGen (collapse S (sccs S g) g).Edge (place S (sccs S g) u) (place S (sccs S g) v) := by
    clear hvu
    induction h with
    | refl => exact .refl
    | @tail w x _ hedge ih =>
      by_cases heq : place S (sccs S g) w = place S (sccs S g) x
      · rw [← heq]
        exact ih
      · exact ih.tail (edge_collapse.mpr ⟨⟨w, x, hedge, rfl, rfl⟩, heq⟩)
  rcases Relation.reflTransGen_iff_eq_or_transGen.mp hreach with heq | htrans
  · rcases Relation.ReflTransGen.cases_head h with heq' | ⟨w, hedge, hwv⟩
    · exact absurd (heq' ▸ .refl) hvu
    · have hu := (g.closed hedge).1
      exact absurd ((place_eq_iff (h.mem hu) hu).mp heq).1 hvu
  · exact htrans

/-! ## The head of the collapsed graph -/

/-- A graph that contains the places and has one head. -/
structure Rooted (places graph : FinGraph (Place T)) (root : Place T) : Prop where
  acyclic : graph.Acyclic
  root_mem : root ∈ graph.nodes
  reach : ∀ p ∈ places.nodes, graph.Reach root p
  edge : ∀ {p q}, places.Edge p q → graph.Edge p q
  mem : ∀ p ∈ graph.nodes, p = .head ∨ p ∈ places.nodes

variable {places graph : FinGraph (Place T)} {root : Place T}

theorem edge_addHead : (addHead places).Edge p q ↔ places.Edge p q ∨ p = .head ∧ q ∈ heads places := by
  unfold FinGraph.Edge addHead
  rw [Finset.mem_union, Finset.mem_image]
  refine or_congr Iff.rfl ⟨?_, ?_⟩
  · rintro ⟨n, hn, heq⟩
    cases heq
    exact ⟨rfl, hn⟩
  · rintro ⟨rfl, hq⟩
    exact ⟨q, hq, rfl⟩

theorem acyclic_addHead (hacyclic : places.Acyclic) (hhead : .head ∉ places.nodes) : (addHead places).Acyclic := by
  -- no edge ends in the head, so that cycles are cycles of the places
  have hback : ∀ p q, (addHead places).Edge p q → q ≠ .head := by
    rintro p q hedge rfl
    rcases edge_addHead.mp hedge with hedge | ⟨-, hmem⟩
    · exact hhead (places.closed hedge).2
    · exact hhead (Finset.mem_filter.mp hmem).1
  have hpath : ∀ p q, Relation.TransGen (addHead places).Edge p q → p ≠ .head → Relation.TransGen places.Edge p q := by
    intro p q hpq hp
    induction hpq with
    | single hedge => exact .single ((edge_addHead.mp hedge).resolve_right fun h => hp h.1)
    | @tail q r hpq hedge ih =>
      obtain ⟨m, -, hmq⟩ := Relation.TransGen.tail'_iff.mp hpq
      exact ih.tail ((edge_addHead.mp hedge).resolve_right fun h => hback m q hmq h.1)
  intro p hp
  obtain ⟨q, -, hqp⟩ := Relation.TransGen.tail'_iff.mp hp
  exact hacyclic p (hpath p p hp (hback q p hqp))

theorem head_not_mem_collapse : .head ∉ (collapse S (sccs S g) g).nodes := by
  intro hmem
  obtain ⟨n, -, hplace⟩ := mem_collapse.mp hmem
  rcases place_cases S g n with ⟨_, _, _, i, _, hcase⟩ | ⟨_, hcase⟩
  · rw [hcase] at hplace
    cases hplace
  · rw [hcase] at hplace
    cases hplace

theorem collapsed_rooted (h : g.nodes.Nonempty) :
    ∃ graph root, collapsed S (sccs S g) g = some (graph, root) ∧ Rooted (collapse S (sccs S g) g) graph root := by
  have hacyclic : (collapse S (sccs S g) g).Acyclic := acyclic_collapse
  have hhead : .head ∉ (collapse S (sccs S g) g).nodes := head_not_mem_collapse
  have hnonempty : (collapse S (sccs S g) g).nodes.Nonempty := by
    obtain ⟨n, hn⟩ := h
    exact ⟨_, mem_collapse.mpr ⟨n, hn, rfl⟩⟩
  unfold collapsed
  generalize collapse S (sccs S g) g = places at hacyclic hhead hnonempty
  have hlist : ∀ p, p ∈ S.places.list (heads places) ↔ p ∈ heads places := S.places.mem_list _
  -- every place is reached from a head
  have hsource : ∀ p ∈ places.nodes, ∃ s ∈ heads places, places.Reach s p := by
    intro p hp
    obtain ⟨s, hs, hpred, hreach⟩ := hacyclic.exists_source hp
    exact ⟨s, Finset.mem_filter.mpr ⟨hs, hpred⟩, hreach⟩
  dsimp only
  split
  · rename_i hnil
    obtain ⟨p, hp⟩ := hnonempty
    obtain ⟨s, hs, -⟩ := hsource p hp
    rw [← hlist, hnil] at hs
    cases hs
  · rename_i source hone
    rw [hone] at hlist
    refine ⟨places, source, rfl, hacyclic, ?_, fun p hp => ?_, id, fun p hp => .inr hp⟩
    · exact (Finset.mem_filter.mp ((hlist source).mp List.mem_cons_self)).1
    · obtain ⟨s, hs, hreach⟩ := hsource p hp
      rwa [List.mem_singleton.mp ((hlist s).mpr hs)] at hreach
  refine ⟨addHead places, .head, rfl, acyclic_addHead hacyclic hhead, Finset.mem_insert_self _ _, fun p hp => ?_,
    fun hedge => edge_addHead.mpr (.inl hedge), fun p hp => Finset.mem_insert.mp hp⟩
  obtain ⟨s, hs, hreach⟩ := hsource p hp
  have hfirst : (addHead places).Edge .head s := edge_addHead.mpr (.inr ⟨rfl, hs⟩)
  exact .head hfirst (Relation.ReflTransGen.mono (fun _ _ hedge => edge_addHead.mpr (.inl hedge)) s p hreach)

/-! ## The order of the places -/

theorem step_nextPlaces : Dfs.Step (nextPlaces S graph) = graph.Edge := by
  funext p q
  unfold Dfs.Step nextPlaces
  rw [List.mem_mergeSort, FinGraph.mem_next]

/-- The reverse post-order has every place once, and is a topological order. -/
theorem Rooted.sorted (h : Rooted places graph root) :
    (dfsPostorderNodesDeterministic S graph root).reverse.Nodup ∧
      (∀ p ∈ (dfsPostorderNodesDeterministic S graph root).reverse, p = .head ∨ p ∈ places.nodes) ∧
      (∀ p ∈ places.nodes, p ∈ (dfsPostorderNodesDeterministic S graph root).reverse) ∧
      ∀ p q, Relation.TransGen places.Edge p q →
        Dfs.Before (dfsPostorderNodesDeterministic S graph root).reverse p q := by
  have hclosed : ∀ p ∈ graph.nodes, ∀ q ∈ nextPlaces S graph p, q ∈ graph.nodes := by
    intro p _ q hq
    have hstep : Dfs.Step (nextPlaces S graph) p q := hq
    rw [step_nextPlaces] at hstep
    exact (graph.closed hstep).2
  have hacyclic : ∀ p, ¬ Relation.TransGen (Dfs.Step (nextPlaces S graph)) p p := by
    rw [step_nextPlaces]
    exact h.acyclic
  obtain ⟨hnodup, hlist, hmem⟩ := Dfs.postorder_spec hclosed hacyclic h.root_mem (Nat.le_refl _)
  rw [step_nextPlaces] at hmem
  have hplaces : ∀ p ∈ places.nodes, p ∈ dfsPostorderNodesDeterministic S graph root := fun p hp =>
    (hmem p).mpr (h.reach p hp)
  refine ⟨List.nodup_reverse.mpr hnodup, fun p hp => ?_, fun p hp => List.mem_reverse.mpr (hplaces p hp),
    fun p q hpq => ?_⟩
  · have hreach : graph.Reach root p := (hmem p).mp (List.mem_reverse.mp hp)
    exact h.mem p (hreach.mem h.root_mem)
  obtain ⟨r, hedge, -⟩ := Relation.TransGen.head'_iff.mp hpq
  refine hlist.before ?_ (hplaces p (places.closed hedge).1)
  rw [step_nextPlaces]
  exact Relation.TransGen.mono (fun _ _ hedge => h.edge hedge) p q hpq

end Angr.GraphUtils
