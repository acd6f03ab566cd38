import Vibr.Decompiler.RegionTree

/-!
# Views

The representatives of the nodes of the shared graph are the members of a region, and what is
beside it. In the tree of the live regions each node has one, so that an edge of a view is
seen from its source iff it is seen from its target.
-/

namespace Angr.Overlay

open DiGraph Forest

variable {T V : Type} [DecidableEq T] {c : Core T V} {live : Finset Nat} {self i j p : Nat} {n m : T} {x y : Tx T}

/-! ## Representatives -/

/-- A node of an enclosing region, or a region that does not enclose `self` but whose parent does. -/
def Beside (c : Core T V) (live : Finset Nat) (self : Nat) : Tx T → Prop
  | .node n => ∃ o, c.owner n = some o ∧ Above c.parent self o
  | .region k => k ∈ live ∧ ¬ Above c.parent self k ∧ ∃ p, c.parent k = some p ∧ Above c.parent self p

namespace Tree

variable (h : Tree c live)

include h

omit [DecidableEq T] in
/-- What represents a node in a region is the member that it is in. -/
theorem representativeIn_iff (hself : self ∈ live) :
    c.representativeIn self n = some x ↔ x ∈ (c.region self).members ∧ n ∈ c.underlying x := by
  have hsound : ∀ x, c.representativeIn self n = some x → x ∈ (c.region self).members ∧ n ∈ c.underlying x := by
    intro x hx
    unfold Core.representativeIn at hx
    split at hx
    · cases hx
    rename_i o ho
    split at hx
    · rename_i heq
      cases hx
      exact ⟨(h.node self hself n).mpr (heq ▸ ho), Finset.mem_singleton_self n⟩
    obtain ⟨k, hk, rfl⟩ := Option.map_eq_some_iff.mp hx
    have hparent : c.parent k = some self := by simpa using List.find?_some hk
    have habove := above_of_mem_up (List.mem_of_find?_eq_some hk)
    have hk_live := h.mem_of_above (h.owner n o ho) habove
    exact ⟨(h.region self hself k).mpr ⟨hk_live, hparent⟩, (h.under k hk_live n).mpr ⟨o, ho, habove⟩⟩
  refine ⟨hsound x, fun hx => ?_⟩
  obtain ⟨hx, hn⟩ := hx
  -- there is a representative, and a node is in one member only
  have hsome : (c.representativeIn self n).isSome := by
    cases x with
    | node m =>
      obtain rfl := Finset.mem_singleton.mp hn
      unfold Core.representativeIn
      simp [(h.node self hself n).mp hx]
    | region k =>
      obtain ⟨hk_live, hparent⟩ := (h.region self hself k).mp hx
      obtain ⟨o, ho, hok⟩ := (h.under k hk_live n).mp hn
      unfold Core.representativeIn
      rw [ho]
      dsimp only
      split
      · rfl
      · rw [Option.isSome_map, List.find?_isSome]
        exact ⟨k, (h.mem_ancestors (h.owner n o ho)).mpr hok, by simpa using hparent⟩
  obtain ⟨y, hy⟩ := Option.isSome_iff_exists.mp hsome
  obtain ⟨hy_mem, hny⟩ := hsound y hy
  rw [hy, h.eq_of_mem_underlying hself hy_mem hx hny hn]

omit [DecidableEq T] in
/-- A node is in one node or region beside a region only. -/
theorem eq_of_beside (hx : Beside c live self x) (hy : Beside c live self y)
    (hnx : n ∈ c.underlying x) (hny : n ∈ c.underlying y) : x = y := by
  -- a node of an enclosing region is in no region beside
  have hnot : ∀ k, Beside c live self (.region k) → n ∈ c.underlying (.region k) → ¬ Beside c live self (.node n) := by
    intro k hk hn hnode
    obtain ⟨o, ho, hself_o⟩ := hnode
    obtain ⟨o', ho', hok⟩ := (h.under k hk.1 n).mp hn
    obtain rfl : o = o' := Option.some.inj (ho.symm.trans ho')
    exact hk.2.1 (hself_o.trans hok)
  cases x with
  | node m =>
    obtain rfl := Finset.mem_singleton.mp hnx
    cases y with
    | node m => rw [Finset.mem_singleton.mp hny]
    | region k => exact absurd hx (hnot k hy hny)
  | region j =>
    cases y with
    | node m =>
      obtain rfl := Finset.mem_singleton.mp hny
      exact absurd hy (hnot j hx hnx)
    | region k =>
      obtain ⟨o, ho, hoj⟩ := (h.under j hx.1 n).mp hnx
      obtain ⟨o', ho', hok⟩ := (h.under k hy.1 n).mp hny
      obtain rfl : o = o' := Option.some.inj (ho.symm.trans ho')
      obtain ⟨p, hp, hself_p⟩ := hx.2.2
      obtain ⟨q, hq, hself_q⟩ := hy.2.2
      rcases hoj.linear hok with hjk | hkj
      · rcases (above_of_some hp).mp hjk with rfl | hpk
        · rfl
        · exact absurd (hself_p.trans hpk) hy.2.1
      · rcases (above_of_some hq).mp hkj with rfl | hqj
        · rfl
        · exact absurd (hself_q.trans hqj) hx.2.1

omit [DecidableEq T] in
/-- What represents a node outside a region is what it is in beside the region. -/
theorem representativeOutside_iff (hself : self ∈ live) :
    c.representativeOutside self n = some x ↔ Beside c live self x ∧ n ∈ c.underlying x := by
  have hsound : ∀ x, c.representativeOutside self n = some x → Beside c live self x ∧ n ∈ c.underlying x := by
    intro x hx
    unfold Core.representativeOutside at hx
    dsimp only at hx
    split at hx
    · cases hx
    rename_i o ho
    split at hx
    · rename_i hanc
      cases hx
      exact ⟨⟨o, ho, (h.mem_ancestors hself).mp hanc⟩, Finset.mem_singleton_self n⟩
    rename_i hanc
    obtain ⟨k, hk, rfl⟩ := Option.map_eq_some_iff.mp hx
    have habove := above_of_mem_up (List.mem_of_find?_eq_some hk)
    have hk_live := h.mem_of_above (h.owner n o ho) habove
    have hnot : ¬ Above c.parent self k := by
      refine find?_up_not_mem (A := Above c.parent self) (fun j p htest hp hself_p => ?_)
        (fun hself_o => hanc ((h.mem_ancestors hself).mpr hself_o)) hk
      rw [hp] at htest
      exact htest (by simpa using (h.mem_ancestors hself).mpr hself_p)
    refine ⟨⟨hk_live, hnot, ?_⟩, (h.under k hk_live n).mpr ⟨o, ho, habove⟩⟩
    have htest := List.find?_some hk
    cases hp : c.parent k with
    | none =>
      -- only the root has no parent, and it encloses all regions
      have hroot := (above_of_none hp).mp (h.rooted k hk_live)
      exact absurd (hroot ▸ h.rooted self hself) hnot
    | some p =>
      rw [hp] at htest
      exact ⟨p, rfl, (h.mem_ancestors hself).mp (by simpa using htest)⟩
  refine ⟨hsound x, fun hx => ?_⟩
  obtain ⟨hx, hn⟩ := hx
  have hsome : (c.representativeOutside self n).isSome := by
    cases x with
    | node m =>
      obtain rfl := Finset.mem_singleton.mp hn
      obtain ⟨o, ho, hself_o⟩ := hx
      unfold Core.representativeOutside
      simp [ho, (h.mem_ancestors hself).mpr hself_o]
    | region k =>
      obtain ⟨hk_live, hnot, p, hp, hself_p⟩ := hx
      obtain ⟨o, ho, hok⟩ := (h.under k hk_live n).mp hn
      unfold Core.representativeOutside
      rw [ho]
      dsimp only
      split
      · rfl
      rw [Option.isSome_map, List.find?_isSome]
      refine ⟨k, (h.mem_ancestors (h.owner n o ho)).mpr hok, ?_⟩
      rw [hp]
      simpa using (h.mem_ancestors hself).mpr hself_p
  obtain ⟨y, hy⟩ := Option.isSome_iff_exists.mp hsome
  obtain ⟨hy_beside, hny⟩ := hsound y hy
  rw [hy, h.eq_of_beside hy_beside hx hny hn]

theorem mem_successorNodes (hself : self ∈ live) : x ∈ c.successorNodes self ↔
    ∃ u ∈ (c.region self).under, ∃ v, c.graph.hasEdge u v = true ∧ v ∉ (c.region self).under ∧
      v ∉ c.hiddenContextHeadUnder self ∧ ¬ c.isHidden self u v ∧ Beside c live self x ∧ v ∈ c.underlying x := by
  unfold Core.successorNodes Core.crossingTargets
  simp only [Finset.mem_biUnion, Finset.mem_filter, DiGraph.mem_succ, Option.mem_toFinset, Option.mem_def,
    h.representativeOutside_iff hself]
  constructor
  · rintro ⟨v, ⟨u, hu, hedge, hv, hhead, hhidden⟩, hx⟩
    exact ⟨u, hu, v, hedge, hv, hhead, hhidden, hx⟩
  · rintro ⟨u, hu, v, hedge, hv, hhead, hhidden, hx⟩
    exact ⟨v, ⟨u, hu, hedge, hv, hhead, hhidden⟩, hx⟩

theorem beside_of_mem_successorNodes (hself : self ∈ live) (hx : x ∈ c.successorNodes self) : Beside c live self x := by
  obtain ⟨u, -, v, -, -, -, -, hbeside, -⟩ := (h.mem_successorNodes hself).mp hx
  exact hbeside

theorem under_of_mem_members (hself : self ∈ live) (hx : x ∈ (c.region self).members) (hn : n ∈ c.underlying x) :
    n ∈ (c.region self).under := by
  rw [h.under_eq hself]
  exact Finset.mem_biUnion.mpr ⟨x, hx, hn⟩

/-- No node of a successor is in the region. -/
theorem not_under_of_mem_successorNodes (hself : self ∈ live) (hx : x ∈ c.successorNodes self)
    (hn : n ∈ c.underlying x) : n ∉ (c.region self).under := by
  obtain ⟨-, -, v, -, hv, -, -, hbeside, hvx⟩ := (h.mem_successorNodes hself).mp hx
  intro hn_under
  cases x with
  | node m =>
    rw [Finset.mem_singleton.mp hn, ← Finset.mem_singleton.mp hvx] at hn_under
    exact hv hn_under
  | region k =>
    obtain ⟨hk, hnot, p, hp, hself_p⟩ := hbeside
    obtain ⟨o, ho, hok⟩ := (h.under k hk n).mp hn
    obtain ⟨o', ho', hoself⟩ := (h.under self hself n).mp hn_under
    obtain rfl : o = o' := Option.some.inj (ho.symm.trans ho')
    -- the successor would be a child of the region
    have hkself := (hok.linear hoself).resolve_right hnot
    rcases (above_of_some hp).mp hkself with rfl | hpself
    · exact hnot .refl
    · obtain rfl := (h.isRooted hself).antisymm hself_p hpself
      exact hv (h.under_of_mem_members hself ((h.region _ hself k).mpr ⟨hk, hp⟩) hvx)

theorem not_mem_members_of_mem_successorNodes (hself : self ∈ live) (hx : x ∈ c.successorNodes self) :
    x ∉ (c.region self).members := by
  intro hmem
  obtain ⟨-, -, v, -, hv, -, -, -, hvx⟩ := (h.mem_successorNodes hself).mp hx
  exact hv (h.under_of_mem_members hself hmem hvx)

end Tree

/-! ## Edges -/

/-- There is an edge of the shared graph from a node of `x` to one of `y`, which is seen: between two
members, from a member to a successor, or in a loop between two successors. -/
def ViewEdge (c : Core T V) (self : Nat) (full : Bool) (x y : Tx T) : Prop :=
  ∃ a ∈ c.underlying x, ∃ b ∈ c.underlying y, c.graph.hasEdge a b = true ∧
    ((x ∈ (c.region self).members ∧ y ∈ (c.region self).members ∧ ¬ c.isHidden self a b ∧ Core.notInternal x y) ∨
      (full = true ∧ x ∈ (c.region self).members ∧ y ∈ c.successorNodes self ∧ ¬ c.isHidden self a b ∧
        b ∉ c.hiddenContextHeadUnder self) ∨
      (full = true ∧ c.inLoop self = true ∧ x ∈ c.successorNodes self ∧ y ∈ c.successorNodes self ∧ x ≠ y))

variable {it : IterOrder T} {full : Bool}

theorem notInternal_comm : Core.notInternal x y = Core.notInternal y x := by
  cases x <;> cases y <;> simp [Core.notInternal, eq_comm]

namespace Tree

variable (h : Tree c live)

include h

/-- What an edge out of a member leads to. -/
theorem out_of_member (hself : self ∈ live) {a b : T} (ha : a ∈ (c.region self).under) (hedge : c.graph.hasEdge a b = true) :
    (if c.isHidden self a b then none
      else if b ∈ (c.region self).under then (c.representativeIn self b).filter (Core.notInternal x)
      else if full = true ∧ b ∉ c.hiddenContextHeadUnder self then c.representativeOutside self b
      else none) = some y ↔
    b ∈ c.underlying y ∧ ¬ c.isHidden self a b ∧ ((y ∈ (c.region self).members ∧ Core.notInternal x y) ∨
      (full = true ∧ y ∈ c.successorNodes self ∧ b ∉ c.hiddenContextHeadUnder self)) := by
  split
  · rename_i hhidden
    simp [hhidden]
  rename_i hhidden
  split
  · rename_i hb
    rw [Option.filter_eq_some_iff, h.representativeIn_iff hself]
    constructor
    · rintro ⟨⟨hy, hby⟩, hinternal⟩
      exact ⟨hby, hhidden, .inl ⟨hy, hinternal⟩⟩
    · rintro ⟨hby, -, ⟨hy, hinternal⟩ | ⟨-, hy, -⟩⟩
      · exact ⟨⟨hy, hby⟩, hinternal⟩
      · exact absurd hb (h.not_under_of_mem_successorNodes hself hy hby)
  rename_i hb
  split
  · rename_i hseen
    rw [h.representativeOutside_iff hself]
    constructor
    · rintro ⟨hbeside, hby⟩
      have hy := (h.mem_successorNodes hself).mpr ⟨a, ha, b, hedge, hb, hseen.2, hhidden, hbeside, hby⟩
      exact ⟨hby, hhidden, .inr ⟨hseen.1, hy, hseen.2⟩⟩
    · rintro ⟨hby, -, ⟨hy, -⟩ | ⟨-, hy, -⟩⟩
      · exact absurd (h.under_of_mem_members hself hy hby) hb
      · exact ⟨h.beside_of_mem_successorNodes hself hy, hby⟩
  · rename_i hseen
    refine ⟨fun hnone => absurd hnone (by simp), ?_⟩
    rintro ⟨hby, -, ⟨hy, -⟩ | ⟨hfull, -, hhead⟩⟩
    · exact absurd (h.under_of_mem_members hself hy hby) hb
    · exact absurd ⟨hfull, hhead⟩ hseen

/-- The successor that a node is in. -/
theorem find_successor (hself : self ∈ live) {b : T} :
    ((it.views.list (c.successorNodes self)).find? fun s => s ≠ x ∧ b ∈ c.underlying s) = some y ↔
      y ∈ c.successorNodes self ∧ y ≠ x ∧ b ∈ c.underlying y := by
  have hsound : ∀ y, ((it.views.list (c.successorNodes self)).find? fun s => s ≠ x ∧ b ∈ c.underlying s) = some y →
      y ∈ c.successorNodes self ∧ y ≠ x ∧ b ∈ c.underlying y := by
    intro y hy
    exact ⟨(it.views.mem_list _ _).mp (List.mem_of_find?_eq_some hy), by simpa using List.find?_some hy⟩
  refine ⟨hsound y, fun hy => ?_⟩
  have hsome : ((it.views.list (c.successorNodes self)).find? fun s => s ≠ x ∧ b ∈ c.underlying s).isSome := by
    rw [List.find?_isSome]
    exact ⟨y, (it.views.mem_list _ _).mpr hy.1, by simpa using hy.2⟩
  obtain ⟨z, hz⟩ := Option.isSome_iff_exists.mp hsome
  obtain ⟨hz_mem, -, hbz⟩ := hsound z hz
  rw [hz, h.eq_of_beside (h.beside_of_mem_successorNodes hself hz_mem) (h.beside_of_mem_successorNodes hself hy.1) hbz hy.2.2]

omit h in
omit [DecidableEq T] in
theorem ite_none_map {α β : Type} {q : Prop} [Decidable q] {o : Option α} {f : α → β} {e : β} :
    (if q then none else o.map f) = some e ↔ ∃ s, (if q then none else o) = some s ∧ f s = e := by
  split
  · simp
  · exact Option.map_eq_some_iff

/-- What an edge out of a successor leads to. -/
theorem out_of_successor (hself : self ∈ live) (hx : x ∈ c.successorNodes self) {b : T} :
    (if b ∈ c.underlying x then none
      else (it.views.list (c.successorNodes self)).find? fun s => s ≠ x ∧ b ∈ c.underlying s) = some y ↔
    y ∈ c.successorNodes self ∧ y ≠ x ∧ b ∈ c.underlying y := by
  split
  · rename_i hb
    refine ⟨fun hnone => absurd hnone (by simp), fun hy => absurd ?_ hy.2.1⟩
    exact h.eq_of_beside (h.beside_of_mem_successorNodes hself hy.1) (h.beside_of_mem_successorNodes hself hx) hy.2.2 hb
  · exact h.find_successor hself

theorem mem_directOutEdges (hself : self ∈ live) :
    y ∈ (c.directOutEdges self it x full).map Prod.fst ↔ ViewEdge c self full x y := by
  unfold Core.directOutEdges
  dsimp only
  split
  · rename_i hx
    simp only [List.mem_map, List.mem_flatMap, List.mem_filterMap, it.nodes.mem_list, DiGraph.mem_succ,
      Option.map_eq_some_iff]
    constructor
    · rintro ⟨e, ⟨a, ha, b, hedge, rep, hrep, rfl⟩, rfl⟩
      obtain ⟨hb, hhidden, hrest⟩ :=
        (h.out_of_member hself (h.under_of_mem_members hself hx ha) hedge).mp hrep
      refine ⟨a, ha, b, hb, hedge, ?_⟩
      rcases hrest with ⟨hy, hinternal⟩ | ⟨hfull, hy, hhead⟩
      · exact .inl ⟨hx, hy, hhidden, hinternal⟩
      · exact .inr (.inl ⟨hfull, hx, hy, hhidden, hhead⟩)
    rintro ⟨a, ha, b, hb, hedge, hrest⟩
    refine ⟨(y, c.graph.data a b), ⟨a, ha, b, hedge, y, ?_, rfl⟩, rfl⟩
    refine (h.out_of_member hself (h.under_of_mem_members hself hx ha) hedge).mpr ?_
    rcases hrest with ⟨-, hy, hhidden, hinternal⟩ | ⟨hfull, -, hy, hhidden, hhead⟩ | ⟨-, -, hx', -⟩
    · exact ⟨hb, hhidden, .inl ⟨hy, hinternal⟩⟩
    · exact ⟨hb, hhidden, .inr ⟨hfull, hy, hhead⟩⟩
    · exact absurd hx (h.not_mem_members_of_mem_successorNodes hself hx')
  · rename_i hx
    split
    · rename_i hsucc
      obtain ⟨hfull, hx_succ, hloop⟩ := hsucc
      simp only [List.mem_map, List.mem_flatMap, List.mem_filterMap, it.nodes.mem_list, DiGraph.mem_succ, ite_none_map,
        h.out_of_successor hself hx_succ]
      constructor
      · rintro ⟨e, ⟨a, ha, b, hedge, s, ⟨hs, hne, hb⟩, rfl⟩, rfl⟩
        exact ⟨a, ha, b, hb, hedge, .inr (.inr ⟨hfull, hloop, hx_succ, hs, hne.symm⟩)⟩
      rintro ⟨a, ha, b, hb, hedge, ⟨hx', -⟩ | ⟨-, hx', -⟩ | ⟨-, -, -, hy, hne⟩⟩
      · exact absurd hx' hx
      · exact absurd hx' hx
      · exact ⟨(y, c.graph.data a b), ⟨a, ha, b, hedge, y, ⟨hy, hne.symm, hb⟩, rfl⟩, rfl⟩
    · rename_i hsucc
      refine ⟨fun hnil => absurd hnil (by simp), ?_⟩
      rintro ⟨a, -, b, -, -, ⟨hx', -⟩ | ⟨-, hx', -⟩ | ⟨hfull, hloop, hx', -⟩⟩
      · exact absurd hx' hx
      · exact absurd hx' hx
      · exact absurd ⟨hfull, hx', hloop⟩ hsucc

/-- What an edge into a member comes from. -/
theorem into_member (hself : self ∈ live) {a b : T} :
    (if c.isHidden self a b then none
      else if a ∈ (c.region self).under then (c.representativeIn self a).filter (Core.notInternal y)
      else none) = some x ↔
    x ∈ (c.region self).members ∧ a ∈ c.underlying x ∧ ¬ c.isHidden self a b ∧ Core.notInternal x y := by
  split
  · rename_i hhidden
    simp [hhidden]
  rename_i hhidden
  split
  · rw [Option.filter_eq_some_iff, h.representativeIn_iff hself, notInternal_comm]
    constructor
    · rintro ⟨⟨hx, hax⟩, hinternal⟩
      exact ⟨hx, hax, hhidden, hinternal⟩
    · rintro ⟨hx, hax, -, hinternal⟩
      exact ⟨⟨hx, hax⟩, hinternal⟩
  rename_i ha
  refine ⟨fun hnone => absurd hnone (by simp), ?_⟩
  rintro ⟨hx, hax, -⟩
  exact absurd (h.under_of_mem_members hself hx hax) ha

/-- What an edge into a successor comes from. -/
theorem into_successor (hself : self ∈ live) (hy : y ∈ c.successorNodes self) {a b : T} :
    (if a ∈ (c.region self).under then
        if c.isHidden self a b ∨ b ∈ c.hiddenContextHeadUnder self then none else c.representativeIn self a
      else if c.inLoop self ∧ a ∉ c.underlying y then
        (c.representativeOutside self a).filter fun rep => rep ≠ y ∧ rep ∈ c.successorNodes self
      else none) = some x ↔
    a ∈ c.underlying x ∧ ((x ∈ (c.region self).members ∧ ¬ c.isHidden self a b ∧ b ∉ c.hiddenContextHeadUnder self) ∨
      (c.inLoop self = true ∧ x ∈ c.successorNodes self ∧ x ≠ y)) := by
  split
  · rename_i ha
    have hnot : a ∈ c.underlying x → x ∉ c.successorNodes self := fun hax hx =>
      h.not_under_of_mem_successorNodes hself hx hax ha
    split
    · rename_i hhidden
      refine ⟨fun hnone => absurd hnone (by simp), ?_⟩
      rintro ⟨hax, ⟨-, hseen, hhead⟩ | ⟨-, hx, -⟩⟩
      · exact (hhidden.elim hseen hhead).elim
      · exact absurd hx (hnot hax)
    rename_i hhidden
    rw [not_or] at hhidden
    rw [h.representativeIn_iff hself]
    constructor
    · rintro ⟨hx, hax⟩
      exact ⟨hax, .inl ⟨hx, hhidden⟩⟩
    · rintro ⟨hax, ⟨hx, -⟩ | ⟨-, hx, -⟩⟩
      · exact ⟨hx, hax⟩
      · exact absurd hx (hnot hax)
  · rename_i ha
    have hnot : a ∈ c.underlying x → x ∉ (c.region self).members := fun hax hx =>
      ha (h.under_of_mem_members hself hx hax)
    split
    · rename_i hseen
      rw [Option.filter_eq_some_iff, h.representativeOutside_iff hself, decide_eq_true_iff]
      constructor
      · rintro ⟨⟨-, hax⟩, hne, hx⟩
        exact ⟨hax, .inr ⟨hseen.1, hx, hne⟩⟩
      · rintro ⟨hax, ⟨hx, -⟩ | ⟨-, hx, hne⟩⟩
        · exact absurd hx (hnot hax)
        · exact ⟨⟨h.beside_of_mem_successorNodes hself hx, hax⟩, hne, hx⟩
    rename_i hseen
    refine ⟨fun hnone => absurd hnone (by simp), ?_⟩
    rintro ⟨hax, ⟨hx, -⟩ | ⟨hloop, hx, hne⟩⟩
    · exact absurd hx (hnot hax)
    · refine absurd ⟨hloop, fun hay => hne ?_⟩ hseen
      exact h.eq_of_beside (h.beside_of_mem_successorNodes hself hx) (h.beside_of_mem_successorNodes hself hy) hax hay

theorem mem_directInEdges (hself : self ∈ live) :
    x ∈ (c.directInEdges self it y full).map Prod.fst ↔ ViewEdge c self full x y := by
  unfold Core.directInEdges
  dsimp only
  split
  · rename_i hy
    simp only [List.mem_map, List.mem_flatMap, List.mem_filterMap, it.nodes.mem_list, DiGraph.mem_pred,
      Option.map_eq_some_iff, h.into_member hself]
    constructor
    · rintro ⟨e, ⟨b, hb, a, hedge, rep, ⟨hx, ha, hhidden, hinternal⟩, rfl⟩, rfl⟩
      exact ⟨a, ha, b, hb, hedge, .inl ⟨hx, hy, hhidden, hinternal⟩⟩
    rintro ⟨a, ha, b, hb, hedge, ⟨hx, -, hhidden, hinternal⟩ | ⟨-, -, hy', -⟩ | ⟨-, -, -, hy', -⟩⟩
    · exact ⟨(x, c.graph.data a b), ⟨b, hb, a, hedge, x, ⟨hx, ha, hhidden, hinternal⟩, rfl⟩, rfl⟩
    · exact absurd hy (h.not_mem_members_of_mem_successorNodes hself hy')
    · exact absurd hy (h.not_mem_members_of_mem_successorNodes hself hy')
  · rename_i hy
    split
    · rename_i hsucc
      obtain ⟨hfull, hy_succ⟩ := hsucc
      simp only [List.mem_map, List.mem_flatMap, List.mem_filterMap, it.nodes.mem_list, DiGraph.mem_pred,
        Option.map_eq_some_iff]
      constructor
      · rintro ⟨e, ⟨b, hb, a, hedge, rep, hrep, rfl⟩, rfl⟩
        obtain ⟨ha, hrest⟩ := (h.into_successor hself hy_succ).mp hrep
        refine ⟨a, ha, b, hb, hedge, .inr ?_⟩
        rcases hrest with ⟨hx, hhidden, hhead⟩ | ⟨hloop, hx, hne⟩
        · exact .inl ⟨hfull, hx, hy_succ, hhidden, hhead⟩
        · exact .inr ⟨hfull, hloop, hx, hy_succ, hne⟩
      rintro ⟨a, ha, b, hb, hedge, hrest⟩
      refine ⟨(x, c.graph.data a b), ⟨b, hb, a, hedge, x, ?_, rfl⟩, rfl⟩
      refine (h.into_successor hself hy_succ).mpr ⟨ha, ?_⟩
      rcases hrest with ⟨-, hy', -⟩ | ⟨-, hx, -, hhidden, hhead⟩ | ⟨-, hloop, hx, -, hne⟩
      · exact absurd hy' hy
      · exact .inl ⟨hx, hhidden, hhead⟩
      · exact .inr ⟨hloop, hx, hne⟩
    · rename_i hsucc
      refine ⟨fun hnil => absurd hnil (by simp), ?_⟩
      rintro ⟨a, -, b, -, -, ⟨-, hy', -⟩ | ⟨hfull, -, hy', -⟩ | ⟨hfull, -, -, hy', -⟩⟩
      · exact absurd hy' hy
      · exact absurd ⟨hfull, hy'⟩ hsucc
      · exact absurd ⟨hfull, hy'⟩ hsucc

/-- The member that a node is in is what represents it. -/
theorem memberOf_eq (hself : self ∈ live) : c.memberOf self it n = c.representativeIn self n := by
  have hsound : ∀ x, c.memberOf self it n = some x → x ∈ (c.region self).members ∧ n ∈ c.underlying x := by
    intro x hx
    have hmem := List.mem_of_find?_eq_some hx
    rw [List.mem_reverse, it.views.mem_list] at hmem
    exact ⟨hmem, by simpa using List.find?_some hx⟩
  ext x
  constructor
  · intro hx
    exact (h.representativeIn_iff hself).mpr (hsound x hx)
  intro hx
  obtain ⟨hx_mem, hnx⟩ := (h.representativeIn_iff hself).mp hx
  have hsome : (c.memberOf self it n).isSome := by
    unfold Core.memberOf
    rw [List.find?_isSome]
    exact ⟨x, List.mem_reverse.mpr ((it.views.mem_list _ _).mpr hx_mem), by simpa using hnx⟩
  obtain ⟨y, hy⟩ := Option.isSome_iff_exists.mp hsome
  obtain ⟨hy_mem, hny⟩ := hsound y hy
  rw [hy, h.eq_of_mem_underlying hself hy_mem hx_mem hny hnx]

/-- The batch has the same edges. -/
theorem mem_quotientEdges (hself : self ∈ live) :
    (∃ d, (x, y, d) ∈ c.quotientEdges self it full) ↔ ViewEdge c self full x y := by
  unfold Core.quotientEdges
  simp only [h.memberOf_eq hself, List.mem_append, List.mem_flatMap, it.nodes.mem_list]
  constructor
  · rintro ⟨d, ⟨a, ha, he⟩ | he⟩
    · split at he
      · cases he
      rename_i rep hrep
      obtain ⟨b, hb, he⟩ := List.mem_filterMap.mp he
      obtain ⟨rep', hrep', heq⟩ := Option.map_eq_some_iff.mp he
      cases heq
      have hedge := DiGraph.mem_succ.mp ((it.nodes.mem_list _ _).mp hb)
      obtain ⟨hx, hax⟩ := (h.representativeIn_iff hself).mp hrep
      obtain ⟨hby, hhidden, hrest⟩ := (h.out_of_member hself ha hedge).mp hrep'
      refine ⟨a, hax, b, hby, hedge, ?_⟩
      rcases hrest with ⟨hy, hinternal⟩ | ⟨hfull, hy, hhead⟩
      · exact .inl ⟨hx, hy, hhidden, hinternal⟩
      · exact .inr (.inl ⟨hfull, hx, hy, hhidden, hhead⟩)
    · split at he
      · rename_i hloop
        obtain ⟨s, hs, he⟩ := List.mem_flatMap.mp he
        obtain ⟨a, ha, he⟩ := List.mem_flatMap.mp he
        obtain ⟨b, hb, he⟩ := List.mem_filterMap.mp he
        obtain ⟨s', hs', heq⟩ := ite_none_map.mp he
        cases heq
        have hx := (it.views.mem_list _ _).mp hs
        obtain ⟨hy, hne, hby⟩ := (h.out_of_successor hself hx).mp hs'
        exact ⟨a, (it.nodes.mem_list _ _).mp ha, b, hby, DiGraph.mem_succ.mp ((it.nodes.mem_list _ _).mp hb),
          .inr (.inr ⟨hloop.1, hloop.2, hx, hy, hne.symm⟩)⟩
      · cases he
  · rintro ⟨a, hax, b, hby, hedge, hrest⟩
    have hb := (it.nodes.mem_list _ _).mpr (DiGraph.mem_succ.mpr hedge)
    have hcases : (x ∈ (c.region self).members ∧ ¬ c.isHidden self a b ∧
        ((y ∈ (c.region self).members ∧ Core.notInternal x y) ∨
          (full = true ∧ y ∈ c.successorNodes self ∧ b ∉ c.hiddenContextHeadUnder self))) ∨
        (full = true ∧ c.inLoop self = true ∧ x ∈ c.successorNodes self ∧ y ∈ c.successorNodes self ∧ x ≠ y) := by
      tauto
    refine ⟨c.graph.data a b, ?_⟩
    rcases hcases with ⟨hx, hhidden, hout⟩ | ⟨hfull, hloop, hx, hy, hne⟩
    · have ha := h.under_of_mem_members hself hx hax
      refine .inl ⟨a, ha, ?_⟩
      rw [(h.representativeIn_iff hself).mpr ⟨hx, hax⟩]
      refine List.mem_filterMap.mpr ⟨b, hb, Option.map_eq_some_iff.mpr ⟨y, ?_, rfl⟩⟩
      exact (h.out_of_member hself ha hedge).mpr ⟨hby, hhidden, hout⟩
    refine .inr ?_
    rw [if_pos ⟨hfull, hloop⟩]
    refine List.mem_flatMap.mpr ⟨x, (it.views.mem_list _ _).mpr hx, List.mem_flatMap.mpr ⟨a, ?_, ?_⟩⟩
    · exact (it.nodes.mem_list _ _).mpr hax
    · refine List.mem_filterMap.mpr ⟨b, hb, ite_none_map.mpr ⟨y, ?_, rfl⟩⟩
      exact (h.out_of_successor hself hx).mpr ⟨hy, hne.symm, hby⟩

end Tree

/-! ## What is listed -/

omit [DecidableEq T] in
theorem mem_firsts {α β : Type} [DecidableEq α] {l : List (α × β)} {a : α} :
    a ∈ (Core.firsts l).map Prod.fst ↔ a ∈ l.map Prod.fst := by
  induction l with
  | nil => rfl
  | cons e l ih =>
    rw [Core.firsts, List.map_cons, List.map_cons, List.mem_cons, List.mem_cons, ← ih]
    by_cases ha : a = e.1
    · simp [ha]
    refine or_congr_right ?_
    simp only [List.mem_map, List.mem_filter]
    constructor
    · rintro ⟨e', ⟨he', -⟩, rfl⟩
      exact ⟨e', he', rfl⟩
    · rintro ⟨e', he', rfl⟩
      exact ⟨e', ⟨he', by simpa using ha⟩, rfl⟩

/-- An edge is in a view: one of the graph, or an extra one. -/
def Seen (c : Core T V) (self : Nat) (full : Bool) (x y : Tx T) : Prop :=
  ViewEdge c self full x y ∨ (full = true ∧ (.extraFull, x, y) ∈ (c.region self).pairs)

theorem mem_extraTargets : y ∈ c.extraTargets self x ↔ (.extraFull, x, y) ∈ (c.region self).pairs := by
  unfold Core.extraTargets
  rw [Finset.mem_image]
  constructor
  · rintro ⟨⟨k, x', y'⟩, he, rfl⟩
    obtain ⟨hmem, rfl, rfl⟩ := Finset.mem_filter.mp he
    exact hmem
  · exact fun hmem => ⟨(.extraFull, x, y), Finset.mem_filter.mpr ⟨hmem, rfl, rfl⟩, rfl⟩

theorem mem_extraSources : x ∈ c.extraSources self y ↔ (.extraFull, x, y) ∈ (c.region self).pairs := by
  unfold Core.extraSources
  rw [Finset.mem_image]
  constructor
  · rintro ⟨⟨k, x', y'⟩, he, rfl⟩
    obtain ⟨hmem, rfl, rfl⟩ := Finset.mem_filter.mp he
    exact hmem
  · exact fun hmem => ⟨(.extraFull, x, y), Finset.mem_filter.mpr ⟨hmem, rfl, rfl⟩, rfl⟩

omit [DecidableEq T] in
theorem mem_extra {s : Finset (Tx T)} : y ∈ (if full then (it.views.list s).map fun v => (v, (EdgeData.empty : EdgeData V))
    else []).map Prod.fst ↔ full = true ∧ y ∈ s := by
  cases full with
  | true => simp [it.views.mem_list]
  | false => simp

namespace Tree

variable (h : Tree c live)

include h

theorem mem_iterViewOutEdges (hself : self ∈ live) :
    y ∈ (c.iterViewOutEdges self it x full).map Prod.fst ↔ Seen c self full x y := by
  unfold Core.iterViewOutEdges Seen
  rw [mem_firsts, List.map_append, List.mem_append, h.mem_directOutEdges hself, mem_extra, mem_extraTargets]

theorem mem_iterViewInEdges (hself : self ∈ live) :
    x ∈ (c.iterViewInEdges self it y full).map Prod.fst ↔ Seen c self full x y := by
  unfold Core.iterViewInEdges Seen
  rw [mem_firsts, List.map_append, List.mem_append, h.mem_directInEdges hself, mem_extra, mem_extraSources]

/-- An edge is seen from its source iff it is seen from its target, and the extra ones aside iff it is
in the batch. -/
theorem view_consistent (hself : self ∈ live) (it : IterOrder T) (full : Bool) (x y : Tx T) :
    (y ∈ (c.iterViewOutEdges self it x full).map Prod.fst ↔ x ∈ (c.iterViewInEdges self it y full).map Prod.fst) ∧
      (y ∈ (c.iterViewOutEdges self it x full).map Prod.fst ↔ (∃ d, (x, y, d) ∈ c.quotientEdges self it full) ∨
        (full = true ∧ (.extraFull, x, y) ∈ (c.region self).pairs)) := by
  rw [h.mem_iterViewOutEdges hself, h.mem_iterViewInEdges hself, h.mem_quotientEdges hself]
  exact ⟨Iff.rfl, Iff.rfl⟩

end Tree

end Angr.Overlay
