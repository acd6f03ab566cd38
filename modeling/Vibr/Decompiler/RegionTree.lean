import Vibr.Decompiler.RegionVerbs

/-!
# The region tree

Ownership is stored several times: in the owner map, in the members of regions, in the nodes
below a region, in lists of children and in parent pointers. The regions that are neither
finalized nor dissolved are live. In their tree the owner map and the parent pointers determine
all the rest.
-/

namespace Angr.Overlay

open Forest

variable {T V : Type} [DecidableEq T] {c : Core T V} {live : Finset Nat} {self sub parent i j p : Nat} {n m : T}
variable {ms : Finset (Tx T)}

structure Tree (c : Core T V) (live : Finset Nat) : Prop where
  root : 0 ∈ live
  root_parent : c.parent 0 = none
  lt_next : ∀ i ∈ live, i < c.next
  parent : ∀ i ∈ live, ∀ p, c.parent i = some p → p ∈ live
  rooted : ∀ i ∈ live, Above c.parent i 0
  region : ∀ p ∈ live, ∀ i, .region i ∈ (c.region p).members ↔ i ∈ live ∧ c.parent i = some p
  node : ∀ i ∈ live, ∀ n, .node n ∈ (c.region i).members ↔ c.owner n = some i
  owner : ∀ n i, c.owner n = some i → i ∈ live
  children : ∀ i ∈ live, (c.region i).children = (regionsOf (c.region i).members).val
  under : ∀ i ∈ live, ∀ n, n ∈ (c.region i).under ↔ ∃ o, c.owner n = some o ∧ Above c.parent o i
  replacement : ∀ i ∈ live, (c.region i).replacement = none

omit [DecidableEq T] in
theorem mem_regionsOf : i ∈ regionsOf ms ↔ .region i ∈ ms := by
  unfold regionsOf
  rw [Finset.mem_biUnion]
  constructor
  · rintro ⟨x, hx, hi⟩
    cases x with
    | node n => cases hi
    | region j =>
      rw [Finset.mem_singleton.mp hi]
      exact hx
  · exact fun h => ⟨.region i, h, Finset.mem_singleton_self i⟩

theorem mem_nodesOf : n ∈ nodesOf ms ↔ .node n ∈ ms := by
  unfold nodesOf
  rw [Finset.mem_biUnion]
  constructor
  · rintro ⟨x, hx, hn⟩
    cases x with
    | node m =>
      rw [Finset.mem_singleton.mp hn]
      exact hx
    | region j => cases hn
  · exact fun h => ⟨.node n, h, Finset.mem_singleton_self n⟩

namespace Tree

variable (h : Tree c live)

include h

omit [DecidableEq T] in
theorem isRooted (hi : i ∈ live) : Rooted c.parent i := ⟨0, h.rooted i hi, h.root_parent⟩

omit [DecidableEq T] in
theorem mem_of_above (hi : i ∈ live) (ha : Above c.parent i j) : j ∈ live := by
  induction ha with
  | refl => exact hi
  | tail _ hp ih => exact h.parent _ ih _ hp

omit [DecidableEq T] in
/-- The walk to the root is complete. -/
theorem mem_ancestors (hi : i ∈ live) : j ∈ c.ancestors i ↔ Above c.parent i j := by
  refine mem_up h.parent hi (h.isRooted hi) ?_
  have hsub : live ⊆ Finset.range c.next := fun k hk => Finset.mem_range.mpr (h.lt_next k hk)
  calc live.card ≤ (Finset.range c.next).card := Finset.card_le_card hsub
    _ = c.next := Finset.card_range _

omit [DecidableEq T] in
theorem parent_ne (hi : i ∈ live) (hp : c.parent i = some p) : p ≠ i := by
  rintro rfl
  exact (h.isRooted hi).not_above hp .refl

omit [DecidableEq T] in
theorem next_not_mem : c.next ∉ live := fun hmem => Nat.lt_irrefl _ (h.lt_next _ hmem)

/-- What is below a region is in one of its members. -/
theorem under_eq (hi : i ∈ live) : (c.region i).under = (c.region i).members.biUnion c.underlying := by
  ext n
  rw [h.under i hi, Finset.mem_biUnion]
  constructor
  · rintro ⟨o, ho, habove⟩
    -- the last step of the chain from the owner to the region
    rcases Relation.ReflTransGen.cases_tail habove with rfl | ⟨j, hoj, hj⟩
    · exact ⟨.node n, (h.node _ hi n).mpr ho, Finset.mem_singleton_self n⟩
    · have hj_live := h.mem_of_above (h.owner n o ho) hoj
      exact ⟨.region j, (h.region i hi j).mpr ⟨hj_live, hj⟩, (h.under j hj_live n).mpr ⟨o, ho, hoj⟩⟩
  rintro ⟨x, hx, hn⟩
  cases x with
  | node m =>
    obtain rfl := Finset.mem_singleton.mp hn
    exact ⟨i, (h.node i hi n).mp hx, .refl⟩
  | region j =>
    obtain ⟨hj_live, hj⟩ := (h.region i hi j).mp hx
    obtain ⟨o, ho, hoj⟩ := (h.under j hj_live n).mp hn
    exact ⟨o, ho, hoj.tail hj⟩

omit [DecidableEq T] in
/-- No node is in two members of a region. -/
theorem eq_of_mem_underlying {x y : Tx T} (hi : i ∈ live) (hx : x ∈ (c.region i).members) (hy : y ∈ (c.region i).members)
    (hnx : n ∈ c.underlying x) (hny : n ∈ c.underlying y) : x = y := by
  -- the member is known from the owner
  have hmember : ∀ x ∈ (c.region i).members, n ∈ c.underlying x → ∃ o, c.owner n = some o ∧
      ((x = .node n ∧ o = i) ∨ ∃ j, x = .region j ∧ c.parent j = some i ∧ j ∈ live ∧ Above c.parent o j) := by
    intro x hx hn
    cases x with
    | node m =>
      obtain rfl := Finset.mem_singleton.mp hn
      exact ⟨i, (h.node i hi n).mp hx, .inl ⟨rfl, rfl⟩⟩
    | region j =>
      obtain ⟨hj_live, hj⟩ := (h.region i hi j).mp hx
      obtain ⟨o, ho, hoj⟩ := (h.under j hj_live n).mp hn
      exact ⟨o, ho, .inr ⟨j, rfl, hj, hj_live, hoj⟩⟩
  obtain ⟨o, ho, hx⟩ := hmember x hx hnx
  obtain ⟨o', ho', hy⟩ := hmember y hy hny
  obtain rfl : o = o' := Option.some.inj (ho.symm.trans ho')
  rcases hx with ⟨rfl, hoi⟩ | ⟨j, rfl, hj, hj_live, hoj⟩
  · rcases hy with ⟨rfl, -⟩ | ⟨j, rfl, hj, hj_live, hoj⟩
    · rfl
    · exact absurd (hoi ▸ hoj) ((h.isRooted hj_live).not_above hj)
  rcases hy with ⟨rfl, hoi⟩ | ⟨j', rfl, hj', hj'_live, hoj'⟩
  · exact absurd (hoi ▸ hoj) ((h.isRooted hj_live).not_above hj)
  -- two children of one region are not above each other
  rcases hoj.linear hoj' with hjj' | hj'j
  · rw [above_of_some hj] at hjj'
    rcases hjj' with rfl | hij'
    · rfl
    · exact absurd hij' ((h.isRooted hj'_live).not_above hj')
  rw [above_of_some hj'] at hj'j
  rcases hj'j with rfl | hij
  · rfl
  · exact absurd hij ((h.isRooted hj_live).not_above hj)

end Tree

/-! ## Nodes -/

namespace Core

/-- The nodes among some members are given an owner. -/
def giveNodes (c : Core T V) (ms : Finset (Tx T)) (o : Nat) : Core T V :=
  { c with owner := fun n => if .node n ∈ ms then some o else c.owner n }

/-- A new node of a region. -/
def adopt (c : Core T V) (self : Nat) (n : T) : Core T V := (c.setOwner n (some self)).insertNode self n

/-- A node leaves its owner. -/
def abandon (c : Core T V) (o : Nat) (n : T) : Core T V := (c.setOwner n none).eraseNode o n

end Core

/-- The regions that there are in `c` have the same place in another tree. -/
structure SameTree (c c' : Core T V) : Prop where
  owner : c'.owner = c.owner
  next_le : c.next ≤ c'.next
  parent : ∀ i < c.next, c'.parent i = c.parent i
  children : ∀ i < c.next, (c'.region i).children = (c.region i).children
  members : ∀ i < c.next, (c'.region i).members = (c.region i).members
  under : ∀ i < c.next, (c'.region i).under = (c.region i).under
  replacement : ∀ i < c.next, (c'.region i).replacement = (c.region i).replacement

omit [DecidableEq T] in
theorem Tree.above_congr {c' : Core T V} (h : Tree c live) (hsame : SameTree c c') (hi : i ∈ live) :
    Above c'.parent i j ↔ Above c.parent i j := by
  constructor
  · intro ha
    have hlive : j ∈ live ∧ Above c.parent i j := by
      induction ha with
      | refl => exact ⟨hi, .refl⟩
      | @tail k q _ hq ih =>
        rw [hsame.parent k (h.lt_next k ih.1)] at hq
        exact ⟨h.parent k ih.1 q hq, ih.2.tail hq⟩
    exact hlive.2
  intro ha
  induction ha with
  | refl => exact .refl
  | @tail k q hk hq ih =>
    refine ih.tail ?_
    rw [hsame.parent k (h.lt_next k (h.mem_of_above hi hk))]
    exact hq

omit [DecidableEq T] in
theorem Tree.congr {c' : Core T V} (h : Tree c live) (hsame : SameTree c c') : Tree c' live := by
  have hparent : ∀ i ∈ live, c'.parent i = c.parent i := fun i hi => hsame.parent i (h.lt_next i hi)
  constructor
  · exact h.root
  · rw [hparent 0 h.root]
    exact h.root_parent
  · exact fun i hi => Nat.lt_of_lt_of_le (h.lt_next i hi) hsame.next_le
  · intro i hi
    rw [hparent i hi]
    exact h.parent i hi
  · intro i hi
    rw [h.above_congr hsame hi]
    exact h.rooted i hi
  · intro p hp i
    rw [hsame.members p (h.lt_next p hp), h.region p hp]
    exact and_congr_right fun hi => by rw [hparent i hi]
  · intro i hi
    rw [hsame.members i (h.lt_next i hi), hsame.owner]
    exact h.node i hi
  · rw [hsame.owner]
    exact h.owner
  · intro i hi
    rw [hsame.children i (h.lt_next i hi), hsame.members i (h.lt_next i hi)]
    exact h.children i hi
  · intro i hi n
    rw [hsame.under i (h.lt_next i hi), hsame.owner, h.under i hi]
    exact exists_congr fun o => and_congr_right fun ho => (h.above_congr hsame (h.owner n o ho)).symm
  · intro i hi
    rw [hsame.replacement i (h.lt_next i hi)]
    exact h.replacement i hi

theorem Tree.adopt (h : Tree c live) (hself : self ∈ live) (hn : c.owner n = none) : Tree (c.adopt self n) live := by
  have hparent : (c.adopt self n).parent = c.parent := rfl
  have howner : ∀ m, (c.adopt self n).owner m = if m = n then some self else c.owner m := fun m =>
    Function.update_apply c.owner n (some self) m
  have hmembers : ∀ i, ((c.adopt self n).region i).members =
      if i = self then insert (.node n) (c.region i).members else (c.region i).members := fun _ => rfl
  have hunder : ∀ i m, m ∈ ((c.adopt self n).region i).under ↔
      m ∈ (c.region i).under ∨ m = n ∧ Above c.parent self i := by
    intro i m
    have hdef : ((c.adopt self n).region i).under =
      if i ∈ c.ancestors self then insert n (c.region i).under else (c.region i).under := rfl
    rw [hdef, ← h.mem_ancestors hself]
    split <;> simp_all [or_comm]
  constructor
  · exact h.root
  · exact h.root_parent
  · exact h.lt_next
  · exact h.parent
  · exact h.rooted
  · intro p hp i
    rw [hparent, hmembers, ← h.region p hp]
    split <;> simp
  · intro i hi m
    rw [howner, hmembers]
    have hmem := h.node i hi m
    by_cases hm : m = n
    · subst hm
      rw [if_pos rfl]
      split <;> simp_all [eq_comm]
    · rw [if_neg hm, ← hmem]
      split <;> simp [hm]
  · intro m i hm
    rw [howner] at hm
    split at hm
    · rw [← Option.some.inj hm]
      exact hself
    · exact h.owner m i hm
  · intro i hi
    have hchildren : ((c.adopt self n).region i).children = (c.region i).children := rfl
    rw [hchildren, h.children i hi]
    congr 1
    ext j
    rw [mem_regionsOf, mem_regionsOf, hmembers]
    split <;> simp
  · intro i hi m
    rw [hparent, hunder, h.under i hi, howner]
    by_cases hm : m = n
    · subst hm
      simp [hn]
    · simp [hm]
  · exact h.replacement

theorem Tree.abandon (h : Tree c live) (hn : c.owner n = some p) : Tree (c.abandon p n) live := by
  have hp := h.owner n p hn
  have hparent : (c.abandon p n).parent = c.parent := rfl
  have howner : ∀ m, (c.abandon p n).owner m = if m = n then none else c.owner m := fun m =>
    Function.update_apply c.owner n none m
  have hmembers : ∀ i, ((c.abandon p n).region i).members =
      if i = p then (c.region i).members.erase (.node n) else (c.region i).members := fun _ => rfl
  have hunder : ∀ i m, m ∈ ((c.abandon p n).region i).under ↔
      m ∈ (c.region i).under ∧ ¬ (m = n ∧ Above c.parent p i) := by
    intro i m
    have hdef : ((c.abandon p n).region i).under =
      if i ∈ c.ancestors p then (c.region i).under.erase n else (c.region i).under := rfl
    rw [hdef, ← h.mem_ancestors hp]
    split <;> simp_all [and_comm]
  constructor
  · exact h.root
  · exact h.root_parent
  · exact h.lt_next
  · exact h.parent
  · exact h.rooted
  · intro q hq i
    rw [hparent, hmembers, ← h.region q hq]
    split <;> simp
  · intro i hi m
    rw [howner, hmembers]
    have hmem := h.node i hi m
    by_cases hm : m = n
    · subst hm
      rw [if_pos rfl]
      split <;> simp_all [eq_comm]
    · rw [if_neg hm, ← hmem]
      split <;> simp [hm]
  · intro m i hm
    rw [howner] at hm
    split at hm
    · cases hm
    · exact h.owner m i hm
  · intro i hi
    have hchildren : ((c.abandon p n).region i).children = (c.region i).children := rfl
    rw [hchildren, h.children i hi]
    congr 1
    ext j
    rw [mem_regionsOf, mem_regionsOf, hmembers]
    split <;> simp
  · intro i hi m
    rw [hparent, hunder, h.under i hi, howner]
    by_cases hm : m = n
    · subst hm
      simp [hn]
    · simp [hm]
  · exact h.replacement

/-! ## Regions -/

theorem regionsOf_sdiff {ms' : Finset (Tx T)} : regionsOf (ms \ ms') = regionsOf ms \ regionsOf ms' := by
  ext i
  rw [Finset.mem_sdiff, mem_regionsOf, mem_regionsOf, mem_regionsOf, Finset.mem_sdiff]

theorem regionsOf_union {ms' : Finset (Tx T)} : regionsOf (ms ∪ ms') = regionsOf ms ∪ regionsOf ms' := by
  ext i
  rw [Finset.mem_union, mem_regionsOf, mem_regionsOf, mem_regionsOf, Finset.mem_union]

theorem regionsOf_insert_region : regionsOf (insert (.region i) ms) = insert i (regionsOf ms) := by
  ext j
  rw [Finset.mem_insert, mem_regionsOf, mem_regionsOf, Finset.mem_insert, Tx.region.injEq]

theorem regionsOf_insert_node : regionsOf (insert (.node n) ms) = regionsOf ms := by
  ext j
  rw [mem_regionsOf, mem_regionsOf, Finset.mem_insert]
  simp

theorem regionsOf_erase_region : regionsOf (ms.erase (.region i)) = (regionsOf ms).erase i := by
  ext j
  rw [Finset.mem_erase, mem_regionsOf, mem_regionsOf, Finset.mem_erase, ne_eq, Tx.region.injEq]

section carve

variable {head : Tx T} {cyclic cyclicAncestor : Bool}

theorem region_carve (c : Core T V) (i : Nat) : (c.carve self head ms cyclic cyclicAncestor).region i =
    if i = c.next then
      { head := some head
        cyclic := cyclic
        cyclicAncestor := cyclicAncestor
        parent := some self
        children := (regionsOf ms).val
        members := ms
        under := ms.biUnion c.underlying }
    else
      { c.region i with
        parent := if .region i ∈ ms then some c.next else c.parent i
        members := if i = self then insert (.region c.next) ((c.region i).members \ ms) else (c.region i).members
        children := if i = self then (c.region i).children - (regionsOf ms).val + {c.next} else (c.region i).children } := by
  unfold Core.carve Core.parent Core.modify Core.reparent
  by_cases hi : i = c.next
  · simp [hi]
  by_cases hself : i = self
  · subst hself
    by_cases hms : Tx.region i ∈ ms <;> simp [hi, hms]
  · by_cases hms : Tx.region i ∈ ms <;> simp [hi, hself, hms]

theorem parent_carve (c : Core T V) (i : Nat) : (c.carve self head ms cyclic cyclicAncestor).parent i =
    if i = c.next then some self else if .region i ∈ ms then some c.next else c.parent i := by
  unfold Core.parent
  rw [region_carve]
  split <;> rfl

theorem members_carve (c : Core T V) (i : Nat) : ((c.carve self head ms cyclic cyclicAncestor).region i).members =
    if i = c.next then ms
    else if i = self then insert (.region c.next) ((c.region i).members \ ms) else (c.region i).members := by
  rw [region_carve]
  split <;> rfl

variable (h : Tree c live) (hself : self ∈ live) (hms : ms ⊆ (c.region self).members)

include h hself hms

omit [DecidableEq T] in
theorem Tree.of_mem_members (hi : .region i ∈ ms) : i ∈ live ∧ c.parent i = some self :=
  (h.region self hself i).mp (hms hi)

/-- What was above a region still is. -/
theorem Tree.above_carve (hi : i ∈ live) (ha : Above c.parent i j) :
    Above (c.carve self head ms cyclic cyclicAncestor).parent i j := by
  have hne : ∀ k ∈ live, k ≠ c.next := fun k hk heq => h.next_not_mem (heq ▸ hk)
  induction ha with
  | refl => exact .refl
  | @tail k q hk hq ih =>
    have hk_live := h.mem_of_above hi hk
    by_cases hmem : .region k ∈ ms
    · -- through the new region
      obtain rfl : self = q := Option.some.inj ((h.of_mem_members hself hms hmem).2.symm.trans hq)
      have hstep : (c.carve self head ms cyclic cyclicAncestor).parent k = some c.next := by
        rw [parent_carve, if_neg (hne k hk_live), if_pos hmem]
      have hstep' : (c.carve self head ms cyclic cyclicAncestor).parent c.next = some self := by
        rw [parent_carve, if_pos rfl]
      exact (ih.tail hstep).tail hstep'
    · refine ih.tail ?_
      rw [parent_carve, if_neg (hne k hk_live), if_neg hmem]
      exact hq

/-- Without the new region the chains are those from before. -/
theorem Tree.above_of_carve (hi : i ∈ insert c.next live)
    (ha : Above (c.carve self head ms cyclic cyclicAncestor).parent i j) :
    j ∈ insert c.next live ∧ Above c.parent (if i = c.next then self else i) (if j = c.next then self else j) := by
  have hne : ∀ k ∈ live, k ≠ c.next := fun k hk heq => h.next_not_mem (heq ▸ hk)
  induction ha with
  | refl => exact ⟨hi, .refl⟩
  | @tail k q _ hq ih =>
    obtain ⟨hk, hik⟩ := ih
    rw [parent_carve] at hq
    by_cases hk_next : k = c.next
    · rw [if_pos hk_next] at hq hik
      obtain rfl := Option.some.inj hq
      rw [if_neg (hne _ hself)]
      exact ⟨Finset.mem_insert_of_mem hself, hik⟩
    have hk_live : k ∈ live := Finset.mem_of_mem_insert_of_ne hk hk_next
    rw [if_neg hk_next] at hq hik
    split at hq
    · rename_i hmem
      obtain rfl := Option.some.inj hq
      rw [if_pos rfl]
      exact ⟨Finset.mem_insert_self _ _, hik.tail (h.of_mem_members hself hms hmem).2⟩
    · have hq_live := h.parent k hk_live q hq
      rw [if_neg (hne q hq_live)]
      exact ⟨Finset.mem_insert_of_mem hq_live, hik.tail hq⟩

theorem Tree.carve : Tree ((c.giveNodes ms c.next).carve self head ms cyclic cyclicAncestor) (insert c.next live) := by
  have hne : ∀ k ∈ live, k ≠ c.next := fun k hk heq => h.next_not_mem (heq ▸ hk)
  have hself_ne := hne self hself
  have hmem : ∀ i, .region i ∈ ms → i ∈ live ∧ c.parent i = some self := fun i => h.of_mem_members hself hms
  have hnode : ∀ n, .node n ∈ ms → c.owner n = some self := fun n hn => (h.node self hself n).mp (hms hn)
  have hnext : .region c.next ∉ ms := fun hin => h.next_not_mem (hmem _ hin).1
  have hself_ms : .region self ∉ ms := fun hin => h.parent_ne hself (hmem _ hin).2 rfl
  have howner : ∀ n, ((c.giveNodes ms c.next).carve self head ms cyclic cyclicAncestor).owner n =
      if .node n ∈ ms then some c.next else c.owner n := fun _ => rfl
  have hregion : ∀ i, ((c.giveNodes ms c.next).carve self head ms cyclic cyclicAncestor).region i =
      (c.carve self head ms cyclic cyclicAncestor).region i := fun _ => rfl
  have hparent : ((c.giveNodes ms c.next).carve self head ms cyclic cyclicAncestor).parent =
      (c.carve self head ms cyclic cyclicAncestor).parent := rfl
  have hparent_next : (c.carve self head ms cyclic cyclicAncestor).parent c.next = some self := by
    rw [parent_carve, if_pos rfl]
  constructor
  · exact Finset.mem_insert_of_mem h.root
  · rw [hparent, parent_carve, if_neg (hne 0 h.root), if_neg fun hin => ?_]
    · exact h.root_parent
    · have := (hmem 0 hin).2
      rw [h.root_parent] at this
      cases this
  · intro i hi
    rcases Finset.mem_insert.mp hi with rfl | hi
    · exact Nat.lt_succ_self _
    · exact Nat.lt_succ_of_lt (h.lt_next i hi)
  · intro i hi q hq
    exact (h.above_of_carve hself hms hi (.single hq)).1
  · intro i hi
    rcases Finset.mem_insert.mp hi with rfl | hi
    · exact .head hparent_next (h.above_carve hself hms hself (h.rooted self hself))
    · exact h.above_carve hself hms hi (h.rooted i hi)
  · intro p hp i
    rw [hregion, hparent, members_carve, parent_carve]
    by_cases hi_next : i = c.next
    · subst hi_next
      rw [if_pos rfl]
      rcases Finset.mem_insert.mp hp with rfl | hp
      · simp [hnext, hself_ne]
      rw [if_neg (hne p hp)]
      by_cases hps : p = self
      · simp [hps]
      · have hout : .region c.next ∉ (c.region p).members := fun hin =>
          h.next_not_mem ((h.region p hp _).mp hin).1
        simp [hps, hout, Ne.symm hps]
    · rw [if_neg hi_next, Finset.mem_insert]
      rcases Finset.mem_insert.mp hp with rfl | hp
      · rw [if_pos rfl]
        constructor
        · intro hin
          exact ⟨.inr (hmem i hin).1, by rw [if_pos hin]⟩
        rintro ⟨hi, hin⟩
        by_contra hnot
        rw [if_neg hnot] at hin
        exact h.next_not_mem (h.parent i (hi.resolve_left hi_next) _ hin)
      rw [if_neg (hne p hp)]
      by_cases hin : .region i ∈ ms
      · rw [if_pos hin]
        have hout : p ≠ self → .region i ∉ (c.region p).members := fun hps hin' =>
          hps (Option.some.inj (((h.region p hp i).mp hin').2.symm.trans (hmem i hin).2))
        by_cases hps : p = self
        · simp [hps, hin, hi_next, (hne self hself).symm]
        · simp [hps, hout hps, (hne p hp).symm]
      rw [if_neg hin]
      have hiff := h.region p hp i
      by_cases hps : p = self
      · subst hps
        simp [hin, hi_next, hiff]
      · simp [hps, hiff, hi_next]
  · intro i hi n
    rw [hregion, howner, members_carve]
    rcases Finset.mem_insert.mp hi with rfl | hi
    · rw [if_pos rfl]
      constructor
      · exact fun hin => by rw [if_pos hin]
      intro hin
      by_contra hnot
      rw [if_neg hnot] at hin
      exact h.next_not_mem (h.owner n _ hin)
    rw [if_neg (hne i hi)]
    have hiff := h.node i hi n
    by_cases hin : .node n ∈ ms
    · rw [if_pos hin]
      have hout : i ≠ self → .node n ∉ (c.region i).members := fun his hin' =>
        his (Option.some.inj ((hiff.mp hin').symm.trans (hnode n hin)))
      by_cases his : i = self
      · simp [his, hin, (hne self hself).symm]
      · simp [his, hout his, (hne i hi).symm]
    rw [if_neg hin, ← hiff]
    by_cases his : i = self
    · simp [his, hin]
    · simp [his]
  · intro n i hn
    rw [howner] at hn
    split at hn
    · rw [← Option.some.inj hn]
      exact Finset.mem_insert_self _ _
    · exact Finset.mem_insert_of_mem (h.owner n i hn)
  · intro i hi
    rw [hregion, region_carve]
    rcases Finset.mem_insert.mp hi with rfl | hi
    · rw [if_pos rfl]
    rw [if_neg (hne i hi)]
    dsimp only
    by_cases his : i = self
    · subst his
      have hnot : c.next ∉ regionsOf ((c.region i).members \ ms) := by
        rw [mem_regionsOf]
        intro hin
        exact h.next_not_mem ((h.region i hself _).mp (Finset.mem_sdiff.mp hin).1).1
      rw [if_pos rfl, if_pos rfl, h.children i hself, regionsOf_insert_region, Finset.insert_val_of_notMem hnot,
        regionsOf_sdiff, Finset.sdiff_val, Multiset.add_comm, Multiset.singleton_add]
    · rw [if_neg his, if_neg his]
      exact h.children i hi
  · intro i hi n
    rw [hregion, region_carve, hparent]
    rcases Finset.mem_insert.mp hi with rfl | hi
    · rw [if_pos rfl]
      dsimp only
      rw [Finset.mem_biUnion]
      constructor
      · rintro ⟨x, hx, hn⟩
        cases x with
        | node m =>
          obtain rfl := Finset.mem_singleton.mp hn
          exact ⟨c.next, by rw [howner, if_pos hx], .refl⟩
        | region j =>
          obtain ⟨hj, hj_parent⟩ := hmem j hx
          obtain ⟨o, ho, hoj⟩ := (h.under j hj n).mp hn
          have hout : .node n ∉ ms := by
            intro hin
            obtain rfl := Option.some.inj (ho.symm.trans (hnode n hin))
            exact (h.isRooted hj).not_above hj_parent hoj
          have hstep : (c.carve self head ms cyclic cyclicAncestor).parent j = some c.next := by
            rw [parent_carve, if_neg (hne j hj), if_pos hx]
          refine ⟨o, by rw [howner, if_neg hout, ho], ?_⟩
          exact (h.above_carve hself hms (h.owner n o ho) hoj).tail hstep
      · rintro ⟨o, ho, habove⟩
        rw [howner] at ho
        split at ho
        · rename_i hin
          exact ⟨.node n, hin, Finset.mem_singleton_self n⟩
        have ho_live := h.owner n o ho
        rcases Relation.ReflTransGen.cases_tail habove with heq | ⟨j, hoj, hj⟩
        · exact absurd heq.symm (hne o ho_live)
        obtain ⟨hj_live, hoj'⟩ := h.above_of_carve hself hms (Finset.mem_insert_of_mem ho_live) hoj
        rw [parent_carve] at hj
        split at hj
        · exact absurd (Option.some.inj hj) hself_ne
        rename_i hj_next
        rw [if_neg (hne o ho_live), if_neg hj_next] at hoj'
        have hj_live : j ∈ live := Finset.mem_of_mem_insert_of_ne hj_live hj_next
        split at hj
        · rename_i hin
          exact ⟨.region j, hin, (h.under j hj_live n).mpr ⟨o, ho, hoj'⟩⟩
        · exact absurd (h.parent j hj_live _ hj) h.next_not_mem
    · rw [if_neg (hne i hi)]
      dsimp only
      rw [h.under i hi]
      constructor
      · rintro ⟨o, ho, habove⟩
        by_cases hin : .node n ∈ ms
        · obtain rfl := Option.some.inj (ho.symm.trans (hnode n hin))
          exact ⟨c.next, by rw [howner, if_pos hin], .head hparent_next (h.above_carve hself hms hself habove)⟩
        · exact ⟨o, by rw [howner, if_neg hin, ho], h.above_carve hself hms (h.owner n o ho) habove⟩
      rintro ⟨o, ho, habove⟩
      rw [howner] at ho
      split at ho
      · rename_i hin
        obtain rfl := Option.some.inj ho
        have := (h.above_of_carve hself hms (Finset.mem_insert_self _ _) habove).2
        rw [if_pos rfl, if_neg (hne i hi)] at this
        exact ⟨self, hnode n hin, this⟩
      have ho_live := h.owner n o ho
      have := (h.above_of_carve hself hms (Finset.mem_insert_of_mem ho_live) habove).2
      rw [if_neg (hne o ho_live), if_neg (hne i hi)] at this
      exact ⟨o, ho, this⟩
  · intro i hi
    rw [hregion, region_carve]
    rcases Finset.mem_insert.mp hi with rfl | hi
    · rw [if_pos rfl]
    · rw [if_neg (hne i hi)]
      exact h.replacement i hi

end carve

section collapse

variable {result : T}

theorem region_collapse (c : Core T V) (hne : parent ≠ self) (i : Nat) : (c.collapse self parent result).region i =
    if i = self then
      { c.region i with
        members := (c.region i).members.erase (.node result)
        under := (c.region i).under.erase result
        replacement := some result
        pairs := ∅ }
    else if i = parent then
      { c.region i with
        members := insert (.node result) ((c.region i).members.erase (.region self))
        children := (c.region i).children.erase self
        head := if (c.region i).head = some (.region self) then some (.node result) else (c.region i).head }
    else c.region i := by
  unfold Core.collapse Core.modify
  by_cases hi : i = self
  · subst hi
    simp [hne.symm]
  by_cases hp : i = parent
  · subst hp
    simp [hne]
  · simp [hi, hp]

theorem parent_collapse (c : Core T V) (hne : parent ≠ self) (i : Nat) :
    (c.collapse self parent result).parent i = c.parent i := by
  unfold Core.parent
  rw [region_collapse c hne]
  split
  · rfl
  · split <;> rfl

theorem Tree.collapse (h : Tree c live) (hself : self ∈ live) (hparent : c.parent self = some parent)
    (hmembers : (c.region self).members = {.node result}) :
    Tree ((c.setOwner result (some parent)).collapse self parent result) (live.erase self) := by
  have hne : parent ≠ self := h.parent_ne hself hparent
  have hparent_live : parent ∈ live := h.parent self hself parent hparent
  have hresult : c.owner result = some self := (h.node self hself result).mp (by simp [hmembers])
  have hleaf : ∀ i ∈ live, c.parent i ≠ some self := by
    intro i hi hp
    have := (h.region self hself i).mpr ⟨hi, hp⟩
    simp [hmembers] at this
  have howner : ∀ n, ((c.setOwner result (some parent)).collapse self parent result).owner n =
      if n = result then some parent else c.owner n := fun n => Function.update_apply c.owner result (some parent) n
  have hregion : ∀ i, ((c.setOwner result (some parent)).collapse self parent result).region i =
      (c.collapse self parent result).region i := fun _ => rfl
  have hsame : ((c.setOwner result (some parent)).collapse self parent result).parent = c.parent := by
    funext i
    exact parent_collapse c hne i
  constructor
  · refine Finset.mem_erase.mpr ⟨?_, h.root⟩
    rintro rfl
    rw [h.root_parent] at hparent
    cases hparent
  · rw [hsame]
    exact h.root_parent
  · exact fun i hi => h.lt_next i (Finset.mem_of_mem_erase hi)
  · rw [hsame]
    intro i hi p hp
    have hi_live := Finset.mem_of_mem_erase hi
    refine Finset.mem_erase.mpr ⟨?_, h.parent i hi_live p hp⟩
    rintro rfl
    exact hleaf i hi_live hp
  · rw [hsame]
    exact fun i hi => h.rooted i (Finset.mem_of_mem_erase hi)
  · intro p hp i
    obtain ⟨hp_ne, hp_live⟩ := Finset.mem_erase.mp hp
    have hiff := h.region p hp_live i
    rw [hsame, hregion, region_collapse c hne, if_neg hp_ne, Finset.mem_erase]
    by_cases hpp : p = parent
    · subst hpp
      simp [hiff, and_assoc]
    rw [if_neg hpp, hiff]
    refine ⟨fun hi => ⟨⟨?_, hi.1⟩, hi.2⟩, fun hi => ⟨hi.1.2, hi.2⟩⟩
    rintro rfl
    exact hpp (Option.some.inj (hi.2.symm.trans hparent))
  · intro i hi n
    obtain ⟨hi_ne, hi_live⟩ := Finset.mem_erase.mp hi
    have hiff := h.node i hi_live n
    rw [howner, hregion, region_collapse c hne, if_neg hi_ne]
    by_cases hn : n = result
    · subst hn
      have hout : .node n ∉ (c.region i).members := fun hin =>
        hi_ne (Option.some.inj ((hiff.mp hin).symm.trans hresult))
      by_cases hip : i = parent
      · simp [hip]
      · simp [hip, hout, Ne.symm hip]
    rw [if_neg hn, ← hiff]
    by_cases hip : i = parent
    · simp [hip, hn]
    · simp [hip]
  · intro n i hn
    rw [howner] at hn
    split at hn
    · rw [← Option.some.inj hn]
      exact Finset.mem_erase.mpr ⟨hne, hparent_live⟩
    rename_i hn_ne
    refine Finset.mem_erase.mpr ⟨?_, h.owner n i hn⟩
    rintro rfl
    have := (h.node i hself n).mpr hn
    rw [hmembers, Finset.mem_singleton] at this
    exact hn_ne (Tx.node.inj this)
  · intro i hi
    obtain ⟨hi_ne, hi_live⟩ := Finset.mem_erase.mp hi
    rw [hregion, region_collapse c hne, if_neg hi_ne]
    by_cases hip : i = parent
    · rw [if_pos hip]
      dsimp only
      rw [h.children i hi_live, regionsOf_insert_node, regionsOf_erase_region, Finset.erase_val]
    · rw [if_neg hip]
      exact h.children i hi_live
  · intro i hi n
    obtain ⟨hi_ne, hi_live⟩ := Finset.mem_erase.mp hi
    have hunder : ((c.collapse self parent result).region i).under = (c.region i).under := by
      rw [region_collapse c hne, if_neg hi_ne]
      split <;> rfl
    rw [hsame, hregion, hunder, h.under i hi_live, howner]
    by_cases hn : n = result
    · subst hn
      simp only [hresult, if_true, Option.some.injEq, exists_eq_left']
      rw [above_of_some hparent]
      exact or_iff_right hi_ne
    · rw [if_neg hn]
  · intro i hi
    obtain ⟨hi_ne, hi_live⟩ := Finset.mem_erase.mp hi
    rw [hregion, region_collapse c hne, if_neg hi_ne]
    have := h.replacement i hi_live
    split <;> exact this

end collapse

section merge

variable {hidden : Pairs T}

theorem region_merge (c : Core T V) (hne : parent ≠ self) (hself : .region self ∉ ms) (hparent : .region parent ∉ ms)
    (i : Nat) : (c.merge self parent ms hidden).region i =
    if i = self then { c.region i with members := ∅, children := (c.region i).children - (regionsOf ms).val }
    else if i = parent then
      { c.region i with
        members := ((c.region i).members ∪ ms).erase (.region self)
        children := ((c.region i).children + (regionsOf ms).val).erase self
        pairs := (c.region i).pairs ∪ hidden
        head := if (c.region i).head = some (.region self) then (c.region self).head else (c.region i).head }
    else if .region i ∈ ms then { c.region i with parent := some parent }
    else c.region i := by
  unfold Core.merge Core.modify Core.reparent
  by_cases hi : i = self
  · subst hi
    simp [hne.symm, hself]
  by_cases hp : i = parent
  · subst hp
    simp [hne, hparent]
  · by_cases hms : Tx.region i ∈ ms <;> simp [hi, hp, hms]

theorem parent_merge (c : Core T V) (hne : parent ≠ self) (hself : .region self ∉ ms) (hparent : .region parent ∉ ms)
    (i : Nat) : (c.merge self parent ms hidden).parent i = if .region i ∈ ms then some parent else c.parent i := by
  unfold Core.parent
  rw [region_merge c hne hself hparent]
  by_cases hi : i = self
  · subst hi
    rw [if_pos rfl, if_neg hself]
  rw [if_neg hi]
  by_cases hp : i = parent
  · subst hp
    rw [if_pos rfl, if_neg hparent]
  · rw [if_neg hp]
    split <;> rfl

variable (h : Tree c live) (hself : self ∈ live) (hparent : c.parent self = some parent)

include h hself hparent

omit [DecidableEq T] in
theorem Tree.not_mem_own_members (hi : i = self ∨ i = parent) : .region i ∉ (c.region self).members := by
  intro hin
  obtain ⟨-, hp⟩ := (h.region self hself i).mp hin
  rcases hi with rfl | rfl
  · exact h.parent_ne hself hp rfl
  · exact (h.isRooted hself).not_above hparent (.single hp)

theorem Tree.parent_merge (i : Nat) : (c.merge self parent (c.region self).members hidden).parent i =
    if .region i ∈ (c.region self).members then some parent else c.parent i :=
  Overlay.parent_merge c (h.parent_ne hself hparent) (h.not_mem_own_members hself hparent (.inl rfl))
    (h.not_mem_own_members hself hparent (.inr rfl)) i

/-- The chains are those from before, without the region. -/
theorem Tree.above_merge (hi : i ∈ live) (ha : Above c.parent i j) :
    Above (c.merge self parent (c.region self).members hidden).parent (if i = self then parent else i)
      (if j = self then parent else j) := by
  induction ha with
  | refl => exact .refl
  | @tail k q hk hq ih =>
    have hk_live := h.mem_of_above hi hk
    by_cases hk_self : k = self
    · subst hk_self
      obtain rfl : parent = q := Option.some.inj (hparent.symm.trans hq)
      rw [if_pos rfl] at ih
      rwa [if_neg (h.parent_ne hself hparent)]
    rw [if_neg hk_self] at ih
    refine ih.tail ?_
    rw [h.parent_merge hself hparent]
    by_cases hq_self : q = self
    · rw [if_pos ((h.region self hself k).mpr ⟨hk_live, hq_self ▸ hq⟩), if_pos hq_self]
    · rw [if_neg hq_self, if_neg fun hin => hq_self ?_]
      · exact hq
      · exact Option.some.inj (hq.symm.trans ((h.region self hself k).mp hin).2)

theorem Tree.above_of_merge (ha : Above (c.merge self parent (c.region self).members hidden).parent i j) :
    Above c.parent i j := by
  induction ha with
  | refl => exact .refl
  | @tail k q _ hq ih =>
    rw [h.parent_merge hself hparent] at hq
    split at hq
    · rename_i hin
      obtain rfl := Option.some.inj hq
      exact (ih.tail ((h.region self hself k).mp hin).2).tail hparent
    · exact ih.tail hq

theorem Tree.merge : Tree ((c.giveNodes (c.region self).members parent).merge self parent (c.region self).members hidden)
    (live.erase self) := by
  have hne : parent ≠ self := h.parent_ne hself hparent
  have hparent_live : parent ∈ live := h.parent self hself parent hparent
  have hout_self := h.not_mem_own_members hself hparent (.inl rfl)
  have hout_parent := h.not_mem_own_members hself hparent (.inr rfl)
  have howner : ∀ n, ((c.giveNodes (c.region self).members parent).merge self parent (c.region self).members hidden).owner n =
      if .node n ∈ (c.region self).members then some parent else c.owner n := fun _ => rfl
  have hregion : ∀ i,
      ((c.giveNodes (c.region self).members parent).merge self parent (c.region self).members hidden).region i =
        (c.merge self parent (c.region self).members hidden).region i := fun _ => rfl
  have hsame : ((c.giveNodes (c.region self).members parent).merge self parent (c.region self).members hidden).parent =
      (c.merge self parent (c.region self).members hidden).parent := rfl
  have hregions := h.region self hself
  have hnodes := h.node self hself
  constructor
  · refine Finset.mem_erase.mpr ⟨?_, h.root⟩
    rintro rfl
    rw [h.root_parent] at hparent
    cases hparent
  · rw [hsame, h.parent_merge hself hparent, if_neg fun hin => ?_]
    · exact h.root_parent
    · have := ((hregions 0).mp hin).2
      rw [h.root_parent] at this
      cases this
  · exact fun i hi => h.lt_next i (Finset.mem_of_mem_erase hi)
  · intro i hi p hp
    obtain ⟨-, hi_live⟩ := Finset.mem_erase.mp hi
    rw [hsame, h.parent_merge hself hparent] at hp
    split at hp
    · rw [← Option.some.inj hp]
      exact Finset.mem_erase.mpr ⟨hne, hparent_live⟩
    rename_i hin
    refine Finset.mem_erase.mpr ⟨?_, h.parent i hi_live p hp⟩
    rintro rfl
    exact hin ((hregions i).mpr ⟨hi_live, hp⟩)
  · intro i hi
    obtain ⟨hi_ne, hi_live⟩ := Finset.mem_erase.mp hi
    have habove := @Tree.above_merge _ _ _ _ _ _ _ _ _ hidden h hself hparent hi_live (h.rooted i hi_live)
    have hroot : 0 ≠ self := by
      rintro rfl
      rw [h.root_parent] at hparent
      cases hparent
    rwa [if_neg hi_ne, if_neg hroot] at habove
  · intro p hp i
    obtain ⟨hp_ne, hp_live⟩ := Finset.mem_erase.mp hp
    have hiff := h.region p hp_live i
    rw [hsame, h.parent_merge hself hparent, hregion, region_merge c hne hout_self hout_parent, if_neg hp_ne,
      Finset.mem_erase]
    by_cases hpp : p = parent
    · subst hpp
      rw [if_pos rfl]
      dsimp only
      rw [Finset.mem_erase, Finset.mem_union, hiff, ne_eq, Tx.region.injEq]
      by_cases hin : .region i ∈ (c.region self).members
      · have := (hregions i).mp hin
        simp [hin, this.1]
      · rw [if_neg hin]
        tauto
    · rw [if_neg hpp]
      have hmembers : ((if .region p ∈ (c.region self).members then { c.region p with parent := some parent }
          else c.region p : Region T)).members = (c.region p).members := by split <;> rfl
      rw [hmembers, hiff]
      by_cases hin : .region i ∈ (c.region self).members
      · have := (hregions i).mp hin
        simp [hin, this.2, Ne.symm hp_ne, Ne.symm hpp]
      rw [if_neg hin]
      refine ⟨fun hi => ⟨⟨?_, hi.1⟩, hi.2⟩, fun hi => ⟨hi.1.2, hi.2⟩⟩
      rintro rfl
      exact hpp (Option.some.inj (hi.2.symm.trans hparent))
  · intro i hi n
    obtain ⟨hi_ne, hi_live⟩ := Finset.mem_erase.mp hi
    have hiff := h.node i hi_live n
    rw [howner, hregion, region_merge c hne hout_self hout_parent, if_neg hi_ne]
    by_cases hip : i = parent
    · subst hip
      rw [if_pos rfl]
      dsimp only
      rw [Finset.mem_erase, Finset.mem_union, hiff]
      by_cases hin : .node n ∈ (c.region self).members
      · simp [hin]
      · simp [hin]
    rw [if_neg hip]
    have hmembers : ((if .region i ∈ (c.region self).members then { c.region i with parent := some parent }
        else c.region i : Region T)).members = (c.region i).members := by split <;> rfl
    rw [hmembers, hiff]
    by_cases hin : .node n ∈ (c.region self).members
    · have := (hnodes n).mp hin
      simp [hin, this, Ne.symm hi_ne, Ne.symm hip]
    · rw [if_neg hin]
  · intro n i hn
    rw [howner] at hn
    split at hn
    · rw [← Option.some.inj hn]
      exact Finset.mem_erase.mpr ⟨hne, hparent_live⟩
    rename_i hin
    refine Finset.mem_erase.mpr ⟨?_, h.owner n i hn⟩
    rintro rfl
    exact hin ((hnodes n).mpr hn)
  · intro i hi
    obtain ⟨hi_ne, hi_live⟩ := Finset.mem_erase.mp hi
    rw [hregion, region_merge c hne hout_self hout_parent, if_neg hi_ne]
    by_cases hip : i = parent
    · subst hip
      have hdisjoint : Disjoint (regionsOf (c.region i).members) (regionsOf (c.region self).members) := by
        refine Finset.disjoint_left.mpr fun j hj hj' => ?_
        rw [mem_regionsOf] at hj hj'
        have := ((h.region i hi_live j).mp hj).2.symm.trans ((hregions j).mp hj').2
        exact hi_ne (Option.some.inj this)
      rw [if_pos rfl]
      dsimp only
      rw [h.children i hi_live, regionsOf_erase_region, regionsOf_union, Finset.erase_val,
        ← Finset.disjUnion_eq_union _ _ hdisjoint, Finset.disjUnion_val]
    · rw [if_neg hip]
      have := h.children i hi_live
      split <;> exact this
  · intro i hi n
    obtain ⟨hi_ne, hi_live⟩ := Finset.mem_erase.mp hi
    have hunder : ((c.merge self parent (c.region self).members hidden).region i).under = (c.region i).under := by
      rw [region_merge c hne hout_self hout_parent, if_neg hi_ne]
      split
      · rfl
      · split <;> rfl
    rw [hsame, hregion, hunder, h.under i hi_live]
    constructor
    · rintro ⟨o, ho, habove⟩
      have habove := @Tree.above_merge _ _ _ _ _ _ _ _ _ hidden h hself hparent (h.owner n o ho) habove
      rw [if_neg hi_ne] at habove
      by_cases hin : .node n ∈ (c.region self).members
      · obtain rfl := Option.some.inj (ho.symm.trans ((hnodes n).mp hin))
        rw [if_pos rfl] at habove
        exact ⟨parent, by rw [howner, if_pos hin], habove⟩
      have ho_ne : o ≠ self := by
        rintro rfl
        exact hin ((hnodes n).mpr ho)
      rw [if_neg ho_ne] at habove
      exact ⟨o, by rw [howner, if_neg hin, ho], habove⟩
    · rintro ⟨o, ho, habove⟩
      have habove := h.above_of_merge hself hparent habove
      rw [howner] at ho
      split at ho
      · rename_i hin
        obtain rfl := Option.some.inj ho
        exact ⟨self, (hnodes n).mp hin, .head hparent habove⟩
      · exact ⟨o, ho, habove⟩
  · intro i hi
    obtain ⟨hi_ne, hi_live⟩ := Finset.mem_erase.mp hi
    have := h.replacement i hi_live
    rw [hregion, region_merge c hne hout_self hout_parent, if_neg hi_ne]
    split
    · exact this
    · split <;> exact this

end merge

end Angr.Overlay
