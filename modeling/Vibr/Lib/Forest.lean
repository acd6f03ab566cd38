import Mathlib.Data.Finset.Card

/-!
# Forests

Every node has at most one parent. What is above a node is a chain, and the chain ends if it
comes to a root.
-/

namespace Forest

variable {ι : Type*}

/-- A node and those above it. -/
def up (parent : ι → Option ι) : (fuel : Nat) → ι → List ι
  | 0, _ => []
  | fuel + 1, i =>
    i :: match parent i with
      | none => []
      | some p => up parent fuel p

/-- `a` is `i`, or it is above. -/
def Above (parent : ι → Option ι) : ι → ι → Prop := Relation.ReflTransGen fun i p => parent i = some p

/-- The chain above `i` ends. -/
def Rooted (parent : ι → Option ι) (i : ι) : Prop := ∃ r, Above parent i r ∧ parent r = none

variable {parent : ι → Option ι} {i j a b p : ι}

theorem Above.single (h : parent i = some p) : Above parent i p := Relation.ReflTransGen.single h

theorem above_iff : Above parent i a ↔ a = i ∨ ∃ p, parent i = some p ∧ Above parent p a := by
  unfold Above
  rw [Relation.ReflTransGen.cases_head_iff]
  exact or_congr_left ⟨Eq.symm, Eq.symm⟩

theorem above_of_none (h : parent i = none) : Above parent i a ↔ a = i := by
  rw [above_iff]
  simp [h]

theorem above_of_some (h : parent i = some p) : Above parent i a ↔ a = i ∨ Above parent p a := by
  rw [above_iff]
  simp [h]

theorem Above.linear (ha : Above parent i a) (hb : Above parent i b) : Above parent a b ∨ Above parent b a :=
  Relation.ReflTransGen.total_of_right_unique (fun _ _ _ h h' => Option.some.inj (h.symm.trans h')) ha hb

theorem Rooted.of_above (h : Rooted parent i) (ha : Above parent i a) : Rooted parent a := by
  obtain ⟨r, hr, hnone⟩ := h
  rcases ha.linear hr with har | hra
  · exact ⟨r, har, hnone⟩
  · rw [above_of_none hnone] at hra
    exact ⟨a, .refl, hra ▸ hnone⟩

/-- There is no cycle below a root. -/
theorem Rooted.not_above (h : Rooted parent i) (hp : parent i = some p) : ¬ Above parent p i := by
  obtain ⟨r, hr, hnone⟩ := h
  -- a node on a cycle passes the cycle on to its parent
  induction hr using Relation.ReflTransGen.head_induction_on generalizing p with
  | refl => simp [hnone] at hp
  | @head i q hq _ ih =>
    intro hcycle
    obtain rfl : q = p := Option.some.inj (hq.symm.trans hp)
    rcases above_iff.mp hcycle with rfl | ⟨q', hq', habove⟩
    · exact ih hq .refl
    · exact ih hq' (habove.trans (.single hq))

theorem Rooted.antisymm (h : Rooted parent i) (hia : Above parent i a) (hai : Above parent a i) : a = i := by
  rcases above_iff.mp hia with heq | ⟨p, hp, hpa⟩
  · exact heq
  · exact absurd (hpa.trans hai) (h.not_above hp)

/-! ## Walking up -/

theorem above_of_mem_up {fuel : Nat} (h : a ∈ up parent fuel i) : Above parent i a := by
  induction fuel generalizing i with
  | zero => cases h
  | succ fuel ih =>
    rcases List.mem_cons.mp h with rfl | h
    · exact .refl
    split at h
    · cases h
    · rename_i p hp
      exact .head hp (ih h)

/-- With fuel for the nodes that there are, the walk passes all that is above. -/
theorem mem_up [DecidableEq ι] {U : Finset ι} (hU : ∀ j ∈ U, ∀ p, parent j = some p → p ∈ U) (hi : i ∈ U)
    (hroot : Rooted parent i) {fuel : Nat} (hfuel : U.card ≤ fuel) : a ∈ up parent fuel i ↔ Above parent i a := by
  refine ⟨above_of_mem_up, fun h => ?_⟩
  classical
  induction fuel generalizing U i with
  | zero => exact absurd (Finset.card_pos.mpr ⟨i, hi⟩) (by omega)
  | succ fuel ih =>
    rw [up, List.mem_cons]
    rcases above_iff.mp h with rfl | ⟨p, hp, habove⟩
    · exact .inl rfl
    refine .inr ?_
    rw [hp]
    -- the rest of the walk does not come back
    have hpU : p ∈ U.filter (Above parent p) := Finset.mem_filter.mpr ⟨hU i hi p hp, .refl⟩
    have hclosed : ∀ j ∈ U.filter (Above parent p), ∀ q, parent j = some q → q ∈ U.filter (Above parent p) := by
      intro j hj q hq
      obtain ⟨hjU, hpj⟩ := Finset.mem_filter.mp hj
      exact Finset.mem_filter.mpr ⟨hU j hjU q hq, hpj.tail hq⟩
    have hless : (U.filter (Above parent p)).card < U.card := by
      refine Finset.card_lt_card (Finset.filter_ssubset.mpr ⟨i, hi, hroot.not_above hp⟩)
    exact ih hclosed hpU (hroot.of_above (.single hp)) (by omega) habove

/-- The first node that meets a condition is not above those that do. -/
theorem find?_up_not_mem {A : ι → Prop} {test : ι → Bool} (htest : ∀ j p, ¬ test j → parent j = some p → ¬ A p)
    (hi : ¬ A i) {fuel : Nat} (h : (up parent fuel i).find? test = some a) : ¬ A a := by
  induction fuel generalizing i with
  | zero => cases h
  | succ fuel ih =>
    rw [up, List.find?_cons] at h
    split at h
    · rw [← Option.some.inj h]
      exact hi
    rename_i hfalse
    split at h
    · cases h
    · rename_i p hp
      exact ih (htest i p (by simp [hfalse]) hp) h

end Forest
