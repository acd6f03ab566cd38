import Mathlib.Data.Int.GCD
import Mathlib.Tactic.Ring

/-!
# Arcs

The integers modulo `N` as a circle of `N` points. An arc goes upwards from one point to
another one, possibly past `N`. Points on an arc are told apart by their distance from its
first point, so that arcs are compared as intervals of distances.
-/

namespace Arc

/-- The distance from `a` upwards to `x`. -/
def off (N a x : Int) : Int := (x - a) % N

/-- A point of the circle. -/
def On (N x : Int) : Prop := 0 ≤ x ∧ x < N

instance (N x : Int) : Decidable (On N x) := inferInstanceAs (Decidable (0 ≤ x ∧ x < N))

/-- The points on the arc from `lb` to `ub` that are `step` apart, from `lb` on. -/
def steps (N lb ub : Int) (step : Nat) : Set Int :=
  {x | ∃ k : Nat, (k : Int) ≤ off N lb ub / step ∧ x = (lb + k * step) % N}

variable {N a b c x y lb ub lb' ub' : Int} {step step' : Nat}

/-! ## Distances -/

theorem emod_on (hN : 0 < N) (x : Int) : On N (x % N) :=
  ⟨Int.emod_nonneg x (by omega), Int.emod_lt_of_pos x hN⟩

theorem off_on (hN : 0 < N) (a x : Int) : On N (off N a x) := emod_on hN (x - a)

theorem emod_of_on (hx : On N x) : x % N = x := Int.emod_eq_of_lt hx.1 hx.2

theorem off_cases (ha : On N a) (hx : On N x) : off N a x = if a ≤ x then x - a else x - a + N := by
  unfold off
  unfold On at ha hx
  split
  · exact Int.emod_eq_of_lt (by omega) (by omega)
  · rw [← Int.add_emod_right, Int.emod_eq_of_lt (by omega) (by omega)]

@[simp] theorem off_self : off N a a = 0 := by
  simp [off]

theorem off_eq_zero_iff (ha : On N a) (hx : On N x) : off N a x = 0 ↔ x = a := by
  rw [off_cases ha hx]
  unfold On at ha hx
  split <;> omega

theorem off_emod_left : off N (a % N) x = off N a x := Int.sub_emod_emod _ _ _

theorem off_emod_right : off N a (x % N) = off N a x := Int.emod_sub_emod _ _ _

/-- Distances add up modulo `N`. -/
theorem off_trans : off N a c = (off N a b + off N b c) % N := by
  unfold off
  rw [← Int.add_emod]
  exact congrArg (· % N) (by ring)

theorem off_trans_of_lt (hN : 0 < N) (h : off N a b + off N b c < N) : off N a c = off N a b + off N b c := by
  have hab := (off_on hN a b).1
  have hbc := (off_on hN b c).1
  rw [off_trans (b := b), Int.emod_eq_of_lt (by omega) h]

theorem add_off (hx : On N x) : (a + off N a x) % N = x := by
  unfold off
  rw [Int.add_emod_emod, show a + (x - a) = x by omega, emod_of_on hx]

theorem off_add : off N (a + b) (x + y) = (off N a x + off N b y) % N := by
  unfold off
  rw [← Int.add_emod]
  exact congrArg (· % N) (by ring)

theorem off_sub : off N (a - b) (x - y) = (off N a x + off N y b) % N := by
  unfold off
  rw [← Int.add_emod]
  exact congrArg (· % N) (by ring)

/-- From a point on an arc to its end. -/
theorem off_rest (hN : 0 < N) (h : off N a x ≤ off N a b) : off N x b = off N a b - off N a x := by
  have hx := (off_on hN a x).1
  have hb := (off_on hN a b).2
  have hsub : off N x b = (off N a b - off N a x) % N := by
    unfold off
    rw [← Int.sub_emod]
    exact congrArg (· % N) (by ring)
  rw [hsub, Int.emod_eq_of_lt (by omega) (by omega)]

/-! ## Two arcs -/

variable {d : Int}

/-- Distances between two points from those to a third one. -/
theorem off_from (hN : 0 < N) (a c d : Int) :
    off N c d = if off N a c ≤ off N a d then off N a d - off N a c else off N a d - off N a c + N := by
  have hc := off_on hN a c
  have hd := off_on hN a d
  have hsub : off N c d = off N (off N a c) (off N a d) := by
    unfold off
    rw [← Int.sub_emod]
    exact congrArg (· % N) (by ring)
  rw [hsub, off_cases hc hd]

/-- An arc with its ends on another one lies on it, unless it goes the other way round. -/
theorem arc_le (hN : 0 < N) (hstart : off N a c ≤ off N a b) (hend : off N a d ≤ off N a b)
    (hround : off N c d < off N c a ∨ off N c d < off N c b) : off N a c + off N c d ≤ off N a b := by
  have hd := (off_on hN a d).1
  rw [off_from hN a c d, off_from hN a c a, off_from hN a c b, off_self, if_pos hstart] at hround
  rw [off_from hN a c d]
  split
  · omega
  · rw [if_neg ‹_›] at hround
    split at hround <;> omega

/-- An arc that starts on another one and ends after it. -/
theorem arc_join (hN : 0 < N) (hstart : off N a c ≤ off N a b) (hend : off N a b < off N a d) :
    off N a c + off N c d = off N a d := by
  have hle : off N a c ≤ off N a d := by omega
  rw [off_rest hN hle]
  omega

/-- Two arcs of which neither starts on the other one. -/
theorem arc_gap (hN : 0 < N) (hcb : off N a b < off N a c) (had : off N c d < off N c a) :
    off N a c + off N c d = off N a d := by
  have hb := (off_on hN a b).1
  have hd := (off_on hN a d).1
  rw [off_from hN a c d, off_from hN a c a, off_self, if_neg (by omega : ¬ off N a c ≤ 0)] at had
  rw [off_from hN a c d]
  split
  · omega
  · rw [if_neg ‹_›] at had
    omega

/-! ## Points on an arc -/

/-- A point is on the arc iff it is not further than the last one, at a multiple of the step. -/
theorem mem_steps_iff (hN : 0 < N) (hstep : step = 0 → off N lb ub = 0) :
    x ∈ steps N lb ub step ↔ On N x ∧ off N lb x ≤ off N lb ub ∧ (step : Int) ∣ off N lb x := by
  have hub := off_on hN lb ub
  constructor
  · rintro ⟨k, hk, rfl⟩
    have hle : (k * step : Int) ≤ off N lb ub := by
      rcases Nat.eq_zero_or_pos step with rfl | hpos
      · simpa using hub.1
      · exact Int.mul_le_of_le_ediv (by exact_mod_cast hpos) hk
    have hoff : off N lb ((lb + k * step) % N) = k * step := by
      have hnonneg : (0 : Int) ≤ k * step := Int.mul_nonneg (Int.natCast_nonneg k) (Int.natCast_nonneg step)
      rw [off_emod_right]
      unfold off
      have hlt := hub.2
      rw [show lb + k * step - lb = (k * step : Int) by omega, Int.emod_eq_of_lt hnonneg (by omega)]
    refine ⟨emod_on hN _, ?_, ?_⟩ <;> rw [hoff]
    · exact hle
    · exact Dvd.intro_left (k : Int) rfl
  · rintro ⟨hx, hle, m, hm⟩
    have hx0 := (off_on hN lb x).1
    rcases Nat.eq_zero_or_pos step with rfl | hpos
    · refine ⟨0, by simp, ?_⟩
      rw [Int.natCast_zero, Int.zero_mul] at hm
      have := add_off (a := lb) hx
      rw [hm] at this
      simpa using this.symm
    have hpos' : (0 : Int) < step := by exact_mod_cast hpos
    have hm0 : 0 ≤ m := by
      by_contra hneg
      have : (step : Int) * m < 0 := Int.mul_neg_of_pos_of_neg hpos' (by omega)
      omega
    obtain ⟨k, rfl⟩ := Int.eq_ofNat_of_zero_le hm0
    refine ⟨k, ?_, ?_⟩
    · rw [Int.le_ediv_iff_mul_le hpos', Int.mul_comm]
      exact hm ▸ hle
    · rw [Int.mul_comm, ← hm, add_off hx]

end Arc
