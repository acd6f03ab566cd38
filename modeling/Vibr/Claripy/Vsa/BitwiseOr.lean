import Vibr.Claripy.Vsa.Pieces
import Vibr.Claripy.Vsa.WarrenMethods
import Vibr.Lib.Bits

/-!
# Bitwise disjunction

The low bits on which the strides have no influence are the same for all integers of a piece. The bounds of the other
bits are those of ranges.
-/

namespace Claripy.Vsa.StridedInterval

open Arc WarrenMethods

variable {bits : Nat} {s t u v p : StridedInterval bits} {x y : Int}

/-- The number of trailing zeros: the length of `~x & (x - 1)`. -/
def ntz (x : Nat) : Nat := if x = 0 then 0 else Nat.size (Nat.ldiff (x - 1) x)

/-- The number of low bits on which neither stride has an influence. -/
def lowZeros (u v : StridedInterval bits) : Nat :=
  if u.isInteger then ntz v.stride
  else if v.isInteger then ntz u.stride
  else min (ntz u.stride) (ntz v.stride)

/-- The disjunction of two pieces. -/
def orPiece (u v : StridedInterval bits) : StridedInterval bits :=
  let st := lowZeros u v
  let newStride :=
    if u.isInteger ∧ u.lowerBound = 0 then v.stride
    else if v.isInteger ∧ v.lowerBound = 0 then u.stride
    else 2 ^ st
  let mask := 2 ^ st - 1
  let r := (u.lowerBound.toNat &&& mask) ||| (v.lowerBound.toNat &&& mask)
  let m := 2 ^ bits - 1
  let high := Nat.ldiff m mask
  let lowBound := minOr (u.lowerBound.toNat &&& high) (u.upperBound.toNat &&& high) (v.lowerBound.toNat &&& high)
    (v.upperBound.toNat &&& high) bits
  let upperBound := maxOr (u.lowerBound.toNat &&& high) (u.upperBound.toNat &&& high) (v.lowerBound.toNat &&& high)
    (v.upperBound.toNat &&& high) bits
  let newStride := if lowBound = upperBound then 0 else newStride
  new newStride ((lowBound &&& high ||| r : Nat) : Int) ((upperBound &&& high ||| r : Nat) : Int) false

def bitwiseOr (self t : StridedInterval bits) : Option (StridedInterval bits) := do
  let us ← self.ssplit
  let vs ← t.ssplit
  let resultInterval := us.flatMap fun u => vs.map fun v => orPiece u v
  let si ← leastUpperBound resultInterval
  return normalizeTypes self t si.normalize

/-! ## Low bits -/

theorem ntz_dvd (x : Nat) : 2 ^ ntz x ∣ x := by
  unfold ntz
  split
  · next h =>
      rw [h]
      exact Nat.dvd_zero _
  next h =>
    obtain ⟨k, q, rfl⟩ := Bits.exists_lowest h
    rw [Bits.ldiff_pred_lowest, Bits.size_two_pow_sub_one]
    exact Nat.dvd_mul_right _ _

theorem and_high {k x : Nat} (hx : x < 2 ^ bits) : x &&& Nat.ldiff (2 ^ bits - 1) (2 ^ k - 1) = 2 ^ k * (x / 2 ^ k) := by
  refine Nat.eq_of_testBit_eq fun i => ?_
  rw [Nat.testBit_and, Nat.testBit_ldiff, Nat.testBit_two_pow_sub_one, Nat.testBit_two_pow_sub_one,
    Nat.testBit_two_pow_mul, Nat.testBit_div_two_pow]
  by_cases hik : k ≤ i
  · rw [Nat.sub_add_cancel hik, decide_eq_true hik, decide_eq_false (Nat.not_lt.mpr hik), Bool.not_false, Bool.and_true,
      Bool.true_and]
    by_cases hi : i < bits
    · rw [decide_eq_true hi, Bool.and_true]
    · rw [Nat.testBit_lt_two_pow (hx.trans_le (Nat.pow_le_pow_right (by decide) (Nat.not_lt.mp hi))), Bool.false_and]
  · rw [decide_eq_false hik, decide_eq_true (Nat.not_le.mp hik), Bool.not_true, Bool.and_false, Bool.and_false,
      Bool.false_and]

/-- A number that has no low bits, and one that has no others. -/
theorem high_or_low {k h r : Nat} (hr : r < 2 ^ k) : 2 ^ k * h ||| r = 2 ^ k * h + r :=
  (Nat.two_pow_add_eq_or_of_lt hr h).symm

theorem high_or_high (k x y : Nat) : 2 ^ k * (x / 2 ^ k) ||| 2 ^ k * (y / 2 ^ k) = 2 ^ k * ((x ||| y) / 2 ^ k) := by
  rw [Nat.or_div_two_pow, Nat.mul_comm, Nat.mul_comm (2 ^ k), Nat.mul_comm (2 ^ k), ← Nat.shiftLeft_eq, ← Nat.shiftLeft_eq,
    ← Nat.shiftLeft_eq, Nat.shiftLeft_or_distrib]

/-! ## Two pieces -/

/-- Two numbers of two ranges. -/
structure OrRanges (bits lu uu lv uv x y : Nat) : Prop where
  left : lu ≤ x ∧ x ≤ uu ∧ uu < 2 ^ bits
  right : lv ≤ y ∧ y ≤ uv ∧ uv < 2 ^ bits

section Bounds

variable {k lu uu lv uv x y : Nat}

/-- A number and the low bits of two others, from its high bits. -/
theorem join_low {z : Nat} (hz : z < 2 ^ bits) :
    z &&& Nat.ldiff (2 ^ bits - 1) (2 ^ k - 1) ||| (lu &&& (2 ^ k - 1) ||| lv &&& (2 ^ k - 1)) =
      2 ^ k * (z / 2 ^ k) + (lu % 2 ^ k ||| lv % 2 ^ k) := by
  have hpos := Nat.two_pow_pos k
  rw [and_high hz, Nat.and_two_pow_sub_one_eq_mod, Nat.and_two_pow_sub_one_eq_mod]
  exact high_or_low (Nat.or_lt_two_pow (Nat.mod_lt _ hpos) (Nat.mod_lt _ hpos))

theorem mul_div_le_mul_div (k : Nat) {x y : Nat} (h : x ≤ y) : 2 ^ k * (x / 2 ^ k) ≤ 2 ^ k * (y / 2 ^ k) :=
  Nat.mul_le_mul_left _ (Nat.div_le_div_right h)

theorem mul_div_lt {x : Nat} (k : Nat) (h : x < 2 ^ bits) : 2 ^ k * (x / 2 ^ k) < 2 ^ bits :=
  (Nat.mul_div_le x (2 ^ k)).trans_lt h

theorem OrRanges.lower (h : OrRanges bits lu uu lv uv x y) (k : Nat) :
    let high := Nat.ldiff (2 ^ bits - 1) (2 ^ k - 1)
    let lowBound := minOr (lu &&& high) (uu &&& high) (lv &&& high) (uv &&& high) bits
    lowBound < 2 ^ bits ∧ lowBound / 2 ^ k ≤ (x ||| y) / 2 ^ k := by
  intro high lowBound
  obtain ⟨⟨hlx, hxu, huu⟩, ⟨hly, hyu, huv⟩⟩ := h
  have hle : lowBound ≤ 2 ^ k * ((x ||| y) / 2 ^ k) := by
    show minOr _ _ _ _ _ ≤ _
    rw [and_high (by omega), and_high huu, and_high (by omega), and_high huv, ← high_or_high]
    exact minOr_le (mul_div_lt k huu) (mul_div_lt k huv) (mul_div_le_mul_div k hlx) (mul_div_le_mul_div k hxu)
      (mul_div_le_mul_div k hly) (mul_div_le_mul_div k hyu)
  refine ⟨hle.trans_lt (mul_div_lt k (Nat.or_lt_two_pow (by omega) (by omega))), ?_⟩
  have := @Nat.div_le_div_right _ _ (2 ^ k) hle
  rwa [Nat.mul_div_cancel_left _ (Nat.two_pow_pos k)] at this

theorem OrRanges.upper (h : OrRanges bits lu uu lv uv x y) (k : Nat) :
    let high := Nat.ldiff (2 ^ bits - 1) (2 ^ k - 1)
    let upperBound := maxOr (lu &&& high) (uu &&& high) (lv &&& high) (uv &&& high) bits
    upperBound < 2 ^ bits ∧ (x ||| y) / 2 ^ k ≤ upperBound / 2 ^ k := by
  intro high upperBound
  obtain ⟨⟨hlx, hxu, huu⟩, ⟨hly, hyu, huv⟩⟩ := h
  have hmax : upperBound = maxOr (2 ^ k * (lu / 2 ^ k)) (2 ^ k * (uu / 2 ^ k)) (2 ^ k * (lv / 2 ^ k))
      (2 ^ k * (uv / 2 ^ k)) bits := by
    show maxOr _ _ _ _ _ = _
    rw [and_high (by omega), and_high huu, and_high (by omega), and_high huv]
  have hle : 2 ^ k * ((x ||| y) / 2 ^ k) ≤ upperBound := by
    rw [hmax, ← high_or_high]
    exact le_maxOr (mul_div_lt k huu) (mul_div_lt k huv) (mul_div_le_mul_div k hlx) (mul_div_le_mul_div k hxu)
      (mul_div_le_mul_div k hly) (mul_div_le_mul_div k hyu)
  refine ⟨hmax ▸ maxOr_lt (mul_div_lt k huu) (mul_div_lt k huv), ?_⟩
  have := @Nat.div_le_div_right _ _ (2 ^ k) hle
  rwa [Nat.mul_div_cancel_left _ (Nat.two_pow_pos k)] at this

end Bounds

theorem maxOr_zero (c d w : Nat) : maxOr 0 0 c d w = d ∧ maxOr c d 0 0 w = d := by
  unfold maxOr
  induction w with
  | zero => exact ⟨Nat.zero_or d, Nat.or_zero d⟩
  | succ k ih =>
    rw [maxOrLoop_succ, maxOrLoop_succ, Nat.zero_testBit, Bool.false_and, Bool.and_false, if_neg Bool.false_ne_true,
      if_neg Bool.false_ne_true]
    exact ih

/-- A range of zeros has no influence on the bounds. -/
theorem bounds_of_zero {high : Nat} (hint : u.isInteger = true) (hzero : u.lowerBound = 0) :
    minOr (u.lowerBound.toNat &&& high) (u.upperBound.toNat &&& high) (v.lowerBound.toNat &&& high)
        (v.upperBound.toNat &&& high) bits = v.lowerBound.toNat &&& high ∧
      minOr (v.lowerBound.toNat &&& high) (v.upperBound.toNat &&& high) (u.lowerBound.toNat &&& high)
        (u.upperBound.toNat &&& high) bits = v.lowerBound.toNat &&& high ∧
      maxOr (u.lowerBound.toNat &&& high) (u.upperBound.toNat &&& high) (v.lowerBound.toNat &&& high)
        (v.upperBound.toNat &&& high) bits = v.upperBound.toNat &&& high ∧
      maxOr (v.lowerBound.toNat &&& high) (v.upperBound.toNat &&& high) (u.lowerBound.toNat &&& high)
        (u.upperBound.toNat &&& high) bits = v.upperBound.toNat &&& high := by
  have hcomm : ∀ c d, minOr c d 0 0 bits = c := fun c d => (minOrLoop_comm c d 0 0 bits).trans (minOr_zero c d bits)
  rw [← isInteger_iff.mp hint, hzero, Int.toNat_zero, Nat.zero_and]
  exact ⟨minOr_zero _ _ _, hcomm _ _, (maxOr_zero _ _ _).1, (maxOr_zero _ _ _).2⟩

/-- A stride of zero is only given to bounds that are the same. -/
theorem bounds_eq_of_stride (hu : u.WellFormed) (hv : v.WellFormed) {k high : Nat}
    (h : (if u.isInteger ∧ u.lowerBound = 0 then v.stride
      else if v.isInteger ∧ v.lowerBound = 0 then u.stride else 2 ^ k) = 0) :
    minOr (u.lowerBound.toNat &&& high) (u.upperBound.toNat &&& high) (v.lowerBound.toNat &&& high)
        (v.upperBound.toNat &&& high) bits =
      maxOr (u.lowerBound.toNat &&& high) (u.upperBound.toNat &&& high) (v.lowerBound.toNat &&& high)
        (v.upperBound.toNat &&& high) bits := by
  split at h
  · next hzero =>
      obtain ⟨hmin, -, hmax, -⟩ := @bounds_of_zero bits u v high hzero.1 hzero.2
      rw [hmin, hmax, hv.integer_of_stride h]
  split at h
  · next hzero =>
      obtain ⟨-, hmin, -, hmax⟩ := @bounds_of_zero bits v u high hzero.1 hzero.2
      rw [hmin, hmax, hu.integer_of_stride h]
  · exact absurd h (Nat.two_pow_pos k).ne'

theorem orPiece_wellFormed (hu : u.WellFormed) (hv : v.WellFormed) : (orPiece u v).WellFormed := by
  unfold orPiece
  refine new_wellFormed fun h => ?_
  split at h
  · next heq => rw [heq]
  · rw [bounds_eq_of_stride hu hv h]

/-- The integer zero. -/
def IsZero (p : StridedInterval bits) : Prop := p.isInteger = true ∧ p.lowerBound = 0

instance (p : StridedInterval bits) : Decidable (IsZero p) := inferInstanceAs (Decidable (_ ∧ _))

/-- The stride of a disjunction comes from the other operand, if one is zero and the other one is `p`. -/
structure OfOther (k : Nat) (p : StridedInterval bits) (stride lb ub : Nat) : Prop where
  stride_eq : stride = p.stride
  lower : lb = p.lowerBound.toNat
  upper : ub = 2 ^ k * (p.upperBound.toNat / 2 ^ k) + p.lowerBound.toNat % 2 ^ k

/-- What the disjunction of two pieces is. -/
structure OrPiece (u v : StridedInterval bits) (k stride lb ub : Nat) : Prop where
  eq : orPiece u v = new stride (lb : Int) (ub : Int) false
  le : lb ≤ ub
  lt : ub < 2 ^ bits
  zero : stride = 0 → lb = ub
  dvd : 2 ^ k ∣ stride
  lower_low : lb % 2 ^ k = u.lowerBound.toNat % 2 ^ k ||| v.lowerBound.toNat % 2 ^ k
  upper_low : ub % 2 ^ k = u.lowerBound.toNat % 2 ^ k ||| v.lowerBound.toNat % 2 ^ k
  between : ∀ x y, OrRanges bits u.lowerBound.toNat u.upperBound.toNat v.lowerBound.toNat v.upperBound.toNat x y →
    (x ||| y) % 2 ^ k = u.lowerBound.toNat % 2 ^ k ||| v.lowerBound.toNat % 2 ^ k → lb ≤ x ||| y ∧ x ||| y ≤ ub
  step : lb = ub ∨ stride = 2 ^ k ∨ IsZero u ∧ OfOther k v stride lb ub ∨ IsZero v ∧ OfOther k u stride lb ub

theorem toNat_lt (hx : On (2 ^ bits) x) : x.toNat < 2 ^ bits := by
  rw [Int.toNat_lt hx.1]
  exact_mod_cast hx.2

/-- The low bits on which the strides have no influence are zeros of the new stride. -/
theorem lowZeros_dvd (hu : u.WellFormed) :
    2 ^ lowZeros u v ∣ if u.isInteger ∧ u.lowerBound = 0 then v.stride
      else if v.isInteger ∧ v.lowerBound = 0 then u.stride else 2 ^ lowZeros u v := by
  by_cases huint : u.isInteger = true
  · rw [show lowZeros u v = ntz v.stride from if_pos huint]
    split
    · exact ntz_dvd _
    next hnot =>
      have hub : u.isBottom = false := by
        refine Bool.eq_false_iff.mpr fun hb => hnot ⟨huint, ?_⟩
        rw [hu.bottom hb]
        rfl
      split
      · rw [(hu.stride hub).mpr (isInteger_iff.mp huint)]
        exact Nat.dvd_zero _
      · exact Nat.dvd_refl _
  · rw [if_neg fun h => huint h.1]
    by_cases hvint : v.isInteger = true
    · rw [show lowZeros u v = ntz u.stride from (if_neg huint).trans (if_pos hvint)]
      split
      · exact ntz_dvd _
      · exact Nat.dvd_refl _
    · rw [if_neg fun h => hvint h.1]

/-- A piece that is zero leaves the bounds of the other one as they are. -/
theorem ofOther_of_zero {k : Nat} (hp : p.WellFormed) :
    OfOther k p p.stride
      (2 ^ k * ((p.lowerBound.toNat &&& Nat.ldiff (2 ^ bits - 1) (2 ^ k - 1)) / 2 ^ k) + p.lowerBound.toNat % 2 ^ k)
      (2 ^ k * ((p.upperBound.toNat &&& Nat.ldiff (2 ^ bits - 1) (2 ^ k - 1)) / 2 ^ k) + p.lowerBound.toNat % 2 ^ k) := by
  refine ⟨rfl, ?_, ?_⟩
  · rw [and_high (toNat_lt hp.lower), Nat.mul_div_cancel_left _ (Nat.two_pow_pos k), Nat.div_add_mod]
  · rw [and_high (toNat_lt hp.upper), Nat.mul_div_cancel_left _ (Nat.two_pow_pos k)]

theorem orPiece_spec (hu : u.WellFormed) (hv : v.WellFormed) (hule : u.lowerBound ≤ u.upperBound)
    (hvle : v.lowerBound ≤ v.upperBound) : ∃ stride lb ub, OrPiece u v (lowZeros u v) stride lb ub := by
  have hranges : OrRanges bits u.lowerBound.toNat u.upperBound.toNat v.lowerBound.toNat v.upperBound.toNat
      u.lowerBound.toNat v.lowerBound.toNat :=
    ⟨⟨Nat.le_refl _, Int.toNat_le_toNat hule, toNat_lt hu.upper⟩,
      ⟨Nat.le_refl _, Int.toNat_le_toNat hvle, toNat_lt hv.upper⟩⟩
  have hzero := @bounds_eq_of_stride bits u v hu hv (lowZeros u v)
    (Nat.ldiff (2 ^ bits - 1) (2 ^ lowZeros u v - 1))
  have hdvd := @lowZeros_dvd bits u v hu
  have hlower : ∀ x y, OrRanges bits u.lowerBound.toNat u.upperBound.toNat v.lowerBound.toNat v.upperBound.toNat x y →
      _ := fun x y h => h.lower (lowZeros u v)
  have hupper : ∀ x y, OrRanges bits u.lowerBound.toNat u.upperBound.toNat v.lowerBound.toNat v.upperBound.toNat x y →
      _ := fun x y h => h.upper (lowZeros u v)
  have hotheru := fun h : IsZero u => @bounds_of_zero bits u v (Nat.ldiff (2 ^ bits - 1) (2 ^ lowZeros u v - 1)) h.1 h.2
  have hotherv := fun h : IsZero v => @bounds_of_zero bits v u (Nat.ldiff (2 ^ bits - 1) (2 ^ lowZeros u v - 1)) h.1 h.2
  have hofu := @ofOther_of_zero bits u (lowZeros u v) hu
  have hofv := @ofOther_of_zero bits v (lowZeros u v) hv
  obtain ⟨piece, hpiece⟩ : ∃ piece, piece = orPiece u v := ⟨_, rfl⟩
  have hor := hpiece
  unfold orPiece at hor
  dsimp only at hor hlower hupper
  generalize lowZeros u v = k at hor hlower hupper hzero hdvd hotheru hotherv hofu hofv ⊢
  generalize hstride : (if u.isInteger ∧ u.lowerBound = 0 then v.stride
    else if v.isInteger ∧ v.lowerBound = 0 then u.stride else 2 ^ k) = stride at hor hzero hdvd
  generalize hmin : minOr _ _ _ _ _ = lowBound at hor hlower hzero hotheru hotherv
  generalize hmax : maxOr _ _ _ _ _ = upperBound at hor hupper hzero hotheru hotherv
  generalize hlow : u.lowerBound.toNat % 2 ^ k ||| v.lowerBound.toNat % 2 ^ k = low
  have hlowlt : low < 2 ^ k :=
    hlow ▸ Nat.or_lt_two_pow (Nat.mod_lt _ (Nat.two_pow_pos k)) (Nat.mod_lt _ (Nat.two_pow_pos k))
  have hminlt := (hlower _ _ hranges).1
  have hmaxlt := (hupper _ _ hranges).1
  have hle : lowBound / 2 ^ k ≤ upperBound / 2 ^ k := (hlower _ _ hranges).2.trans (hupper _ _ hranges).2
  rw [join_low hminlt, join_low hmaxlt, hlow] at hor
  refine ⟨if lowBound = upperBound then 0 else stride, 2 ^ k * (lowBound / 2 ^ k) + low,
    2 ^ k * (upperBound / 2 ^ k) + low, hpiece.symm.trans hor, ?_, ?_, ?_, ?_, ?_, ?_, ?_, ?_⟩
  · exact Nat.add_le_add_right (Nat.mul_le_mul_left _ hle) _
  · rw [← hlow, ← high_or_low (hlow ▸ hlowlt)]
    have hlt := fun {z} (hz : z < 2 ^ bits) => (Nat.mod_le z (2 ^ k)).trans_lt hz
    exact Nat.or_lt_two_pow (mul_div_lt k hmaxlt)
      (Nat.or_lt_two_pow (hlt (toNat_lt hu.lower)) (hlt (toNat_lt hv.lower)))
  · intro h
    split at h
    · next heq => rw [heq]
    · rw [hzero h]
  · split
    · exact Nat.dvd_zero _
    · exact hdvd
  · rw [hlow, Nat.mul_add_mod, Nat.mod_eq_of_lt hlowlt]
  · rw [hlow, Nat.mul_add_mod, Nat.mod_eq_of_lt hlowlt]
  · intro x y hxy hxylow
    have hdiv := Nat.div_add_mod (x ||| y) (2 ^ k)
    have hleft := Nat.mul_le_mul_left (2 ^ k) (hlower x y hxy).2
    have hright := Nat.mul_le_mul_left (2 ^ k) (hupper x y hxy).2
    rw [hxylow, hlow] at hdiv
    omega
  by_cases heq : lowBound = upperBound
  · exact .inl (by rw [heq])
  rw [if_neg heq]
  refine .inr ?_
  by_cases huz : IsZero u
  · obtain ⟨hmin', -, hmax', -⟩ := hotheru huz
    have hlowv : low = v.lowerBound.toNat % 2 ^ k := by
      rw [← hlow, huz.2, Int.toNat_zero, Nat.zero_mod, Nat.zero_or]
    refine .inr (.inl ⟨huz, ?_⟩)
    have hstride' := (if_pos huz).symm.trans hstride
    rw [← hstride', hmin', hmax', hlowv]
    exact hofv
  by_cases hvz : IsZero v
  · obtain ⟨-, hmin', -, hmax'⟩ := hotherv hvz
    have hlowu : low = u.lowerBound.toNat % 2 ^ k := by
      rw [← hlow, hvz.2, Int.toNat_zero, Nat.zero_mod, Nat.or_zero]
    refine .inr (.inr ⟨hvz, ?_⟩)
    have hstride' := (if_pos hvz).symm.trans ((if_neg huz).symm.trans hstride)
    rw [← hstride', hmin', hmax', hlowu]
    exact hofu
  · exact .inl (hstride.symm.trans ((if_neg huz).trans (if_neg hvz)))

/-- The low bits of all integers of a piece are those of its lower bound. -/
theorem low_of_dvd {n : Nat} (hp : p.WellFormed) (hx : Plain p x) (h : p.isInteger = true ∨ n ∣ p.stride) :
    x.toNat % n = p.lowerBound.toNat % n := by
  rcases h with hint | hdvd
  · have := isInteger_iff.mp hint
    rw [show x = p.lowerBound by have := hx.1; have := hx.2.1; omega]
  have hxdvd : (n : Int) ∣ x - p.lowerBound := (Int.natCast_dvd_natCast.mpr hdvd).trans hx.2.2
  have hlb := hp.lower.1
  refine (Nat.modEq_iff_dvd.mpr ?_).symm
  rwa [Int.toNat_of_nonneg hlb, Int.toNat_of_nonneg (hlb.trans hx.1)]

theorem low_left : u.isInteger = true ∨ 2 ^ lowZeros u v ∣ u.stride := by
  by_cases huint : u.isInteger = true
  · exact .inl huint
  refine .inr ((Nat.pow_dvd_pow 2 ?_).trans (ntz_dvd _))
  unfold lowZeros
  rw [if_neg huint]
  split
  · exact Nat.le_refl _
  · exact Nat.min_le_left _ _

theorem low_right : v.isInteger = true ∨ 2 ^ lowZeros u v ∣ v.stride := by
  by_cases hvint : v.isInteger = true
  · exact .inl hvint
  refine .inr ((Nat.pow_dvd_pow 2 ?_).trans (ntz_dvd _))
  unfold lowZeros
  rw [if_neg hvint]
  split
  · exact Nat.le_refl _
  · exact Nat.min_le_right _ _

theorem plain_range (hp : p.WellFormed) (hx : Plain p x) :
    p.lowerBound.toNat ≤ x.toNat ∧ x.toNat ≤ p.upperBound.toNat ∧ p.upperBound.toNat < 2 ^ bits :=
  ⟨Int.toNat_le_toNat hx.1, Int.toNat_le_toNat hx.2.1, toNat_lt hp.upper⟩

theorem plain_le (hx : Plain p x) : p.lowerBound ≤ p.upperBound := hx.1.trans hx.2.1

/-- The disjunction of two pieces contains the disjunctions of their integers. -/
theorem mem_orPiece (hu : u.WellFormed) (hv : v.WellFormed) (hx : Plain u x) (hy : Plain v y) :
    ((x.toNat ||| y.toNat : Nat) : Int) ∈ (orPiece u v).gamma := by
  obtain ⟨stride, lb, ub, h⟩ := orPiece_spec hu hv (plain_le hx) (plain_le hy)
  have hlow : (x.toNat ||| y.toNat) % 2 ^ lowZeros u v =
      u.lowerBound.toNat % 2 ^ lowZeros u v ||| v.lowerBound.toNat % 2 ^ lowZeros u v := by
    rw [Nat.or_mod_two_pow, low_of_dvd hu hx low_left, low_of_dvd hv hy low_right]
  obtain ⟨hlb, hub⟩ := h.between _ _ ⟨plain_range hu hx, plain_range hv hy⟩ hlow
  have hlt := h.lt
  have hle := h.le
  have hsize : ((2 ^ bits : Nat) : Int) = 2 ^ bits := by push_cast; rfl
  rw [h.eq, mem_new_plain ⟨by omega, by omega⟩ ⟨by omega, by omega⟩ (by omega) fun hzero => by rw [h.zero hzero]]
  refine ⟨by omega, by omega, ?_⟩
  obtain heq | hstride | ⟨huz, hother⟩ | ⟨hvz, hother⟩ := h.step
  · rw [show ((x.toNat ||| y.toNat : Nat) : Int) - lb = 0 by omega]
    exact Int.dvd_zero _
  · rw [hstride]
    exact Nat.modEq_iff_dvd.mp (h.lower_low.trans hlow.symm)
  · -- the left integer is zero
    have hx0 : x.toNat = 0 := by
      have := isInteger_iff.mp huz.1
      have := huz.2
      have := hx.2.1
      omega
    rw [hx0, Nat.zero_or, hother.stride_eq, hother.lower, Int.toNat_of_nonneg hv.lower.1,
      Int.toNat_of_nonneg (hv.lower.1.trans hy.1)]
    exact hy.2.2
  · have hy0 : y.toNat = 0 := by
      have := isInteger_iff.mp hvz.1
      have := hvz.2
      have := hy.2.1
      omega
    rw [hy0, Nat.or_zero, hother.stride_eq, hother.lower, Int.toNat_of_nonneg hu.lower.1,
      Int.toNat_of_nonneg (hu.lower.1.trans hx.1)]
    exact hx.2.2

/-- The disjunction of two pieces that end with integers of theirs ends with an integer of its own. -/
theorem orPiece_aligned (hu : u.WellFormed) (hv : v.WellFormed) (huub : Plain u u.upperBound)
    (hvub : Plain v v.upperBound) : Aligned (orPiece u v) := by
  obtain ⟨stride, lb, ub, h⟩ := orPiece_spec hu hv (plain_le huub) (plain_le hvub)
  have hlt := h.lt
  have hle := h.le
  have hsize : ((2 ^ bits : Nat) : Int) = 2 ^ bits := by push_cast; rfl
  have hzero : stride = 0 → (lb : Int) = ub := fun hzero => by rw [h.zero hzero]
  have hon : On (2 ^ bits) (ub : Int) := ⟨by omega, by omega⟩
  rw [h.eq]
  refine aligned_new hon (new_wellFormed_plain hzero) ?_
  rw [mem_new_plain ⟨by omega, by omega⟩ hon (by omega) hzero]
  refine ⟨by omega, Int.le_refl _, ?_⟩
  obtain heq | hstride | ⟨-, hother⟩ | ⟨-, hother⟩ := h.step
  · rw [heq, Int.sub_self]
    exact Int.dvd_zero _
  · rw [hstride]
    exact Nat.modEq_iff_dvd.mp (h.lower_low.trans h.upper_low.symm)
  · have hend : ub = v.upperBound.toNat := by
      rw [hother.upper, ← low_of_dvd hv hvub low_right, Nat.div_add_mod]
    rw [hother.stride_eq, hother.lower, hend, Int.toNat_of_nonneg hv.lower.1, Int.toNat_of_nonneg hv.upper.1]
    exact hvub.2.2
  have hend : ub = u.upperBound.toNat := by
    rw [hother.upper, ← low_of_dvd hu huub low_left, Nat.div_add_mod]
  rw [hother.stride_eq, hother.lower, hend, Int.toNat_of_nonneg hu.lower.1, Int.toNat_of_nonneg hu.upper.1]
  exact huub.2.2

/-! ## All pieces -/

/-- The disjunctions of the pieces of two intervals. -/
def orPieces (us vs : List (StridedInterval bits)) : List (StridedInterval bits) :=
  us.flatMap fun u => vs.map fun v => orPiece u v

variable {us vs : List (StridedInterval bits)}

theorem mem_orPieces {m : StridedInterval bits} : m ∈ orPieces us vs ↔ ∃ u ∈ us, ∃ v ∈ vs, orPiece u v = m := by
  unfold orPieces
  simp only [List.mem_flatMap, List.mem_map]

theorem orPieces_length (us vs : List (StridedInterval bits)) : (orPieces us vs).length = us.length * vs.length := by
  unfold orPieces
  simp

theorem orPieces_ne_nil (hus : us ≠ []) (hvs : vs ≠ []) : orPieces us vs ≠ [] := by
  obtain ⟨u, hu⟩ := List.exists_mem_of_ne_nil _ hus
  obtain ⟨v, hv⟩ := List.exists_mem_of_ne_nil _ hvs
  exact List.ne_nil_of_mem (mem_orPieces.mpr ⟨u, hu, v, hv, rfl⟩)

theorem orPieces_wellFormed {m : StridedInterval bits} (hus : Pieces s us) (hvs : Pieces t vs)
    (hm : m ∈ orPieces us vs) : m.WellFormed := by
  obtain ⟨u, hu, v, hv, rfl⟩ := mem_orPieces.mp hm
  exact orPiece_wellFormed (hus.wellFormed u hu) (hvs.wellFormed v hv)

/-- Every disjunction of integers is one of integers of two pieces. -/
theorem orPieces_cover (hus : Pieces s us) (hvs : Pieces t vs) (hx : x ∈ s.gamma) (hy : y ∈ t.gamma) :
    ∃ m ∈ orPieces us vs, ((x.toNat ||| y.toNat : Nat) : Int) ∈ m.gamma := by
  obtain ⟨u, hu, hxu⟩ := hus.covers x hx
  obtain ⟨v, hv, hyv⟩ := hvs.covers y hy
  exact ⟨_, mem_orPieces.mpr ⟨u, hu, v, hv, rfl⟩, mem_orPiece (hus.wellFormed u hu) (hvs.wellFormed v hv) hxu hyv⟩

theorem bitwiseOr_eq {r : StridedInterval bits} (hs : s.ssplit = some us) (ht : t.ssplit = some vs)
    (hr : leastUpperBound (orPieces us vs) = some r) (hrwf : r.WellFormed) :
    s.bitwiseOr t = some (normalizeTypes s t r) := by
  unfold bitwiseOr
  rw [hs, ht]
  show (leastUpperBound (orPieces us vs) >>= fun si => some (normalizeTypes s t si.normalize)) = _
  rw [hr, Option.bind_eq_bind, Option.bind_some, normalize_eq hrwf]

/-- The disjunction of two intervals that do not wrap contains all disjunctions of their integers. -/
theorem bitwiseOr_sound (hs : s.WellFormed) (ht : t.WellFormed) (hsw : s.lowerBound ≤ s.upperBound)
    (htw : t.lowerBound ≤ t.upperBound) : ∃ r, s.bitwiseOr t = some r ∧
      ∀ x ∈ s.gamma, ∀ y ∈ t.gamma, ((x.toNat ||| y.toNat : Nat) : Int) ∈ r.gamma := by
  have hus := Pieces.single hs (Int.not_lt.mpr hsw)
  have hvs := Pieces.single ht (Int.not_lt.mpr htw)
  obtain ⟨r, hr, hrwf, hsub⟩ := leastUpperBound_spec (orPieces_ne_nil hus.nonempty hvs.nonempty)
    (fun _ hm => orPieces_wellFormed hus hvs hm) (.inl (Nat.le_succ 1))
  refine ⟨_, bitwiseOr_eq (ssplit_of_not_wraps (Int.not_lt.mpr hsw)) (ssplit_of_not_wraps (Int.not_lt.mpr htw)) hr hrwf,
    fun x hx y hy => ?_⟩
  obtain ⟨m, hm, hxy⟩ := orPieces_cover hus hvs hx hy
  rw [gamma_normalizeTypes]
  exact hsub m hm hxy

/-- Three integers four apart, and two of two low bits. -/
theorem bitwiseOr_sound_of_steps : ∃ r, (new 4 1 9 false : StridedInterval 4).bitwiseOr (new 2 4 6 false) = some r ∧
    ∀ x ∈ (new 4 1 9 false : StridedInterval 4).gamma, ∀ y ∈ (new 2 4 6 false : StridedInterval 4).gamma,
      ((x.toNat ||| y.toNat : Nat) : Int) ∈ r.gamma :=
  bitwiseOr_sound (new_wellFormed nofun) (new_wellFormed nofun) (by decide) (by decide)

end Claripy.Vsa.StridedInterval
