import Mathlib.Order.Bounds.Basic
import Vibr.Claripy.Vsa.WarrenMethods

/-!
# Exact bounds

The bounds of a disjunction are attained: a loop ends with bounds of the ranges, or with one that it has changed and that is
still in its range. Conjunctions are disjunctions of the complements, and the loops for them do the same on the complements
of the bounds. The first mask is that of the highest bit, so that a width has one at least.
-/

namespace Claripy.Vsa.WarrenMethods

/-- The loop of `min_and` from the mask `2 ^ (k - 1)` on. -/
def minAndLoop (a b c d : Nat) : Nat → Nat
  | 0 => a &&& c
  | k + 1 =>
    let m := 2 ^ k
    if !a.testBit k && !c.testBit k then
      let temp := (a ||| m) / m * m
      if temp ≤ b then temp &&& c
      else
        let temp := (c ||| m) / m * m
        if temp ≤ d then a &&& temp else minAndLoop a b c d k
    else minAndLoop a b c d k

/-- The least conjunction of an integer from `a` to `b` and one from `c` to `d`. -/
def minAnd (a b c d w : Nat) : Nat := minAndLoop a b c d w

/-- The loop of `max_and` from the mask `2 ^ (k - 1)` on. `Nat.ldiff x m` is `x & ~m`. -/
def maxAndLoop (a b c d : Nat) : Nat → Nat
  | 0 => b &&& d
  | k + 1 =>
    let m := 2 ^ k
    if !d.testBit k && b.testBit k then
      let temp := Nat.ldiff b m ||| (m - 1)
      if temp ≥ a then temp &&& d else maxAndLoop a b c d k
    else if d.testBit k && !b.testBit k then
      let temp := Nat.ldiff d m ||| (m - 1)
      if temp ≥ c then b &&& temp else maxAndLoop a b c d k
    else maxAndLoop a b c d k

/-- The greatest conjunction of an integer from `a` to `b` and one from `c` to `d`. -/
def maxAnd (a b c d w : Nat) : Nat := maxAndLoop a b c d w

variable {a b c d k w x y : Nat}

/-! ## Bounds of disjunctions are attained -/

/-- What an operation makes of an integer from `a` to `b` and one from `c` to `d`. -/
def results (f : Nat → Nat → Nat) (a b c d : Nat) : Set Nat := Set.image2 f (Set.Icc a b) (Set.Icc c d)

theorem mem_results {f : Nat → Nat → Nat} (hax : a ≤ x) (hxb : x ≤ b) (hcy : c ≤ y) (hyd : y ≤ d) :
    f x y ∈ results f a b c d := Set.mem_image2_of_mem ⟨hax, hxb⟩ ⟨hcy, hyd⟩

theorem le_raised (ha : a.testBit k = false) : a ≤ raised a k := by
  refine (lt_of_shiftRight_lt (k := k) ?_).le
  rw [raised_shiftRight, shiftRight_eq a, ha]
  have hor := @Nat.two_pow_add_eq_or_of_lt 1 1 Nat.one_lt_two (a >>> (k + 1))
  rw [Bool.toNat_false, Nat.add_zero, ← hor]
  exact Nat.lt_succ_self _

theorem lowered_le (hb : b.testBit k = true) : lowered b k ≤ b := by
  refine (lt_of_shiftRight_lt (k := k) ?_).le
  rw [lowered_shiftRight, shiftRight_eq b, hb, Bool.toNat_true]
  exact Nat.lt_succ_self _

theorem minOrLoop_mem (hab : a ≤ b) (hcd : c ≤ d) : minOrLoop a b c d k ∈ results (· ||| ·) a b c d := by
  induction k with
  | zero => exact mem_results le_rfl hab le_rfl hcd
  | succ k ih =>
    rw [minOrLoop_succ]
    split
    · next hbits =>
        rw [Bool.and_eq_true, Bool.not_eq_true'] at hbits
        split
        · next htemp => exact mem_results (le_raised hbits.1) htemp le_rfl hcd
        · exact ih
    split
    · next hbits =>
        rw [Bool.and_eq_true, Bool.not_eq_true'] at hbits
        split
        · next htemp => exact mem_results le_rfl hab (le_raised hbits.2) htemp
        · exact ih
    · exact ih

theorem maxOrLoop_mem (hab : a ≤ b) (hcd : c ≤ d) : maxOrLoop a b c d k ∈ results (· ||| ·) a b c d := by
  induction k with
  | zero => exact mem_results hab le_rfl hcd le_rfl
  | succ k ih =>
    rw [maxOrLoop_succ]
    split
    · next hbits =>
        rw [Bool.and_eq_true] at hbits
        split
        · next htemp => exact mem_results htemp (lowered_le hbits.1) hcd le_rfl
        · split
          · next htemp => exact mem_results hab le_rfl htemp (lowered_le hbits.2)
          · exact ih
    · exact ih

theorem minOr_isLeast (hab : a ≤ b) (hcd : c ≤ d) (hb : b < 2 ^ w) (hd : d < 2 ^ w) :
    IsLeast (results (· ||| ·) a b c d) (minOr a b c d w) := by
  refine ⟨minOrLoop_mem hab hcd, ?_⟩
  rintro _ ⟨x, ⟨hax, hxb⟩, y, ⟨hcy, hyd⟩, rfl⟩
  exact minOr_le hb hd hax hxb hcy hyd

theorem maxOr_isGreatest (hab : a ≤ b) (hcd : c ≤ d) (hb : b < 2 ^ w) (hd : d < 2 ^ w) :
    IsGreatest (results (· ||| ·) a b c d) (maxOr a b c d w) := by
  refine ⟨maxOrLoop_mem hab hcd, ?_⟩
  rintro _ ⟨x, ⟨hax, hxb⟩, y, ⟨hcy, hyd⟩, rfl⟩
  exact le_maxOr hb hd hax hxb hcy hyd

/-! ## Complements -/

/-- All bits below the width are changed. -/
def complement (w x : Nat) : Nat := 2 ^ w - (x + 1)

theorem complement_lt (w x : Nat) : complement w x < 2 ^ w := by
  have := Nat.two_pow_pos w
  unfold complement
  omega

@[simp] theorem complement_complement (hx : x < 2 ^ w) : complement w (complement w x) = x := by
  unfold complement
  omega

theorem complement_le_iff (hx : x < 2 ^ w) (hy : y < 2 ^ w) : complement w x ≤ complement w y ↔ y ≤ x := by
  unfold complement
  omega

theorem testBit_complement (hx : x < 2 ^ w) (i : Nat) :
    (complement w x).testBit i = (decide (i < w) && !x.testBit i) := Nat.testBit_two_pow_sub_succ hx i

theorem complement_and (hx : x < 2 ^ w) (hy : y < 2 ^ w) :
    complement w (x &&& y) = complement w x ||| complement w y := by
  refine Nat.eq_of_testBit_eq fun i => ?_
  rw [testBit_complement (Nat.and_lt_two_pow x hy), Nat.testBit_or, testBit_complement hx, testBit_complement hy,
    Nat.testBit_and, Bool.not_and, Bool.and_or_distrib_left]

theorem testBit_raised (a k i : Nat) : (raised a k).testBit i = (decide (k ≤ i) && (a.testBit i || decide (k = i))) := by
  unfold raised
  rw [Nat.testBit_mul_two_pow, Nat.testBit_div_two_pow, Nat.testBit_or, Nat.testBit_two_pow]
  by_cases hik : k ≤ i
  · rw [Nat.sub_add_cancel hik]
  · rw [decide_eq_false hik, Bool.false_and, Bool.false_and]

theorem testBit_lowered (hb : b.testBit k = true) (i : Nat) :
    (lowered b k).testBit i = (decide (i < k) || (b.testBit i && !decide (k = i))) := by
  rcases Nat.lt_or_ge i k with hlt | hge
  · have hmod := Nat.testBit_mod_two_pow (lowered b k) k i
    rw [lowered_mod, Nat.testBit_two_pow_sub_one, decide_eq_true hlt, Bool.true_and] at hmod
    rw [← hmod, decide_eq_true hlt, Bool.true_or]
  have hshift := Nat.testBit_shiftRight (i := k) (j := i - k) (lowered b k)
  rw [Nat.add_sub_cancel' hge, lowered_shiftRight, shiftRight_eq b, hb, Bool.toNat_true, Nat.add_sub_cancel] at hshift
  rw [← hshift, decide_eq_false (Nat.not_lt.mpr hge), Bool.false_or]
  rcases hge.eq_or_lt with rfl | hlt
  · rw [Nat.sub_self, Nat.testBit_zero, Nat.mul_mod_right, decide_eq_true rfl, Bool.not_true, Bool.and_false]
    rfl
  · obtain ⟨j, rfl⟩ : ∃ j, i = k + 1 + j := ⟨i - (k + 1), by omega⟩
    rw [show k + 1 + j - k = j + 1 by omega, Nat.testBit_succ, Nat.mul_div_cancel_left _ (by decide),
      Nat.testBit_shiftRight, decide_eq_false (by omega), Bool.not_false, Bool.and_true]

/-- A bit that is set is cleared by subtraction. -/
theorem ldiff_or_eq (hb : b.testBit k = true) : Nat.ldiff b (2 ^ k) ||| (2 ^ k - 1) = lowered b k := by
  refine Nat.eq_of_testBit_eq fun i => ?_
  rw [testBit_lowered hb, Nat.testBit_or, Nat.testBit_ldiff, Nat.testBit_two_pow, Nat.testBit_two_pow_sub_one,
    Bool.or_comm]

theorem raised_lt (ha : a < 2 ^ w) (hk : k < w) : raised a k < 2 ^ w :=
  (Nat.div_mul_le_self _ _).trans_lt (Nat.or_lt_two_pow ha (Nat.pow_lt_pow_right Nat.one_lt_two hk))

/-- To set a bit and clear those below is, for the complement, to clear the bit and set those below. -/
theorem complement_raised (ha : a < 2 ^ w) (hk : k < w) (hbit : a.testBit k = false) :
    complement w (raised a k) = lowered (complement w a) k := by
  have hcompl : (complement w a).testBit k = true := by
    rw [testBit_complement ha, hbit, decide_eq_true hk]
    rfl
  refine Nat.eq_of_testBit_eq fun i => ?_
  rw [testBit_complement (raised_lt ha hk), testBit_raised, testBit_lowered hcompl, testBit_complement ha]
  rcases Nat.lt_trichotomy i k with hlt | rfl | hgt
  · rw [decide_eq_true hlt, decide_eq_true (hlt.trans hk), decide_eq_false (Nat.not_le.mpr hlt)]
    rfl
  · rw [hbit, decide_eq_true hk]
    simp
  · rw [decide_eq_false (Nat.not_lt.mpr hgt.le), decide_eq_true hgt.le, decide_eq_false hgt.ne]
    simp

theorem raised_complement (hb : b < 2 ^ w) (hk : k < w) (hbit : b.testBit k = true) :
    raised (complement w b) k = complement w (lowered b k) := by
  have hcompl : (complement w b).testBit k = false := by
    rw [testBit_complement hb, hbit, Bool.not_true, Bool.and_false]
  have h := complement_raised (complement_lt w b) hk hcompl
  rw [complement_complement hb] at h
  rw [← h, complement_complement (raised_lt (complement_lt w b) hk)]

/-! ## Conjunctions -/

theorem minAndLoop_succ (a b c d k : Nat) : minAndLoop a b c d (k + 1) =
    if !a.testBit k && !c.testBit k then
      if raised a k ≤ b then raised a k &&& c else if raised c k ≤ d then a &&& raised c k else minAndLoop a b c d k
    else minAndLoop a b c d k := rfl

/-- A bit that only one bound has is cleared there. -/
theorem maxAndLoop_succ (a b c d k : Nat) : maxAndLoop a b c d (k + 1) =
    if !d.testBit k && b.testBit k then if lowered b k ≥ a then lowered b k &&& d else maxAndLoop a b c d k
    else if d.testBit k && !b.testBit k then if lowered d k ≥ c then b &&& lowered d k else maxAndLoop a b c d k
    else maxAndLoop a b c d k := by
  show (if !d.testBit k && b.testBit k then
      if Nat.ldiff b (2 ^ k) ||| (2 ^ k - 1) ≥ a then (Nat.ldiff b (2 ^ k) ||| (2 ^ k - 1)) &&& d
      else maxAndLoop a b c d k
    else if d.testBit k && !b.testBit k then
      if Nat.ldiff d (2 ^ k) ||| (2 ^ k - 1) ≥ c then b &&& (Nat.ldiff d (2 ^ k) ||| (2 ^ k - 1))
      else maxAndLoop a b c d k
    else maxAndLoop a b c d k) = _
  split
  · next hbits =>
      rw [Bool.and_eq_true] at hbits
      rw [ldiff_or_eq hbits.2]
  split
  · next hbits =>
      rw [Bool.and_eq_true] at hbits
      rw [ldiff_or_eq hbits.1]
  · rfl

theorem minAndLoop_mem (hab : a ≤ b) (hcd : c ≤ d) : minAndLoop a b c d k ∈ results (· &&& ·) a b c d := by
  induction k with
  | zero => exact mem_results le_rfl hab le_rfl hcd
  | succ k ih =>
    rw [minAndLoop_succ]
    split
    · next hbits =>
        rw [Bool.and_eq_true, Bool.not_eq_true', Bool.not_eq_true'] at hbits
        split
        · next htemp => exact mem_results (le_raised hbits.1) htemp le_rfl hcd
        · split
          · next htemp => exact mem_results le_rfl hab (le_raised hbits.2) htemp
          · exact ih
    · exact ih

theorem maxAndLoop_mem (hab : a ≤ b) (hcd : c ≤ d) : maxAndLoop a b c d k ∈ results (· &&& ·) a b c d := by
  induction k with
  | zero => exact mem_results hab le_rfl hcd le_rfl
  | succ k ih =>
    rw [maxAndLoop_succ]
    split
    · next hbits =>
        rw [Bool.and_eq_true] at hbits
        split
        · next htemp => exact mem_results htemp (lowered_le hbits.2) hcd le_rfl
        · exact ih
    split
    · next hbits =>
        rw [Bool.and_eq_true] at hbits
        split
        · next htemp => exact mem_results hab le_rfl htemp (lowered_le hbits.1)
        · exact ih
    · exact ih

/-- The loop of `min_and` is that of `max_or` on the complements. -/
theorem complement_minAndLoop (ha : a < 2 ^ w) (hb : b < 2 ^ w) (hc : c < 2 ^ w) (hd : d < 2 ^ w) (hk : k ≤ w) :
    complement w (minAndLoop a b c d k) =
      maxOrLoop (complement w b) (complement w a) (complement w d) (complement w c) k := by
  induction k with
  | zero => exact complement_and ha hc
  | succ k ih =>
    have hkw : k < w := hk
    have ih := ih hkw.le
    rw [minAndLoop_succ, maxOrLoop_succ, testBit_complement ha, testBit_complement hc, decide_eq_true hkw,
      Bool.true_and, Bool.true_and]
    split
    · next hbits =>
        rw [Bool.and_eq_true, Bool.not_eq_true', Bool.not_eq_true'] at hbits
        have hraised := raised_lt ha hkw
        have hraised' := raised_lt hc hkw
        rw [← complement_raised ha hkw hbits.1, ← complement_raised hc hkw hbits.2, apply_ite (complement w),
          apply_ite (complement w)]
        exact if_congr (complement_le_iff hb hraised).symm (complement_and hraised hc)
          (if_congr (complement_le_iff hd hraised').symm (complement_and ha hraised') ih)
    · exact ih

/-- The loop of `max_and` is that of `min_or` on the complements. -/
theorem complement_maxAndLoop (ha : a < 2 ^ w) (hb : b < 2 ^ w) (hc : c < 2 ^ w) (hd : d < 2 ^ w) (hk : k ≤ w) :
    complement w (maxAndLoop a b c d k) =
      minOrLoop (complement w b) (complement w a) (complement w d) (complement w c) k := by
  induction k with
  | zero => exact complement_and hb hd
  | succ k ih =>
    have hkw : k < w := hk
    have ih := ih hkw.le
    have hlowered : ∀ {x : Nat}, x < 2 ^ w → x.testBit k = true → lowered x k < 2 ^ w :=
      fun hx hbit => (lowered_le hbit).trans_lt hx
    rw [maxAndLoop_succ, minOrLoop_succ, testBit_complement hb, testBit_complement hd, decide_eq_true hkw,
      Bool.true_and, Bool.true_and, Bool.not_not, Bool.not_not, Bool.and_comm (b.testBit k),
      Bool.and_comm (!b.testBit k)]
    split
    · next hbits =>
        rw [Bool.and_eq_true] at hbits
        rw [raised_complement hb hkw hbits.2, apply_ite (complement w)]
        exact if_congr (complement_le_iff (hlowered hb hbits.2) ha).symm (complement_and (hlowered hb hbits.2) hd) ih
    split
    · next hbits =>
        rw [Bool.and_eq_true] at hbits
        rw [raised_complement hd hkw hbits.1, apply_ite (complement w)]
        exact if_congr (complement_le_iff (hlowered hd hbits.1) hc).symm (complement_and hb (hlowered hd hbits.1)) ih
    · exact ih

theorem complement_mem_Icc (hb : b < 2 ^ w) (hx : x ∈ Set.Icc a b) :
    complement w x ∈ Set.Icc (complement w b) (complement w a) := by
  obtain ⟨hax, hxb⟩ := hx
  constructor <;> unfold complement <;> omega

/-- Conjunctions are complements of disjunctions of complements. -/
theorem complement_mem_results (hb : b < 2 ^ w) (hd : d < 2 ^ w) (hy : y ∈ results (· &&& ·) a b c d) :
    complement w y ∈ results (· ||| ·) (complement w b) (complement w a) (complement w d) (complement w c) := by
  obtain ⟨u, hu, v, hv, rfl⟩ := hy
  refine ⟨_, complement_mem_Icc hb hu, _, complement_mem_Icc hd hv, ?_⟩
  exact (complement_and (hu.2.trans_lt hb) (hv.2.trans_lt hd)).symm

theorem results_and_lt (hd : d < 2 ^ w) (hx : x ∈ results (· &&& ·) a b c d) : x < 2 ^ w := by
  obtain ⟨u, -, v, hv, rfl⟩ := hx
  exact Nat.and_lt_two_pow u (hv.2.trans_lt hd)

theorem minAnd_isLeast (hab : a ≤ b) (hcd : c ≤ d) (hb : b < 2 ^ w) (hd : d < 2 ^ w) :
    IsLeast (results (· &&& ·) a b c d) (minAnd a b c d w) := by
  have hmem : minAndLoop a b c d w ∈ results (· &&& ·) a b c d := minAndLoop_mem hab hcd
  refine ⟨hmem, fun z hz => ?_⟩
  have ha := hab.trans_lt hb
  have hc := hcd.trans_lt hd
  have hgreatest := maxOr_isGreatest (w := w) ((complement_le_iff hb ha).mpr hab) ((complement_le_iff hd hc).mpr hcd)
    (complement_lt w a) (complement_lt w c)
  have hle := hgreatest.2 (complement_mem_results hb hd hz)
  unfold maxOr at hle
  rw [← complement_minAndLoop ha hb hc hd le_rfl, complement_le_iff (results_and_lt hd hz) (results_and_lt hd hmem)] at hle
  exact hle

theorem maxAnd_isGreatest (hab : a ≤ b) (hcd : c ≤ d) (hb : b < 2 ^ w) (hd : d < 2 ^ w) :
    IsGreatest (results (· &&& ·) a b c d) (maxAnd a b c d w) := by
  have hmem : maxAndLoop a b c d w ∈ results (· &&& ·) a b c d := maxAndLoop_mem hab hcd
  refine ⟨hmem, fun z hz => ?_⟩
  have ha := hab.trans_lt hb
  have hc := hcd.trans_lt hd
  have hleast := minOr_isLeast (w := w) ((complement_le_iff hb ha).mpr hab) ((complement_le_iff hd hc).mpr hcd)
    (complement_lt w a) (complement_lt w c)
  have hle := hleast.2 (complement_mem_results hb hd hz)
  unfold minOr at hle
  rw [← complement_maxAndLoop ha hb hc hd le_rfl, complement_le_iff (results_and_lt hd hmem) (results_and_lt hd hz)] at hle
  exact hle

/-- All four bounds are attained, and no result is beyond them. -/
theorem warren_bounds_exact (hab : a ≤ b) (hcd : c ≤ d) (hb : b < 2 ^ w) (hd : d < 2 ^ w) :
    IsLeast (results (· ||| ·) a b c d) (minOr a b c d w) ∧ IsGreatest (results (· ||| ·) a b c d) (maxOr a b c d w) ∧
      IsLeast (results (· &&& ·) a b c d) (minAnd a b c d w) ∧
      IsGreatest (results (· &&& ·) a b c d) (maxAnd a b c d w) :=
  ⟨minOr_isLeast hab hcd hb hd, maxOr_isGreatest hab hcd hb hd, minAnd_isLeast hab hcd hb hd,
    maxAnd_isGreatest hab hcd hb hd⟩

theorem warren_bounds_of_bytes : 3 ≤ 12 ∧ 5 ≤ 9 ∧ 12 < 2 ^ 8 ∧ 9 < 2 ^ 8 ∧
    IsLeast (results (· ||| ·) 3 12 5 9) (minOr 3 12 5 9 8) ∧ IsGreatest (results (· ||| ·) 3 12 5 9) (maxOr 3 12 5 9 8) ∧
      IsLeast (results (· &&& ·) 3 12 5 9) (minAnd 3 12 5 9 8) ∧
      IsGreatest (results (· &&& ·) 3 12 5 9) (maxAnd 3 12 5 9 8) :=
  ⟨by decide, by decide, by decide, by decide, warren_bounds_exact (by decide) (by decide) (by decide) (by decide)⟩

end Claripy.Vsa.WarrenMethods
