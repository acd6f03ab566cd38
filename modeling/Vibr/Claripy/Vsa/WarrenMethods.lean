import Mathlib.Data.Nat.Bitwise
import Mathlib.Tactic.Ring

/-!
# Bounds of bitwise disjunctions

`claripy/backends/backend_vsa/warren_methods.py`. A bound of one range is changed at the highest bit at which that
changes the disjunction of the bounds for the better, if the changed bound is still in its range.
-/

namespace Claripy.Vsa.WarrenMethods

/-- The loop of `min_or` from the mask `2 ^ (k - 1)` on. `x / m * m` is `x & -m`. -/
def minOrLoop (a b c d : Nat) : Nat → Nat
  | 0 => a ||| c
  | k + 1 =>
    let m := 2 ^ k
    if !a.testBit k && c.testBit k then
      let temp := (a ||| m) / m * m
      if temp ≤ b then temp ||| c else minOrLoop a b c d k
    else if a.testBit k && !c.testBit k then
      let temp := (c ||| m) / m * m
      if temp ≤ d then a ||| temp else minOrLoop a b c d k
    else minOrLoop a b c d k

/-- The least disjunction of an integer from `a` to `b` and one from `c` to `d`. -/
def minOr (a b c d w : Nat) : Nat := minOrLoop a b c d w

/-- The loop of `max_or` from the mask `2 ^ (k - 1)` on. -/
def maxOrLoop (a b c d : Nat) : Nat → Nat
  | 0 => b ||| d
  | k + 1 =>
    let m := 2 ^ k
    if b.testBit k && d.testBit k then
      let temp := (b - m) ||| (m - 1)
      if temp ≥ a then temp ||| d
      else
        let temp := (d - m) ||| (m - 1)
        if temp ≥ c then b ||| temp else maxOrLoop a b c d k
    else maxOrLoop a b c d k

/-- The greatest disjunction of an integer from `a` to `b` and one from `c` to `d`. -/
def maxOr (a b c d w : Nat) : Nat := maxOrLoop a b c d w

/-! ## Numbers by their high bits -/

variable {a b c d k w x y : Nat}

/-- The bits from `k` on, one bit and those above it. -/
theorem shiftRight_eq (x k : Nat) : x >>> k = 2 * (x >>> (k + 1)) + (x.testBit k).toNat := by
  rw [Nat.shiftRight_succ, Nat.testBit_eq_decide_div_mod_eq, Nat.shiftRight_eq_div_pow]
  rcases Nat.mod_two_eq_zero_or_one (x / 2 ^ k) with h | h <;> simp [h] <;> omega

theorem lt_of_shiftRight_lt (h : x >>> k < y >>> k) : x < y := by
  rw [Nat.shiftRight_eq_div_pow, Nat.shiftRight_eq_div_pow] at h
  exact Nat.lt_of_div_lt_div h

theorem shiftRight_le (h : x ≤ y) : x >>> k ≤ y >>> k := by
  rw [Nat.shiftRight_eq_div_pow, Nat.shiftRight_eq_div_pow]
  exact Nat.div_le_div_right h

/-- Numbers with the same high bits are compared by the low ones. -/
theorem le_iff_of_shiftRight_eq (h : x >>> k = y >>> k) : x ≤ y ↔ x % 2 ^ k ≤ y % 2 ^ k := by
  rw [Nat.shiftRight_eq_div_pow, Nat.shiftRight_eq_div_pow] at h
  have hx := Nat.div_add_mod x (2 ^ k)
  have hy := Nat.div_add_mod y (2 ^ k)
  rw [h] at hx
  omega

theorem le_of_shiftRight_le (h : x >>> k ≤ y >>> k) (hlow : y % 2 ^ k = 2 ^ k - 1) : x ≤ y := by
  rcases Nat.lt_or_eq_of_le h with hlt | heq
  · exact (lt_of_shiftRight_lt hlt).le
  · rw [le_iff_of_shiftRight_eq heq, hlow]
    have := Nat.mod_lt x (Nat.two_pow_pos k)
    omega

theorem shiftRight_eq_of_testBit (hhigh : x >>> (k + 1) = a >>> (k + 1)) (hbit : x.testBit k = a.testBit k) :
    x >>> k = a >>> k := by
  rw [shiftRight_eq x, shiftRight_eq a, hhigh, hbit]

/-- The greater number of two with the same high bits has the next bit if the other one has it. -/
theorem testBit_of_le (hhigh : x >>> (k + 1) = a >>> (k + 1)) (hle : a ≤ x) (hbit : a.testBit k = true) :
    x.testBit k = true := by
  have hshift := shiftRight_le (k := k) hle
  rw [shiftRight_eq x, shiftRight_eq a, hhigh, hbit] at hshift
  cases hx : x.testBit k with
  | true => rfl
  | false =>
    rw [hx, Bool.toNat_true, Bool.toNat_false] at hshift
    omega

theorem or_shiftRight_succ (hx : x >>> (k + 1) = a >>> (k + 1)) (hy : y >>> (k + 1) = c >>> (k + 1)) :
    (x ||| y) >>> (k + 1) = (a ||| c) >>> (k + 1) := by
  rw [Nat.shiftRight_or_distrib, hx, hy, ← Nat.shiftRight_or_distrib]

theorem one_or_shiftRight (hbit : c.testBit k = true) : 1 ||| c >>> k = c >>> k := by
  refine Nat.eq_of_testBit_eq fun i => ?_
  rw [Nat.testBit_or, Nat.testBit_shiftRight]
  cases i with
  | zero => rw [Nat.add_zero, hbit, Bool.or_true]
  | succ i =>
    have hone : Nat.testBit 1 (i + 1) = false := (Nat.testBit_succ 1 i).trans (Nat.zero_testBit i)
    rw [hone, Bool.false_or]

/-- The bit is set and the bits below it are cleared. -/
def raised (a k : Nat) : Nat := (a ||| 2 ^ k) / 2 ^ k * 2 ^ k

theorem raised_shiftRight (a k : Nat) : raised a k >>> k = a >>> k ||| 1 := by
  unfold raised
  rw [Nat.shiftRight_eq_div_pow, Nat.mul_div_cancel _ (Nat.two_pow_pos k), ← Nat.shiftRight_eq_div_pow,
    Nat.shiftRight_or_distrib, Nat.shiftRight_eq_div_pow (2 ^ k), Nat.div_self (Nat.two_pow_pos k)]

theorem raised_mod (a k : Nat) : raised a k % 2 ^ k = 0 := Nat.mul_mod_left _ _

theorem raised_or_shiftRight (hbit : c.testBit k = true) : (raised a k ||| c) >>> k = (a ||| c) >>> k := by
  rw [Nat.shiftRight_or_distrib, raised_shiftRight, Nat.or_assoc, one_or_shiftRight hbit, ← Nat.shiftRight_or_distrib]

/-- The bit is cleared and the bits below it are set. -/
def lowered (b k : Nat) : Nat := (b - 2 ^ k) ||| (2 ^ k - 1)

theorem lowered_shiftRight (b k : Nat) : lowered b k >>> k = b >>> k - 1 := by
  have hpos := Nat.two_pow_pos k
  have hdiv := Nat.sub_mul_div b (2 ^ k) 1
  rw [Nat.mul_one] at hdiv
  unfold lowered
  rw [Nat.shiftRight_or_distrib, Nat.shiftRight_eq_div_pow (2 ^ k - 1), Nat.div_eq_of_lt (by omega), Nat.or_zero,
    Nat.shiftRight_eq_div_pow, Nat.shiftRight_eq_div_pow, hdiv]

theorem lowered_mod (b k : Nat) : lowered b k % 2 ^ k = 2 ^ k - 1 := by
  have hpos := Nat.two_pow_pos k
  unfold lowered
  rw [Nat.or_mod_two_pow, Nat.mod_eq_of_lt (show 2 ^ k - 1 < 2 ^ k by omega)]
  have hlt := Nat.or_lt_two_pow (Nat.mod_lt (b - 2 ^ k) hpos) (show 2 ^ k - 1 < 2 ^ k by omega)
  have hle : 2 ^ k - 1 ≤ (b - 2 ^ k) % 2 ^ k ||| (2 ^ k - 1) := Nat.right_le_or
  omega

theorem lowered_or_shiftRight (hb : b.testBit k = true) (hd : d.testBit k = true) :
    (lowered b k ||| d) >>> k = (b ||| d) >>> k := by
  refine Nat.eq_of_testBit_eq fun i => ?_
  rw [Nat.shiftRight_or_distrib, Nat.shiftRight_or_distrib, lowered_shiftRight, Nat.testBit_or, Nat.testBit_or]
  have hodd := shiftRight_eq b k
  rw [hb, Bool.toNat_true] at hodd
  rw [hodd, Nat.add_sub_cancel]
  cases i with
  | zero =>
    have hlow : (d >>> k).testBit 0 = true := (Nat.testBit_shiftRight d).trans hd
    rw [hlow, Bool.or_true, Bool.or_true]
  | succ i =>
    simp only [Nat.testBit_succ]
    rw [Nat.mul_div_cancel_left _ (by omega), show (2 * b >>> (k + 1) + 1) / 2 = b >>> (k + 1) by omega]

/-! ## The least disjunction -/

/-- The loop from one bit downwards, with its four cases. -/
theorem minOrLoop_succ (a b c d k : Nat) : minOrLoop a b c d (k + 1) =
    if !a.testBit k && c.testBit k then if raised a k ≤ b then raised a k ||| c else minOrLoop a b c d k
    else if a.testBit k && !c.testBit k then if raised c k ≤ d then a ||| raised c k else minOrLoop a b c d k
    else minOrLoop a b c d k := rfl

theorem minOrLoop_comm (a b c d k : Nat) : minOrLoop a b c d k = minOrLoop c d a b k := by
  induction k with
  | zero => exact Nat.or_comm a c
  | succ k ih =>
    rw [minOrLoop_succ, minOrLoop_succ, ih, Nat.or_comm a, Nat.or_comm c]
    cases a.testBit k <;> cases c.testBit k <;> rfl

/-- The loop changes no bit above the mask. -/
theorem minOrLoop_shiftRight (a b c d k : Nat) : minOrLoop a b c d k >>> k = (a ||| c) >>> k := by
  induction k with
  | zero => rfl
  | succ k ih =>
    rw [minOrLoop_succ, Nat.shiftRight_succ, Nat.shiftRight_succ]
    refine congrArg (· / 2) ?_
    split
    · next h =>
        rw [Bool.and_eq_true] at h
        split
        · exact raised_or_shiftRight h.2
        · exact ih
    split
    · next h =>
        rw [Bool.and_eq_true] at h
        split
        · rw [Nat.or_comm, raised_or_shiftRight h.1, Nat.or_comm]
        · exact ih
    · exact ih

/-- A changed bound is not above a disjunction with the same high bits. -/
theorem raised_or_le (hc : c ≤ y) (hy : y >>> k = c >>> k) (hbit : c.testBit k = true)
    (hhigh : (x ||| y) >>> k = (a ||| c) >>> k) : raised a k ||| c ≤ x ||| y := by
  rw [le_iff_of_shiftRight_eq ((raised_or_shiftRight hbit).trans hhigh.symm), Nat.or_mod_two_pow, Nat.or_mod_two_pow,
    raised_mod, Nat.zero_or]
  exact ((le_iff_of_shiftRight_eq hy.symm).mp hc).trans Nat.right_le_or

/-- The step at a bit that only the second bound has. -/
theorem minOr_step (hxb : x ≤ b) (hcy : c ≤ y) (hx : x >>> (k + 1) = a >>> (k + 1))
    (hy : y >>> (k + 1) = c >>> (k + 1)) (ha : a.testBit k = false) (hc : c.testBit k = true) :
    raised a k ≤ b ∧ raised a k ||| c ≤ x ||| y ∨ ¬ raised a k ≤ b ∧ x >>> k = a >>> k ∧ y >>> k = c >>> k := by
  have hyk := testBit_of_le hy hcy hc
  have hyc := shiftRight_eq_of_testBit hy (hyk.trans hc.symm)
  by_cases htemp : raised a k ≤ b
  · refine .inl ⟨htemp, raised_or_le hcy hyc hc ?_⟩
    refine shiftRight_eq_of_testBit (or_shiftRight_succ hx hy) ?_
    rw [Nat.testBit_or, Nat.testBit_or, hyk, hc, Bool.or_true, Bool.or_true]
  refine .inr ⟨htemp, shiftRight_eq_of_testBit hx ?_, hyc⟩
  rw [ha, Bool.eq_false_iff]
  intro hxk
  -- with the bit, `x` would be at least the changed bound
  refine htemp (le_trans ?_ hxb)
  have hshift : raised a k >>> k = x >>> k := by
    rw [raised_shiftRight, shiftRight_eq x, shiftRight_eq a, hx, ha, hxk]
    exact (@Nat.two_pow_add_eq_or_of_lt 1 1 Nat.one_lt_two (a >>> (k + 1))).symm
  rw [le_iff_of_shiftRight_eq hshift, raised_mod]
  exact Nat.zero_le _

theorem minOrLoop_le (hax : a ≤ x) (hxb : x ≤ b) (hcy : c ≤ y) (hyd : y ≤ d) (hx : x >>> k = a >>> k)
    (hy : y >>> k = c >>> k) : minOrLoop a b c d k ≤ x ||| y := by
  induction k with
  | zero =>
    obtain rfl : x = a := hx
    obtain rfl : y = c := hy
    exact le_rfl
  | succ k ih =>
    rw [minOrLoop_succ]
    cases ha : a.testBit k with
    | false =>
      cases hc : c.testBit k with
      | true =>
        obtain ⟨htemp, hle⟩ | ⟨htemp, hxk, hyk⟩ := minOr_step hxb hcy hx hy ha hc
        · exact (if_pos htemp).trans_le hle
        · exact (if_neg htemp).trans_le (ih hxk hyk)
      | false =>
        show minOrLoop a b c d k ≤ x ||| y
        cases hxy : (x ||| y).testBit k with
        | true =>
          refine (lt_of_shiftRight_lt (k := k) ?_).le
          rw [minOrLoop_shiftRight, shiftRight_eq, shiftRight_eq (x ||| y), or_shiftRight_succ hx hy, hxy,
            Nat.testBit_or, ha, hc]
          exact Nat.lt_succ_self _
        | false =>
          rw [Nat.testBit_or, Bool.or_eq_false_iff] at hxy
          exact ih (shiftRight_eq_of_testBit hx (hxy.1.trans ha.symm))
            (shiftRight_eq_of_testBit hy (hxy.2.trans hc.symm))
    | true =>
      have hxk := testBit_of_le hx hax ha
      cases hc : c.testBit k with
      | true =>
        exact ih (shiftRight_eq_of_testBit hx (hxk.trans ha.symm))
          (shiftRight_eq_of_testBit hy ((testBit_of_le hy hcy hc).trans hc.symm))
      | false =>
        obtain ⟨htemp, hle⟩ | ⟨htemp, hyk, hxk⟩ := minOr_step hyd hax hy hx hc ha
        · rw [Nat.or_comm, Nat.or_comm y] at hle
          exact (if_pos htemp).trans_le hle
        · exact (if_neg htemp).trans_le (ih hxk hyk)

theorem shiftRight_of_lt (hx : x < 2 ^ w) : x >>> w = 0 := by
  rw [Nat.shiftRight_eq_div_pow, Nat.div_eq_of_lt hx]

theorem minOr_le (hb : b < 2 ^ w) (hd : d < 2 ^ w) (hax : a ≤ x) (hxb : x ≤ b) (hcy : c ≤ y) (hyd : y ≤ d) :
    minOr a b c d w ≤ x ||| y :=
  minOrLoop_le hax hxb hcy hyd
    ((shiftRight_of_lt (hxb.trans_lt hb)).trans (shiftRight_of_lt (hax.trans_lt (hxb.trans_lt hb))).symm)
    ((shiftRight_of_lt (hyd.trans_lt hd)).trans (shiftRight_of_lt (hcy.trans_lt (hyd.trans_lt hd))).symm)

/-- The first range is zero. -/
theorem minOr_zero (c d w : Nat) : minOr 0 0 c d w = c := by
  unfold minOr
  induction w with
  | zero => exact Nat.zero_or c
  | succ k ih =>
    have hnot : ¬ raised 0 k ≤ 0 := by
      unfold raised
      rw [Nat.zero_or, Nat.div_self (Nat.two_pow_pos k), Nat.one_mul]
      exact Nat.not_le.mpr (Nat.two_pow_pos k)
    rw [minOrLoop_succ, if_neg hnot, Nat.zero_testBit, Bool.false_and, if_neg Bool.false_ne_true, ih, ite_self]

/-! ## The greatest disjunction -/

theorem maxOrLoop_succ (a b c d k : Nat) : maxOrLoop a b c d (k + 1) =
    if b.testBit k && d.testBit k then
      if lowered b k ≥ a then lowered b k ||| d
      else if lowered d k ≥ c then b ||| lowered d k else maxOrLoop a b c d k
    else maxOrLoop a b c d k := rfl

/-- The loop changes no bit above the mask. -/
theorem maxOrLoop_shiftRight (a b c d k : Nat) : maxOrLoop a b c d k >>> k = (b ||| d) >>> k := by
  induction k with
  | zero => rfl
  | succ k ih =>
    rw [maxOrLoop_succ, Nat.shiftRight_succ, Nat.shiftRight_succ]
    refine congrArg (· / 2) ?_
    split
    · next h =>
        rw [Bool.and_eq_true] at h
        split
        · exact lowered_or_shiftRight h.1 h.2
        · split
          · rw [Nat.or_comm, lowered_or_shiftRight h.2 h.1, Nat.or_comm]
          · exact ih
    · exact ih

/-- A changed bound is not below a disjunction with the same high bits. -/
theorem le_lowered_or (hb : b.testBit k = true) (hd : d.testBit k = true)
    (hhigh : (x ||| y) >>> k ≤ (b ||| d) >>> k) : x ||| y ≤ lowered b k ||| d := by
  refine le_of_shiftRight_le (hhigh.trans_eq (lowered_or_shiftRight hb hd).symm) ?_
  have hlt := Nat.mod_lt (lowered b k ||| d) (Nat.two_pow_pos k)
  rw [Nat.or_mod_two_pow, lowered_mod] at hlt ⊢
  have hle : 2 ^ k - 1 ≤ (2 ^ k - 1) ||| d % 2 ^ k := Nat.left_le_or
  omega

/-- A number below the changed bound has the bit. -/
theorem testBit_of_lowered_lt (hax : a ≤ x) (hx : x >>> (k + 1) = b >>> (k + 1)) (hb : b.testBit k = true)
    (htemp : ¬ lowered b k ≥ a) : x.testBit k = true := by
  by_contra hxk
  refine htemp (hax.trans (le_of_shiftRight_le ?_ (lowered_mod b k)))
  rw [lowered_shiftRight, shiftRight_eq x, shiftRight_eq b, hx, hb, Bool.eq_false_iff.mpr hxk]
  exact le_rfl

theorem le_maxOrLoop (hax : a ≤ x) (hxb : x ≤ b) (hcy : c ≤ y) (hyd : y ≤ d) (hx : x >>> k = b >>> k)
    (hy : y >>> k = d >>> k) : x ||| y ≤ maxOrLoop a b c d k := by
  induction k with
  | zero =>
    obtain rfl : x = b := hx
    obtain rfl : y = d := hy
    exact le_rfl
  | succ k ih =>
    have hhigh := or_shiftRight_succ hx hy
    rw [maxOrLoop_succ]
    by_cases hboth : b.testBit k = true ∧ d.testBit k = true
    · obtain ⟨hb, hd⟩ := hboth
      have hle : (x ||| y) >>> k ≤ (b ||| d) >>> k := by
        rw [shiftRight_eq, shiftRight_eq (b ||| d), hhigh, Nat.testBit_or b, hb, Bool.true_or]
        have := Bool.toNat_le ((x ||| y).testBit k)
        rw [Bool.toNat_true]
        omega
      rw [if_pos (by rw [hb, hd]; rfl)]
      split
      · exact le_lowered_or hb hd hle
      next htemp =>
        split
        · rw [Nat.or_comm x, Nat.or_comm b] at hle ⊢
          exact le_lowered_or hd hb hle
        · next htemp' =>
            exact ih (shiftRight_eq_of_testBit hx ((testBit_of_lowered_lt hax hx hb htemp).trans hb.symm))
              (shiftRight_eq_of_testBit hy ((testBit_of_lowered_lt hcy hy hd htemp').trans hd.symm))
    · rw [if_neg (by rwa [Bool.and_eq_true])]
      have hxk : x.testBit k = true → b.testBit k = true := testBit_of_le hx.symm hxb
      have hyk : y.testBit k = true → d.testBit k = true := testBit_of_le hy.symm hyd
      by_cases hsame : x.testBit k = b.testBit k ∧ y.testBit k = d.testBit k
      · exact ih (shiftRight_eq_of_testBit hx hsame.1) (shiftRight_eq_of_testBit hy hsame.2)
      -- a bit of the bounds is not there
      refine (lt_of_shiftRight_lt (k := k) ?_).le
      rw [maxOrLoop_shiftRight, shiftRight_eq, shiftRight_eq (b ||| d), hhigh, Nat.testBit_or, Nat.testBit_or]
      revert hboth hxk hyk hsame
      cases x.testBit k <;> cases y.testBit k <;> cases b.testBit k <;> cases d.testBit k <;> simp

theorem le_maxOr (hb : b < 2 ^ w) (hd : d < 2 ^ w) (hax : a ≤ x) (hxb : x ≤ b) (hcy : c ≤ y) (hyd : y ≤ d) :
    x ||| y ≤ maxOr a b c d w :=
  le_maxOrLoop hax hxb hcy hyd ((shiftRight_of_lt (hxb.trans_lt hb)).trans (shiftRight_of_lt hb).symm)
    ((shiftRight_of_lt (hyd.trans_lt hd)).trans (shiftRight_of_lt hd).symm)

theorem maxOr_lt (hb : b < 2 ^ w) (hd : d < 2 ^ w) : maxOr a b c d w < 2 ^ w := by
  have hshift := maxOrLoop_shiftRight a b c d w
  rw [shiftRight_of_lt (Nat.or_lt_two_pow hb hd), Nat.shiftRight_eq_div_pow, Nat.div_eq_zero_iff] at hshift
  have := Nat.two_pow_pos w
  unfold maxOr
  omega

end Claripy.Vsa.WarrenMethods
