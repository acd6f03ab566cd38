import Mathlib.Data.Nat.Bitwise
import Mathlib.Tactic.Positivity
import Mathlib.Tactic.Ring

/-!
# Rotations

A number of `w` bits is rotated by moving its upper part below the rest. Rotations by
amounts that are equal up to multiples of `w` are the same.
-/

namespace Rotate

/-- `x` of `w` bits, rotated to the left. -/
def rotl (w x k : Nat) : Nat := (x * 2 ^ (k % w) + x / 2 ^ (w - k % w)) % 2 ^ w

/-- `x` of `w` bits, rotated to the right. -/
def rotr (w x k : Nat) : Nat := (x / 2 ^ (k % w) + x * 2 ^ (w - k % w)) % 2 ^ w

variable {w x k : Nat}

/-- The upper part of a number. -/
theorem div_lt_two_pow {a b : Nat} (hx : x < 2 ^ w) (hab : a + b = w) : x / 2 ^ b < 2 ^ a := by
  rw [Nat.div_lt_iff_lt_mul (by positivity), ← pow_add, hab]
  exact hx

/-- What is left of a number that is moved to the left. -/
theorem mul_two_pow_mod {a b : Nat} (hab : a + b = w) : x * 2 ^ a % 2 ^ w = x % 2 ^ b * 2 ^ a := by
  rw [← hab, Nat.add_comm a b, pow_add, Nat.mul_mod_mul_right]

/-- Two parts that do not overlap. -/
theorem or_eq_add {a lo hi : Nat} (hlo : lo < 2 ^ a) : hi * 2 ^ a ||| lo = hi * 2 ^ a + lo := by
  rw [Nat.mul_comm, Nat.two_pow_add_eq_or_of_lt hlo]

theorem parts_inj {a lo hi lo' hi' : Nat} (hlo : lo < 2 ^ a) (hlo' : lo' < 2 ^ a) :
    hi * 2 ^ a + lo = hi' * 2 ^ a + lo' ↔ hi = hi' ∧ lo = lo' := by
  constructor
  · intro h
    have hdiv := congrArg (· / 2 ^ a) h
    have hmod := congrArg (· % 2 ^ a) h
    simp only [Nat.mul_add_mod_self_right, Nat.mod_eq_of_lt hlo, Nat.mod_eq_of_lt hlo'] at hmod
    simp only [Nat.add_comm (_ * _), Nat.add_mul_div_right _ _ (Nat.two_pow_pos a), Nat.div_eq_of_lt hlo,
      Nat.div_eq_of_lt hlo', Nat.zero_add] at hdiv
    exact ⟨hdiv, hmod⟩
  · rintro ⟨rfl, rfl⟩
    rfl

/-- A rotation by at most the width. -/
theorem rotl_eq_parts {a b : Nat} (hx : x < 2 ^ w) (hab : a + b = w) :
    rotl w x a = x % 2 ^ b * 2 ^ a + x / 2 ^ b := by
  by_cases hb : b = 0
  · subst hb
    obtain rfl : a = w := hab
    rw [rotl, Nat.mod_self, Nat.sub_zero, Nat.div_eq_of_lt hx, pow_zero, Nat.mul_one, Nat.add_zero,
      Nat.mod_eq_of_lt hx, Nat.mod_one, Nat.zero_mul, Nat.zero_add, Nat.div_one]
  have hlt : a < w := by omega
  have hwb : w - a = b := by omega
  rw [rotl, Nat.mod_eq_of_lt hlt, hwb]
  have hhi := div_lt_two_pow hx hab
  have hsum : x % 2 ^ b * 2 ^ a + x / 2 ^ b < 2 ^ w := by
    have hlo : x % 2 ^ b < 2 ^ b := Nat.mod_lt _ (Nat.two_pow_pos b)
    calc x % 2 ^ b * 2 ^ a + x / 2 ^ b < x % 2 ^ b * 2 ^ a + 2 ^ a := Nat.add_lt_add_left hhi _
      _ = (x % 2 ^ b + 1) * 2 ^ a := by ring
      _ ≤ 2 ^ b * 2 ^ a := Nat.mul_le_mul_right _ hlo
      _ = 2 ^ w := by rw [← pow_add, Nat.add_comm b a, hab]
  rw [Nat.add_mod, mul_two_pow_mod hab, Nat.mod_eq_of_lt (Nat.lt_of_le_of_lt (Nat.div_le_self x _) hx),
    Nat.mod_eq_of_lt hsum]

theorem rotl_mod : rotl w x (k % w) = rotl w x k := by
  rw [rotl, rotl, Nat.mod_mod]

theorem rotr_eq_rotl (hx : x < 2 ^ w) : rotr w x k = rotl w x (w - k % w) := by
  have hself : rotl w x w = x := by
    rw [rotl_eq_parts hx (Nat.add_zero w), pow_zero, Nat.mod_one, Nat.zero_mul, Nat.zero_add, Nat.div_one]
  rw [rotr]
  generalize hr : k % w = r
  cases r with
  | zero =>
    rw [Nat.sub_zero, pow_zero, Nat.div_one, Nat.add_mul_mod_self_right, hself, Nat.mod_eq_of_lt hx]
  | succ r =>
    by_cases hw : w = 0
    · subst hw
      rw [rotl, pow_zero, Nat.mod_one, Nat.mod_one]
    · have hlt : k % w < w := Nat.mod_lt k (Nat.pos_of_ne_zero hw)
      rw [rotl, Nat.mod_eq_of_lt (show w - (r + 1) < w by omega), show w - (w - (r + 1)) = r + 1 by omega,
        Nat.add_comm]

/-- The bits of a number that is rotated to the left. -/
theorem testBit_rotl (hx : x < 2 ^ w) {i : Nat} (hi : i < w) :
    (rotl w x k).testBit i = x.testBit ((i + (w - k % w)) % w) := by
  have hlt : k % w < w := Nat.mod_lt k (by omega)
  rw [← rotl_mod]
  generalize k % w = r at *
  have hsum : r + (w - r) = w := by omega
  rw [rotl_eq_parts hx hsum, Nat.mul_comm, Nat.testBit_two_pow_mul_add _ (div_lt_two_pow hx hsum)]
  by_cases hir : i < r
  · rw [if_pos hir, Nat.testBit_div_two_pow, Nat.mod_eq_of_lt (by omega)]
  · rw [if_neg hir, Nat.testBit_mod_two_pow, decide_eq_true (show i - r < w - r by omega), Bool.true_and,
      show i + (w - r) = i - r + w by omega, Nat.add_mod_right, Nat.mod_eq_of_lt (by omega)]

theorem rotl_lt : rotl w x k < 2 ^ w := Nat.mod_lt _ (Nat.two_pow_pos w)

theorem rotr_lt : rotr w x k < 2 ^ w := Nat.mod_lt _ (Nat.two_pow_pos w)

theorem testBit_rotr (hx : x < 2 ^ w) {i : Nat} (hi : i < w) :
    (rotr w x k).testBit i = x.testBit ((i + k % w) % w) := by
  have hlt : k % w < w := Nat.mod_lt k (by omega)
  rw [rotr_eq_rotl hx, testBit_rotl hx hi]
  generalize k % w = r at *
  by_cases hr : r = 0
  · rw [hr, Nat.sub_zero, Nat.mod_self, Nat.sub_zero, Nat.add_mod_right, Nat.add_zero]
  · rw [Nat.mod_eq_of_lt (show w - r < w by omega), show w - (w - r) = r by omega]

/-- A rotation in two steps. -/
theorem rotl_rotr (hx : x < 2 ^ w) (m s : Nat) : rotl w (rotr w x s) (m + s) = rotl w x m := by
  refine Nat.eq_of_testBit_eq fun i => ?_
  by_cases hi : i < w
  · have hw : 0 < w := by omega
    rw [testBit_rotl rotr_lt hi, testBit_rotr hx (Nat.mod_lt _ hw), testBit_rotl hx hi, Nat.mod_add_mod, Nat.add_mod m s]
    have hm := Nat.mod_lt m hw
    have hs := Nat.mod_lt s hw
    generalize m % w = m at *
    generalize s % w = s at *
    by_cases hlt : m + s < w
    · rw [Nat.mod_eq_of_lt hlt, show i + (w - (m + s)) + s = i + (w - m) by omega]
    · rw [show m + s = m + s - w + w by omega, Nat.add_mod_right, Nat.mod_eq_of_lt (by omega : m + s - w < w),
        show i + (w - (m + s - w)) + s = i + (w - m) + w by omega, Nat.add_mod_right]
  · rw [Nat.testBit_lt_two_pow (rotl_lt.trans_le (Nat.pow_le_pow_right Nat.two_pos (Nat.le_of_not_lt hi))),
      Nat.testBit_lt_two_pow (rotl_lt.trans_le (Nat.pow_le_pow_right Nat.two_pos (Nat.le_of_not_lt hi)))]

/-- A rotation has no bits if and only if the number has none. -/
theorem rotl_eq_zero (hx : x < 2 ^ w) : rotl w x k = 0 ↔ x = 0 := by
  have hback : rotl w (rotr w x 0) k = rotl w x k := rotl_rotr hx k 0
  constructor
  · intro h
    by_cases hw : w = 0
    · subst hw
      simpa using hx
    have hlt : k % w < w := Nat.mod_lt k (Nat.pos_of_ne_zero hw)
    have hsum : k % w + (w - k % w) = w := by omega
    rw [← rotl_mod, rotl_eq_parts hx hsum, Nat.add_eq_zero_iff, Nat.mul_eq_zero] at h
    have hpow := Nat.two_pow_pos (k % w)
    have hmod : x % 2 ^ (w - k % w) = 0 := by omega
    rw [← Nat.mod_add_div x (2 ^ (w - k % w)), hmod, h.2, Nat.mul_zero]
  · rintro rfl
    rw [rotl, Nat.zero_mul, Nat.zero_div, Nat.zero_mod]

/-- The amounts of the two directions add up to the width. -/
theorem rotr_eq_rotl_of_add (hx : x < 2 ^ w) {a b : Nat} (hab : a + b = w) : rotr w x b = rotl w x a := by
  rw [rotr_eq_rotl hx]
  by_cases ha : a = 0
  · obtain rfl : b = w := by omega
    rw [Nat.mod_self, Nat.sub_zero, ha, ← rotl_mod, Nat.mod_self]
  · rw [Nat.mod_eq_of_lt (by omega), show w - b = a by omega]

end Rotate
