import Mathlib

/-!
# Flags

The flags of an addition or a subtraction with a carry are properties of the exact result, as
unsigned numbers and as signed ones. A processor has only the operands and the wrapped
result, and recovers the flags by comparisons and from the top bits.
-/

namespace Flags

/-- A carry or a borrow out of an exact unsigned result. -/
def carries (n : Nat) (u : Int) : Bool := u < 0 ∨ (2 ^ n : Nat) ≤ u

/-- An exact signed result is out of range. -/
def overflows (n : Nat) (s : Int) : Bool := s < -(2 ^ (n - 1) : Nat) ∨ (2 ^ (n - 1) : Nat) ≤ s

def isZero (n : Nat) (u : Int) : Bool := u % (2 ^ n : Nat) = 0

/-- The top bit of the wrapped result. -/
def isNegative (n : Nat) (u : Int) : Bool := (2 ^ (n - 1) : Nat) ≤ u % (2 ^ n : Nat)

structure FlagValues where
  carry : Bool
  zero : Bool
  sign : Bool
  overflow : Bool
  deriving DecidableEq

/-- The flags of a result that is `u` as an unsigned number and `s` as a signed one. -/
def exactFlags (n : Nat) (u s : Int) : FlagValues where
  carry := carries n u
  zero := isZero n u
  sign := isNegative n u
  overflow := overflows n s

variable {n : Nat} {x l r k : BitVec n} {u : Int}

theorem two_pow_eq (hn : 0 < n) : 2 ^ n = 2 * 2 ^ (n - 1) := by
  obtain ⟨m, rfl⟩ : ∃ m, n = m + 1 := ⟨n - 1, by omega⟩
  rw [Nat.add_sub_cancel, Nat.pow_succ, Nat.mul_comm]

/-- A number that is off by at most one turn. -/
theorem emod_cases {N : Int} (hlo : -N ≤ u) (hhi : u < 2 * N) :
    u % N = if u < 0 then u + N else if u < N then u else u - N := by
  split
  · rw [← Int.add_emod_right, Int.emod_eq_of_lt (by omega) (by omega)]
  · split
    · exact Int.emod_eq_of_lt (by omega) (by omega)
    · rw [← Int.sub_emod_right, Int.emod_eq_of_lt (by omega) (by omega)]

theorem msb_iff : x.msb = true ↔ 2 ^ (n - 1) ≤ x.toNat := by
  rw [BitVec.msb_eq_decide, decide_eq_true_iff]

theorem toInt_cases : x.toInt = if 2 ^ (n - 1) ≤ x.toNat then (x.toNat : Int) - (2 ^ n : Nat) else x.toNat := by
  rw [BitVec.toInt_eq_msb_cond]
  simp only [msb_iff]

/-! ## Zero and sign -/

/-- The wrapped result of an exact one. -/
def Wraps (x : BitVec n) (u : Int) : Prop := x.toNat = u % (2 ^ n : Nat)

theorem wraps_add : Wraps (l + r + k) (l.toNat + r.toNat + k.toNat) := by
  unfold Wraps
  rw [BitVec.toNat_add, BitVec.toNat_add, Int.natCast_emod, Int.natCast_add, Int.natCast_emod, Int.natCast_add,
    Int.emod_add_emod]

theorem wraps_sub : Wraps (l - r - k) (l.toNat - r.toNat - k.toNat) := by
  have hcast : ∀ x y : BitVec n, ((x - y).toNat : Int) = (x.toNat - y.toNat) % (2 ^ n : Nat) := by
    intro x y
    have hy := y.isLt
    have hturn : ((2 ^ n - y.toNat + x.toNat : Nat) : Int) = x.toNat - y.toNat + (2 ^ n : Nat) := by omega
    rw [BitVec.toNat_sub, Int.natCast_emod, hturn, Int.add_emod_right]
  unfold Wraps
  rw [hcast, hcast, Int.emod_sub_emod]

theorem wraps_toNat : Wraps x x.toNat := by
  have hx := x.isLt
  exact (Int.emod_eq_of_lt (by omega) (by omega)).symm

theorem Wraps.zero (h : Wraps x u) : isZero n u = decide (x = 0#n) := by
  unfold isZero
  rw [decide_eq_decide, ← h, ← BitVec.toNat_inj, BitVec.toNat_zero]
  omega

theorem Wraps.negative (h : Wraps x u) : isNegative n u = x.msb := by
  unfold isNegative
  rw [Bool.eq_iff_iff, decide_eq_true_iff, msb_iff, ← h]
  omega

/-! ## Carry and overflow -/

/-- A wrapped sum, by cases. -/
theorem toNat_add_cases (hk : k.toNat ≤ 1) : (l + r + k).toNat =
    if l.toNat + r.toNat + k.toNat < 2 ^ n then l.toNat + r.toNat + k.toNat
    else l.toNat + r.toNat + k.toNat - 2 ^ n := by
  have hwraps : Wraps (l + r + k) _ := wraps_add
  have hl := l.isLt
  have hr := r.isLt
  unfold Wraps at hwraps
  rw [emod_cases (by omega) (by omega), if_neg (by omega)] at hwraps
  split at hwraps <;> split <;> omega

theorem toNat_sub_cases (hk : k.toNat ≤ 1) : (l - r - k).toNat =
    if l.toNat < r.toNat + k.toNat then l.toNat + 2 ^ n - r.toNat - k.toNat
    else l.toNat - r.toNat - k.toNat := by
  have hwraps : Wraps (l - r - k) _ := wraps_sub
  have hl := l.isLt
  have hr := r.isLt
  unfold Wraps at hwraps
  rw [emod_cases (by omega) (by omega)] at hwraps
  split at hwraps
  · split <;> omega
  · rw [if_pos (by omega)] at hwraps
    split <;> omega

theorem eq_zero_iff : k = 0#n ↔ k.toNat = 0 := by
  rw [← BitVec.toNat_inj, BitVec.toNat_zero]

/-- The wrapped sum is less than an operand iff there was a carry; with a carry in, it may be equal. -/
theorem carries_add (hk : k.toNat ≤ 1) : carries n (l.toNat + r.toNat + k.toNat) =
    if k = 0#n then decide (l + r + k < l) else decide (l + r + k ≤ l) := by
  have hsum := toNat_add_cases (l := l) (r := r) hk
  have hr := r.isLt
  unfold carries
  simp only [eq_zero_iff, BitVec.lt_def, BitVec.le_def]
  split at hsum <;> split <;> rw [decide_eq_decide] <;> omega

/-- There is a borrow iff the second operand is the greater one; with a borrow in, also if they are
equal. -/
theorem carries_sub (hk : k.toNat ≤ 1) : carries n (l.toNat - r.toNat - k.toNat) =
    if k = 0#n then decide (l < r) else decide (l ≤ r) := by
  have hl := l.isLt
  unfold carries
  simp only [eq_zero_iff, BitVec.lt_def, BitVec.le_def]
  split <;> rw [decide_eq_decide] <;> omega

/-- A sum is out of range iff the operands have one sign and the wrapped sum has the other one. -/
theorem overflows_add (hn : 0 < n) (hk : k.toNat ≤ 1) : overflows n (l.toInt + r.toInt + k.toNat) =
    (l.msb == r.msb && l.msb != (l + r + k).msb) := by
  have hsum := toNat_add_cases (l := l) (r := r) hk
  have hpow := two_pow_eq hn
  have hl := l.isLt
  have hr := r.isLt
  unfold overflows
  rw [Bool.eq_iff_iff, decide_eq_true_iff, toInt_cases, toInt_cases]
  simp only [BitVec.msb_eq_decide, Bool.and_eq_true, beq_iff_eq, bne_iff_ne, ne_eq, decide_eq_decide]
  generalize (l + r + k).toNat = s at hsum ⊢
  split at hsum <;> split <;> split <;> omega

/-- A difference is out of range iff the operands have different signs and the wrapped one does not
have the sign of the first. -/
theorem overflows_sub (hn : 0 < n) (hk : k.toNat ≤ 1) : overflows n (l.toInt - r.toInt - k.toNat) =
    (l.msb != r.msb && l.msb != (l - r - k).msb) := by
  have hsub := toNat_sub_cases (l := l) (r := r) hk
  have hpow := two_pow_eq hn
  have hl := l.isLt
  have hr := r.isLt
  unfold overflows
  rw [Bool.eq_iff_iff, decide_eq_true_iff, toInt_cases, toInt_cases]
  simp only [BitVec.msb_eq_decide, Bool.and_eq_true, bne_iff_ne, ne_eq, decide_eq_decide]
  generalize (l - r - k).toNat = s at hsub ⊢
  split at hsub <;> split <;> split <;> omega

/-- The flags of a difference without a borrow in. -/
theorem carries_sub' : carries n (l.toNat - r.toNat) = decide (l < r) := by
  have h := carries_sub (l := l) (r := r) (k := 0#n) (by simp)
  rwa [BitVec.toNat_zero, Int.natCast_zero, Int.sub_zero, if_pos rfl] at h

theorem isZero_sub : isZero n (l.toNat - r.toNat) = decide (l = r) := by
  have h := (wraps_sub (l := l) (r := r) (k := 0#n)).zero
  rw [BitVec.toNat_zero, Int.natCast_zero, Int.sub_zero, BitVec.sub_zero] at h
  rw [h, decide_eq_decide, BitVec.sub_eq_iff_eq_add, BitVec.zero_add]

theorem slt_eq_sign_bne_overflow (hn : 0 < n) :
    l.slt r = (isNegative n (l.toNat - r.toNat) != overflows n (l.toInt - r.toInt)) := by
  have hzero : (0#n).toNat ≤ 1 := by simp
  have hsign := (wraps_sub (l := l) (r := r) (k := 0#n)).negative
  have hoverflow := overflows_sub (l := l) (r := r) hn hzero
  have hsub := toNat_sub_cases (l := l) (r := r) hzero
  rw [BitVec.sub_zero, BitVec.toNat_zero] at hsub
  rw [BitVec.toNat_zero, Int.natCast_zero, Int.sub_zero, BitVec.sub_zero] at hsign hoverflow
  have hpow := two_pow_eq hn
  have hl := l.isLt
  have hr := r.isLt
  rw [hsign, hoverflow, Bool.eq_iff_iff, BitVec.slt_iff_toInt_lt, toInt_cases, toInt_cases]
  -- either the signs are the same and the difference is negative, or only the first is negative
  have hsigns : ∀ a b s : Bool, (s != (a != b && a != s)) = true ↔ a = b ∧ s = true ∨ a = true ∧ b = false := by decide
  simp only [hsigns, BitVec.msb_eq_decide, decide_eq_decide, decide_eq_true_iff, decide_eq_false_iff_not]
  generalize (l - r).toNat = s at hsub ⊢
  split at hsub <;> split <;> split <;> omega

/-! ## Products -/

/-- The product in twice the width. -/
def umulWide (l r : BitVec n) : BitVec (n + n) := l.setWidth (n + n) * r.setWidth (n + n)

def smulWide (l r : BitVec n) : BitVec (n + n) := l.signExtend (n + n) * r.signExtend (n + n)

theorem toNat_umulWide : (umulWide l r).toNat = l.toNat * r.toNat := by
  have hl := l.isLt
  have hr := r.isLt
  unfold umulWide
  rw [BitVec.toNat_mul, BitVec.toNat_setWidth_of_le (by omega), BitVec.toNat_setWidth_of_le (by omega),
    Nat.mod_eq_of_lt]
  calc l.toNat * r.toNat < 2 ^ n * 2 ^ n := Nat.mul_lt_mul'' hl hr
    _ = 2 ^ (n + n) := (Nat.pow_add 2 n n).symm

theorem umul_low : Wraps ((umulWide l r).extractLsb' 0 n) (l.toNat * r.toNat) := by
  unfold Wraps
  rw [BitVec.extractLsb'_toNat, toNat_umulWide, Nat.shiftRight_zero, Int.natCast_emod, Int.natCast_mul]

/-- The upper half of an unsigned product is zero iff there is no carry. -/
theorem carries_umul : carries n (l.toNat * r.toNat) = decide ((umulWide l r).extractLsb' n n ≠ 0#n) := by
  have hlt : l.toNat * r.toNat / 2 ^ n < 2 ^ n := by
    rw [Nat.div_lt_iff_lt_mul (Nat.two_pow_pos n)]
    exact Nat.mul_lt_mul'' l.isLt r.isLt
  have hdiv : l.toNat * r.toNat / 2 ^ n = 0 ↔ l.toNat * r.toNat < 2 ^ n :=
    Nat.div_eq_zero_iff_lt (Nat.two_pow_pos n)
  unfold carries
  rw [decide_eq_decide, ne_eq, eq_zero_iff, BitVec.extractLsb'_toNat, toNat_umulWide, Nat.shiftRight_eq_div_pow,
    Nat.mod_eq_of_lt hlt, hdiv]
  have hcast : (l.toNat : Int) * r.toNat = (l.toNat * r.toNat : Nat) := rfl
  rw [hcast]
  omega

theorem toInt_smulWide (hn : 0 < n) : (smulWide l r).toInt = l.toInt * r.toInt := by
  unfold smulWide
  rw [BitVec.toInt_mul, BitVec.toInt_signExtend_of_le (by omega), BitVec.toInt_signExtend_of_le (by omega)]
  have hle := BitVec.toInt_mul_toInt_le (x := l) (y := r)
  have hge := BitVec.le_toInt_mul_toInt (x := l) (y := r)
  have hexp : 2 ^ (n + n) = 4 * 2 ^ (n * 2 - 2) := by
    rw [show n + n = n * 2 - 2 + 2 by omega, Nat.pow_add, Nat.mul_comm]
  have hcast : ((2 : Int) ^ (n * 2 - 2)) = (2 ^ (n * 2 - 2) : Nat) := by norm_cast
  rw [hcast] at hle hge
  have hpos := Nat.two_pow_pos (n * 2 - 2)
  exact Int.bmod_eq_of_le (by omega) (by omega)

theorem smul_low (hn : 0 < n) : Wraps ((smulWide l r).extractLsb' 0 n) (l.toInt * r.toInt) := by
  unfold Wraps
  rw [BitVec.extractLsb'_toNat, Nat.shiftRight_zero, ← toInt_smulWide hn, toInt_cases, Int.natCast_emod]
  split
  · rw [Nat.pow_add, Int.natCast_mul, Int.sub_mul_emod_self_left]
  · rfl

/-- All bits are the top bit. -/
theorem sshiftRight_top (hn : 0 < n) : (x.sshiftRight (n - 1)).toNat = if 2 ^ (n - 1) ≤ x.toNat then 2 ^ n - 1 else 0 := by
  have hpow := two_pow_eq hn
  have hx := x.isLt
  rw [BitVec.toNat_sshiftRight]
  simp only [msb_iff, Nat.shiftRight_eq_div_pow]
  split
  · rw [Nat.div_eq_of_lt (by omega)]
    omega
  · exact Nat.div_eq_of_lt (by omega)

/-- A signed product is in range iff its upper half repeats the top bit of the lower one. -/
theorem overflows_smul (hn : 0 < n) : overflows n (l.toInt * r.toInt) =
    decide ((smulWide l r).extractLsb' n n ≠ ((smulWide l r).extractLsb' 0 n).sshiftRight (n - 1)) := by
  have hwide := toInt_smulWide (l := l) (r := r) hn
  have hpow := two_pow_eq hn
  have hlt := (smulWide l r).isLt
  have hsquare : 2 ^ (n + n) = 2 ^ n * 2 ^ n := Nat.pow_add 2 n n
  have hhalf := two_pow_eq (n := n + n) (by omega)
  unfold overflows
  rw [decide_eq_decide, ← hwide, ne_eq, ← BitVec.toNat_inj, sshiftRight_top hn, BitVec.extractLsb'_toNat,
    BitVec.extractLsb'_toNat, Nat.shiftRight_zero, Nat.shiftRight_eq_div_pow, toInt_cases]
  generalize (smulWide l r).toNat = w at hlt ⊢
  -- the two halves of the product
  have hhigh_lt : w / 2 ^ n < 2 ^ n := by
    rw [Nat.div_lt_iff_lt_mul (Nat.two_pow_pos n), ← hsquare]
    exact hlt
  have hsplit := Nat.div_add_mod w (2 ^ n)
  have hlow_lt := Nat.mod_lt w (Nat.two_pow_pos n)
  rw [Nat.mod_eq_of_lt hhigh_lt]
  generalize w / 2 ^ n = high at hhigh_lt hsplit ⊢
  generalize w % 2 ^ n = low at hlow_lt hsplit ⊢
  generalize 2 ^ (n - 1) = half at hpow ⊢
  generalize 2 ^ n = size at *
  have hsize : 2 * size ≤ size * size := Nat.mul_le_mul_right size (by omega)
  -- what the upper half contributes
  have hhigh : high = 0 ∧ size * high = 0 ∨
      0 < high ∧ high + 1 < size ∧ size ≤ size * high ∧ size * high + 2 * size ≤ size * size ∨
      high + 1 = size ∧ size * high + size = size * size := by
    rcases Nat.eq_zero_or_pos high with rfl | hpos
    · exact .inl ⟨rfl, rfl⟩
    by_cases htop : high + 1 = size
    · refine .inr (.inr ⟨htop, ?_⟩)
      rw [← Nat.mul_succ, Nat.succ_eq_add_one, htop]
    · refine .inr (.inl ⟨hpos, by omega, Nat.le_mul_of_pos_right size hpos, ?_⟩)
      have hle := Nat.mul_le_mul_left size (show high + 2 ≤ size by omega)
      rwa [Nat.mul_add, Nat.mul_comm size 2] at hle
  generalize size * high = upper at hsplit hhigh
  generalize size * size = square at *
  split <;> split <;> omega

end Flags
