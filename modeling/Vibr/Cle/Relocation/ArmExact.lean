import Mathlib.Tactic.LinearCombination
import Vibr.Cle.Relocation.Arm

/-!
# Exactness of the ARM relocations

For each relocation, the bits of the word that is computed for it, what the immediate of
that word is, and from these the places where the relocation follows the ABI.
-/

namespace Vibr.Cle.Arm

/-! ## Bits -/

theorem getElem_bit (b : Bool) (i : Nat) (hi : i < 32) : (bit b)[i] = (decide (i = 0) && b) := by
  cases b
  · simp [bit]
  · cases i <;> simp [bit]

theorem genMask_one_ne_zero (x : BitVec 32) {k : Nat} (hk : k < 32) :
    ((x &&& genMask 1 k) != 0#32) = x.getLsbD k := by
  have hmask : genMask 1 k = BitVec.twoPow 32 k := by
    unfold genMask BitVec.twoPow
    rw [show (1#32 <<< 1) - 1#32 = 1#32 by decide]
  have hne : BitVec.twoPow 32 k ≠ 0#32 := by
    intro h
    have hbit := congrArg (BitVec.getLsbD · k) h
    simp [hk] at hbit
  rw [hmask, BitVec.and_twoPow]
  cases x.getLsbD k
  · rfl
  · simpa using hne

theorem thumbInst_thumbWord (inst : BitVec 32) : thumbInst (thumbWord inst) = inst := by
  refine BitVec.eq_of_getLsbD_eq fun i hi => ?_
  interval_cases i <;> simp [thumbInst, thumbWord]

variable {i : Nat}

theorem getLsbD_thmEncode (inst x : BitVec 32) (hi : i < 32) : (thmEncode inst x).getLsbD i =
    if i < 11 then x.getLsbD (i + 1)
    else if i = 11 then x.getLsbD 22 ^^ !x.getLsbD 24
    else if i = 13 then x.getLsbD 23 ^^ !x.getLsbD 24
    else if 16 ≤ i ∧ i < 26 then x.getLsbD (i - 4)
    else if i = 26 then x.getLsbD 24
    else inst.getLsbD i := by
  unfold thmEncode
  simp only [genMask_one_ne_zero x (show 24 < 32 by decide), genMask_one_ne_zero x (show 23 < 32 by decide),
    genMask_one_ne_zero x (show 22 < 32 by decide)]
  interval_cases i <;> simp [getElem_bit, genMask]

theorem getLsbD_thmAddend (inst : BitVec 32) (hi : i < 32) : (thmAddend inst).getLsbD i =
    if i = 0 then false
    else if i < 12 then inst.getLsbD (i - 1)
    else if i < 22 then inst.getLsbD (i + 4)
    else if i = 22 then inst.getLsbD 11 ^^ !inst.getLsbD 26
    else if i = 23 then inst.getLsbD 13 ^^ !inst.getLsbD 26
    else inst.getLsbD 26 := by
  unfold thmAddend
  simp only [genMask_one_ne_zero inst (show 26 < 32 by decide), genMask_one_ne_zero inst (show 13 < 32 by decide),
    genMask_one_ne_zero inst (show 11 < 32 by decide)]
  cases hs : inst.getLsbD 26
  · interval_cases i <;> simp [getElem_bit, genMask]
  · interval_cases i <;> simp [getElem_bit, genMask]

theorem getLsbD_thmBranchImm (inst : BitVec 32) (hi : i < 25) : (thmBranchImm inst).getLsbD i =
    if i = 0 then false
    else if i < 12 then inst.getLsbD (i - 1)
    else if i < 22 then inst.getLsbD (i + 4)
    else if i = 22 then inst.getLsbD 11 ^^ !inst.getLsbD 26
    else if i = 23 then inst.getLsbD 13 ^^ !inst.getLsbD 26
    else inst.getLsbD 26 := by
  simp only [thmBranchImm, BitVec.getLsbD_append]
  interval_cases i <;> simp

theorem getLsbD_thmCondImm (inst : BitVec 32) (hi : i < 21) : (thmCondImm inst).getLsbD i =
    if i = 0 then false
    else if i < 12 then inst.getLsbD (i - 1)
    else if i < 18 then inst.getLsbD (i + 4)
    else if i = 18 then inst.getLsbD 13
    else if i = 19 then inst.getLsbD 11
    else inst.getLsbD 26 := by
  simp only [thmCondImm, BitVec.getLsbD_append]
  interval_cases i <;> simp

theorem getLsbD_thmMovImm (inst : BitVec 32) (hi : i < 16) : (thmMovImm inst).getLsbD i =
    if i < 8 then inst.getLsbD i
    else if i < 11 then inst.getLsbD (i + 4)
    else if i = 11 then inst.getLsbD 26
    else inst.getLsbD (i + 4) := by
  simp only [thmMovImm, BitVec.getLsbD_append]
  interval_cases i <;> simp

theorem getLsbD_thmMovMisread (inst : BitVec 32) (hi : i < 16) : (thmMovMisread inst).getLsbD i =
    if i < 8 then inst.getLsbD i
    else if i < 11 then inst.getLsbD (i + 4)
    else if i < 15 then inst.getLsbD (i + 5)
    else inst.getLsbD 26 := by
  simp only [thmMovMisread, BitVec.getLsbD_append]
  interval_cases i <;> simp

theorem getLsbD_thmMovLiteral (inst : BitVec 32) (hi : i < 32) : (thmMovLiteral inst).getLsbD i =
    (decide (i < 16) && (thmMovMisread inst).getLsbD i) := by
  by_cases hlt : i < 16
  · rw [getLsbD_thmMovMisread inst hlt]
    unfold thmMovLiteral
    interval_cases i <;> simp
  · unfold thmMovLiteral
    interval_cases i <;> simp

theorem getLsbD_movImm (inst : BitVec 32) (hi : i < 16) : (movImm inst).getLsbD i =
    if i < 12 then inst.getLsbD i else inst.getLsbD (i + 4) := by
  simp only [movImm, BitVec.getLsbD_append]
  interval_cases i <;> simp

theorem getLsbD_movLiteral (inst : BitVec 32) (hi : i < 32) : (movLiteral inst).getLsbD i =
    (decide (i < 16) && (movImm inst).getLsbD i) := by
  by_cases hlt : i < 16
  · rw [getLsbD_movImm inst hlt]
    unfold movLiteral
    interval_cases i <;> simp
  · unfold movLiteral
    interval_cases i <;> simp

/-! ## Numbers -/

theorem ofInt_toNat_mod {n : Nat} (hle : n ≤ 32) (X : Int) :
    (((BitVec.ofInt 32 X).toNat % 2 ^ n : Nat) : Int) = X % 2 ^ n := by
  have hdvd : (2 : Int) ^ n ∣ 2 ^ 32 := pow_dvd_pow 2 hle
  rw [BitVec.toNat_ofInt, Int.natCast_mod, Int.toNat_of_nonneg (Int.emod_nonneg _ (by decide))]
  push_cast
  exact Int.emod_emod_of_dvd X hdvd

/-- A bit vector with the bits of a number, the lowest one cleared, in a range where the
number is its signed value. -/
theorem toInt_of_bits {n : Nat} (hn : 1 < n) (hle : n ≤ 32) {v : BitVec n} {X : Int}
    (hbits : ∀ i, i < n → v.getLsbD i = (decide (0 < i) && (BitVec.ofInt 32 X).getLsbD i))
    (hlo : -(2 ^ (n - 1)) ≤ X) (hhi : X < 2 ^ (n - 1)) : v.toInt = X - X % 2 := by
  have htwo : (2 : Int) ^ n = 2 * 2 ^ (n - 1) := by
    conv_lhs => rw [show n = n - 1 + 1 by omega]
    rw [pow_succ, mul_comm]
  have hv : v = BitVec.ofInt n (X - X % 2) := by
    refine BitVec.eq_of_toNat_eq ?_
    have hnat : v.toNat = (BitVec.ofInt 32 X).toNat % 2 ^ n / 2 * 2 := by
      refine Nat.eq_of_testBit_eq fun i => ?_
      rw [BitVec.testBit_toNat]
      cases i with
      | zero =>
        rw [hbits 0 (by omega), Nat.testBit_zero]
        simp
      | succ i =>
        rw [Nat.testBit_succ, Nat.mul_div_cancel _ (by decide), ← Nat.testBit_succ, Nat.testBit_mod_two_pow,
          BitVec.testBit_toNat]
        by_cases hi : i + 1 < n
        · rw [hbits (i + 1) hi]
          simp [hi]
        · rw [BitVec.getLsbD_of_ge v (i + 1) (by omega)]
          simp [hi]
    have hmod := ofInt_toNat_mod hle X
    have hpow : (0 : Int) < 2 ^ n := pow_pos (by decide) n
    have heven : (X - X % 2) % 2 ^ n = X % 2 ^ n / 2 * 2 := by
      have hsame : X % 2 ^ n % 2 = X % 2 := Int.emod_emod_of_dvd X (Dvd.intro _ htwo.symm)
      have hsplit : X - X % 2 = X % 2 ^ n / 2 * 2 + 2 ^ n * (X / 2 ^ n) := by
        have hdiv := Int.mul_ediv_add_emod X (2 ^ n)
        omega
      rw [hsplit, Int.add_mul_emod_self_left, Int.emod_eq_of_lt]
      · have := Int.emod_nonneg X (ne_of_gt hpow)
        omega
      · have := Int.emod_lt_of_pos X hpow
        omega
    rw [hnat, BitVec.toNat_ofInt (X - X % 2)]
    push_cast
    rw [heven, ← hmod]
    omega
  -- the range begins at an even number
  have heven : (2 : Int) ^ (n - 1) = 2 * 2 ^ (n - 2) := by
    conv_lhs => rw [show n - 1 = n - 2 + 1 by omega]
    rw [pow_succ, mul_comm]
  rw [hv, BitVec.toInt_ofInt_eq_self (by omega)]
  · omega
  · omega

/-- What the Thumb bit adds is decided by the parity. -/
theorem orThumb_sub {x y : Int} (h : x % 2 = y % 2) (T : Bool) : orThumb x T - x = orThumb y T - y := by
  unfold orThumb
  rw [h]
  split <;> omega

theorem toNat_append_add {m n : Nat} (x : BitVec m) (y : BitVec n) :
    (x ++ y).toNat = x.toNat * 2 ^ n + y.toNat := by
  rw [BitVec.toNat_append, ← Nat.shiftLeft_add_eq_or_of_lt y.isLt, Nat.shiftLeft_eq]

/-- The bits of a number. -/
theorem getLsbD_ofInt (X : Int) (hi : i < 32) : (BitVec.ofInt 32 X).getLsbD i = decide (X / 2 ^ i % 2 = 1) := by
  have hmod : (((BitVec.ofInt 32 X).toNat : Nat) : Int) = X % 2 ^ 32 := by
    rw [BitVec.toNat_ofInt, Int.toNat_of_nonneg (Int.emod_nonneg _ (by decide))]
    rfl
  rw [← BitVec.testBit_toNat, Nat.testBit_eq_decide_div_mod_eq, decide_eq_decide]
  generalize (BitVec.ofInt 32 X).toNat = m at hmod
  interval_cases i <;> omega

/-- The bits of a bit vector are those of its signed value. -/
theorem getLsbD_eq_toInt {n : Nat} (hle : n ≤ 32) (v : BitVec n) (hi : i < n) :
    v.getLsbD i = decide (v.toInt / 2 ^ i % 2 = 1) := by
  have hext : (v.signExtend 32).getLsbD i = v.getLsbD i := by
    rw [BitVec.getLsbD_signExtend]
    simp [hi, show i < 32 by omega]
  rw [← hext]
  exact getLsbD_ofInt v.toInt (by omega)

/-- Numbers with the same upper part have the same bits there. -/
theorem ediv_two_pow_of_le {a b : Int} {m j : Nat} (hhigh : a / 2 ^ m = b / 2 ^ m) (hle : m ≤ j) :
    a / 2 ^ j = b / 2 ^ j := by
  have hpow : (2 : Int) ^ j = 2 ^ m * 2 ^ (j - m) := by
    rw [← pow_add, Nat.add_sub_cancel' hle]
  rw [hpow, ← Int.ediv_ediv_of_nonneg (by positivity), ← Int.ediv_ediv_of_nonneg (by positivity), hhigh]

/-- Numbers with the same lower part have the same bits there. -/
theorem bit_of_emod {a b : Int} {m i : Nat} (hlow : a % 2 ^ m = b % 2 ^ m) (hlt : i < m) :
    a / 2 ^ i % 2 = b / 2 ^ i % 2 := by
  obtain ⟨k, hk⟩ := Int.dvd_of_emod_eq_zero (Int.emod_eq_emod_iff_emod_sub_eq_zero.mp hlow)
  have hpow : (2 : Int) ^ m = 2 ^ i * (2 * 2 ^ (m - i - 1)) := by
    rw [← pow_succ', ← pow_add]
    congr 1
    omega
  have hsum : a = b + 2 ^ i * (2 * (2 ^ (m - i - 1) * k)) := by
    rw [hpow] at hk
    linear_combination hk
  rw [hsum, Int.add_mul_ediv_left _ _ (by positivity), Int.add_mul_emod_self_left]

/-- Numbers with the same bits have the same remainder. -/
theorem emod_two_pow_of_bits {a b : Int} : ∀ {m : Nat},
    (∀ i < m, (a / 2 ^ i % 2 = 1 ↔ b / 2 ^ i % 2 = 1)) → a % 2 ^ m = b % 2 ^ m
  | 0, _ => by simp
  | m + 1, hbits => by
    have hsplit : ∀ c : Int, c % 2 ^ (m + 1) = c % 2 ^ m + 2 ^ m * (c / 2 ^ m % 2) := by
      intro c
      have hpow : (0 : Int) < 2 ^ m := by positivity
      have hc := Int.mul_ediv_add_emod c (2 ^ m)
      have hq := Int.mul_ediv_add_emod (c / 2 ^ m) 2
      have hlo := Int.emod_nonneg c (ne_of_gt hpow)
      have hhi := Int.emod_lt_of_pos c hpow
      have hc' : c = c % 2 ^ m + 2 ^ m * (c / 2 ^ m % 2) + 2 ^ (m + 1) * (c / 2 ^ m / 2) := by
        rw [pow_succ]
        linear_combination -hc - 2 ^ m * hq
      conv_lhs => rw [hc']
      rw [Int.add_mul_emod_self_left, pow_succ]
      have hbit : c / 2 ^ m % 2 = 0 ∨ c / 2 ^ m % 2 = 1 := by omega
      rcases hbit with h | h
      · rw [h]
        exact Int.emod_eq_of_lt (by omega) (by omega)
      · rw [h]
        exact Int.emod_eq_of_lt (by omega) (by omega)
    have hbit : a / 2 ^ m % 2 = b / 2 ^ m % 2 := by
      have := hbits m (Nat.lt_succ_self m)
      omega
    rw [hsplit a, hsplit b, emod_two_pow_of_bits fun i hi => hbits i (Nat.lt_succ_of_lt hi), hbit]

theorem toNat_of_toInt {n : Nat} (v : BitVec n) : ∃ k : Int, (v.toNat : Int) = v.toInt + 2 ^ n * k := by
  rw [BitVec.toInt_eq_toNat_cond]
  split
  · exact ⟨0, by simp⟩
  · exact ⟨1, by push_cast; ring⟩

/-- A literal is read as a signed number. -/
theorem signed16_eq (v : BitVec 16) : signed16 (v.setWidth 32) = v.toInt := by
  have hmask : (0x8000#32) = BitVec.twoPow 32 15 := by decide
  have hxor : (v.setWidth 32 ^^^ 0xFFFF#32) = (~~~v).setWidth 32 := by
    refine BitVec.eq_of_getLsbD_eq fun i hi => ?_
    interval_cases i <;> simp
  have hcond : (v.setWidth 32 &&& 0x8000#32 ≠ 0#32) ↔ v.getLsbD 15 = true := by
    rw [hmask, BitVec.and_twoPow]
    have hbit : (v.setWidth 32).getLsbD 15 = v.getLsbD 15 := by simp
    rw [hbit]
    cases v.getLsbD 15
    · simp
    · simp only [if_true, iff_true]
      decide
  have hmsb : v.getLsbD 15 = true ↔ 2 ^ 15 ≤ v.toNat := by
    have hlast := BitVec.msb_eq_getLsbD_last v
    have hdecide := BitVec.msb_eq_decide v
    rw [← hlast, hdecide, decide_eq_true_eq]
  unfold signed16
  rw [BitVec.toInt_eq_toNat_cond]
  have hlt := v.isLt
  by_cases h : v.getLsbD 15 = true
  · rw [if_pos (hcond.mpr h), hxor, BitVec.toNat_setWidth, BitVec.toNat_not]
    have := hmsb.mp h
    omega
  · rw [if_neg (mt hcond.mp h), BitVec.toNat_setWidth]
    have := mt hmsb.mpr h
    omega

/-! ## Moves -/

theorem movLiteral_eq (inst : BitVec 32) : movLiteral inst = (movImm inst).setWidth 32 := by
  refine BitVec.eq_of_getLsbD_eq fun i hi => ?_
  rw [getLsbD_movLiteral inst hi, BitVec.getLsbD_setWidth]
  by_cases hlt : i < 16
  · simp [hi, hlt]
  · simp [hlt, BitVec.getLsbD_of_ge (movImm inst) i (by omega)]

theorem thmMovLiteral_eq (inst : BitVec 32) : thmMovLiteral inst = (thmMovMisread inst).setWidth 32 := by
  refine BitVec.eq_of_getLsbD_eq fun i hi => ?_
  rw [getLsbD_thmMovLiteral inst hi, BitVec.getLsbD_setWidth]
  by_cases hlt : i < 16
  · simp [hi, hlt]
  · simp [hlt, BitVec.getLsbD_of_ge (thmMovMisread inst) i (by omega)]

/-- The parts of a half of a word are put where the immediate has them. -/
theorem movImm_movEncode (inst half : BitVec 32) :
    movImm (movEncode inst (half >>> 12) (half &&& 0xFFF#32)) = half.setWidth 16 := by
  refine BitVec.eq_of_getLsbD_eq fun i hi => ?_
  rw [getLsbD_movImm _ hi]
  unfold movEncode
  interval_cases i <;> simp

theorem movEncode_fixed (inst part1 part2 : BitVec 32) :
    movEncode inst part1 part2 &&& 0xFFF0F000#32 = inst &&& 0xFFF0F000#32 := by
  refine BitVec.eq_of_getLsbD_eq fun i hi => ?_
  unfold movEncode
  interval_cases i <;> simp

theorem thmMovImm_thmMovEncode (inst half : BitVec 32) :
    thmMovImm (thmMovEncode inst (half >>> 12) ((half >>> 11) &&& 0x1#32) ((half >>> 8) &&& 0x7#32)
      (half &&& 0xFF#32)) = half.setWidth 16 := by
  refine BitVec.eq_of_getLsbD_eq fun i hi => ?_
  rw [getLsbD_thmMovImm _ hi]
  unfold thmMovEncode
  interval_cases i <;> simp

theorem thmMovEncode_fixed (inst part1 part2 part3 part4 : BitVec 32) :
    thmMovEncode inst part1 part2 part3 part4 &&& 0b11111011111100001000111100000000#32 =
      inst &&& 0b11111011111100001000111100000000#32 := by
  refine BitVec.eq_of_getLsbD_eq fun i hi => ?_
  unfold thmMovEncode
  interval_cases i <;> simp

theorem toNat_lowHalf (X : Int) :
    ((((BitVec.ofInt 32 X &&& 0xFFFF#32).setWidth 16).toNat : Nat) : Int) = X % 0x10000 := by
  have hlow : (BitVec.ofInt 32 X &&& 0xFFFF#32).setWidth 16 = (BitVec.ofInt 32 X).setWidth 16 := by
    refine BitVec.eq_of_getLsbD_eq fun i hi => ?_
    interval_cases i <;> simp
  rw [hlow, BitVec.toNat_setWidth]
  exact ofInt_toNat_mod (by decide) X

theorem toNat_highHalf (X : Int) :
    ((((BitVec.ofInt 32 X &&& 0xFFFF0000#32) >>> 16).setWidth 16).toNat : Int) = X / 0x10000 % 0x10000 := by
  have hhigh : ((BitVec.ofInt 32 X &&& 0xFFFF0000#32) >>> 16).setWidth 16 = (BitVec.ofInt 32 X).extractLsb' 16 16 := by
    refine BitVec.eq_of_getLsbD_eq fun i hi => ?_
    interval_cases i <;> simp
  have hmod := ofInt_toNat_mod (n := 32) (Nat.le_refl _) X
  rw [hhigh, BitVec.extractLsb'_toNat, Nat.shiftRight_eq_div_pow]
  omega

/-- The two readings of a Thumb literal. -/
theorem thmMovImm_toInt (inst : BitVec 32) :
    ((thmMovMisread inst).toInt = (thmMovImm inst).toInt ↔
      -0x800 ≤ (thmMovImm inst).toInt ∧ (thmMovImm inst).toInt < 0x800) ∧
    (thmMovMisread inst).toInt % 2 = (thmMovImm inst).toInt % 2 := by
  have himm : (thmMovImm inst).toNat = (inst.extractLsb' 16 4).toNat * 0x1000 + (inst.extractLsb' 26 1).toNat * 0x800 +
      (inst.extractLsb' 12 3).toNat * 0x100 + (inst.extractLsb' 0 8).toNat := by
    simp only [thmMovImm, toNat_append_add]
    omega
  have hmisread : (thmMovMisread inst).toNat = (inst.extractLsb' 26 1).toNat * 0x8000 +
      (inst.extractLsb' 16 4).toNat * 0x800 + (inst.extractLsb' 12 3).toNat * 0x100 + (inst.extractLsb' 0 8).toNat := by
    simp only [thmMovMisread, toNat_append_add]
    omega
  rw [BitVec.toInt_eq_toNat_cond, BitVec.toInt_eq_toNat_cond, himm, hmisread]
  refine ⟨?_, ?_⟩
  · split <;> split <;> omega
  · split <;> split <;> omega

/-! ## Thumb branches -/

/-- The offset that is put into an instruction is the immediate of that instruction. -/
theorem getLsbD_thmBranchImm_thmEncode (inst x : BitVec 32) (hi : i < 25) :
    (thmBranchImm (thmEncode inst x)).getLsbD i = (decide (0 < i) && x.getLsbD i) := by
  rw [getLsbD_thmBranchImm _ hi]
  interval_cases i <;> simp [getLsbD_thmEncode, -BitVec.getLsbD_eq_getElem]

theorem thmEncode_fixed (inst x : BitVec 32) :
    thmEncode inst x &&& 0b11111000000000001101000000000000#32 = inst &&& 0b11111000000000001101000000000000#32 := by
  refine BitVec.eq_of_getLsbD_eq fun i hi => ?_
  rw [BitVec.getLsbD_and, getLsbD_thmEncode inst x hi, BitVec.getLsbD_and]
  interval_cases i <;> simp

theorem thmAddend_eq (inst : BitVec 32) : thmAddend inst = (thmBranchImm inst).signExtend 32 := by
  refine BitVec.eq_of_getLsbD_eq fun i hi => ?_
  rw [getLsbD_thmAddend inst hi, BitVec.getLsbD_signExtend]
  by_cases hlt : i < 25
  · simp only [hi, hlt, decide_true, Bool.true_and, if_true, getLsbD_thmBranchImm]
  have hsign : (thmBranchImm inst).getLsbD (25 - 1) = inst.getLsbD 26 :=
    getLsbD_thmBranchImm inst (show 24 < 25 by decide)
  rw [BitVec.msb_eq_getLsbD_last, hsign]
  simp only [hi, hlt, decide_true, Bool.true_and, if_false]
  interval_cases i <;> simp

/-- The addend is the signed immediate, up to multiples of `2 ^ 32`. -/
theorem thmAddend_toNat (inst : BitVec 32) : ∃ k : Int,
    ((thmAddend inst).toNat : Int) = (thmBranchImm inst).toInt + 0x100000000 * k := by
  obtain ⟨k, hk⟩ := toNat_of_toInt (thmAddend inst)
  refine ⟨k, hk.trans ?_⟩
  rw [thmAddend_eq, BitVec.toInt_signExtend_of_le (by decide)]
  norm_num

/-- The value of a Thumb branch, by the immediate of its instruction. -/
theorem thmCall_offset (word : BitVec 32) (S P : Int) (isFunction : Bool) :
    thumbInst (thmCall none word S P isFunction) = thmEncode (thumbInst word) (BitVec.ofInt 32
      (orThumb (S + (thmBranchImm (thumbInst word)).toInt) (isThumbFunc isFunction S) - P)) := by
  obtain ⟨k, hk⟩ := thmAddend_toNat (thumbInst word)
  have hsub := orThumb_sub (x := S + ((thmAddend (thumbInst word)).toNat : Int))
    (y := S + (thmBranchImm (thumbInst word)).toInt) (by omega) (isThumbFunc isFunction S)
  have hX : BitVec.ofInt 32 (orThumb (S + ((thmAddend (thumbInst word)).toNat : Int)) (isThumbFunc isFunction S) - P) =
      BitVec.ofInt 32 (orThumb (S + (thmBranchImm (thumbInst word)).toInt) (isThumbFunc isFunction S) - P) := by
    refine BitVec.eq_of_toNat_eq ?_
    rw [BitVec.toNat_ofInt, BitVec.toNat_ofInt]
    omega
  rw [← hX]
  exact thumbInst_thumbWord _

/-- The bits of the two encodings of a branch that are in the same place. -/
theorem getLsbD_thmCondImm_thmEncode (inst x : BitVec 32) (hi : i < 18) :
    (thmCondImm (thmEncode inst x)).getLsbD i = (decide (0 < i) && x.getLsbD i) := by
  rw [getLsbD_thmCondImm _ (by omega)]
  interval_cases i <;> simp [getLsbD_thmEncode, -BitVec.getLsbD_eq_getElem]

/-- The immediates of the two encodings of a branch have their lower bits in common. -/
theorem thmCondImm_mod (inst : BitVec 32) :
    (thmCondImm inst).toInt % 0x40000 = (thmBranchImm inst).toInt % 0x40000 ∧ (thmBranchImm inst).toInt % 2 = 0 := by
  have hcond : ∃ high : Nat, (thmCondImm inst).toNat = high * 0x40000 + (inst.extractLsb' 16 6).toNat * 0x1000 +
      (inst.extractLsb' 0 11).toNat * 2 := by
    refine ⟨(inst.extractLsb' 26 1 ++ inst.extractLsb' 11 1 ++ inst.extractLsb' 13 1).toNat, ?_⟩
    simp only [thmCondImm, toNat_append_add, BitVec.toNat_ofNat, Nat.zero_mod]
    omega
  have hbranch : ∃ high : Nat, (thmBranchImm inst).toNat = high * 0x400000 + (inst.extractLsb' 16 10).toNat * 0x1000 +
      (inst.extractLsb' 0 11).toNat * 2 := by
    refine ⟨((inst.extractLsb' 26 1) ++ ~~~(inst.extractLsb' 13 1 ^^^ inst.extractLsb' 26 1) ++
      ~~~(inst.extractLsb' 11 1 ^^^ inst.extractLsb' 26 1)).toNat, ?_⟩
    simp only [thmBranchImm, toNat_append_add, BitVec.toNat_ofNat, Nat.zero_mod]
    omega
  have himm : (inst.extractLsb' 16 10).toNat % 64 = (inst.extractLsb' 16 6).toNat := by
    rw [BitVec.extractLsb'_toNat, BitVec.extractLsb'_toNat]
    omega
  obtain ⟨high, hcond⟩ := hcond
  obtain ⟨high', hbranch⟩ := hbranch
  obtain ⟨k, hk⟩ := toNat_of_toInt (thmCondImm inst)
  obtain ⟨k', hk'⟩ := toNat_of_toInt (thmBranchImm inst)
  rw [hcond] at hk
  rw [hbranch] at hk'
  generalize (thmCondImm inst).toInt = A at *
  generalize (thmBranchImm inst).toInt = B at *
  generalize (inst.extractLsb' 16 6).toNat = x at *
  generalize (inst.extractLsb' 16 10).toNat = y at *
  generalize (inst.extractLsb' 0 11).toNat = z at *
  clear hcond hbranch
  refine ⟨?_, ?_⟩
  · omega
  · omega

/-- An offset with the upper bits of the immediate leaves the bits that they are in. -/
theorem getLsbD_thmEncode_of_high {inst x : BitVec 32}
    (hhigh : ∀ j, 18 ≤ j → j < 25 → x.getLsbD j = (thmBranchImm inst).getLsbD j) (hi : i < 32)
    (hplace : i = 11 ∨ i = 13 ∨ 22 ≤ i) : (thmEncode inst x).getLsbD i = inst.getLsbD i := by
  have hbits : ∀ j, 18 ≤ j → j < 25 → x.getLsbD j = _ :=
    fun j hle hlt => (hhigh j hle hlt).trans (getLsbD_thmBranchImm inst hlt)
  have h22 := hbits 22 (by decide) (by decide)
  have h23 := hbits 23 (by decide) (by decide)
  have h24 := hbits 24 (by decide) (by decide)
  rw [getLsbD_thmEncode inst x hi]
  rcases hplace with rfl | rfl | hle
  · simp [h22, h24, -BitVec.getLsbD_eq_getElem]
  · simp [h23, h24, -BitVec.getLsbD_eq_getElem]
  by_cases hlt : i < 26
  · have hbit := hbits (i - 4) (by omega) (by omega)
    interval_cases i <;> simpa [-BitVec.getLsbD_eq_getElem] using hbit
  · interval_cases i <;> simp [h24, -BitVec.getLsbD_eq_getElem]

/-- The offset that an instruction has already changes nothing. -/
theorem thmEncode_self {inst x : BitVec 32}
    (hsame : ∀ j, 0 < j → j < 25 → x.getLsbD j = (thmBranchImm inst).getLsbD j) : thmEncode inst x = inst := by
  refine BitVec.eq_of_getLsbD_eq fun i hi => ?_
  by_cases hplace : i = 11 ∨ i = 13 ∨ 22 ≤ i
  · exact getLsbD_thmEncode_of_high (fun j hle hlt => hsame j (by omega) hlt) hi hplace
  have hbits : ∀ j, 0 < j → j < 25 → x.getLsbD j = _ :=
    fun j hpos hlt => (hsame j hpos hlt).trans (getLsbD_thmBranchImm inst hlt)
  rw [getLsbD_thmEncode inst x hi]
  by_cases hlow : i < 11
  · have hbit := hbits (i + 1) (by omega) (by omega)
    rw [if_neg (by omega), if_pos (by omega), Nat.add_sub_cancel] at hbit
    rw [if_pos hlow, hbit]
  by_cases hmid : 16 ≤ i
  · have hbit := hbits (i - 4) (by omega) (by omega)
    rw [if_neg (by omega), if_neg (by omega), if_pos (by omega), Nat.sub_add_cancel (by omega)] at hbit
    rw [if_neg hlow, if_neg (by omega), if_neg (by omega), if_pos (by omega), hbit]
  · rw [if_neg hlow, if_neg (by omega), if_neg (by omega), if_neg (by omega), if_neg (by omega)]

/-- The offset that was put into a compare and branch, if the bits that are no offset are left. -/
theorem emod_of_thmEncode_fixed {inst : BitVec 32} {x : Int}
    (hfixed : thmEncode inst (BitVec.ofInt 32 x) &&& 0b11111101000001111111111111111111#32 =
      inst &&& 0b11111101000001111111111111111111#32) :
    x / 2 % 2 ^ 14 = (thmBranchImm inst).toInt / 2 % 2 ^ 14 := by
  refine emod_two_pow_of_bits fun j hj => ?_
  have hsame : (BitVec.ofInt 32 x).getLsbD (1 + j) = (thmBranchImm inst).getLsbD (1 + j) := by
    rw [getLsbD_thmBranchImm inst (by omega)]
    by_cases hlow : j < 11
    · have hbit := congrArg (BitVec.getLsbD · j) hfixed
      simp only [BitVec.getLsbD_and] at hbit
      rw [getLsbD_thmEncode _ _ (by omega)] at hbit
      interval_cases j <;> simpa [-BitVec.getLsbD_eq_getElem] using hbit
    have hbit := congrArg (BitVec.getLsbD · (j + 5)) hfixed
    simp only [BitVec.getLsbD_and] at hbit
    rw [getLsbD_thmEncode _ _ (by omega)] at hbit
    interval_cases j <;> simpa [-BitVec.getLsbD_eq_getElem] using hbit
  rw [getLsbD_ofInt x (by omega), getLsbD_eq_toInt (by decide) _ (by omega), decide_eq_decide] at hsame
  have hdiv : ∀ y : Int, y / 2 / 2 ^ j = y / 2 ^ (1 + j) := by
    intro y
    rw [Int.ediv_ediv_of_nonneg (by decide), pow_add, pow_one]
  rw [hdiv, hdiv]
  exact hsame

/-! ## ARM branches -/

theorem armImm_toNat (inst : BitVec 32) : (armImm inst).toNat = (inst.extractLsb' 0 24).toNat * 4 +
    (if inst.extractLsb' 28 4 = 0xF#4 then inst.extractLsb' 24 1 else 0#1).toNat * 2 := by
  simp only [armImm, toNat_append_add, BitVec.toNat_ofNat, Nat.zero_mod]
  omega

/-- An offset of 24 bits is put into an instruction. -/
theorem getLsbD_applyReloc (inst x : BitVec 32) (hi : i < 32) :
    (applyReloc inst ((x &&& 0x03FFFFFE#32) >>> 2) 0xFFFFFF#32).getLsbD i =
      if i < 24 then x.getLsbD (i + 2) else inst.getLsbD i := by
  have hfits : ((x &&& 0x03FFFFFE#32) >>> 2) &&& ~~~0xFFFFFF#32 = 0#32 := by
    refine BitVec.eq_of_getLsbD_eq fun j hj => ?_
    interval_cases j <;> simp
  rw [applyReloc, if_neg (not_not_intro hfits)]
  interval_cases i <;> simp

/-- What is left of an instruction whose call goes to Thumb code. -/
theorem applyReloc_blx (inst x : BitVec 32) :
    applyReloc inst (0xFA#32 ||| ((x &&& 0x02#32) >>> 1)) 0xFF000000#32 = 0#32 := by
  have houtside : (0xFA#32 ||| ((x &&& 0x02#32) >>> 1)) &&& ~~~0xFF000000#32 ≠ 0#32 := by
    intro h
    have hbit := congrArg (BitVec.getLsbD · 1) h
    simp at hbit
  rw [applyReloc, if_pos houtside]

/-- The immediate of an instruction with another offset. -/
theorem armImm_applyReloc (inst x : BitVec 32) :
    (armImm (applyReloc inst ((x &&& 0x03FFFFFE#32) >>> 2) 0xFFFFFF#32)).toNat = x.toNat / 4 % 0x1000000 * 4 +
      (if inst.extractLsb' 28 4 = 0xF#4 then inst.extractLsb' 24 1 else 0#1).toNat * 2 := by
  have hpart : ∀ start len, 24 ≤ start → start + len ≤ 32 →
      (applyReloc inst ((x &&& 0x03FFFFFE#32) >>> 2) 0xFFFFFF#32).extractLsb' start len = inst.extractLsb' start len := by
    intro start len hstart hend
    refine BitVec.eq_of_getLsbD_eq fun i hi => ?_
    rw [BitVec.getLsbD_extractLsb', BitVec.getLsbD_extractLsb', getLsbD_applyReloc _ _ (by omega), if_neg (by omega)]
  have hlow : (applyReloc inst ((x &&& 0x03FFFFFE#32) >>> 2) 0xFFFFFF#32).extractLsb' 0 24 = x.extractLsb' 2 24 := by
    refine BitVec.eq_of_getLsbD_eq fun i hi => ?_
    rw [BitVec.getLsbD_extractLsb', BitVec.getLsbD_extractLsb', getLsbD_applyReloc _ _ (by omega), if_pos (by omega),
      Nat.zero_add, Nat.add_comm]
  rw [armImm_toNat, hpart 28 4 (by decide) (by decide), hpart 24 1 (by decide) (by decide), hlow,
    BitVec.extractLsb'_toNat, Nat.shiftRight_eq_div_pow]

theorem applyReloc_fixed (inst x : BitVec 32) : applyReloc inst ((x &&& 0x03FFFFFE#32) >>> 2) 0xFFFFFF#32 &&&
    RelocType.armCall.fixed inst = inst &&& RelocType.armCall.fixed inst := by
  refine BitVec.eq_of_getLsbD_eq fun i hi => ?_
  rw [BitVec.getLsbD_and, BitVec.getLsbD_and, getLsbD_applyReloc _ _ hi]
  by_cases hlt : i < 24
  · have hmask : (RelocType.armCall.fixed inst).getLsbD i = false := by
      unfold RelocType.fixed
      dsimp only
      split <;> interval_cases i <;> simp
    rw [hmask, Bool.and_false, Bool.and_false]
  · rw [if_neg hlt]

/-- The offset of a branch, with a sign or without one. -/
theorem signExtend_mod (inst : BitVec 32) :
    (if inst &&& 0x00800000#32 ≠ 0#32 then inst ||| 0xFF000000#32 else inst).toNat % 0x1000000 =
      (inst.extractLsb' 0 24).toNat := by
  have hlow : ∀ v : BitVec 32, v.toNat % 0x1000000 = (v.extractLsb' 0 24).toNat := by
    intro v
    rw [BitVec.extractLsb'_toNat, Nat.shiftRight_zero]
  rw [hlow]
  congr 1
  refine BitVec.eq_of_getLsbD_eq fun i hi => ?_
  rw [BitVec.getLsbD_extractLsb', BitVec.getLsbD_extractLsb']
  split
  · interval_cases i <;> simp
  · rfl

/-- The immediate of a branch whose offset is computed with an addend `A` of 32 bits. -/
theorem armImm_toInt_applyReloc {inst : BitVec 32} {A : Nat} {D : Int}
    (hA : A % 0x1000000 = (inst.extractLsb' 0 24).toNat) (halign : 4 ∣ D)
    (hlo : -0x2000000 ≤ D + (armImm inst).toInt) (hhi : D + (armImm inst).toInt < 0x2000000) :
    (armImm (applyReloc inst ((BitVec.ofInt 32 (D + A * 4) &&& 0x03FFFFFE#32) >>> 2) 0xFFFFFF#32)).toInt =
      D + (armImm inst).toInt := by
  have heq : armImm (applyReloc inst ((BitVec.ofInt 32 (D + A * 4) &&& 0x03FFFFFE#32) >>> 2) 0xFFFFFF#32) =
      BitVec.ofInt 26 (D + (armImm inst).toInt) := by
    refine BitVec.eq_of_toNat_eq ?_
    have hD := ofInt_toNat_mod (Nat.le_refl 32) (D + A * 4)
    have hX := BitVec.toNat_ofInt (n := 26) (D + (armImm inst).toInt)
    have himm := armImm_toNat inst
    obtain ⟨k, hk⟩ := toNat_of_toInt (armImm inst)
    obtain ⟨q, hq⟩ := halign
    rw [armImm_applyReloc, hX]
    generalize (if inst.extractLsb' 28 4 = 0xF#4 then inst.extractLsb' 24 1 else 0#1) = h at *
    have hbit := h.isLt
    generalize (armImm inst).toInt = a at *
    generalize (armImm inst).toNat = n at *
    generalize (BitVec.ofInt 32 (D + A * 4)).toNat = r at *
    generalize (inst.extractLsb' 0 24).toNat = l at *
    omega
  rw [heq, BitVec.toInt_ofInt_eq_self (by decide) hlo hhi]

namespace RelocType

variable {word : BitVec 32} {S P : Int} {isFunction : Bool}

theorem follows_movwAbsNc : movwAbsNc.Follows word S P isFunction := by
  intro _ _
  have hvalue : Arm.movwAbsNc word S isFunction = movEncode word _ _ := rfl
  have hdecoded : ((movImm (Arm.movwAbsNc word S isFunction)).toNat : Int) =
      orThumb (S + (movImm word).toInt) (isThumbFunc isFunction S) % 0x10000 := by
    rw [hvalue, movImm_movEncode, toNat_lowHalf, movLiteral_eq, signed16_eq]
  exact ⟨hdecoded, movEncode_fixed word _ _⟩

theorem follows_movtAbs : movtAbs.Follows word S P isFunction := by
  intro _ _
  have hvalue : Arm.movtAbs word S = movEncode word _ _ := rfl
  have hdecoded : ((movImm (Arm.movtAbs word S)).toNat : Int) = (S + (movImm word).toInt) / 0x10000 % 0x10000 := by
    rw [hvalue, movImm_movEncode, toNat_highHalf, movLiteral_eq, signed16_eq]
  exact ⟨hdecoded, movEncode_fixed word _ _⟩

/-- The literal is read with two of its fields in each other's place. -/
theorem follows_thmMovwAbsNc : thmMovwAbsNc.Follows word S P isFunction ↔ thmMovwAbsNc.When word S P isFunction := by
  have hvalue : thumbInst (Arm.thmMovwAbsNc word S isFunction) = thmMovEncode (thumbInst word) _ _ _ _ :=
    thumbInst_thumbWord _
  have hdecoded : ((thmMovImm (thumbInst (Arm.thmMovwAbsNc word S isFunction))).toNat : Int) =
      orThumb (S + (thmMovMisread (thumbInst word)).toInt) (isThumbFunc isFunction S) % 0x10000 := by
    rw [hvalue, thmMovImm_thmMovEncode, toNat_lowHalf, thmMovLiteral_eq, signed16_eq]
  obtain ⟨hiff, hparity⟩ := thmMovImm_toInt (thumbInst word)
  have hsub := orThumb_sub (x := S + (thmMovMisread (thumbInst word)).toInt)
    (y := S + (thmMovImm (thumbInst word)).toInt) (by omega) (isThumbFunc isFunction S)
  have hlo := BitVec.le_toInt (thmMovImm (thumbInst word))
  have hhi := BitVec.toInt_lt (x := thmMovImm (thumbInst word))
  have hlo' := BitVec.le_toInt (thmMovMisread (thumbInst word))
  have hhi' := BitVec.toInt_lt (x := thmMovMisread (thumbInst word))
  constructor
  · intro h
    refine hiff.mp ?_
    have hsame : ((thmMovImm (thumbInst (Arm.thmMovwAbsNc word S isFunction))).toNat : Int) =
        orThumb (S + (thmMovImm (thumbInst word)).toInt) (isThumbFunc isFunction S) % 0x10000 := (h trivial trivial).1
    rw [hdecoded] at hsame
    omega
  intro hwhen _ _
  have hsame := hiff.mpr hwhen
  refine ⟨?_, ?_⟩
  · rw [hsame] at hdecoded
    exact hdecoded
  · exact (congrArg (· &&& 0b11111011111100001000111100000000#32) hvalue).trans (thmMovEncode_fixed _ _ _ _ _)

theorem follows_thmMovtAbs : thmMovtAbs.Follows word S P isFunction ↔ thmMovtAbs.When word S P isFunction := by
  have hvalue : thumbInst (Arm.thmMovtAbs word S) = thmMovEncode (thumbInst word) _ _ _ _ := thumbInst_thumbWord _
  have hdecoded : ((thmMovImm (thumbInst (Arm.thmMovtAbs word S))).toNat : Int) =
      (S + (thmMovMisread (thumbInst word)).toInt) / 0x10000 % 0x10000 := by
    rw [hvalue, BitVec.shiftRight_add _ 16 12, BitVec.shiftRight_add _ 16 11, BitVec.shiftRight_add _ 16 8,
      thmMovImm_thmMovEncode, toNat_highHalf, thmMovLiteral_eq, signed16_eq]
  constructor
  · intro h
    have hsame := (h trivial trivial).1
    exact hdecoded.symm.trans hsame
  · intro hwhen _ _
    refine ⟨hdecoded.trans hwhen, ?_⟩
    exact (congrArg (· &&& 0b11111011111100001000111100000000#32) hvalue).trans (thmMovEncode_fixed _ _ _ _ _)

theorem follows_thmCall : thmCall.Follows word S P isFunction := by
  intro _ hrange
  have hvalue := thmCall_offset word S P isFunction
  refine ⟨?_, ?_⟩
  · change (thmBranchImm (thumbInst (Arm.thmCall none word S P isFunction))).toInt = _
    rw [hvalue]
    exact toInt_of_bits (by decide) (by decide) (fun i hi => getLsbD_thmBranchImm_thmEncode _ _ hi) hrange.1 hrange.2
  · exact (congrArg (· &&& 0b11111000000000001101000000000000#32) hvalue).trans (thmEncode_fixed _ _)

/-- A conditional branch is encoded as one without a condition: its condition is taken for
a part of the offset, and the sum of both is put back. -/
theorem follows_thmJump19 : thmJump19.Follows word S P isFunction ↔
    (thmJump19.InRange S P (thmJump19.result S (thmJump19.addend (thmJump19.instruction word)) P
        (isThumbFunc isFunction S)) (isThumbFunc isFunction S) → thmJump19.When word S P isFunction) := by
  have hvalue := thmCall_offset word S P isFunction
  obtain ⟨hmod, heven⟩ := thmCondImm_mod (thumbInst word)
  have hsub := orThumb_sub (x := S + (thmBranchImm (thumbInst word)).toInt)
    (y := S + (thmCondImm (thumbInst word)).toInt) (by omega) (isThumbFunc isFunction S)
  have hbranch : ∀ i < 25, (thmBranchImm (thumbInst word)).getLsbD i = _ :=
    fun i hi => getLsbD_eq_toInt (by decide) (thmBranchImm (thumbInst word)) hi
  have hcond : ∀ i < 21, (thmCondImm (thumbInst word)).getLsbD i = _ :=
    fun i hi => getLsbD_eq_toInt (by decide) (thmCondImm (thumbInst word)) hi
  have hlo := BitVec.le_toInt (thmCondImm (thumbInst word))
  have hhi := BitVec.toInt_lt (x := thmCondImm (thumbInst word))
  have hbits : ∀ i < 32, (BitVec.ofInt 32
      (orThumb (S + (thmBranchImm (thumbInst word)).toInt) (isThumbFunc isFunction S) - P)).getLsbD i = _ :=
    fun i hi => getLsbD_ofInt _ hi
  change (True → (-0x100000 ≤ orThumb (S + (thmCondImm (thumbInst word)).toInt) (isThumbFunc isFunction S) - P ∧
      orThumb (S + (thmCondImm (thumbInst word)).toInt) (isThumbFunc isFunction S) - P < 0x100000) →
    (thmCondImm (thumbInst (Arm.thmCall none word S P isFunction))).toInt =
        (orThumb (S + (thmCondImm (thumbInst word)).toInt) (isThumbFunc isFunction S) - P) -
          (orThumb (S + (thmCondImm (thumbInst word)).toInt) (isThumbFunc isFunction S) - P) % 2 ∧
      thumbInst (Arm.thmCall none word S P isFunction) &&& 0b11111011110000001101000000000000#32 =
        thumbInst word &&& 0b11111011110000001101000000000000#32) ↔
    (-0x100000 ≤ orThumb (S + (thmCondImm (thumbInst word)).toInt) (isThumbFunc isFunction S) - P ∧
      orThumb (S + (thmCondImm (thumbInst word)).toInt) (isThumbFunc isFunction S) - P < 0x100000 →
      (orThumb (S + (thmCondImm (thumbInst word)).toInt) (isThumbFunc isFunction S) - P) / 0x40000 =
        (thmCondImm (thumbInst word)).toInt / 0x40000)
  rw [hvalue]
  generalize hY : orThumb (S + (thmBranchImm (thumbInst word)).toInt) (isThumbFunc isFunction S) = Y at *
  generalize hX : orThumb (S + (thmCondImm (thumbInst word)).toInt) (isThumbFunc isFunction S) = X at *
  generalize thumbInst word = inst at *
  have hYX : (Y - P) % 2 ^ 18 = (X - P) % 2 ^ 18 := by
    clear hbits hbranch hcond
    omega
  constructor
  · -- the bits 22 to 25 are the condition
    intro h hrange
    have hfixed := (h trivial hrange).2
    have hsame : ∀ j, 18 ≤ j → j < 22 → (BitVec.ofInt 32 (Y - P)).getLsbD j = (thmBranchImm inst).getLsbD j := by
      intro j hle hlt
      have hbit := congrArg (BitVec.getLsbD · (j + 4)) hfixed
      simp only [BitVec.getLsbD_and] at hbit
      rw [getLsbD_thmEncode _ _ (by omega)] at hbit
      rw [getLsbD_thmBranchImm inst (by omega)]
      interval_cases j <;> simpa [-BitVec.getLsbD_eq_getElem] using hbit
    have hbit : ∀ j, 18 ≤ j → j < 22 → ((Y - P) / 2 ^ j % 2 = 1 ↔ (thmBranchImm inst).toInt / 2 ^ j % 2 = 1) := by
      intro j hle hlt
      have := hsame j hle hlt
      rwa [hbits j (by omega), hbranch j (by omega), decide_eq_decide] at this
    have hquot : (Y - P) / 2 ^ 18 % 2 ^ 4 = (thmBranchImm inst).toInt / 2 ^ 18 % 2 ^ 4 := by
      refine emod_two_pow_of_bits fun i hi => ?_
      rw [Int.ediv_ediv_of_nonneg (by positivity), Int.ediv_ediv_of_nonneg (by positivity), ← pow_add]
      exact hbit (18 + i) (by omega) (by omega)
    clear hbits hbranch hcond h hfixed hsame hbit
    omega
  · intro h _ hrange
    have hwhen : (X - P) / 2 ^ 18 = (thmCondImm inst).toInt / 2 ^ 18 := h hrange
    have hY18 : (Y - P) / 2 ^ 18 = (thmBranchImm inst).toInt / 2 ^ 18 := by
      clear hbits hbranch hcond
      omega
    have hsame : ∀ j, 18 ≤ j → j < 25 → (BitVec.ofInt 32 (Y - P)).getLsbD j = (thmBranchImm inst).getLsbD j := by
      intro j hle hlt
      rw [hbits j (by omega), hbranch j hlt, ediv_two_pow_of_le hY18 hle]
    refine ⟨toInt_of_bits (by decide) (by decide) (fun i hi => ?_) hrange.1 hrange.2, ?_⟩
    · by_cases hlt : i < 18
      · rw [getLsbD_thmCondImm_thmEncode _ _ hlt, hbits i (by omega), getLsbD_ofInt _ (by omega)]
        rw [bit_of_emod hYX hlt]
      have hinst : (thmCondImm (thmEncode inst (BitVec.ofInt 32 (Y - P)))).getLsbD i = (thmCondImm inst).getLsbD i := by
        simp only [getLsbD_thmCondImm _ hi, show ¬ i = 0 by omega, show ¬ i < 12 by omega, hlt, if_false,
          getLsbD_thmEncode_of_high hsame (show 13 < 32 by decide) (by decide),
          getLsbD_thmEncode_of_high hsame (show 11 < 32 by decide) (by decide),
          getLsbD_thmEncode_of_high hsame (show 26 < 32 by decide) (by decide)]
      rw [hinst, hcond i hi, getLsbD_ofInt _ (by omega), decide_eq_true (show 0 < i by omega), Bool.true_and,
        ediv_two_pow_of_le hwhen (Nat.le_of_not_lt hlt)]
    · refine BitVec.eq_of_getLsbD_eq fun i hi => ?_
      rw [BitVec.getLsbD_and, BitVec.getLsbD_and]
      by_cases hplace : i = 11 ∨ i = 13 ∨ 22 ≤ i
      · rw [getLsbD_thmEncode_of_high hsame hi hplace]
      · rw [getLsbD_thmEncode _ _ hi]
        interval_cases i <;> simp at hplace ⊢

/-- A compare and branch is encoded as a branch of two halfwords, the second of which is
the next instruction. -/
theorem follows_thmJump6 : thmJump6.Follows word S P isFunction ↔
    (thmJump6.InRange S P (thmJump6.result S (thmJump6.addend (thmJump6.instruction word)) P
        (isThumbFunc isFunction S)) (isThumbFunc isFunction S) → thmJump6.When word S P isFunction) := by
  have hvalue := thmCall_offset word S P isFunction
  have heven := (thmCondImm_mod (thumbInst word)).2
  have hcbz : (thmCbzImm (thumbInst word)).toNat % 2 = 0 := by
    simp only [thmCbzImm, toNat_append_add, BitVec.toNat_ofNat, Nat.zero_mod]
    omega
  have hsub := orThumb_sub (x := S + (thmBranchImm (thumbInst word)).toInt)
    (y := S + ((((thmCbzImm (thumbInst word)).toNat + 4) % 128 : Nat) - 4)) (by omega) (isThumbFunc isFunction S)
  change (True → (0 ≤ orThumb (S + ((((thmCbzImm (thumbInst word)).toNat + 4) % 128 : Nat) - 4))
          (isThumbFunc isFunction S) - P ∧
      orThumb (S + ((((thmCbzImm (thumbInst word)).toNat + 4) % 128 : Nat) - 4)) (isThumbFunc isFunction S) - P < 0x80) →
    ((thmCbzImm (thumbInst (Arm.thmCall none word S P isFunction))).toNat : Int) =
        (orThumb (S + ((((thmCbzImm (thumbInst word)).toNat + 4) % 128 : Nat) - 4)) (isThumbFunc isFunction S) - P) -
          (orThumb (S + ((((thmCbzImm (thumbInst word)).toNat + 4) % 128 : Nat) - 4)) (isThumbFunc isFunction S) - P) % 2 ∧
      thumbInst (Arm.thmCall none word S P isFunction) &&& 0b11111101000001111111111111111111#32 =
        thumbInst word &&& 0b11111101000001111111111111111111#32) ↔
    (0 ≤ orThumb (S + ((((thmCbzImm (thumbInst word)).toNat + 4) % 128 : Nat) - 4)) (isThumbFunc isFunction S) - P ∧
      orThumb (S + ((((thmCbzImm (thumbInst word)).toNat + 4) % 128 : Nat) - 4)) (isThumbFunc isFunction S) - P < 0x80 →
      (orThumb (S + ((((thmCbzImm (thumbInst word)).toNat + 4) % 128 : Nat) - 4)) (isThumbFunc isFunction S) - P) -
          (orThumb (S + ((((thmCbzImm (thumbInst word)).toNat + 4) % 128 : Nat) - 4)) (isThumbFunc isFunction S) - P) % 2 =
        ((((thmCbzImm (thumbInst word)).toNat + 4) % 128 : Nat) - 4))
  rw [hvalue]
  generalize hY : orThumb (S + (thmBranchImm (thumbInst word)).toInt) (isThumbFunc isFunction S) = Y at *
  generalize hX : orThumb (S + ((((thmCbzImm (thumbInst word)).toNat + 4) % 128 : Nat) - 4))
    (isThumbFunc isFunction S) = X at *
  generalize thumbInst word = inst at *
  clear hY hX hvalue
  constructor
  · intro h hrange
    have hmod := emod_of_thmEncode_fixed (h trivial hrange).2
    clear h
    omega
  intro h _ hrange
  have hwhen := h hrange
  have hself : thmEncode inst (BitVec.ofInt 32 (Y - P)) = inst := by
    refine thmEncode_self fun j hpos hlt => ?_
    have hhalf : (Y - P) / 2 ^ 1 = (thmBranchImm inst).toInt / 2 ^ 1 := by omega
    rw [getLsbD_ofInt _ (by omega), getLsbD_eq_toInt (by decide) _ hlt, ediv_two_pow_of_le hhalf hpos]
  rw [hself]
  refine ⟨?_, rfl⟩
  clear h hself
  omega

theorem follows_armCall : armCall.Follows word S P isFunction ↔ (armCall.IsInstruction word →
    armCall.InRange S P (armCall.result S (armCall.addend word) P (isThumbFunc isFunction S)) (isThumbFunc isFunction S) →
      armCall.When word S P isFunction) := by
  constructor
  · intro h hbranch hrange
    have hfixed := (h hbranch hrange).2
    cases hT : isThumbFunc isFunction S with
    | false => exact hT
    | true =>
      have hvalue : Arm.armCall word S P isFunction = 0#32 := by
        simp only [Arm.armCall, hT, if_true]
        exact applyReloc_blx word _
      have hzero : (0#32 : BitVec 32) &&& armCall.fixed word = word &&& armCall.fixed word :=
        (congrArg (· &&& armCall.fixed word) hvalue).symm.trans hfixed
      have hbit := congrArg (BitVec.getLsbD · 27) hzero
      have hword : word.getLsbD 27 = true := by
        have := congrArg (BitVec.getLsbD · 2) hbranch
        simpa [instruction] using this
      simp only [fixed, BitVec.getLsbD_and, hword] at hbit
      split at hbit <;> simp at hbit
  · intro h hbranch hrange
    have hT : isThumbFunc isFunction S = false := h hbranch hrange
    let A := if word &&& 0x00800000#32 ≠ 0#32 then word ||| 0xFF000000#32 else word
    have hvalue : Arm.armCall word S P isFunction =
        applyReloc word ((BitVec.ofInt 32 (S + A.toNat * 4 - P) &&& 0x03FFFFFE#32) >>> 2) 0xFFFFFF#32 := by
      simp only [Arm.armCall, hT, orThumb]
      simp [A]
    have hsum : S + A.toNat * 4 - P = S - P + A.toNat * 4 := by omega
    have hX : S + (armImm word).toInt - P = S - P + (armImm word).toInt := by omega
    have hresult : armCall.result S (armCall.addend word) P (isThumbFunc isFunction S) = S - P + (armImm word).toInt := by
      rw [hT, ← hX]
      simp [result, addend, orThumb]
    have heven : (armImm word).toInt % 2 = 0 := by
      have himm := armImm_toNat word
      obtain ⟨k, hk⟩ := toNat_of_toInt (armImm word)
      omega
    rw [hsum] at hvalue
    have hrange' : -0x2000000 ≤ S - P + (armImm word).toInt ∧ S - P + (armImm word).toInt < 0x2000000 ∧
        (isThumbFunc isFunction S = false → 4 ∣ S - P) := hresult ▸ hrange
    have halign := hrange'.2.2 hT
    refine ⟨?_, ?_⟩
    · change (armImm (Arm.armCall word S P isFunction)).toInt =
        armCall.encoded (armCall.result S (armCall.addend word) P (isThumbFunc isFunction S))
      rw [hvalue, armImm_toInt_applyReloc (signExtend_mod word) halign hrange'.1 hrange'.2.1, hresult]
      change _ = _ - _ % 2
      omega
    · exact (congrArg (· &&& armCall.fixed word) hvalue).trans (applyReloc_fixed word _)

/-- A relocation follows the ABI at exactly these places: a call of ARM code, a conditional
branch or a compare and branch whose upper bits do not change, and a Thumb move whose
literal is read the same in both orders of its fields. -/
theorem follows_iff (type : RelocType) (word : BitVec 32) (S P : Int) (isFunction : Bool) :
    type.Follows word S P isFunction ↔ (type.IsInstruction (type.instruction word) →
      type.InRange S P (type.result S (type.addend (type.instruction word)) P (isThumbFunc isFunction S))
        (isThumbFunc isFunction S) → type.When word S P isFunction) := by
  cases type with
  | armCall => exact follows_armCall
  | armJump24 => exact follows_armCall
  | movwAbsNc => exact ⟨fun _ _ _ => trivial, fun _ => follows_movwAbsNc⟩
  | movtAbs => exact ⟨fun _ _ _ => trivial, fun _ => follows_movtAbs⟩
  | thmCall => exact ⟨fun _ _ _ => trivial, fun _ => follows_thmCall⟩
  | thmJump24 => exact ⟨fun _ _ _ => trivial, fun _ => follows_thmCall⟩
  | thmJump19 => exact follows_thmJump19.trans ⟨fun h _ => h, fun h => h trivial⟩
  | thmJump6 => exact follows_thmJump6.trans ⟨fun h _ => h, fun h => h trivial⟩
  | thmMovwAbsNc => exact follows_thmMovwAbsNc.trans ⟨fun h _ _ => h, fun h => h trivial trivial⟩
  | thmMovtAbs => exact follows_thmMovtAbs.trans ⟨fun h _ _ => h, fun h => h trivial trivial⟩

/-- A call of a Thumb function becomes a word of zeros. -/
theorem call_of_thumb_zeroed :
    ¬ ∀ (type : RelocType) (word : BitVec 32) (S P : Int) (isFunction : Bool), type.Follows word S P isFunction := by
  intro h
  have hcall := h armCall 0xEBFFFFFE#32 0x8101 0x8000 true rfl
    ⟨by decide, by decide, fun hT => absurd hT (by decide)⟩
  exact absurd hcall.2 (by decide)

end RelocType

end Vibr.Cle.Arm
