import Vibr.Vex.ArmCCall

/-!
# The flags of ARM operations

As for x86, the flags are said in terms of exact results. What holds of the helpers of all
four architectures is put together at the end.
-/

namespace Angr.CCall

open Flags ArithOp

variable {w size : Nat} {op : ArithOp} {ccDep1 ccDep2 ccDep3 : BitVec w} {c : Bool}

/-- The flags of the operations of ARM; the carry flag of a subtraction is that there is no borrow. -/
def ArithOp.documented (op : ArithOp) (ccDep1 ccDep2 : BitVec w) (oldC : Bool) : FlagValues :=
  let c := oldC.toNat
  let borrow := (!oldC).toNat
  match op with
  | ADD => exactFlags w (ccDep1.toNat + ccDep2.toNat) (ccDep1.toInt + ccDep2.toInt)
  | ADC => exactFlags w (ccDep1.toNat + ccDep2.toNat + c) (ccDep1.toInt + ccDep2.toInt + c)
  | SUB =>
    let u : Int := ccDep1.toNat - ccDep2.toNat
    { exactFlags w u (ccDep1.toInt - ccDep2.toInt) with carry := !carries w u }
  | SBB =>
    let u : Int := ccDep1.toNat - ccDep2.toNat - borrow
    { exactFlags w u (ccDep1.toInt - ccDep2.toInt - borrow) with carry := !carries w u }

/-! ## Flags as numbers -/

theorem toNat_booleanExtend (hw : 0 < w) : (booleanExtend c w).toNat = c.toNat := by
  cases c
  · exact BitVec.toNat_zero
  · exact toNat_one hw

theorem setWidth_ofBool (hsize : 0 < size) : (BitVec.ofBool c).setWidth size = booleanExtend c size := by
  refine BitVec.eq_of_toNat_eq ?_
  rw [BitVec.toNat_setWidth_of_le (by omega), BitVec.toNat_ofBool, toNat_booleanExtend hsize]

theorem setWidth_booleanExtend (hw : 0 < w) (hsize : w ≤ size) :
    (booleanExtend c w).setWidth size = booleanExtend c size := by
  refine BitVec.eq_of_toNat_eq ?_
  rw [BitVec.toNat_setWidth_of_le hsize, toNat_booleanExtend hw, toNat_booleanExtend (by omega)]

theorem ushiftRight_top (hw : 0 < w) (x : BitVec w) : x >>> (w - 1) = booleanExtend x.msb w := by
  have hpow := two_pow_eq hw
  have hlt := x.isLt
  have hdiv : x.toNat / 2 ^ (w - 1) < 2 := by
    rw [Nat.div_lt_iff_lt_mul (Nat.two_pow_pos _)]
    omega
  refine BitVec.eq_of_toNat_eq ?_
  rw [BitVec.toNat_ushiftRight, Nat.shiftRight_eq_div_pow, toNat_booleanExtend hw]
  cases hmsb : x.msb with
  | false =>
    rw [Bool.eq_false_iff, ne_eq, msb_iff] at hmsb
    exact Nat.div_eq_of_lt (by omega)
  | true =>
    rw [msb_iff] at hmsb
    have hge : 1 ≤ x.toNat / 2 ^ (w - 1) := (Nat.one_le_div_iff (Nat.two_pow_pos _)).mpr hmsb
    change x.toNat / 2 ^ (w - 1) = 1
    omega

/-! ## Additions and subtractions -/

theorem booleanExtend_xor_one : booleanExtend c w ^^^ 1#w = booleanExtend (!c) w := by
  cases c
  · exact BitVec.zero_xor
  · exact BitVec.xor_self

theorem booleanExtend_eq_zero (hw : 0 < w) : booleanExtend c w = 0#w ↔ c = false := by
  rw [eq_zero_iff, toNat_booleanExtend hw]
  cases c <;> decide

theorem toNat_booleanExtend_le (hw : 0 < w) : (booleanExtend c w).toNat ≤ 1 := by
  rw [toNat_booleanExtend hw]
  exact Bool.toNat_le c

/-- The result is the exact one, wrapped. -/
theorem wraps_res (hw : 0 < w) : ∃ u s, (op.documented ccDep1 ccDep2 c).zero = isZero w u ∧
    (op.documented ccDep1 ccDep2 c).sign = isNegative w u ∧ (op.documented ccDep1 ccDep2 c).overflow = overflows w s ∧
    Wraps (op.res ccDep1 ccDep2 (booleanExtend c w)) u := by
  cases op with
  | ADD =>
    have hwraps := wraps_add (l := ccDep1) (r := ccDep2) (k := 0#w)
    rw [BitVec.add_zero, BitVec.toNat_zero, Int.natCast_zero, Int.add_zero] at hwraps
    exact ⟨_, _, rfl, rfl, rfl, hwraps⟩
  | SUB =>
    have hwraps := wraps_sub (l := ccDep1) (r := ccDep2) (k := 0#w)
    rw [BitVec.sub_zero, BitVec.toNat_zero, Int.natCast_zero, Int.sub_zero] at hwraps
    exact ⟨_, _, rfl, rfl, rfl, hwraps⟩
  | ADC =>
    refine ⟨_, _, rfl, rfl, rfl, ?_⟩
    rw [← toNat_booleanExtend hw]
    exact wraps_add
  | SBB =>
    refine ⟨_, _, rfl, rfl, rfl, ?_⟩
    rw [← toNat_booleanExtend hw, res, booleanExtend_xor_one]
    exact wraps_sub

theorem flagN_eq (hw : 0 < w) : op.flagN ccDep1 ccDep2 (booleanExtend c w) =
    booleanExtend (op.documented ccDep1 ccDep2 c).sign w := by
  obtain ⟨u, s, -, hsign, -, hwraps⟩ := @wraps_res w op ccDep1 ccDep2 c hw
  rw [flagN, ushiftRight_top hw, hsign, hwraps.negative]

theorem flagZ_eq (hw : 0 < w) (hsize : 0 < size) : op.flagZ ccDep1 ccDep2 (booleanExtend c w) size =
    booleanExtend (op.documented ccDep1 ccDep2 c).zero size := by
  obtain ⟨u, s, hzero, -, -, hwraps⟩ := @wraps_res w op ccDep1 ccDep2 c hw
  rw [flagZ, calcZerobit, condFlag_eq, setWidth_ofBool hsize, hzero, hwraps.zero]

theorem flagC_eq (hw : 0 < w) : op.flagC ccDep1 ccDep2 (booleanExtend c w) size =
    booleanExtend (op.documented ccDep1 ccDep2 c).carry size := by
  have hzero : (0#w).toNat ≤ 1 := by simp
  have hfalse : booleanExtend false w = 0#w := rfl
  have htrue : booleanExtend true w ≠ 0#w := fun h => Bool.noConfusion ((booleanExtend_eq_zero hw).mp h)
  have hnot_lt : ∀ x y : BitVec w, decide (y ≤ x) = !decide (x < y) := by
    intro x y
    rw [← decide_not, decide_eq_decide, BitVec.not_lt]
  have hnot_le : ∀ x y : BitVec w, decide (y < x) = !decide (x ≤ y) := by
    intro x y
    rw [← decide_not, decide_eq_decide, BitVec.not_le]
  cases op with
  | ADD =>
    have hcarry := carries_add (l := ccDep1) (r := ccDep2) hzero
    rw [BitVec.toNat_zero, Int.natCast_zero, Int.add_zero, BitVec.add_zero, if_pos rfl] at hcarry
    exact congrArg (booleanExtend · size) hcarry.symm
  | SUB =>
    have hborrow := carries_sub (l := ccDep1) (r := ccDep2) hzero
    rw [BitVec.toNat_zero, Int.natCast_zero, Int.sub_zero, if_pos rfl] at hborrow
    refine congrArg (booleanExtend · size) ?_
    rw [hnot_lt, ← hborrow]
    rfl
  | ADC =>
    have hcarry := carries_add (l := ccDep1) (r := ccDep2) (toNat_booleanExtend_le (c := c) hw)
    rw [toNat_booleanExtend hw] at hcarry
    unfold flagC
    dsimp only
    cases c with
    | false =>
      rw [if_pos hfalse] at hcarry
      rw [if_neg (not_not_intro hfalse)]
      exact congrArg (booleanExtend · size) hcarry.symm
    | true =>
      rw [if_neg htrue] at hcarry
      rw [if_pos htrue]
      exact congrArg (booleanExtend · size) hcarry.symm
  | SBB =>
    have hborrow := carries_sub (l := ccDep1) (r := ccDep2) (toNat_booleanExtend_le (c := !c) hw)
    rw [toNat_booleanExtend hw] at hborrow
    unfold flagC
    dsimp only
    cases c with
    | false =>
      rw [Bool.not_false, if_neg htrue] at hborrow
      rw [if_neg (not_not_intro hfalse), hnot_le, ← hborrow]
      rfl
    | true =>
      rw [Bool.not_true, if_pos hfalse] at hborrow
      rw [if_pos htrue, hnot_lt, ← hborrow]
      rfl

theorem flagV_eq (hw : 0 < w) : op.flagV ccDep1 ccDep2 (booleanExtend c w) =
    booleanExtend (op.documented ccDep1 ccDep2 c).overflow w := by
  have hzero : (0#w).toNat ≤ 1 := by simp
  have hadd : ∀ a b s : Bool, ((s ^^ a) && (s ^^ b)) = (a == b && a != s) := by decide
  have hsub : ∀ a b s : Bool, ((a ^^ b) && (a ^^ s)) = (a != b && a != s) := by decide
  cases op with
  | ADD =>
    have hoverflow := overflows_add (l := ccDep1) (r := ccDep2) hw hzero
    simp only [BitVec.toNat_zero, Int.natCast_zero, Int.add_zero, BitVec.add_zero] at hoverflow
    simp only [flagV, res, ushiftRight_top hw, BitVec.msb_and, BitVec.msb_xor, hadd, ArithOp.documented, exactFlags,
      hoverflow]
  | SUB =>
    have hoverflow := overflows_sub (l := ccDep1) (r := ccDep2) hw hzero
    simp only [BitVec.toNat_zero, Int.natCast_zero, Int.sub_zero, BitVec.sub_zero] at hoverflow
    simp only [flagV, res, ushiftRight_top hw, BitVec.msb_and, BitVec.msb_xor, hsub, ArithOp.documented, exactFlags,
      hoverflow]
  | ADC =>
    have hoverflow := overflows_add (l := ccDep1) (r := ccDep2) hw (toNat_booleanExtend_le (c := c) hw)
    rw [toNat_booleanExtend hw] at hoverflow
    simp only [flagV, res, ushiftRight_top hw, BitVec.msb_and, BitVec.msb_xor, hadd, ArithOp.documented, exactFlags,
      hoverflow]
  | SBB =>
    have hoverflow := overflows_sub (l := ccDep1) (r := ccDep2) hw (toNat_booleanExtend_le (c := !c) hw)
    rw [toNat_booleanExtend hw] at hoverflow
    simp only [flagV, res, booleanExtend_xor_one, ushiftRight_top hw, BitVec.msb_and, BitVec.msb_xor, hsub,
      ArithOp.documented, exactFlags, hoverflow]

/-! ## Conditions -/

/-- What a condition of ARM says of the flags. NV is never met on ARM, and always on ARM64. -/
def ArmCond.holds (cond : ArmCond) (v : FlagValues) (nv : Bool) : Bool :=
  match cond with
  | .EQ => v.zero
  | .NE => !v.zero
  | .HS => v.carry
  | .LO => !v.carry
  | .MI => v.sign
  | .PL => !v.sign
  | .VS => v.overflow
  | .VC => !v.overflow
  | .HI => v.carry && !v.zero
  | .LS => !v.carry || v.zero
  | .GE => v.sign == v.overflow
  | .LT => v.sign != v.overflow
  | .GT => !v.zero && v.sign == v.overflow
  | .LE => v.zero || v.sign != v.overflow
  | .AL => true
  | .NV => nv

def ArmCond.inverted : ArmCond → Bool
  | .NE | .LO | .PL | .VC | .LS | .LT | .LE | .NV => true
  | _ => false

theorem armConds_inverted {k : Nat} {cond : ArmCond} (h : armConds[k]? = some cond) :
    BitVec.ofNat w (k &&& 1) = booleanExtend cond.inverted w := by
  have hall : ∀ k : Fin 16, (armConds[(k : Nat)]?).all fun cond => (k : Nat) &&& 1 = cond.inverted.toNat := by decide
  obtain ⟨hlt, -⟩ := List.getElem?_eq_some_iff.mp h
  have hcond := hall ⟨k, hlt⟩
  rw [h] at hcond
  rw [of_decide_eq_true hcond]
  cases cond.inverted <;> rfl

section conditions

variable {condNOp : Nat} {cond : ArmCond} {v : FlagValues}

theorem armgCalculateCondition_eq {dep1 dep2 dep3 : BitVec 32} (hcond : armConds[condNOp >>> 4]? = some cond)
    (hnv : cond ≠ .NV)
    (hn : armgCalculateFlagN (condNOp &&& 0xF) dep1 dep2 dep3 = some (booleanExtend v.sign 32))
    (hz : armgCalculateFlagZ (condNOp &&& 0xF) dep1 dep2 dep3 = some (booleanExtend v.zero 32))
    (hc : armgCalculateFlagC (condNOp &&& 0xF) dep1 dep2 dep3 = some (booleanExtend v.carry 32))
    (hv : armgCalculateFlagV (condNOp &&& 0xF) dep1 dep2 dep3 = some (booleanExtend v.overflow 32)) :
    armgCalculateCondition condNOp dep1 dep2 dep3 = some (booleanExtend (cond.holds v false) 32) := by
  obtain ⟨c, z, s, o⟩ := v
  unfold armgCalculateCondition
  simp only [hcond, hn, hz, hc, hv, armConds_inverted hcond]
  cases cond with
  | NV => exact absurd rfl hnv
  | _ => cases c <;> cases z <;> cases s <;> cases o <;> rfl

theorem arm64gCalculateCondition_eq {dep1 dep2 dep3 : BitVec 64} (hcond : armConds[condNOp >>> 4]? = some cond)
    (hn : arm64gCalculateFlagN (condNOp &&& 0xF) dep1 dep2 dep3 = some (booleanExtend v.sign 64))
    (hz : arm64gCalculateFlagZ (condNOp &&& 0xF) dep1 dep2 dep3 = some (booleanExtend v.zero 64))
    (hc : arm64gCalculateFlagC (condNOp &&& 0xF) dep1 dep2 dep3 = some (booleanExtend v.carry 64))
    (hv : arm64gCalculateFlagV (condNOp &&& 0xF) dep1 dep2 dep3 = some (booleanExtend v.overflow 64)) :
    arm64gCalculateCondition condNOp dep1 dep2 dep3 = some (booleanExtend (cond.holds v true) 64) := by
  obtain ⟨c, z, s, o⟩ := v
  unfold arm64gCalculateCondition
  simp only [hcond, hn, hz, hc, hv, armConds_inverted hcond]
  cases cond <;> cases c <;> cases z <;> cases s <;> cases o <;> rfl

end conditions

/-! ## All architectures -/

theorem x86_flags {platform : Platform} {ccOp : Nat} {dep1 dep2 ndep : BitVec platform.size} {name : OpName}
    {suffix : Suffix} {v : FlagValues} (hop : opType platform ccOp = some (.op name suffix))
    (hv : documented name (dep1.extractLsb' 0 suffix.nbits) (dep2.extractLsb' 0 suffix.nbits)
      (ndep.extractLsb' 0 suffix.nbits) = some v) :
    ∃ rdata, pcCalculateRdataAllWRK platform ccOp dep1 dep2 ndep = some rdata ∧ rdata.values = v ∧
      ∀ cond c, condType platform cond = some c → c ≠ .Always →
        pcCalculateCondition platform ccOp dep1 dep2 ndep cond =
          some (extend platform (BitVec.ofBool (c.holds rdata.parity v))) := by
  have hnbits : 0 < suffix.nbits := by cases suffix <;> decide
  have hrdata : pcCalculateRdataAllWRK platform ccOp dep1 dep2 ndep = some (.flags (pcActions name
      (dep1.extractLsb' 0 suffix.nbits) (dep2.extractLsb' 0 suffix.nbits) (ndep.extractLsb' 0 suffix.nbits))) := by
    unfold pcCalculateRdataAllWRK
    rw [hop]
  have hvalues := @Rdata.HasFlags.values platform.size _ _ (hasFlags_of_documented hnbits hv)
  refine ⟨_, hrdata, hvalues, fun cond c hc hcond => ?_⟩
  rw [pcCalculateCondition_eq hrdata hc hcond, hvalues]

theorem armg_flags {ccOp : Nat} {op : ArithOp} (dep1 dep2 : BitVec 32) (oldC : Bool)
    (hop : armgOps[ccOp]? = some (.arith op)) :
    let v := op.documented dep1 dep2 oldC
    let dep3 := booleanExtend oldC 32
    armgCalculateFlagN ccOp dep1 dep2 dep3 = some (booleanExtend v.sign 32) ∧
      armgCalculateFlagZ ccOp dep1 dep2 dep3 = some (booleanExtend v.zero 32) ∧
      armgCalculateFlagC ccOp dep1 dep2 dep3 = some (booleanExtend v.carry 32) ∧
      armgCalculateFlagV ccOp dep1 dep2 dep3 = some (booleanExtend v.overflow 32) := by
  unfold armgCalculateFlagN armgCalculateFlagZ armgCalculateFlagC armgCalculateFlagV
  rw [hop]
  refine ⟨?_, ?_, ?_, ?_⟩
  · exact congrArg some (flagN_eq (by decide))
  · exact congrArg some (flagZ_eq (by decide) (by decide))
  · exact congrArg some (flagC_eq (by decide))
  · exact congrArg some (flagV_eq (by decide))

/-- The documented flags of an operation of ARM64, from all or from the lower halves of its operands. -/
def Arm64gOp.documented (op : Arm64gOp) (dep1 dep2 : BitVec 64) (oldC : Bool) : Option FlagValues :=
  match op with
  | .arith32 op => some (op.documented (u64ToU32 dep1) (u64ToU32 dep2) oldC)
  | .arith64 op => some (op.documented dep1 dep2 oldC)
  | _ => none

theorem arm64g_flags {ccOp : Nat} {op : Arm64gOp} {dep1 dep2 : BitVec 64} {oldC : Bool} {v : FlagValues}
    (hop : arm64gOps[ccOp]? = some op) (hv : op.documented dep1 dep2 oldC = some v) :
    let dep3 := booleanExtend oldC 64
    arm64gCalculateFlagN ccOp dep1 dep2 dep3 = some (booleanExtend v.sign 64) ∧
      arm64gCalculateFlagZ ccOp dep1 dep2 dep3 = some (booleanExtend v.zero 64) ∧
      arm64gCalculateFlagC ccOp dep1 dep2 dep3 = some (booleanExtend v.carry 64) ∧
      arm64gCalculateFlagV ccOp dep1 dep2 dep3 = some (booleanExtend v.overflow 64) := by
  have hlow : u64ToU32 (booleanExtend oldC 64) = booleanExtend oldC 32 := by cases oldC <;> rfl
  unfold arm64gCalculateFlagN arm64gCalculateFlagZ arm64gCalculateFlagC arm64gCalculateFlagV
  rw [hop]
  cases op with
  | arith32 op =>
    rw [← Option.some.inj hv]
    simp only [Option.map_some, hlow]
    refine ⟨?_, ?_, ?_, ?_⟩
    · rw [flagN_eq (by decide), setWidth_booleanExtend (by decide) (by decide)]
    · rw [flagZ_eq (by decide) (by decide)]
    · rw [flagC_eq (by decide)]
    · rw [flagV_eq (by decide), setWidth_booleanExtend (by decide) (by decide)]
  | arith64 op =>
    rw [← Option.some.inj hv]
    refine ⟨?_, ?_, ?_, ?_⟩
    · exact congrArg some (flagN_eq (by decide))
    · exact congrArg some (flagZ_eq (by decide) (by decide))
    · exact congrArg some (flagC_eq (by decide))
    · exact congrArg some (flagV_eq (by decide))
  | COPY => cases hv
  | LOGIC32 => cases hv
  | LOGIC64 => cases hv

end Angr.CCall
