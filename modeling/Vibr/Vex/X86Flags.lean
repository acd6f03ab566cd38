import Vibr.Lib.Flags
import Vibr.Vex.X86CCall

/-!
# The flags of x86 operations

What the flags of an operation are is said in terms of exact results, and proved of the
helpers at every width. Increments and decrements keep the carry flag, and a multiplication has one
flag for both carry and overflow.
-/

namespace Angr.CCall

open Flags

variable {n : Nat} {ccDep1 ccDep2 ccNdep : BitVec n} {name : OpName}

/-! ## What the flags are -/

/-- The carry that an operation starts with, as a number. -/
def oldCarry (ccNdep : BitVec n) : BitVec n := (BitVec.ofBool (ccNdep.getLsbD 0)).setWidth n

/-- The flags of the operations, from what is kept of them: both operands, the second one with the old
carry put to it for ADC and SBB; the result for LOGIC, INC and DEC. -/
def documented (name : OpName) (ccDep1 ccDep2 ccNdep : BitVec n) : Option FlagValues :=
  let c := oldCarry ccNdep
  let r := ccDep2 ^^^ c
  match name with
  | .ADD => some (exactFlags n (ccDep1.toNat + ccDep2.toNat) (ccDep1.toInt + ccDep2.toInt))
  | .ADC => some (exactFlags n (ccDep1.toNat + r.toNat + c.toNat) (ccDep1.toInt + r.toInt + c.toNat))
  | .SUB => some (exactFlags n (ccDep1.toNat - ccDep2.toNat) (ccDep1.toInt - ccDep2.toInt))
  | .SBB => some (exactFlags n (ccDep1.toNat - r.toNat - c.toNat) (ccDep1.toInt - r.toInt - c.toNat))
  | .LOGIC => some (exactFlags n ccDep1.toNat ccDep1.toInt)
  | .INC =>
    let l := ccDep1 - 1#n
    some { exactFlags n (l.toNat + 1) (l.toInt + 1) with carry := ccNdep.getLsbD 0 }
  | .DEC =>
    let l := ccDep1 + 1#n
    some { exactFlags n (l.toNat - 1) (l.toInt - 1) with carry := ccNdep.getLsbD 0 }
  | .UMUL =>
    let u : Int := ccDep1.toNat * ccDep2.toNat
    some { exactFlags n u u with overflow := carries n u }
  | .SMUL =>
    let s := ccDep1.toInt * ccDep2.toInt
    some { exactFlags n s s with carry := overflows n s }
  | _ => none

def Rdata.HasFlags (f : Rdata) (v : FlagValues) : Prop :=
  f.cf = BitVec.ofBool v.carry ∧ f.zf = BitVec.ofBool v.zero ∧ f.sf = BitVec.ofBool v.sign ∧
    f.of = BitVec.ofBool v.overflow

/-! ## Single bits -/

@[simp] theorem condFlag_eq (b : Bool) : condFlag b = BitVec.ofBool b := by
  cases b <;> rfl

theorem bit_eq (p : BitVec n) (i : Nat) : bit p i = BitVec.ofBool (p.getLsbD i) := by
  unfold bit
  ext j hj
  obtain rfl : j = 0 := by omega
  simp

theorem bit_top (p : BitVec n) : bit p (n - 1) = BitVec.ofBool p.msb := by
  rw [bit_eq, BitVec.msb_eq_getLsbD_last]

theorem oldFlag_carry (hn : 0 < n) : oldFlag ccNdep G_CC_SHIFT_C = BitVec.ofBool (ccNdep.getLsbD 0) := by
  unfold oldFlag G_CC_SHIFT_C
  rw [bit_eq, BitVec.getLsbD_and]
  simp [hn]

theorem oldCarry_toNat (hn : 0 < n) : (oldCarry ccNdep).toNat = (ccNdep.getLsbD 0).toNat := by
  unfold oldCarry
  rw [BitVec.toNat_setWidth_of_le (by omega), BitVec.toNat_ofBool]

theorem oldCarry_le (hn : 0 < n) : (oldCarry ccNdep).toNat ≤ 1 := by
  rw [oldCarry_toNat hn]
  exact Bool.toNat_le _

/-- Both ways to take the carry out of the old flags. -/
theorem and_one_eq_oldCarry (hn : 0 < n) : ccNdep &&& BitVec.ofNat n (1 <<< G_CC_SHIFT_C) = oldCarry ccNdep := by
  refine BitVec.eq_of_toNat_eq ?_
  have hone : 1 % 2 ^ n = 1 := Nat.mod_eq_of_lt (Nat.one_lt_two_pow (by omega))
  rw [oldCarry_toNat hn, BitVec.toNat_and, BitVec.toNat_ofNat]
  unfold G_CC_SHIFT_C
  rw [Nat.shiftLeft_zero, hone, Nat.and_one_is_mod, BitVec.getLsbD, Nat.testBit_zero]
  rcases Nat.mod_two_eq_zero_or_one ccNdep.toNat with h | h <;> simp [h]

theorem setWidth_bit_eq_oldCarry : (bit ccNdep G_CC_SHIFT_C).setWidth n = oldCarry ccNdep := by
  rw [bit_eq]
  rfl

theorem msb_ofNat_ones (hn : 0 < n) : (BitVec.ofNat n (2 ^ n - 1)).msb = true := by
  have hpow := two_pow_eq hn
  have hpos := Nat.two_pow_pos n
  have hlt : 2 ^ n - 1 < 2 ^ n := by omega
  rw [msb_iff, BitVec.toNat_ofNat, Nat.mod_eq_of_lt hlt]
  omega

theorem msb_ofInt_neg_one (hn : 0 < n) : (BitVec.ofInt n (-1)).msb = true := by
  have hpow := two_pow_eq hn
  have hpos := Nat.two_pow_pos n
  rw [msb_iff, BitVec.toNat_ofInt]
  have hturn : (-1 : Int) % (2 ^ n : Nat) = -1 + (2 ^ n : Nat) :=
    (emod_cases (by omega) (by omega)).trans (if_pos (by omega))
  omega

/-! ## The actions -/

theorem hasFlags_ADD (hn : 0 < n) :
    (pcActionsADD ccDep1 ccDep2).HasFlags
      (exactFlags n (ccDep1.toNat + ccDep2.toNat) (ccDep1.toInt + ccDep2.toInt)) := by
  have hzero : (0#n).toNat ≤ 1 := by simp
  have hcarry := carries_add (l := ccDep1) (r := ccDep2) hzero
  have hoverflow := overflows_add (l := ccDep1) (r := ccDep2) hn hzero
  have hwraps := wraps_add (l := ccDep1) (r := ccDep2) (k := 0#n)
  simp only [BitVec.toNat_zero, Int.natCast_zero, Int.add_zero, BitVec.add_zero, if_true] at hcarry hoverflow hwraps
  refine ⟨?_, ?_, ?_, ?_⟩
  · simp [pcActionsADD, exactFlags, hcarry]
  · simp [pcActionsADD, exactFlags, calcZerobit, hwraps.zero]
  · simp [pcActionsADD, exactFlags, bit_top, hwraps.negative]
  · simp only [pcActionsADD, exactFlags, bit_top, hoverflow, BitVec.msb_and, BitVec.msb_xor, msb_ofNat_ones hn]
    cases ccDep1.msb <;> cases ccDep2.msb <;> rfl

theorem hasFlags_SUB (hn : 0 < n) :
    (pcActionsSUB ccDep1 ccDep2).HasFlags
      (exactFlags n (ccDep1.toNat - ccDep2.toNat) (ccDep1.toInt - ccDep2.toInt)) := by
  have hzero : (0#n).toNat ≤ 1 := by simp
  have hcarry := carries_sub (l := ccDep1) (r := ccDep2) hzero
  have hoverflow := overflows_sub (l := ccDep1) (r := ccDep2) hn hzero
  have hwraps := wraps_sub (l := ccDep1) (r := ccDep2) (k := 0#n)
  simp only [BitVec.toNat_zero, Int.natCast_zero, Int.sub_zero, BitVec.sub_zero, if_true] at hcarry hoverflow hwraps
  refine ⟨?_, ?_, ?_, ?_⟩
  · simp [pcActionsSUB, exactFlags, hcarry]
  · simp [pcActionsSUB, exactFlags, calcZerobit, hwraps.zero]
  · simp [pcActionsSUB, exactFlags, bit_top, hwraps.negative]
  · simp only [pcActionsSUB, exactFlags, bit_top, hoverflow, BitVec.msb_and, BitVec.msb_xor]

theorem hasFlags_ADC (hn : 0 < n) :
    (pcActionsADC ccDep1 ccDep2 ccNdep).HasFlags
      (exactFlags n (ccDep1.toNat + (ccDep2 ^^^ oldCarry ccNdep).toNat + (oldCarry ccNdep).toNat)
        (ccDep1.toInt + (ccDep2 ^^^ oldCarry ccNdep).toInt + (oldCarry ccNdep).toNat)) := by
  have hk := @oldCarry_le n ccNdep hn
  unfold pcActionsADC
  simp only [and_one_eq_oldCarry hn]
  generalize oldCarry ccNdep = k at hk ⊢
  refine ⟨?_, ?_, ?_, ?_⟩
  · simp only [exactFlags, carries_add hk, condFlag_eq]
    split <;> simp_all
  · simp only [exactFlags, calcZerobit, condFlag_eq, wraps_add.zero]
  · simp only [exactFlags, bit_top, wraps_add.negative]
  · simp only [exactFlags, bit_top, overflows_add hn hk, BitVec.msb_and, BitVec.msb_xor, msb_ofInt_neg_one hn]
    cases ccDep1.msb <;> cases ccDep2.msb <;> cases k.msb <;> rfl

theorem hasFlags_SBB (hn : 0 < n) :
    (pcActionsSBB ccDep1 ccDep2 ccNdep).HasFlags
      (exactFlags n (ccDep1.toNat - (ccDep2 ^^^ oldCarry ccNdep).toNat - (oldCarry ccNdep).toNat)
        (ccDep1.toInt - (ccDep2 ^^^ oldCarry ccNdep).toInt - (oldCarry ccNdep).toNat)) := by
  have hk := @oldCarry_le n ccNdep hn
  unfold pcActionsSBB
  simp only [setWidth_bit_eq_oldCarry]
  generalize oldCarry ccNdep = k at hk ⊢
  have hone : k = 1#n ↔ k ≠ 0#n := by
    have hlt : 1 < 2 ^ n := Nat.one_lt_two_pow (by omega)
    rw [ne_eq, eq_zero_iff, ← BitVec.toNat_inj, BitVec.toNat_ofNat, Nat.mod_eq_of_lt hlt]
    omega
  refine ⟨?_, ?_, ?_, ?_⟩
  · simp only [exactFlags, carries_sub hk, condFlag_eq, hone]
    split <;> simp_all
  · simp only [exactFlags, calcZerobit, condFlag_eq, wraps_sub.zero]
  · simp only [exactFlags, bit_top, wraps_sub.negative]
  · simp only [exactFlags, bit_top, overflows_sub hn hk, BitVec.msb_and, BitVec.msb_xor]

theorem hasFlags_LOGIC (hn : 0 < n) :
    (pcActionsLOGIC ccDep1).HasFlags (exactFlags n ccDep1.toNat ccDep1.toInt) := by
  have hpow := two_pow_eq hn
  have hlt := ccDep1.isLt
  have hcarry : carries n ccDep1.toNat = false := by
    unfold carries
    rw [decide_eq_false_iff_not]
    omega
  have hoverflow : overflows n ccDep1.toInt = false := by
    unfold overflows
    rw [decide_eq_false_iff_not, toInt_cases]
    split <;> omega
  refine ⟨?_, ?_, ?_, ?_⟩
  · simp [pcActionsLOGIC, exactFlags, hcarry]
  · simp [pcActionsLOGIC, exactFlags, calcZerobit, wraps_toNat.zero]
  · simp [pcActionsLOGIC, exactFlags, bit_top, wraps_toNat.negative]
  · simp [pcActionsLOGIC, exactFlags, hoverflow]

theorem hasFlags_UMUL : (pcActionsUMUL ccDep1 ccDep2).HasFlags
    { exactFlags n (ccDep1.toNat * ccDep2.toNat) (ccDep1.toNat * ccDep2.toNat) with
      overflow := carries n (ccDep1.toNat * ccDep2.toNat) } := by
  refine ⟨?_, ?_, ?_, ?_⟩
  · exact (condFlag_eq _).trans (congrArg BitVec.ofBool carries_umul.symm)
  · exact (condFlag_eq _).trans (congrArg BitVec.ofBool umul_low.zero.symm)
  · exact (bit_top _).trans (congrArg BitVec.ofBool umul_low.negative.symm)
  · exact (condFlag_eq _).trans (congrArg BitVec.ofBool carries_umul.symm)

theorem hasFlags_SMUL (hn : 0 < n) : (pcActionsSMUL ccDep1 ccDep2).HasFlags
    { exactFlags n (ccDep1.toInt * ccDep2.toInt) (ccDep1.toInt * ccDep2.toInt) with
      carry := overflows n (ccDep1.toInt * ccDep2.toInt) } := by
  refine ⟨?_, ?_, ?_, ?_⟩
  · exact (condFlag_eq _).trans (congrArg BitVec.ofBool (overflows_smul hn).symm)
  · exact (condFlag_eq _).trans (congrArg BitVec.ofBool (smul_low hn).zero.symm)
  · exact (bit_top _).trans (congrArg BitVec.ofBool (smul_low hn).negative.symm)
  · exact (condFlag_eq _).trans (congrArg BitVec.ofBool (overflows_smul hn).symm)

theorem toNat_one (hn : 0 < n) : (1#n).toNat = 1 := by
  rw [BitVec.toNat_ofNat, Nat.mod_eq_of_lt (Nat.one_lt_two_pow (by omega))]

/-- The least signed number. -/
theorem eq_least_iff (hn : 0 < n) : ccDep1 = BitVec.ofNat n (1 <<< (n - 1)) ↔ ccDep1.toNat = 2 ^ (n - 1) := by
  have hpow := two_pow_eq hn
  have hpos := Nat.two_pow_pos n
  have hlt : 2 ^ (n - 1) < 2 ^ n := by omega
  rw [← BitVec.toNat_inj, BitVec.toNat_ofNat, Nat.one_shiftLeft, Nat.mod_eq_of_lt hlt]

/-- An increment is out of range iff the result is the least signed number. -/
theorem hasFlags_INC (hn : 0 < n) : (pcActionsINC ccDep1 ccNdep).HasFlags
    { exactFlags n ((ccDep1 - 1#n).toNat + 1) ((ccDep1 - 1#n).toInt + 1) with carry := ccNdep.getLsbD 0 } := by
  obtain ⟨l, rfl⟩ : ∃ l, ccDep1 = l + 1#n := ⟨ccDep1 - 1#n, (BitVec.sub_add_cancel ccDep1 1#n).symm⟩
  have hwraps := wraps_add (l := l) (r := 1#n) (k := 0#n)
  have hsum := toNat_add_cases (l := l) (r := 1#n) (k := 0#n) (by simp)
  rw [BitVec.add_zero, BitVec.toNat_zero, toNat_one hn] at hwraps hsum
  have hpow := two_pow_eq hn
  have hlt := l.isLt
  have hoverflow : overflows n (l.toInt + 1) = decide (l + 1#n = BitVec.ofNat n (1 <<< (n - 1))) := by
    unfold overflows
    rw [decide_eq_decide, eq_least_iff hn, hsum, toInt_cases]
    split <;> split <;> omega
  rw [BitVec.add_sub_cancel]
  refine ⟨?_, ?_, ?_, ?_⟩
  · exact oldFlag_carry hn
  · exact (condFlag_eq _).trans (congrArg BitVec.ofBool hwraps.zero.symm)
  · exact (bit_top _).trans (congrArg BitVec.ofBool hwraps.negative.symm)
  · exact (condFlag_eq _).trans (congrArg BitVec.ofBool hoverflow.symm)

theorem hasFlags_DEC (hn : 0 < n) : (pcActionsDEC ccDep1 ccNdep).HasFlags
    { exactFlags n ((ccDep1 + 1#n).toNat - 1) ((ccDep1 + 1#n).toInt - 1) with carry := ccNdep.getLsbD 0 } := by
  obtain ⟨l, rfl⟩ : ∃ l, ccDep1 = l - 1#n := ⟨ccDep1 + 1#n, (BitVec.add_sub_cancel ccDep1 1#n).symm⟩
  have hwraps := wraps_sub (l := l) (r := 1#n) (k := 0#n)
  rw [BitVec.sub_zero, BitVec.toNat_zero, toNat_one hn, Int.natCast_zero, Int.sub_zero, Int.natCast_one] at hwraps
  have hpow := two_pow_eq hn
  have hlt := l.isLt
  have hoverflow : overflows n (l.toInt - 1) = decide (l = BitVec.ofNat n (1 <<< (n - 1))) := by
    unfold overflows
    rw [decide_eq_decide, eq_least_iff hn, toInt_cases]
    split <;> omega
  unfold pcActionsDEC
  rw [BitVec.sub_add_cancel]
  refine ⟨?_, ?_, ?_, ?_⟩
  · exact oldFlag_carry hn
  · exact (condFlag_eq _).trans (congrArg BitVec.ofBool hwraps.zero.symm)
  · exact (bit_top _).trans (congrArg BitVec.ofBool hwraps.negative.symm)
  · exact (condFlag_eq _).trans (congrArg BitVec.ofBool hoverflow.symm)

theorem hasFlags_of_documented (hn : 0 < n) {v : FlagValues} (h : documented name ccDep1 ccDep2 ccNdep = some v) :
    (pcActions name ccDep1 ccDep2 ccNdep).HasFlags v := by
  cases name <;> cases h
  · exact hasFlags_ADD hn
  · exact hasFlags_SUB hn
  · exact hasFlags_ADC hn
  · exact hasFlags_SBB hn
  · exact hasFlags_LOGIC hn
  · exact hasFlags_INC hn
  · exact hasFlags_DEC hn
  · exact hasFlags_UMUL
  · exact hasFlags_SMUL hn

/-! ## Conditions -/

/-- What a condition says of the flags. -/
def CondType.holds (cond : CondType) (parity : Bool) (v : FlagValues) : Bool :=
  match cond with
  | .O => v.overflow
  | .NO => !v.overflow
  | .B => v.carry
  | .NB => !v.carry
  | .Z => v.zero
  | .NZ => !v.zero
  | .BE => v.carry || v.zero
  | .NBE => !v.carry && !v.zero
  | .S => v.sign
  | .NS => !v.sign
  | .P => parity
  | .NP => !parity
  | .L => v.sign != v.overflow
  | .NL => v.sign == v.overflow
  | .LE => v.zero || v.sign != v.overflow
  | .NLE => !v.zero && v.sign == v.overflow
  | .Always => true

/-- The second of a pair of conditions is the negation of the first. -/
def CondType.inverted : CondType → Bool
  | .NO | .NB | .NZ | .NBE | .NS | .NP | .NL | .NLE => true
  | _ => false

theorem inverted_eq {platform : Platform} {cond : Nat} {c : CondType} (h : condType platform cond = some c) :
    (cond &&& 1).testBit 0 = c.inverted := by
  have hall : ∀ platform : Platform, ∀ cond : Fin 17,
      (condType platform cond).all fun c => ((cond : Nat) &&& 1).testBit 0 = c.inverted := by
    intro platform
    cases platform <;> decide
  have hlt : cond < 17 := by
    have hlength : (condTypes platform).length ≤ 17 := by cases platform <;> decide
    exact Nat.lt_of_lt_of_le (List.getElem?_eq_some_iff.mp h).1 hlength
  have := hall platform ⟨cond, hlt⟩
  rw [h] at this
  exact of_decide_eq_true this

theorem one_and_eq (x : BitVec n) : 1#n &&& x = (BitVec.ofBool (x.getLsbD 0)).setWidth n := by
  refine BitVec.eq_of_getLsbD_eq fun i hi => ?_
  rw [BitVec.getLsbD_and, BitVec.getLsbD_setWidth, BitVec.getLsbD_one]
  by_cases h0 : i = 0
  · subst h0
    simp [hi]
  · simp [h0, BitVec.getLsbD_ofBool]

/-- The helper's formulas, in a register of any width, are those of the conditions. -/
theorem conditionOf_eq {cond : CondType} {inv cf pf zf sf of : BitVec n} (hcond : cond ≠ .Always)
    (hinv : inv.getLsbD 0 = cond.inverted) : conditionOf cond inv cf pf zf sf of =
      some ((BitVec.ofBool (cond.holds (pf.getLsbD 0)
        ⟨cf.getLsbD 0, zf.getLsbD 0, sf.getLsbD 0, of.getLsbD 0⟩)).setWidth n) := by
  generalize hp : pf.getLsbD 0 = p
  generalize hc : cf.getLsbD 0 = c
  generalize hz : zf.getLsbD 0 = z
  generalize hs : sf.getLsbD 0 = s
  generalize ho : of.getLsbD 0 = o
  have hor : ∀ x y : BitVec n, (x ||| y).getLsbD 0 = (x.getLsbD 0 || y.getLsbD 0) := fun x y => BitVec.getLsbD_or
  have hxor : ∀ x y : BitVec n, (x ^^^ y).getLsbD 0 = (x.getLsbD 0 ^^ y.getLsbD 0) := fun x y => BitVec.getLsbD_xor
  cases cond with
  | Always => exact absurd rfl hcond
  | _ =>
    simp only [conditionOf, one_and_eq, hxor, hor, hinv, hp, hc, hz, hs, ho]
    refine congrArg (fun b => some ((BitVec.ofBool b).setWidth n)) ?_
    cases p <;> cases c <;> cases z <;> cases s <;> cases o <;> rfl

def RdataAll.values {size : Nat} : RdataAll size → FlagValues
  | packed rdata =>
    { carry := rdata.getLsbD G_CC_SHIFT_C
      zero := rdata.getLsbD G_CC_SHIFT_Z
      sign := rdata.getLsbD G_CC_SHIFT_S
      overflow := rdata.getLsbD G_CC_SHIFT_O }
  | flags f =>
    { carry := f.cf.getLsbD 0
      zero := f.zf.getLsbD 0
      sign := f.sf.getLsbD 0
      overflow := f.of.getLsbD 0 }

def RdataAll.parity {size : Nat} : RdataAll size → Bool
  | packed rdata => rdata.getLsbD G_CC_SHIFT_P
  | flags f => f.pf.getLsbD 0

theorem Rdata.HasFlags.values {size : Nat} {f : Rdata} {v : FlagValues} (h : f.HasFlags v) :
    (RdataAll.flags f : RdataAll size).values = v := by
  obtain ⟨hc, hz, hs, ho⟩ := h
  simp only [RdataAll.values, hc, hz, hs, ho, BitVec.getLsbD_ofBool]
  cases v
  simp

variable {platform : Platform} {ccOp cond : Nat} {dep1 dep2 ndep : BitVec platform.size}

theorem size_pos (platform : Platform) : 0 < platform.size := by
  cases platform <;> decide

/-- A condition is tested as it is documented, whatever the operation was. -/
theorem pcCalculateCondition_eq {rdata : RdataAll platform.size} {c : CondType}
    (hrdata : pcCalculateRdataAllWRK platform ccOp dep1 dep2 ndep = some rdata) (hc : condType platform cond = some c)
    (hcond : c ≠ .Always) : pcCalculateCondition platform ccOp dep1 dep2 ndep cond =
      some (extend platform (BitVec.ofBool (c.holds rdata.parity rdata.values))) := by
  have hinv := inverted_eq hc
  have hodd : ∀ n, 0 < n → (BitVec.ofNat n (cond &&& 1)).getLsbD 0 = c.inverted := by
    intro n hn
    rw [BitVec.getLsbD_ofNat, hinv, decide_eq_true hn, Bool.true_and]
  unfold pcCalculateCondition
  rw [hrdata, hc]
  cases rdata with
  | packed rdata =>
    have hsize := size_pos platform
    simp only [conditionOf_eq hcond (hodd _ hsize), BitVec.getLsbD_ushiftRight]
    rfl
  | flags f =>
    dsimp only
    rw [conditionOf_eq hcond (hodd 1 Nat.one_pos), BitVec.setWidth_eq, Option.map_some]
    rfl

end Angr.CCall
