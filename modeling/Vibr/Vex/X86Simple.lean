import Vibr.Vex.CCallFlags

/-!
# Simplified conditions

The simplified helper computes the result of the operation again from what is kept of it, and
compares it with zero, as if there were no carry and no overflow. After SUB it compares the
operands. What is kept of INC, DEC and the shifts is the result already, so that it is changed
once more.
-/

namespace Angr.CCall

open Flags

variable {n : Nat} {l r ndep : BitVec n} {name : OpName} {c : CondType}

/-- The conditions, from the operands as they are kept and the old flags, under which the helpers agree. -/
def Agrees (name : OpName) (c : CondType) (l r ndep : BitVec n) : Prop :=
  let least := BitVec.intMin n
  let greatest := BitVec.intMax n
  match name, c with
  | .ADD, .B => l.toNat + r.toNat < 2 ^ n
  | .ADD, .BE | .ADD, .NBE => l.toNat + r.toNat ≤ 2 ^ n
  | .ADD, .L => overflows n (l.toInt + r.toInt) = false
  | .ADD, .LE | .ADD, .NLE => overflows n (l.toInt + r.toInt) = false ∨ l + r = 0#n
  | .INC, .Z | .INC, .NZ => l ≠ 0#n ∧ l ≠ -1#n
  | .INC, .S => l ≠ greatest ∧ l ≠ -1#n
  | .INC, .B | .DEC, .B => ndep.getLsbD 0 = false
  | .INC, .BE | .INC, .NBE => l ≠ 0#n ∧ (ndep.getLsbD 0 = true ↔ l = -1#n)
  | .INC, .L => l ≠ greatest ∧ l ≠ least ∧ l ≠ -1#n
  | .INC, .LE | .INC, .NLE => l ≠ 0#n ∧ l ≠ greatest ∧ l ≠ least
  | .DEC, .Z | .DEC, .NZ => l ≠ 0#n ∧ l ≠ 1#n
  | .DEC, .S => l ≠ 0#n ∧ l ≠ least
  | .DEC, .BE | .DEC, .NBE => l ≠ 0#n ∧ (ndep.getLsbD 0 = true ↔ l = 1#n)
  | .DEC, .L => l ≠ 0#n ∧ l ≠ greatest ∧ l ≠ least
  | .DEC, .LE | .DEC, .NLE => l ≠ 1#n ∧ l ≠ greatest ∧ l ≠ least
  | .SHL, .Z | .SHL, .NZ => l = 0#n ∨ l <<< r.toNat ≠ 0#n
  | .SHL, .S => (l <<< r.toNat).msb = l.msb
  | .SHL, .B => r.msb = false
  | .SHL, .BE | .SHL, .NBE => r.msb = true ∨ l = 0#n ∨ l <<< r.toNat ≠ 0#n
  | .SHL, .L => r.msb = false ∧ (l <<< r.toNat).msb = false
  | .SHL, .LE | .SHL, .NLE => r.msb = true ∨ l = 0#n ∨ (0#n).slt (l <<< r.toNat)
  | .SHR, .Z | .SHR, .NZ => l = 0#n ∨ l.sshiftRight r.toNat ≠ 0#n
  | .SHR, .B => r.getLsbD 0 = false
  | .SHR, .BE | .SHR, .NBE => l = 0#n ∨ (r.getLsbD 0 = true ↔ l.sshiftRight r.toNat = 0#n)
  | .SHR, .L => l.msb = r.msb
  | .SHR, .LE | .SHR, .NLE => l = 0#n ∨ (r.msb = true ↔ l.msb = true ∨ l.sshiftRight r.toNat = 0#n)
  | _, _ => True

/-! ## The flags that the simplified helper goes by -/

/-- The flags of a number, as after LOGIC. -/
def plainFlags (x : BitVec n) : FlagValues where
  carry := false
  zero := x = 0#n
  sign := x.msb
  overflow := false

theorem sle_zero_eq {x : BitVec n} : x.sle 0#n = (x.msb || decide (x = 0#n)) := by
  rw [BitVec.sle_eq_slt_or_eq, BitVec.slt_zero_eq_msb]
  rfl

theorem zero_slt_eq {x : BitVec n} : (0#n).slt x = !(x.msb || decide (x = 0#n)) := by
  rw [← sle_zero_eq, BitVec.sle_eq_not_slt, Bool.not_not]

theorem pcActionsCond_eq {x : BitVec n} {b : BitVec 1} (parity : Bool) (h : pcActionsCond c x = some b) :
    b = BitVec.ofBool (c.holds parity (plainFlags x)) := by
  have hult : x.ult 0#n = false := by simp [BitVec.ult]
  have hule : x.ule 0#n = decide (x = 0#n) := by simp [BitVec.ule, eq_zero_iff]
  have hpos : (0#n).ult x = !decide (x = 0#n) := by
    rw [← hule, BitVec.ule_eq_not_ult, Bool.not_not]
  unfold pcActionsCond at h
  cases c with
  | Z => exact (Option.some.inj h).symm.trans (condFlag_eq _)
  | NZ =>
    rw [← Option.some.inj h, condFlag_eq, decide_not]
    rfl
  | S =>
    rw [← Option.some.inj h, condFlag_eq, BitVec.slt_zero_eq_msb]
    rfl
  | B =>
    rw [← Option.some.inj h, condFlag_eq, hult]
    rfl
  | BE =>
    rw [← Option.some.inj h, condFlag_eq, hule]
    rfl
  | NBE =>
    rw [← Option.some.inj h, condFlag_eq, hpos]
    rfl
  | L =>
    rw [← Option.some.inj h, condFlag_eq, BitVec.slt_zero_eq_msb, CondType.holds, plainFlags, Bool.bne_false]
  | LE =>
    rw [← Option.some.inj h, condFlag_eq, sle_zero_eq, CondType.holds, plainFlags, Bool.bne_false, Bool.or_comm]
  | NLE =>
    rw [← Option.some.inj h, condFlag_eq, zero_slt_eq, CondType.holds, plainFlags, Bool.not_or, Bool.and_comm]
    cases x.msb <;> rfl
  | _ => cases h

/-- The comparisons of the operands are the conditions after SUB. -/
theorem pcActionsSUBCond_eq {b : BitVec 1} (hn : 0 < n) (parity : Bool) (h : pcActionsSUBCond c l r = some b) :
    b = BitVec.ofBool (c.holds parity (exactFlags n (l.toNat - r.toNat) (l.toInt - r.toInt))) := by
  have hslt := slt_eq_sign_bne_overflow (l := l) (r := r) hn
  have hult : l.ult r = decide (l < r) := rfl
  have hule : l.ule r = (decide (l < r) || decide (l = r)) := by
    rw [← Bool.decide_or, BitVec.ule, decide_eq_decide, BitVec.lt_def, ← BitVec.toNat_inj]
    omega
  have hugt : r.ult l = !(decide (l < r) || decide (l = r)) := by
    rw [← hule, BitVec.ule_eq_not_ult, Bool.not_not]
  have hsle : l.sle r = (l.slt r || decide (l = r)) := BitVec.sle_eq_slt_or_eq
  have hsgt : r.slt l = !(l.slt r || decide (l = r)) := by
    rw [← hsle, BitVec.sle_eq_not_slt, Bool.not_not]
  unfold pcActionsSUBCond at h
  cases c with
  | Z =>
    rw [← Option.some.inj h, condFlag_eq, ← isZero_sub]
    rfl
  | NZ =>
    rw [← Option.some.inj h, condFlag_eq, decide_not, ← isZero_sub]
    rfl
  | B =>
    rw [← Option.some.inj h, condFlag_eq, hult, ← carries_sub']
    rfl
  | BE =>
    rw [← Option.some.inj h, condFlag_eq, hule, ← carries_sub', ← isZero_sub]
    rfl
  | NBE =>
    rw [← Option.some.inj h, condFlag_eq, hugt, ← carries_sub', ← isZero_sub, Bool.not_or]
    rfl
  | L =>
    rw [← Option.some.inj h, condFlag_eq, hslt]
    rfl
  | LE =>
    rw [← Option.some.inj h, condFlag_eq, hsle, hslt, ← isZero_sub, Bool.or_comm]
    rfl
  | NLE =>
    rw [← Option.some.inj h, condFlag_eq, hsgt, hslt, ← isZero_sub, Bool.not_or, Bool.and_comm, bne, Bool.not_not]
    rfl
  | _ => cases h

/-! ## Operations -/

/-- The special values, as unsigned numbers. -/
theorem special_values (hn : 2 < n) :
    2 ^ n = 2 * 2 ^ (n - 1) ∧ 4 ≤ 2 ^ (n - 1) ∧ (1#n).toNat = 1 ∧ (-1#n).toNat = 2 ^ n - 1 ∧
      (BitVec.intMin n).toNat = 2 ^ (n - 1) ∧ (BitVec.intMax n).toNat = 2 ^ (n - 1) - 1 := by
  have hpow := two_pow_eq (show 0 < n by omega)
  have hhalf : 2 ^ 2 ≤ 2 ^ (n - 1) := Nat.pow_le_pow_right (by omega) (by omega)
  refine ⟨hpow, hhalf, toNat_one (by omega), ?_, ?_, BitVec.toNat_intMax⟩
  · rw [BitVec.neg_one_eq_allOnes, BitVec.toNat_allOnes]
  · rw [BitVec.toNat_intMin, Nat.mod_eq_of_lt (by omega)]

theorem agrees_INC (hn : 2 < n) (parity : Bool) {b : BitVec 1} (h : pcActionsCond c (l + 1#n) = some b) :
    c.holds parity (plainFlags (l + 1#n)) = c.holds parity
        { carry := ndep.getLsbD 0, zero := l = 0#n, sign := l.msb, overflow := l = BitVec.intMin n } ↔
      Agrees .INC c l r ndep := by
  obtain ⟨hpow, hhalf, hone, hones, hleast, hgreatest⟩ := special_values hn
  have hsum := toNat_add_cases (l := l) (r := 1#n) (k := 0#n) (by simp)
  rw [BitVec.add_zero, BitVec.toNat_zero, hone] at hsum
  have hl := l.isLt
  cases c with
  | Z | NZ | S | B | BE | NBE | L | LE | NLE =>
    simp only [CondType.holds, plainFlags, Agrees, BitVec.msb_eq_decide, ← BitVec.toNat_inj, hleast, hgreatest, hones,
      BitVec.toNat_zero, ne_eq, hsum]
    generalize l.toNat = x at *
    generalize 2 ^ (n - 1) = half at *
    generalize 2 ^ n = size at *
    clear hleast hgreatest hones hone hn h hsum b
    grind
  | _ => cases h

theorem agrees_DEC (hn : 2 < n) (parity : Bool) {b : BitVec 1} (h : pcActionsCond c (l - 1#n) = some b) :
    c.holds parity (plainFlags (l - 1#n)) = c.holds parity
        { carry := ndep.getLsbD 0, zero := l = 0#n, sign := l.msb, overflow := l = BitVec.intMax n } ↔
      Agrees .DEC c l r ndep := by
  obtain ⟨hpow, hhalf, hone, hones, hleast, hgreatest⟩ := special_values hn
  have hsub := toNat_sub_cases (l := l) (r := 1#n) (k := 0#n) (by simp)
  rw [BitVec.sub_zero, BitVec.toNat_zero, hone] at hsub
  cases c with
  | Z | NZ | S | B | BE | NBE | L | LE | NLE =>
    simp only [CondType.holds, plainFlags, Agrees, BitVec.msb_eq_decide, ← BitVec.toNat_inj, hleast, hgreatest, hone,
      BitVec.toNat_zero, ne_eq, hsub]
    generalize l.toNat = x at *
    generalize 2 ^ (n - 1) = half at *
    generalize 2 ^ n = size at *
    clear hleast hgreatest hones hone hn h hsub b
    grind
  | _ => cases h

theorem agrees_ADD (parity : Bool) {b : BitVec 1} (h : pcActionsCond c (l + r) = some b) :
    c.holds parity (plainFlags (l + r)) =
        c.holds parity (exactFlags n (l.toNat + r.toNat) (l.toInt + r.toInt)) ↔
      Agrees .ADD c l r ndep := by
  have hwraps := wraps_add (l := l) (r := r) (k := 0#n)
  have hsum := toNat_add_cases (l := l) (r := r) (k := 0#n) (by simp)
  rw [BitVec.add_zero, BitVec.toNat_zero, Int.natCast_zero, Int.add_zero] at hwraps
  rw [BitVec.add_zero, BitVec.toNat_zero, Nat.add_zero] at hsum
  have hcarry : carries n (l.toNat + r.toNat) = decide (2 ^ n ≤ l.toNat + r.toNat) := by
    unfold carries
    rw [decide_eq_decide]
    omega
  cases c with
  | Z | NZ | S =>
    simp only [CondType.holds, plainFlags, Agrees, exactFlags, hwraps.zero, hwraps.negative]
  | B | BE | NBE | L | LE | NLE =>
    simp only [CondType.holds, plainFlags, Agrees, exactFlags, hwraps.zero, hwraps.negative, hcarry,
      ← BitVec.toNat_inj, BitVec.toNat_zero]
    clear hwraps hcarry h b
    generalize (l + r).toNat = z at *
    generalize l.toNat = x at *
    generalize r.toNat = y at *
    generalize 2 ^ n = size at *
    grind
  | _ => cases h

theorem shiftLeft_eq_zero (h : r.msb = true) : l <<< r.toNat = 0#n := by
  have hle : n ≤ r.toNat := by
    have hlt := Nat.lt_two_pow_self (n := n - 1)
    have := msb_iff.mp h
    omega
  exact BitVec.shiftLeft_eq_zero hle

theorem agrees_SHL (parity : Bool) {b : BitVec 1} (h : pcActionsCond c (l <<< r.toNat) = some b) :
    c.holds parity (plainFlags (l <<< r.toNat)) = c.holds parity
        { carry := r.msb, zero := l = 0#n, sign := l.msb, overflow := l.msb ^^ r.msb } ↔
      Agrees .SHL c l r ndep := by
  have hall := @shiftLeft_eq_zero n l r
  have hzero : l = 0#n → l <<< r.toNat = 0#n := fun h => by rw [h, BitVec.zero_shiftLeft]
  have hmsb : ∀ x : BitVec n, x = 0#n → x.msb = false := fun x h => by rw [h, BitVec.msb_zero]
  have hx := hmsb (l <<< r.toNat)
  cases c with
  | S => rfl
  | Z | NZ | B | BE | NBE | L | LE | NLE =>
    simp only [CondType.holds, plainFlags, Agrees, zero_slt_eq]
    generalize l <<< r.toNat = x at *
    generalize r.msb = rm at *
    grind
  | _ => cases h

theorem agrees_SHR (parity : Bool) {b : BitVec 1} (h : pcActionsCond c (l.sshiftRight r.toNat) = some b) :
    c.holds parity (plainFlags (l.sshiftRight r.toNat)) = c.holds parity
        { carry := r.getLsbD 0, zero := l = 0#n, sign := l.msb, overflow := l.msb ^^ r.msb } ↔
      Agrees .SHR c l r ndep := by
  have hzero : l = 0#n → l.sshiftRight r.toNat = 0#n := fun h => by rw [h, BitVec.zero_sshiftRight]
  have hmsb : ∀ x : BitVec n, x = 0#n → x.msb = false := fun x h => by rw [h, BitVec.msb_zero]
  have hsign : (l.sshiftRight r.toNat).msb = l.msb := BitVec.msb_sshiftRight
  have hx := hmsb (l.sshiftRight r.toNat)
  cases c with
  | Z | NZ | S | B | BE | NBE | L | LE | NLE =>
    simp only [CondType.holds, plainFlags, Agrees]
    generalize l.sshiftRight r.toNat = x at *
    generalize r.msb = rm at *
    generalize r.getLsbD 0 = r0 at *
    grind
  | _ => cases h

/-! ## The flags of the operations as they are kept -/

theorem intMin_eq (hn : 2 < n) : BitVec.ofNat n (1 <<< (n - 1)) = BitVec.intMin n := by
  obtain ⟨_, _, _, _, hleast, _⟩ := special_values hn
  exact ((eq_least_iff (by omega)).mpr hleast).symm

theorem add_one_eq_intMin_iff (hn : 2 < n) : l + 1#n = BitVec.intMin n ↔ l = BitVec.intMax n := by
  obtain ⟨hpow, hhalf, hone, _, hleast, hgreatest⟩ := special_values hn
  have hsum := toNat_add_cases (l := l) (r := 1#n) (k := 0#n) (by simp)
  rw [BitVec.add_zero, BitVec.toNat_zero, hone] at hsum
  have hl := l.isLt
  rw [← BitVec.toNat_inj, ← BitVec.toNat_inj, hleast, hgreatest]
  split at hsum <;> omega

theorem bit_zero_ofBool (b : Bool) : bit (BitVec.ofBool b) 0 = BitVec.ofBool b := by
  cases b <;> rfl

theorem kept_LOGIC : (pcActionsLOGIC l).HasFlags (plainFlags l) :=
  ⟨rfl, condFlag_eq _, bit_top l, rfl⟩

theorem kept_INC (hn : 2 < n) : (pcActionsINC l ndep).HasFlags
    { carry := ndep.getLsbD 0, zero := l = 0#n, sign := l.msb, overflow := l = BitVec.intMin n } := by
  refine ⟨oldFlag_carry (by omega), condFlag_eq _, bit_top l, ?_⟩
  exact (condFlag_eq _).trans (congrArg BitVec.ofBool (by rw [intMin_eq hn]))

theorem kept_DEC (hn : 2 < n) : (pcActionsDEC l ndep).HasFlags
    { carry := ndep.getLsbD 0, zero := l = 0#n, sign := l.msb, overflow := l = BitVec.intMax n } := by
  refine ⟨oldFlag_carry (by omega), condFlag_eq _, bit_top l, ?_⟩
  refine (condFlag_eq _).trans (congrArg BitVec.ofBool ?_)
  rw [decide_eq_decide, intMin_eq hn, add_one_eq_intMin_iff hn]

theorem kept_SHL : (pcActionsSHL l r).HasFlags
    { carry := r.msb, zero := l = 0#n, sign := l.msb, overflow := l.msb ^^ r.msb } := by
  refine ⟨bit_top r, condFlag_eq _, bit_top l, ?_⟩
  dsimp only [pcActionsSHL]
  rw [bit_top l, bit_top r, BitVec.ofBool_xor_ofBool, bit_zero_ofBool]

theorem kept_SHR (hn : 2 < n) : (pcActionsSHR l r).HasFlags
    { carry := r.getLsbD 0, zero := l = 0#n, sign := l.msb, overflow := l.msb ^^ r.msb } := by
  refine ⟨?_, condFlag_eq _, bit_top l, ?_⟩
  · have hcarry : r &&& 1#n = oldCarry r := and_one_eq_oldCarry (by omega)
    refine (condFlag_eq _).trans (congrArg BitVec.ofBool ?_)
    rw [Bool.eq_iff_iff, decide_eq_true_iff, hcarry, ne_eq, eq_zero_iff, oldCarry_toNat (by omega)]
    cases r.getLsbD 0 <;> simp
  · dsimp only [pcActionsSHR]
    rw [bit_top l, bit_top r, BitVec.ofBool_xor_ofBool, bit_zero_ofBool]

/-! ## Agreement -/

theorem ofBool_eq_iff {a b : Bool} : BitVec.ofBool a = BitVec.ofBool b ↔ a = b := by
  cases a <;> cases b <;> decide

/-- After an operation, the simplified condition is the condition iff the operands are among those for
which it agrees. -/
theorem agrees_iff (hn : 2 < n) (parity : Bool) {b : BitVec 1} (h : pcActionsSimple name c l r = some b) :
    ∃ v, (pcActions name l r ndep).HasFlags v ∧
      (b = BitVec.ofBool (c.holds parity v) ↔ Agrees name c l r ndep) := by
  unfold pcActionsSimple at h
  cases name with
  | SUB =>
    refine ⟨_, hasFlags_SUB (by omega), ?_⟩
    have hagrees : Agrees .SUB c l r ndep := by cases c <;> exact trivial
    refine iff_of_true ?_ hagrees
    split at h
    · next hspecial =>
        rw [← Option.some.inj h]
        exact pcActionsSUBCond_eq (by omega) parity hspecial
    next hspecial =>
      -- only the sign is left to the general functions
      obtain rfl : c = .S := by
        cases c with
        | S => rfl
        | Z | NZ | B | BE | NBE | L | LE | NLE => exact absurd rfl (hspecial _ rfl)
        | _ => cases h
      have hsign := (wraps_sub (l := l) (r := r) (k := 0#n)).negative
      rw [BitVec.toNat_zero, Int.natCast_zero, Int.sub_zero, BitVec.sub_zero] at hsign
      have hb : b = BitVec.ofBool (CondType.S.holds parity (plainFlags (l - r))) := pcActionsCond_eq parity h
      exact hb.trans (congrArg BitVec.ofBool hsign.symm)
  | ADD =>
    refine ⟨_, hasFlags_ADD (by omega), ?_⟩
    rw [pcActionsCond_eq parity h, ofBool_eq_iff, agrees_ADD parity h]
  | LOGIC =>
    refine ⟨_, kept_LOGIC, ?_⟩
    have hagrees : Agrees .LOGIC c l r ndep := by cases c <;> exact trivial
    exact iff_of_true (pcActionsCond_eq parity h) hagrees
  | INC =>
    refine ⟨_, kept_INC hn, ?_⟩
    rw [pcActionsCond_eq parity h, ofBool_eq_iff, agrees_INC hn parity h]
  | DEC =>
    refine ⟨_, kept_DEC hn, ?_⟩
    rw [pcActionsCond_eq parity h, ofBool_eq_iff, agrees_DEC hn parity h]
  | SHL =>
    refine ⟨_, kept_SHL, ?_⟩
    rw [pcActionsCond_eq parity h, ofBool_eq_iff, agrees_SHL parity h]
  | SHR =>
    refine ⟨_, kept_SHR hn, ?_⟩
    rw [pcActionsCond_eq parity h, ofBool_eq_iff, agrees_SHR parity h]
  | _ => cases h

theorem agrees_of_none (h : pcActionsSimple name c l r = none) : Agrees name c l r ndep := by
  cases name <;> cases c <;> first | exact trivial | cases h

variable {platform : Platform} {ccOp cond : Nat} {dep1 dep2 ndep : BitVec platform.size}

/-- The arguments of the helpers for which they agree. -/
def KeptAgrees (platform : Platform) (cond ccOp : Nat) (dep1 dep2 ndep : BitVec platform.size) : Prop :=
  match opType platform ccOp, condType platform cond with
  | some (.op _ .bits32), _ | some (.op _ .bits64), _ => True
  | some (.op name suffix), some c =>
    Agrees name c (dep1.extractLsb' 0 suffix.nbits) (dep2.extractLsb' 0 suffix.nbits)
      (ndep.extractLsb' 0 suffix.nbits)
  | _, _ => True

theorem extend_inj {a b : BitVec 1} (h : extend platform a = extend platform b) : a = b := by
  have hone := congrArg (BitVec.setWidth 1) h
  have hsize : 1 ≤ platform.size := size_pos platform
  unfold extend at hone
  rwa [BitVec.setWidth_setWidth_of_le _ hsize, BitVec.setWidth_setWidth_of_le _ hsize, BitVec.setWidth_eq,
    BitVec.setWidth_eq] at hone

theorem nbits_gt (suffix : Suffix) : 2 < suffix.nbits := by
  cases suffix <;> decide

/-- After an operation of one of the widths, whatever is above it. -/
theorem simple_eq_condition_of_op {suffix : Suffix} (hop : opType platform ccOp = some (.op name suffix))
    (hcond : condType platform cond = some c) :
    (∀ b, pcActionsSimple name c (dep1.extractLsb' 0 suffix.nbits) (dep2.extractLsb' 0 suffix.nbits) = some b →
      pcCalculateCondition platform ccOp dep1 dep2 ndep cond = some (extend platform b)) ↔
      Agrees name c (dep1.extractLsb' 0 suffix.nbits) (dep2.extractLsb' 0 suffix.nbits)
        (ndep.extractLsb' 0 suffix.nbits) := by
  generalize hl : dep1.extractLsb' 0 suffix.nbits = l
  generalize hr : dep2.extractLsb' 0 suffix.nbits = r
  generalize hndep : ndep.extractLsb' 0 suffix.nbits = low
  have hrdata : pcCalculateRdataAllWRK platform ccOp dep1 dep2 ndep = some (.flags (pcActions name l r low)) := by
    simp only [pcCalculateRdataAllWRK, hop, hl, hr, hndep]
  cases hsimple : pcActionsSimple name c l r with
  | none => exact iff_of_true (fun b h => nomatch h) (agrees_of_none hsimple)
  | some b =>
    have hnot : c ≠ .Always := by
      rintro rfl
      cases name <;> cases hsimple
    have hfull := pcCalculateCondition_eq hrdata hcond hnot
    generalize (RdataAll.flags (pcActions name l r low) : RdataAll platform.size).parity = parity at hfull
    obtain ⟨v, hflags, hiff⟩ := @agrees_iff _ l r low name c (nbits_gt suffix) parity _ hsimple
    rw [hflags.values] at hfull
    rw [← hiff, hfull]
    constructor
    · intro h
      exact (extend_inj (Option.some.inj (h b rfl))).symm
    · intro hb b' hb'
      rw [← hb, Option.some.inj hb']

/-- When the simplified helper has a value, it is the value of the full one iff the operands are among
those for which the operation and the condition agree. -/
theorem simple_eq_condition_iff (platform : Platform) (cond ccOp : Nat) (dep1 dep2 ndep : BitVec platform.size) :
    (∀ value, pcCalculateConditionSimple platform ccOp dep1 dep2 cond = some value →
      pcCalculateCondition platform ccOp dep1 dep2 ndep cond = some value) ↔
      KeptAgrees platform cond ccOp dep1 dep2 ndep := by
  unfold KeptAgrees pcCalculateConditionSimple
  cases hop : opType platform ccOp with
  | none => exact iff_of_true (fun value h => nomatch h) trivial
  | some op =>
    cases op with
    | COPY | NUMBER => exact iff_of_true (fun value h => nomatch h) trivial
    | op name suffix =>
      cases hcond : condType platform cond with
      | none => cases suffix <;> exact iff_of_true (fun value h => nomatch h) trivial
      | some c =>
        have hiff := @simple_eq_condition_of_op name c platform ccOp cond dep1 dep2 ndep suffix hop hcond
        cases suffix with
        | bits32 | bits64 => exact iff_of_true (fun value h => nomatch h) trivial
        | _ =>
          dsimp only
          rw [← hiff]
          simp only [Option.map_eq_some_iff, forall_exists_index, and_imp, forall_apply_eq_imp_iff₂]

/-- After a byte was incremented to 255, it is not zero; the simplified helper increments it to zero. -/
theorem increment_is_applied_again :
    ¬ ∀ (platform : Platform) (cond ccOp : Nat) (dep1 dep2 ndep value : BitVec platform.size),
      pcCalculateConditionSimple platform ccOp dep1 dep2 cond = some value →
        pcCalculateCondition platform ccOp dep1 dep2 ndep cond = some value := by
  intro h
  have := h .AMD64 4 21 255#64 0#64 0#64 1#64 (by decide)
  revert this
  decide

end Angr.CCall
