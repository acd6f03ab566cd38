import Mathlib.Data.Int.ModEq
import Vibr.Lib.Rotate

/-!
# Integer expressions

The AIL expressions that the peephole optimizations of the decompiler take apart, without
tags and indices, so that two expressions are alike if they are equal. What is not taken
apart is an atom. Values are the numbers below `2 ^ bits`.
-/

namespace Angr.Peephole

inductive UnOp where
  | neg | not | bitwiseNeg
  | other (name : String)
  deriving DecidableEq

inductive BinOp where
  | add | sub | mul | mull | div | mod | divMod | and | or | xor | shl | shr | sar | rol | ror | concat
  | cmpEQ | cmpNE | cmpGT | cmpGE | cmpLT | cmpLE | cmpGTs | cmpGEs | cmpLTs | cmpLEs
  | other (name : String)
  deriving DecidableEq

inductive Expr where
  | const (value : Int) (bits : Nat)
  | tmp (tmpIdx : Int) (bits : Nat)
  | virtualVariable (varid : Int) (bits : Nat) (wasReg : Bool)
  | stackBaseOffset (offset : Int) (bits : Nat)
  | atom (key bits : Nat)
  | unaryOp (op : UnOp) (operand : Expr) (bits : Nat)
  | binaryOp (op : BinOp) (operand₀ operand₁ : Expr) (signed : Bool) (bits : Nat)
  | convert (fromBits toBits : Nat) (isSigned : Bool) (operand : Expr)
  | ite (cond iftrue iffalse : Expr)
  | insert (base offset value : Expr) (little : Bool)
  deriving DecidableEq

/-- An assignment: what the variables hold, and what an operation does whose meaning is
not fixed here. -/
structure Env where
  stackBase : Int
  tmps : Int → Nat
  vars : Int → Nat
  atoms : Nat → Nat
  unary : String → Nat → Nat → Nat
  binary : String → Bool → Nat → Nat → Nat → Nat

/-- The assignment of one number to everything. -/
def Env.const (n : Nat) : Env := ⟨n, fun _ => n, fun _ => n, fun _ => n, fun _ _ _ => n, fun _ _ _ _ _ => n⟩

/-- The value of a number in `bits` bits. -/
def wrap (bits : Nat) (v : Int) : Nat := (v % 2 ^ bits).toNat

/-- A value of `bits` bits with a sign. -/
def toSigned (bits x : Nat) : Int := Int.bmod x (2 ^ bits)

namespace BinOp

/-- The comparisons of numbers, with the sign of the operation or with their own. -/
def isCmp : BinOp → Bool
  | cmpEQ | cmpNE | cmpGT | cmpGE | cmpLT | cmpLE | cmpGTs | cmpGEs | cmpLTs | cmpLEs => true
  | _ => false

/-- The result of a comparison. -/
def cmp (op : BinOp) (x y : Int) : Bool :=
  match op with
  | cmpEQ => x = y
  | cmpNE => x ≠ y
  | cmpGT | cmpGTs => y < x
  | cmpGE | cmpGEs => y ≤ x
  | cmpLT | cmpLTs => x < y
  | cmpLE | cmpLEs => x ≤ y
  | _ => false

/-- Whether a comparison takes its operands with a sign. -/
def cmpSigned (op : BinOp) (signed : Bool) : Bool :=
  match op with
  | cmpGTs | cmpGEs | cmpLTs | cmpLEs => true
  | _ => signed

/-- The result of an operation on `x` and `y` of `w` and `v` bits, as a number that the
width of the operation is yet to cut. -/
@[grind =] def eval (σ : Env) (op : BinOp) (signed : Bool) (bits w x v y : Nat) : Int :=
  match op with
  | add => x + y
  | sub => x - y
  | mul => x * y
  | mull => if signed then toSigned w x * toSigned v y else x * y
  | div => if signed then (toSigned w x).tdiv (toSigned v y) else x / y
  | mod => if signed then (toSigned w x).tmod (toSigned v y) else x % y
  | divMod =>
    let quotient : Int := if signed then (toSigned w x).tdiv (toSigned v y) else x / y
    let remainder : Int := if signed then (toSigned w x).tmod (toSigned v y) else x % y
    wrap (bits / 2) remainder * 2 ^ (bits / 2) + wrap (bits / 2) quotient
  | and => (x &&& y : Nat)
  | or => (x ||| y : Nat)
  | xor => (x ^^^ y : Nat)
  | shl => x * 2 ^ y
  | shr => x / 2 ^ y
  | sar => toSigned w x / 2 ^ y
  | rol => x * 2 ^ (y % w) + x / 2 ^ (w - y % w)
  | ror => x / 2 ^ (y % w) + x * 2 ^ (w - y % w)
  | concat => x * 2 ^ v + y
  | other name => σ.binary name signed bits x y
  | cmpEQ | cmpNE | cmpGT | cmpGE | cmpLT | cmpLE | cmpGTs | cmpGEs | cmpLTs | cmpLEs =>
    if op.cmpSigned signed then (op.cmp (toSigned w x) (toSigned v y)).toNat else (op.cmp x y).toNat

/-- The widths that an operation takes. -/
@[grind =] def Typed (op : BinOp) (bits w v : Nat) : Prop :=
  match op with
  | add | sub | mul | div | mod | and | or | xor => w = bits ∧ v = bits
  | shl | shr | sar | rol | ror => w = bits
  | mull => w = v ∧ bits = 2 * w
  | divMod => bits = 2 * v ∧ (w = v ∨ w = bits)
  | concat => bits = w + v
  | cmpEQ | cmpNE | cmpGT | cmpGE | cmpLT | cmpLE | cmpGTs | cmpGEs | cmpLTs | cmpLEs => w = v ∧ bits = 1
  | other _ => True

/-- The width of an operation that is built without one. -/
def defaultBits (op : BinOp) (w v : Nat) : Nat :=
  match op with
  | cmpEQ | cmpNE | cmpGT | cmpGE | cmpLT | cmpLE => 1
  | concat => w + v
  | mull => w * 2
  | _ => w

end BinOp

namespace UnOp

@[grind =] def eval (σ : Env) (op : UnOp) (bits x : Nat) : Int :=
  match op with
  | neg => -x
  | not | bitwiseNeg => -x - 1
  | other name => σ.unary name bits x

end UnOp

namespace Expr

@[grind =] def bits : Expr → Nat
  | const _ bits | tmp _ bits | virtualVariable _ bits _ | stackBaseOffset _ bits | atom _ bits => bits
  | unaryOp _ _ bits | binaryOp _ _ _ _ bits => bits
  | convert _ toBits _ _ => toBits
  | ite _ iftrue _ => iftrue.bits
  | insert base _ _ _ => base.bits

/-- The first bit that an insertion replaces; it counts from the other end if the bytes are
not in little-endian order. -/
def insertAt (baseBits offset valueBits : Nat) (little : Bool) : Nat :=
  if little then offset * 8 else baseBits - (offset * 8 + valueBits)

/-- `base` with the bits of `value` at the bit `at`. -/
def insertBits (start valueBits base value : Nat) : Nat :=
  base / 2 ^ (start + valueBits) * 2 ^ (start + valueBits) + value * 2 ^ start + base % 2 ^ start

/-- A value of `fromBits` bits as one of `toBits` bits. -/
def convertBits (fromBits toBits : Nat) (isSigned : Bool) (x : Nat) : Nat :=
  if isSigned then wrap toBits (toSigned fromBits x) else x % 2 ^ toBits

@[grind =] def eval (σ : Env) : Expr → Nat
  | const value bits => wrap bits value
  | tmp tmpIdx bits => σ.tmps tmpIdx % 2 ^ bits
  | virtualVariable varid bits _ => σ.vars varid % 2 ^ bits
  | stackBaseOffset offset bits => wrap bits (σ.stackBase + offset)
  | atom key bits => σ.atoms key % 2 ^ bits
  | unaryOp op operand bits => wrap bits (op.eval σ bits (operand.eval σ))
  | binaryOp op operand₀ operand₁ signed bits =>
    wrap bits (op.eval σ signed bits operand₀.bits (operand₀.eval σ) operand₁.bits (operand₁.eval σ))
  | convert fromBits toBits isSigned operand => convertBits fromBits toBits isSigned (operand.eval σ)
  | ite cond iftrue iffalse => if cond.eval σ ≠ 0 then iftrue.eval σ else iffalse.eval σ
  | insert base offset value little =>
    insertBits (insertAt base.bits (offset.eval σ) value.bits little) value.bits (base.eval σ) (value.eval σ)
      % 2 ^ base.bits

/-- The widths of an expression fit each other. The offset of a stack address has 64 bits. -/
@[grind =] def WellTyped : Expr → Prop
  | const _ _ | tmp _ _ | virtualVariable _ _ _ | atom _ _ => True
  | stackBaseOffset _ bits => bits ≤ 64
  | unaryOp _ operand bits => operand.WellTyped ∧ operand.bits = bits
  | binaryOp op operand₀ operand₁ _ bits =>
    operand₀.WellTyped ∧ operand₁.WellTyped ∧ op.Typed bits operand₀.bits operand₁.bits
  | convert fromBits _ _ operand => operand.WellTyped ∧ operand.bits = fromBits
  | ite cond iftrue iffalse =>
    cond.WellTyped ∧ iftrue.WellTyped ∧ iffalse.WellTyped ∧ cond.bits = 1 ∧ iftrue.bits = iffalse.bits
  | insert base offset value _ =>
    base.WellTyped ∧ value.WellTyped ∧ ∃ k bits, offset = const k bits ∧ 0 ≤ k ∧ k < 2 ^ bits ∧
      k * 8 + value.bits ≤ base.bits

/-- What holds of an expression and of all that it is made of. -/
@[grind =] def All (p : Expr → Prop) : Expr → Prop
  | e@(const _ _) | e@(tmp _ _) | e@(virtualVariable _ _ _) | e@(stackBaseOffset _ _) | e@(atom _ _) => p e
  | e@(unaryOp _ operand _) => p e ∧ operand.All p
  | e@(binaryOp _ operand₀ operand₁ _ _) => p e ∧ operand₀.All p ∧ operand₁.All p
  | e@(convert _ _ _ operand) => p e ∧ operand.All p
  | e@(ite cond iftrue iffalse) => p e ∧ cond.All p ∧ iftrue.All p ∧ iffalse.All p
  | e@(insert base offset value _) => p e ∧ base.All p ∧ offset.All p ∧ value.All p

/-- The constants are values of their widths. -/
def ConstsFit (e : Expr) : Prop :=
  e.All fun
    | const value bits => 0 ≤ value ∧ value < 2 ^ bits
    | _ => True

/-- The temporaries have the widths of `Γ`. -/
def TmpWidths (Γ : Int → Nat) (e : Expr) : Prop :=
  e.All fun
    | tmp tmpIdx bits => bits = Γ tmpIdx
    | _ => True

end Expr

/-! ## Values -/

theorem wrap_lt (bits : Nat) (v : Int) : wrap bits v < 2 ^ bits := by
  have hpow : (0 : Int) < 2 ^ bits := by positivity
  have hlt := Int.emod_lt_of_pos v hpow
  have hcast : ((2 ^ bits : Nat) : Int) = 2 ^ bits := by push_cast; rfl
  unfold wrap
  omega

@[simp] theorem wrap_natCast (bits x : Nat) : wrap bits x = x % 2 ^ bits := by
  unfold wrap
  rw [show (x : Int) % 2 ^ bits = ((x % 2 ^ bits : Nat) : Int) by push_cast; rfl, Int.toNat_natCast]

theorem wrap_cast (bits : Nat) (v : Int) : (wrap bits v : Int) = v % 2 ^ bits := by
  have hpow : (2 : Int) ^ bits ≠ 0 := by positivity
  unfold wrap
  exact Int.toNat_of_nonneg (Int.emod_nonneg v hpow)

/-- A wrapped number is the number up to multiples. -/
theorem wrap_modEq (bits : Nat) (v : Int) : (wrap bits v : Int) ≡ v [ZMOD 2 ^ bits] := by
  rw [wrap_cast]
  exact Int.mod_modEq v _

theorem Expr.convertBits_lt (fromBits toBits : Nat) (isSigned : Bool) (x : Nat) :
    convertBits fromBits toBits isSigned x < 2 ^ toBits := by
  unfold convertBits
  split
  · exact wrap_lt _ _
  · exact Nat.mod_lt _ (by positivity)

/-- Every value fits the width of its expression. -/
theorem Expr.eval_lt (σ : Env) (e : Expr) (h : e.WellTyped) : e.eval σ < 2 ^ e.bits := by
  induction e with
  | const | stackBaseOffset | unaryOp | binaryOp => exact wrap_lt _ _
  | tmp | virtualVariable | atom => exact Nat.mod_lt _ (by positivity)
  | convert => exact convertBits_lt _ _ _ _
  | ite cond iftrue iffalse _ ihTrue ihFalse =>
    obtain ⟨-, htrue, hfalse, -, hbits⟩ := h
    simp only [eval, bits]
    split
    · exact ihTrue htrue
    · rw [hbits]
      exact ihFalse hfalse
  | insert => exact Nat.mod_lt _ (by positivity)

namespace Expr

variable {σ : Env} {a b : Expr} {s : Bool} {w : Nat}

@[simp] theorem eval_const (v : Int) : (const v w).eval σ = wrap w v := rfl

theorem eval_mul : (binaryOp .mul a b s w).eval σ = a.eval σ * b.eval σ % 2 ^ w := by
  have hcast : (a.eval σ : Int) * b.eval σ = ((a.eval σ * b.eval σ : Nat) : Int) := by push_cast; rfl
  simp only [eval, BinOp.eval, hcast, wrap_natCast]

theorem eval_and : (binaryOp .and a b s w).eval σ = (a.eval σ &&& b.eval σ) % 2 ^ w := wrap_natCast _ _

theorem eval_or : (binaryOp .or a b s w).eval σ = (a.eval σ ||| b.eval σ) % 2 ^ w := wrap_natCast _ _

theorem eval_shl : (binaryOp .shl a b s w).eval σ = a.eval σ * 2 ^ b.eval σ % 2 ^ w := by
  have hcast : (a.eval σ : Int) * 2 ^ b.eval σ = ((a.eval σ * 2 ^ b.eval σ : Nat) : Int) := by push_cast; rfl
  simp only [eval, BinOp.eval, hcast, wrap_natCast]

/-- A shift to the right of an operand that fits. -/
theorem eval_shr (ha : a.eval σ < 2 ^ w) : (binaryOp .shr a b s w).eval σ = a.eval σ / 2 ^ b.eval σ := by
  have hcast : (a.eval σ : Int) / 2 ^ b.eval σ = ((a.eval σ / 2 ^ b.eval σ : Nat) : Int) := by push_cast; rfl
  simp only [eval, BinOp.eval, hcast, wrap_natCast]
  exact Nat.mod_eq_of_lt (Nat.lt_of_le_of_lt (Nat.div_le_self _ _) ha)

theorem eval_rol (ha : a.bits = w) : (binaryOp .rol a b s w).eval σ = Rotate.rotl w (a.eval σ) (b.eval σ) := by
  have hcast : (a.eval σ : Int) * 2 ^ (b.eval σ % w) + a.eval σ / 2 ^ (w - b.eval σ % w) =
      ((a.eval σ * 2 ^ (b.eval σ % w) + a.eval σ / 2 ^ (w - b.eval σ % w) : Nat) : Int) := by push_cast; rfl
  simp only [eval, BinOp.eval, ha, hcast, wrap_natCast]
  rfl

theorem eval_ror (ha : a.bits = w) : (binaryOp .ror a b s w).eval σ = Rotate.rotr w (a.eval σ) (b.eval σ) := by
  have hcast : (a.eval σ : Int) / 2 ^ (b.eval σ % w) + a.eval σ * 2 ^ (w - b.eval σ % w) =
      ((a.eval σ / 2 ^ (b.eval σ % w) + a.eval σ * 2 ^ (w - b.eval σ % w) : Nat) : Int) := by push_cast; rfl
  simp only [eval, BinOp.eval, ha, hcast, wrap_natCast]
  rfl

/-- A constant that fits its width. -/
theorem wrap_of_fits {v : Int} (hv : 0 ≤ v ∧ v < 2 ^ w) : (wrap w v : Int) = v := by
  rw [wrap_cast, Int.emod_eq_of_lt hv.1 hv.2]

end Expr

end Angr.Peephole
