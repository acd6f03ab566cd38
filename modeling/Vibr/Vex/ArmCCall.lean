import Vibr.Vex.X86Flags

/-!
# Condition codes of ARM and ARM64

The helpers for ARM, of `angr/engines/vex/claripy/ccall.py`, compute one flag each. As for x86,
only the last operation and its operands are kept. After a subtraction the carry flag is set if
there was no borrow, and a subtraction with carry borrows if the old flag is not set.
-/

namespace Angr.CCall

open Flags

variable {w : Nat}

/-! ## Additions and subtractions -/

/-- The operations that have two operands, at any width. -/
inductive ArithOp where
  | ADD | SUB | ADC | SBB
  deriving DecidableEq

namespace ArithOp

variable (op : ArithOp) (ccDep1 ccDep2 ccDep3 : BitVec w)

def res : BitVec w :=
  match op with
  | ADD => ccDep1 + ccDep2
  | SUB => ccDep1 - ccDep2
  | ADC => ccDep1 + ccDep2 + ccDep3
  | SBB => ccDep1 - ccDep2 - (ccDep3 ^^^ 1#w)

def flagN : BitVec w := op.res ccDep1 ccDep2 ccDep3 >>> (w - 1)

/-- `arm_zerobit` and `arm64_zerobit`, in a register of `size` bits. -/
def flagZ (size : Nat) : BitVec size := (calcZerobit (op.res ccDep1 ccDep2 ccDep3)).setWidth size

/-- `boolean_extend`. -/
def booleanExtend (b : Bool) (size : Nat) : BitVec size := if b then BitVec.ofNat size 1 else BitVec.ofNat size 0

def flagC (size : Nat) : BitVec size :=
  let res := op.res ccDep1 ccDep2 ccDep3
  match op with
  | ADD => booleanExtend (res < ccDep1) size
  | SUB => booleanExtend (ccDep2 ≤ ccDep1) size
  | ADC => if ccDep3 ≠ 0#w then booleanExtend (res ≤ ccDep1) size else booleanExtend (res < ccDep1) size
  | SBB => if ccDep3 ≠ 0#w then booleanExtend (ccDep2 ≤ ccDep1) size else booleanExtend (ccDep2 < ccDep1) size

def flagV : BitVec w :=
  let res := op.res ccDep1 ccDep2 ccDep3
  match op with
  | ADD | ADC => ((res ^^^ ccDep1) &&& (res ^^^ ccDep2)) >>> (w - 1)
  | SUB | SBB => ((ccDep1 ^^^ ccDep2) &&& (ccDep1 ^^^ res)) >>> (w - 1)

end ArithOp

/-! ## ARM -/

inductive ArmgOp where
  | COPY
  | arith (op : ArithOp)
  | LOGIC
  | MUL
  | MULL

/-- In the order of their numbers. -/
def armgOps : List ArmgOp := [.COPY, .arith .ADD, .arith .SUB, .arith .ADC, .arith .SBB, .LOGIC, .MUL, .MULL]

section armg

variable (ccOp : Nat) (ccDep1 ccDep2 ccDep3 : BitVec 32)

def armgCalculateFlagN : Option (BitVec 32) :=
  armgOps[ccOp]?.map fun
    | .COPY => ccDep1 >>> 31 &&& 1#32
    | .arith op => op.flagN ccDep1 ccDep2 ccDep3
    | .LOGIC | .MUL => ccDep1 >>> 31
    | .MULL => ccDep2 >>> 31

def armgCalculateFlagZ : Option (BitVec 32) :=
  armgOps[ccOp]?.map fun
    | .COPY => ccDep1 >>> 30 &&& 1#32
    | .arith op => op.flagZ ccDep1 ccDep2 ccDep3 32
    | .LOGIC | .MUL => (calcZerobit ccDep1).setWidth 32
    | .MULL => (calcZerobit (ccDep1 ||| ccDep2)).setWidth 32

def armgCalculateFlagC : Option (BitVec 32) :=
  armgOps[ccOp]?.map fun
    | .COPY => ccDep1 >>> 29 &&& 1#32
    | .arith op => op.flagC ccDep1 ccDep2 ccDep3 32
    | .LOGIC => ccDep2
    | .MUL | .MULL => ccDep3 >>> 1 &&& 1#32

def armgCalculateFlagV : Option (BitVec 32) :=
  armgOps[ccOp]?.map fun
    | .COPY => ccDep1 >>> 28 &&& 1#32
    | .arith op => op.flagV ccDep1 ccDep2 ccDep3
    | .LOGIC => ccDep3
    | .MUL | .MULL => ccDep3 &&& 1#32

end armg

inductive ArmCond where
  | EQ | NE | HS | LO | MI | PL | VS | VC | HI | LS | GE | LT | GT | LE | AL | NV
  deriving DecidableEq

/-- In the order of their numbers. -/
def armConds : List ArmCond :=
  [.EQ, .NE, .HS, .LO, .MI, .PL, .VS, .VC, .HI, .LS, .GE, .LT, .GT, .LE, .AL, .NV]

/-- The number of the condition, and below it the number of the operation. NV raises an error. -/
def armgCalculateCondition (condNOp : Nat) (ccDep1 ccDep2 ccDep3 : BitVec 32) : Option (BitVec 32) :=
  let cond := condNOp >>> 4
  let ccOp := condNOp &&& 0xF
  let inv := BitVec.ofNat 32 (cond &&& 1)
  let nf := armgCalculateFlagN ccOp ccDep1 ccDep2 ccDep3
  let zf := armgCalculateFlagZ ccOp ccDep1 ccDep2 ccDep3
  let cf := armgCalculateFlagC ccOp ccDep1 ccDep2 ccDep3
  let vf := armgCalculateFlagV ccOp ccDep1 ccDep2 ccDep3
  match armConds[cond]? with
  | some .AL => some 1#32
  | some .EQ | some .NE => zf.map fun zf => inv ^^^ zf
  | some .HS | some .LO => cf.map fun cf => inv ^^^ cf
  | some .MI | some .PL => nf.map fun nf => inv ^^^ nf
  | some .VS | some .VC => vf.map fun vf => inv ^^^ vf
  | some .HI | some .LS => do return inv ^^^ ((← cf) &&& ~~~(← zf))
  | some .GE | some .LT => do return inv ^^^ (1#32 &&& ~~~((← nf) ^^^ (← vf)))
  | some .GT | some .LE => do return inv ^^^ (1#32 &&& ~~~((← zf) ||| ((← nf) ^^^ (← vf))))
  | some .NV | none => none

/-! ## ARM64 -/

/-- The operations; those of 32 bits truncate their operands. -/
inductive Arm64gOp where
  | COPY
  | arith32 (op : ArithOp)
  | arith64 (op : ArithOp)
  | LOGIC32
  | LOGIC64

/-- In the order of their numbers; SBC is SBB of ARM. -/
def arm64gOps : List Arm64gOp :=
  [.COPY, .arith32 .ADD, .arith64 .ADD, .arith32 .SUB, .arith64 .SUB, .arith32 .ADC, .arith64 .ADC, .arith32 .SBB,
    .arith64 .SBB, .LOGIC32, .LOGIC64]

def u64ToU32 (x : BitVec 64) : BitVec 32 := x.extractLsb' 0 32

section arm64g

variable (ccOp : Nat) (ccDep1 ccDep2 ccDep3 : BitVec 64)

def arm64gCalculateFlagN : Option (BitVec 64) :=
  arm64gOps[ccOp]?.map fun
    | .COPY => ccDep1 >>> 31 &&& 1#64
    | .arith32 op => (op.flagN (u64ToU32 ccDep1) (u64ToU32 ccDep2) (u64ToU32 ccDep3)).setWidth 64
    | .arith64 op => op.flagN ccDep1 ccDep2 ccDep3
    | .LOGIC32 => (u64ToU32 ccDep1 >>> 31).setWidth 64
    | .LOGIC64 => ccDep1 >>> 63

def arm64gCalculateFlagZ : Option (BitVec 64) :=
  arm64gOps[ccOp]?.map fun
    | .COPY => ccDep1 >>> 30 &&& 1#64
    | .arith32 op => op.flagZ (u64ToU32 ccDep1) (u64ToU32 ccDep2) (u64ToU32 ccDep3) 64
    | .arith64 op => op.flagZ ccDep1 ccDep2 ccDep3 64
    | .LOGIC32 => (calcZerobit (u64ToU32 ccDep1)).setWidth 64
    | .LOGIC64 => (calcZerobit ccDep1).setWidth 64

def arm64gCalculateFlagC : Option (BitVec 64) :=
  arm64gOps[ccOp]?.map fun
    | .COPY => ccDep1 >>> 29 &&& 1#64
    | .arith32 op => op.flagC (u64ToU32 ccDep1) (u64ToU32 ccDep2) (u64ToU32 ccDep3) 64
    | .arith64 op => op.flagC ccDep1 ccDep2 ccDep3 64
    | .LOGIC32 | .LOGIC64 => 0#64

def arm64gCalculateFlagV : Option (BitVec 64) :=
  arm64gOps[ccOp]?.map fun
    | .COPY => ccDep1 >>> 28 &&& 1#64
    | .arith32 op => (op.flagV (u64ToU32 ccDep1) (u64ToU32 ccDep2) (u64ToU32 ccDep3)).setWidth 64
    | .arith64 op => op.flagV ccDep1 ccDep2 ccDep3
    | .LOGIC32 | .LOGIC64 => 0#64

end arm64g

def arm64gCalculateCondition (condNOp : Nat) (ccDep1 ccDep2 ccDep3 : BitVec 64) : Option (BitVec 64) :=
  let cond := condNOp >>> 4
  let ccOp := condNOp &&& 0xF
  let inv := BitVec.ofNat 64 (cond &&& 1)
  let nf := arm64gCalculateFlagN ccOp ccDep1 ccDep2 ccDep3
  let zf := arm64gCalculateFlagZ ccOp ccDep1 ccDep2 ccDep3
  let cf := arm64gCalculateFlagC ccOp ccDep1 ccDep2 ccDep3
  let vf := arm64gCalculateFlagV ccOp ccDep1 ccDep2 ccDep3
  match armConds[cond]? with
  | some .AL | some .NV => some 1#64
  | some .EQ | some .NE => zf.map fun zf => inv ^^^ zf
  | some .HS | some .LO => cf.map fun cf => inv ^^^ cf
  | some .MI | some .PL => nf.map fun nf => inv ^^^ nf
  | some .VS | some .VC => vf.map fun vf => inv ^^^ vf
  | some .HI | some .LS => do return inv ^^^ (1#64 &&& ((← cf) &&& ~~~(← zf)))
  | some .GE | some .LT => do return inv ^^^ (1#64 &&& ~~~((← nf) ^^^ (← vf)))
  | some .GT | some .LE => do return inv ^^^ (1#64 &&& ~~~((← zf) ||| ((← nf) ^^^ (← vf))))
  | none => none

end Angr.CCall
