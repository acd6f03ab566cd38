import Mathlib

/-!
# Condition codes of x86 and AMD64

`angr/engines/vex/claripy/ccall.py`. The translated code does not compute the processor's
flags: it keeps the number of the last operation that sets them, two operands, and what is left of the
old flags. The helpers here get the flags from that when a condition is tested. Values are
concrete; a number that stands for no operation or condition raises an error, which is `none`.
-/

namespace Angr.CCall

/-! ## Tables -/

inductive Platform where
  | AMD64
  | X86
  deriving DecidableEq

def Platform.size : Platform → Nat
  | AMD64 => 64
  | X86 => 32

/-- The names of operations, without their suffix. -/
inductive OpName where
  | ADD | SUB | ADC | SBB | LOGIC | INC | DEC | SHL | SHR | ROL | ROR | UMUL | SMUL
  | ANDN | BLSI | BLSMSK | BLSR | ADCX | ADOX
  deriving DecidableEq

/-- The letter or the number that a name ends with. -/
inductive Suffix where
  | B | W | L | Q
  | bits32 | bits64
  deriving DecidableEq

inductive OpType where
  | COPY
  | op (name : OpName) (suffix : Suffix)
  | NUMBER
  deriving DecidableEq

/-- `_get_nbits`. -/
def Suffix.nbits : Suffix → Nat
  | B => 8
  | W => 16
  | L => 32
  | Q => 64
  | bits32 => 32
  | bits64 => 64

/-- The operations in the order of their numbers. -/
def opTypes (platform : Platform) : List OpType :=
  let sizes : List Suffix :=
    match platform with
    | .AMD64 => [.B, .W, .L, .Q]
    | .X86 => [.B, .W, .L]
  let sized : List OpName := [.ADD, .SUB, .ADC, .SBB, .LOGIC, .INC, .DEC, .SHL, .SHR, .ROL, .ROR, .UMUL, .SMUL]
  let others : List OpType :=
    match platform with
    | .AMD64 =>
      [.op .ANDN .bits32, .op .ANDN .bits64, .op .BLSI .bits32, .op .BLSI .bits64, .op .BLSMSK .bits32,
        .op .BLSMSK .bits64, .op .BLSR .bits32, .op .BLSR .bits64, .op .ADCX .L, .op .ADCX .Q, .op .ADOX .L,
        .op .ADOX .Q]
    | .X86 => []
  .COPY :: (sized.flatMap fun name => sizes.map (.op name)) ++ others ++ [.NUMBER]

def opType (platform : Platform) (ccOp : Nat) : Option OpType := (opTypes platform)[ccOp]?

inductive CondType where
  | O | NO | B | NB | Z | NZ | BE | NBE | S | NS | P | NP | L | NL | LE | NLE | Always
  deriving DecidableEq

/-- The conditions in the order of their numbers. -/
def condTypes (platform : Platform) : List CondType :=
  [.O, .NO, .B, .NB, .Z, .NZ, .BE, .NBE, .S, .NS, .P, .NP, .L, .NL, .LE, .NLE] ++
    match platform with
    | .AMD64 => []
    | .X86 => [.Always]

def condType (platform : Platform) (cond : Nat) : Option CondType := (condTypes platform)[cond]?

def G_CC_SHIFT_O : Nat := 11
def G_CC_SHIFT_S : Nat := 7
def G_CC_SHIFT_Z : Nat := 6
def G_CC_SHIFT_A : Nat := 4
def G_CC_SHIFT_C : Nat := 0
def G_CC_SHIFT_P : Nat := 2

/-! ## Flags -/

structure Rdata where
  cf : BitVec 1
  pf : BitVec 1
  af : BitVec 1
  zf : BitVec 1
  sf : BitVec 1
  of : BitVec 1

variable {n : Nat}

/-- `p[i]`. -/
def bit (p : BitVec n) (i : Nat) : BitVec 1 := p.extractLsb' i 1

def condFlag (condition : Bool) : BitVec 1 := if condition then 1#1 else 0#1

def calcZerobit (p : BitVec n) : BitVec 1 := condFlag (p = 0#n)

/-- Of the lowest eight bits. -/
def calcParitybit (p : BitVec n) : BitVec 1 := (List.range (min n 8)).foldl (fun b i => b ^^^ bit p i) 1#1

/-- A flag of the old ones. -/
def oldFlag (ccNdep : BitVec n) (shift : Nat) : BitVec 1 := bit (ccNdep &&& BitVec.ofNat n (1 <<< shift)) shift

def pcActionsADD (argL argR : BitVec n) : Rdata :=
  let dataMask := BitVec.ofNat n (2 ^ n - 1)
  let res := argL + argR
  { cf := condFlag (res < argL)
    pf := calcParitybit res
    af := bit (res ^^^ argL ^^^ argR) G_CC_SHIFT_A
    zf := calcZerobit res
    sf := bit res (n - 1)
    of := bit ((argL ^^^ argR ^^^ dataMask) &&& (argL ^^^ res)) (n - 1) }

def pcActionsSUB (argL argR : BitVec n) : Rdata :=
  let res := argL - argR
  { cf := condFlag (argL < argR)
    pf := calcParitybit res
    af := bit (res ^^^ argL ^^^ argR) G_CC_SHIFT_A
    zf := calcZerobit res
    sf := bit res (n - 1)
    of := bit ((argL ^^^ argR) &&& (argL ^^^ res)) (n - 1) }

def pcActionsLOGIC (argL : BitVec n) : Rdata where
  cf := 0#1
  pf := calcParitybit argL
  af := 0#1
  zf := calcZerobit argL
  sf := bit argL (n - 1)
  of := 0#1

def pcActionsDEC (res ccNdep : BitVec n) : Rdata :=
  let argL := res + 1#n
  { cf := oldFlag ccNdep G_CC_SHIFT_C
    pf := calcParitybit res
    af := bit (res ^^^ argL ^^^ 1#n) G_CC_SHIFT_A
    zf := calcZerobit res
    sf := bit res (n - 1)
    of := condFlag (argL = BitVec.ofNat n (1 <<< (n - 1))) }

def pcActionsINC (res ccNdep : BitVec n) : Rdata :=
  let argL := res - 1#n
  { cf := oldFlag ccNdep G_CC_SHIFT_C
    pf := calcParitybit res
    af := bit (res ^^^ argL ^^^ 1#n) G_CC_SHIFT_A
    zf := calcZerobit res
    sf := bit res (n - 1)
    of := condFlag (res = BitVec.ofNat n (1 <<< (n - 1))) }

def pcActionsADC (ccDep1 ccDep2 ccNdep : BitVec n) : Rdata :=
  let oldC := ccNdep &&& BitVec.ofNat n (1 <<< G_CC_SHIFT_C)
  let argL := ccDep1
  let argR := ccDep2 ^^^ oldC
  let res := (argL + argR) + oldC
  { cf := if oldC ≠ 0#n then condFlag (res ≤ argL) else condFlag (res < argL)
    pf := calcParitybit res
    af := bit (res ^^^ argL ^^^ argR) G_CC_SHIFT_A
    zf := calcZerobit res
    sf := bit res (n - 1)
    of := bit ((argL ^^^ argR ^^^ BitVec.ofInt n (-1)) &&& (argL ^^^ res)) (n - 1) }

/-- ADCX adds with the carry flag as its carry, and ADOX with the overflow flag. -/
def pcActionsADCX (ccDep1 ccDep2 ccNdep : BitVec n) (isAdc : Bool) : Rdata :=
  let carry := ccNdep >>> (if isAdc then G_CC_SHIFT_C else G_CC_SHIFT_O) &&& 1#n
  let argL := ccDep1
  let argR := ccDep2 ^^^ carry
  let res := (argL + argR) + carry
  let carry := if carry ≠ 0#n then condFlag (res ≤ argL) else condFlag (res < argL)
  { cf := if isAdc then carry else oldFlag ccNdep G_CC_SHIFT_C
    pf := oldFlag ccNdep G_CC_SHIFT_P
    af := oldFlag ccNdep G_CC_SHIFT_A
    zf := oldFlag ccNdep G_CC_SHIFT_Z
    sf := oldFlag ccNdep G_CC_SHIFT_S
    of := if isAdc then oldFlag ccNdep G_CC_SHIFT_O else carry }

def pcActionsANDN (ccDep1 : BitVec n) : Rdata where
  cf := 0#1
  pf := 0#1
  af := 0#1
  zf := condFlag (ccDep1 = 0#n)
  sf := bit ccDep1 (n - 1)
  of := 0#1

def pcActionsBLSI (ccDep1 ccDep2 : BitVec n) : Rdata where
  cf := condFlag (ccDep2 ≠ 0#n)
  pf := 0#1
  af := 0#1
  zf := condFlag (ccDep1 = 0#n)
  sf := bit ccDep1 (n - 1)
  of := 0#1

def pcActionsBLSMSK (ccDep1 ccDep2 : BitVec n) : Rdata where
  cf := condFlag (ccDep2 = 0#n)
  pf := 0#1
  af := 0#1
  zf := 0#1
  sf := bit ccDep1 (n - 1)
  of := 0#1

def pcActionsBLSR (ccDep1 ccDep2 : BitVec n) : Rdata where
  cf := condFlag (ccDep2 = 0#n)
  pf := 0#1
  af := 0#1
  zf := condFlag (ccDep1 = 0#n)
  sf := bit ccDep1 (n - 1)
  of := 0#1

def pcActionsSBB (ccDep1 ccDep2 ccNdep : BitVec n) : Rdata :=
  let oldC := (bit ccNdep G_CC_SHIFT_C).setWidth n
  let argL := ccDep1
  let argR := ccDep2 ^^^ oldC
  let res := (argL - argR) - oldC
  { cf := if oldC = 1#n then condFlag (argL ≤ argR) else condFlag (argL < argR)
    pf := calcParitybit res
    af := bit (res ^^^ argL ^^^ argR) G_CC_SHIFT_A
    zf := calcZerobit res
    sf := bit res (n - 1)
    of := bit ((argL ^^^ argR) &&& (argL ^^^ res)) (n - 1) }

def pcActionsSHL (remaining shifted : BitVec n) : Rdata :=
  let cf := bit shifted (n - 1)
  let sf := bit remaining (n - 1)
  { cf := cf
    pf := calcParitybit (remaining.extractLsb' 0 8)
    af := 0#1
    zf := calcZerobit remaining
    sf := sf
    of := bit (sf ^^^ cf) 0 }

def pcActionsSHR (remaining shifted : BitVec n) : Rdata where
  cf := condFlag (shifted &&& 1#n ≠ 0#n)
  pf := calcParitybit (remaining.extractLsb' 0 8)
  af := 0#1
  zf := calcZerobit remaining
  sf := bit remaining (n - 1)
  of := bit (bit remaining (n - 1) ^^^ bit shifted (n - 1)) 0

def pcActionsROL (res ccNdep : BitVec n) : Rdata where
  cf := bit res 0
  pf := oldFlag ccNdep G_CC_SHIFT_P
  af := oldFlag ccNdep G_CC_SHIFT_A
  zf := oldFlag ccNdep G_CC_SHIFT_Z
  sf := oldFlag ccNdep G_CC_SHIFT_S
  of := bit (res >>> (n - 1) ^^^ res) 0

def pcActionsROR (res ccNdep : BitVec n) : Rdata where
  cf := bit res (n - 1)
  pf := oldFlag ccNdep G_CC_SHIFT_P
  af := oldFlag ccNdep G_CC_SHIFT_A
  zf := oldFlag ccNdep G_CC_SHIFT_Z
  sf := oldFlag ccNdep G_CC_SHIFT_S
  of := bit res (n - 1) ^^^ bit res (n - 2)

def pcActionsUMUL (ccDep1 ccDep2 : BitVec n) : Rdata :=
  let rr := ccDep1.setWidth (n + n) * ccDep2.setWidth (n + n)
  let hi := rr.extractLsb' n n
  let lo := rr.extractLsb' 0 n
  let cf := condFlag (hi ≠ 0#n)
  { cf := cf
    pf := calcParitybit lo
    af := 0#1
    zf := calcZerobit lo
    sf := bit lo (n - 1)
    of := cf }

def pcActionsSMUL (ccDep1 ccDep2 : BitVec n) : Rdata :=
  let ir := ccDep1.signExtend (n + n) * ccDep2.signExtend (n + n)
  let hi := ir.extractLsb' n n
  let lo := ir.extractLsb' 0 n
  let cf := condFlag (hi ≠ lo.sshiftRight (n - 1))
  { cf := cf
    pf := calcParitybit lo
    af := 0#1
    zf := calcZerobit lo
    sf := bit lo (n - 1)
    of := cf }

def pcActions (name : OpName) (ccDep1 ccDep2 ccNdep : BitVec n) : Rdata :=
  match name with
  | .ADD => pcActionsADD ccDep1 ccDep2
  | .ADC => pcActionsADC ccDep1 ccDep2 ccNdep
  | .SUB => pcActionsSUB ccDep1 ccDep2
  | .SBB => pcActionsSBB ccDep1 ccDep2 ccNdep
  | .LOGIC => pcActionsLOGIC ccDep1
  | .INC => pcActionsINC ccDep1 ccNdep
  | .DEC => pcActionsDEC ccDep1 ccNdep
  | .SHL => pcActionsSHL ccDep1 ccDep2
  | .SHR => pcActionsSHR ccDep1 ccDep2
  | .ROL => pcActionsROL ccDep1 ccNdep
  | .ROR => pcActionsROR ccDep1 ccNdep
  | .UMUL => pcActionsUMUL ccDep1 ccDep2
  | .SMUL => pcActionsSMUL ccDep1 ccDep2
  | .ANDN => pcActionsANDN ccDep1
  | .BLSI => pcActionsBLSI ccDep1 ccDep2
  | .BLSMSK => pcActionsBLSMSK ccDep1 ccDep2
  | .BLSR => pcActionsBLSR ccDep1 ccDep2
  | .ADOX => pcActionsADCX ccDep1 ccDep2 ccNdep false
  | .ADCX => pcActionsADCX ccDep1 ccDep2 ccNdep true

/-- The flags are packed in a register, or apart. -/
inductive RdataAll (size : Nat) where
  | packed (rdata : BitVec size)
  | flags (f : Rdata)

variable (platform : Platform) (ccOp : Nat) (ccDep1 ccDep2 ccNdep : BitVec platform.size)

def flagsMask : BitVec platform.size :=
  BitVec.ofNat _ (1 <<< G_CC_SHIFT_O ||| 1 <<< G_CC_SHIFT_S ||| 1 <<< G_CC_SHIFT_Z ||| 1 <<< G_CC_SHIFT_A |||
    1 <<< G_CC_SHIFT_C ||| 1 <<< G_CC_SHIFT_P)

def pcCalculateRdataAllWRK : Option (RdataAll platform.size) :=
  match opType platform ccOp with
  | some .COPY => some (.packed (ccDep1 &&& flagsMask platform))
  | some (.op name suffix) =>
    let nbits := suffix.nbits
    some (.flags (pcActions name (ccDep1.extractLsb' 0 nbits) (ccDep2.extractLsb' 0 nbits)
      (ccNdep.extractLsb' 0 nbits)))
  | _ => none

/-- A condition on flags, in a register of any width. -/
def conditionOf (cond : CondType) (inv cf pf zf sf of : BitVec n) : Option (BitVec n) :=
  match cond with
  | .O | .NO => some (1#n &&& (inv ^^^ of))
  | .Z | .NZ => some (1#n &&& (inv ^^^ zf))
  | .B | .NB => some (1#n &&& (inv ^^^ cf))
  | .BE | .NBE => some (1#n &&& (inv ^^^ (cf ||| zf)))
  | .S | .NS => some (1#n &&& (inv ^^^ sf))
  | .P | .NP => some (1#n &&& (inv ^^^ pf))
  | .L | .NL => some (1#n &&& (inv ^^^ (sf ^^^ of)))
  | .LE | .NLE => some (1#n &&& (inv ^^^ ((sf ^^^ of) ||| zf)))
  | .Always => none

/-- A bit in a register. -/
def extend (r : BitVec 1) : BitVec platform.size := r.setWidth platform.size

def pcCalculateCondition (cond : Nat) : Option (BitVec platform.size) :=
  match pcCalculateRdataAllWRK platform ccOp ccDep1 ccDep2 ccNdep, condType platform cond with
  | some (.flags f), some c =>
    (conditionOf c (BitVec.ofNat 1 (cond &&& 1)) f.cf f.pf f.zf f.sf f.of).map (extend platform)
  | some (.packed rdata), some c =>
    conditionOf c (BitVec.ofNat _ (cond &&& 1)) (rdata >>> G_CC_SHIFT_C) (rdata >>> G_CC_SHIFT_P)
      (rdata >>> G_CC_SHIFT_Z) (rdata >>> G_CC_SHIFT_S) (rdata >>> G_CC_SHIFT_O)
  | _, _ => none

def pcCalculateRdataC : Option (BitVec platform.size) :=
  match opType platform ccOp with
  | some .COPY => some (ccDep1 >>> G_CC_SHIFT_C &&& 1#_)
  | some (.op .LOGIC _) => some 0#_
  | _ =>
    match pcCalculateRdataAllWRK platform ccOp ccDep1 ccDep2 ccNdep with
    | some (.flags f) => some (extend platform (f.cf &&& 1#1))
    | some (.packed rdata) => some (rdata >>> G_CC_SHIFT_C &&& 1#_)
    | none => none

/-! ## Simplified conditions -/

/-- The functions `pc_actions_op_*`. -/
def pcActionsOp (name : OpName) (argL argR : BitVec n) : Option (BitVec n) :=
  match name with
  | .SUB => some (argL - argR)
  | .DEC => some (argL - 1#n)
  | .INC => some (argL + 1#n)
  | .SHR => some (argL.sshiftRight argR.toNat)
  | .SHL => some (argL <<< argR.toNat)
  | .ADD => some (argL + argR)
  | .LOGIC => some argL
  | _ => none

/-- The functions `pc_actions_cond_*`. -/
def pcActionsCond (cond : CondType) (ccExpr : BitVec n) : Option (BitVec 1) :=
  match cond with
  | .Z => some (condFlag (ccExpr = 0#n))
  | .NZ => some (condFlag (ccExpr ≠ 0#n))
  | .S => some (condFlag (ccExpr.slt 0#n))
  | .B => some (condFlag (ccExpr.ult 0#n))
  | .BE => some (condFlag (ccExpr.ule 0#n))
  | .NBE => some (condFlag ((0#n).ult ccExpr))
  | .L => some (condFlag (ccExpr.slt 0#n))
  | .LE => some (condFlag (ccExpr.sle 0#n))
  | .NLE => some (condFlag ((0#n).slt ccExpr))
  | _ => none

/-- The functions `pc_actions_SUB_*`. -/
def pcActionsSUBCond (cond : CondType) (argL argR : BitVec n) : Option (BitVec 1) :=
  match cond with
  | .Z => some (condFlag (argL = argR))
  | .NZ => some (condFlag (argL ≠ argR))
  | .B => some (condFlag (argL.ult argR))
  | .BE => some (condFlag (argL.ule argR))
  | .NBE => some (condFlag (argR.ult argL))
  | .L => some (condFlag (argL.slt argR))
  | .LE => some (condFlag (argL.sle argR))
  | .NLE => some (condFlag (argR.slt argL))
  | _ => none

/-- The functions for an operation and a condition, special ones first. -/
def pcActionsSimple (name : OpName) (cond : CondType) (argL argR : BitVec n) : Option (BitVec 1) :=
  match name, pcActionsSUBCond cond argL argR with
  | .SUB, some r => some r
  | _, _ => (pcActionsOp name argL argR).bind (pcActionsCond cond)

/-- The name of an operation is taken to be all but the last letter; where the suffix is longer, no
function has that name. -/
def pcCalculateConditionSimple (cond : Nat) : Option (BitVec platform.size) :=
  match opType platform ccOp, condType platform cond with
  | some (.op name suffix), some c =>
    match suffix with
    | .bits32 | .bits64 => none
    | _ =>
      let nbits := suffix.nbits
      (pcActionsSimple name c (ccDep1.extractLsb' 0 nbits) (ccDep2.extractLsb' 0 nbits)).map (extend platform)
  | _, _ => none

end Angr.CCall
