import Mathlib.Data.BitVec
import Mathlib.Tactic.IntervalCases
import Mathlib.Tactic.Ring

/-!
# ARM relocations

The values of the relocations of ARM and Thumb instructions. The place is given by its
word, in the order of its bytes in memory; a Thumb instruction has its first halfword in
the low half of that word.
-/

namespace Vibr.Cle.Arm

/-- Applies the mask to the relocation; a result with bits outside of it is dropped. -/
def applyReloc (inst result mask : BitVec 32) : BitVec 32 :=
  if result &&& ~~~mask ≠ 0#32 then 0#32 else (inst &&& ~~~mask) ||| (result &&& mask)

def isThumbFunc (isFunction : Bool) (addr : Int) : Bool := addr % 2 = 1 ∧ isFunction = true

/-- `x | T`. -/
def orThumb (x : Int) (T : Bool) : Int := if T = true ∧ x % 2 = 0 then x + 1 else x

/-- `R_ARM_CALL.value`, also of `R_ARM_JUMP24` and `R_ARM_PC24`. -/
def armCall (inst : BitVec 32) (S P : Int) (isFunction : Bool) : BitVec 32 :=
  let T := isThumbFunc isFunction S
  let A := if inst &&& 0x00800000#32 ≠ 0#32 then inst ||| 0xFF000000#32 else inst
  let result := orThumb (S + A.toNat * 4) T - P
  let imm24 := (BitVec.ofInt 32 result &&& 0x03FFFFFE#32) >>> 2
  if T then
    let bitH := (BitVec.ofInt 32 result &&& 0x02#32) >>> 1
    applyReloc inst (0xFA#32 ||| bitH) 0xFF000000#32
  else applyReloc inst imm24 0xFFFFFF#32

/-- A 16-bit literal as a signed value. -/
def signed16 (A : BitVec 32) : Int :=
  if A &&& 0x8000#32 ≠ 0#32 then -((A ^^^ 0xFFFF#32).toNat + 1) else A.toNat

def movLiteral (inst : BitVec 32) : BitVec 32 := ((inst &&& 0xF0000#32) >>> 4) ||| (inst &&& 0xFFF#32)

/-- The parts of a literal, put into an instruction. -/
def movEncode (inst part1 part2 : BitVec 32) : BitVec 32 :=
  (inst &&& 0xFFF0F000#32) ||| ((part1 <<< 16) &&& 0xF0000#32) ||| (part2 &&& 0xFFF#32)

def movwAbsNc (inst : BitVec 32) (S : Int) (isFunction : Bool) : BitVec 32 :=
  let X := orThumb (S + signed16 (movLiteral inst)) (isThumbFunc isFunction S)
  let maskX := BitVec.ofInt 32 X &&& 0xFFFF#32
  movEncode inst (maskX >>> 12) (maskX &&& 0xFFF#32)

def movtAbs (inst : BitVec 32) (S : Int) : BitVec 32 :=
  let X := S + signed16 (movLiteral inst)
  let maskX := BitVec.ofInt 32 X &&& 0xFFFF0000#32
  movEncode inst ((maskX >>> 16) >>> 12) ((maskX >>> 16) &&& 0xFFF#32)

/-- The instruction of two halfwords. -/
def thumbInst (word : BitVec 32) : BitVec 32 :=
  let byte := fun i => (word >>> (8 * i)) &&& 0xFF#32
  let hi := (byte 1 <<< 8) ||| byte 0
  let lo := (byte 3 <<< 8) ||| byte 2
  (hi <<< 16) ||| lo

/-- The little-endian word of an instruction of two halfwords. -/
def thumbWord (inst : BitVec 32) : BitVec 32 :=
  let raw0 := (inst &&& 0x00FF0000#32) >>> 16
  let raw1 := (inst &&& 0xFF000000#32) >>> 24
  let raw2 := inst &&& 0x00FF#32
  let raw3 := (inst &&& 0xFF00#32) >>> 8
  (raw3 <<< 24) ||| (raw2 <<< 16) ||| (raw1 <<< 8) ||| raw0

/-- A mask that captures `nBits` from `firstBit` on. -/
def genMask (nBits firstBit : Nat) : BitVec 32 := ((1#32 <<< nBits) - 1#32) <<< firstBit

/-- A truth value as a number. -/
def bit (b : Bool) : BitVec 32 := if b then 1#32 else 0#32

/-- The implicit addend of `R_ARM_THM_CALL`. -/
def thmAddend (inst : BitVec 32) : BitVec 32 :=
  let A := (inst &&& genMask 11 0) <<< 1
  let A := A ||| (((inst &&& genMask 10 16) >>> 16) <<< 12)
  let signBit := (inst &&& genMask 1 26) != 0#32
  let J1 := ((inst &&& genMask 1 13) != 0#32) ^^ !signBit
  let J2 := ((inst &&& genMask 1 11) != 0#32) ^^ !signBit
  let A := A ||| (bit J1 <<< 23)
  let A := A ||| (bit J2 <<< 22)
  if signBit then A ||| 0xFF000000#32 else A

/-- The offset `x` put into an instruction. -/
def thmEncode (inst x : BitVec 32) : BitVec 32 :=
  let inst := inst &&& ~~~0b00000111111111110010111111111111#32
  let signBit := (x &&& genMask 1 24) != 0#32
  let J1 := ((x &&& genMask 1 23) != 0#32) ^^ !signBit
  let J2 := ((x &&& genMask 1 22) != 0#32) ^^ !signBit
  let inst := inst ||| (bit signBit <<< 26)
  let inst := inst ||| (bit J1 <<< 13)
  let inst := inst ||| (bit J2 <<< 11)
  let inst := inst ||| ((x &&& genMask 11 1) >>> 1)
  inst ||| (((x &&& genMask 10 12) >>> 12) <<< 16)

/-- `R_ARM_THM_CALL.value`, also of `R_ARM_THM_JUMP24`, `R_ARM_THM_JUMP19` and
`R_ARM_THM_JUMP6`. The addend of a relocation with addends is `rela`. -/
def thmCall (rela : Option Int) (word : BitVec 32) (S P : Int) (isFunction : Bool) : BitVec 32 :=
  let inst := thumbInst word
  let A : Int := rela.getD (thmAddend inst).toNat
  let x := BitVec.ofInt 32 (orThumb (S + A) (isThumbFunc isFunction S) - P)
  thumbWord (thmEncode inst x)

def thmMovLiteral (inst : BitVec 32) : BitVec 32 :=
  let A := (inst &&& 0b00000100000000000000000000000000#32) >>> 26 <<< 15
  let A := A ||| ((inst &&& 0b00000000000011110000000000000000#32) >>> 16 <<< 11)
  let A := A ||| ((inst &&& 0b00000000000000000111000000000000#32) >>> 12 <<< 8)
  A ||| (inst &&& 0b00000000000000000000000011111111#32)

def thmMovEncode (inst part1 part2 part3 part4 : BitVec 32) : BitVec 32 :=
  let inst := inst &&& 0b11111011111100001000111100000000#32
  let inst := inst ||| ((part1 <<< 16) &&& 0b00000000000011110000000000000000#32)
  let inst := inst ||| ((part2 <<< 26) &&& 0b00000100000000000000000000000000#32)
  let inst := inst ||| ((part3 <<< 12) &&& 0b00000000000000000111000000000000#32)
  inst ||| ((part4 <<< 0) &&& 0b00000000000000000000000011111111#32)

def thmMovwAbsNc (word : BitVec 32) (S : Int) (isFunction : Bool) : BitVec 32 :=
  let inst := thumbInst word
  let X := orThumb (S + signed16 (thmMovLiteral inst)) (isThumbFunc isFunction S)
  let maskX := BitVec.ofInt 32 X &&& 0xFFFF#32
  thumbWord (thmMovEncode inst (maskX >>> 12) ((maskX >>> 11) &&& 0x1#32) ((maskX >>> 8) &&& 0x7#32)
    (maskX &&& 0xFF#32))

def thmMovtAbs (word : BitVec 32) (S : Int) : BitVec 32 :=
  let inst := thumbInst word
  let X := S + signed16 (thmMovLiteral inst)
  let maskX := BitVec.ofInt 32 X &&& 0xFFFF0000#32
  thumbWord (thmMovEncode inst (maskX >>> 28) ((maskX >>> 27) &&& 0x1#32) ((maskX >>> 24) &&& 0x7#32)
    ((maskX >>> 16) &&& 0xFF#32))

inductive RelocType where
  | armCall | armJump24 | movwAbsNc | movtAbs
  | thmCall | thmJump24 | thmJump19 | thmJump6 | thmMovwAbsNc | thmMovtAbs
  deriving DecidableEq

namespace RelocType

/-- The word computed for a relocation without addends. -/
def value (type : RelocType) (word : BitVec 32) (S P : Int) (isFunction : Bool) : BitVec 32 :=
  match type with
  | armCall | armJump24 => Arm.armCall word S P isFunction
  | movwAbsNc => Arm.movwAbsNc word S isFunction
  | movtAbs => Arm.movtAbs word S
  | thmCall | thmJump24 | thmJump19 | thmJump6 => Arm.thmCall none word S P isFunction
  | thmMovwAbsNc => Arm.thmMovwAbsNc word S isFunction
  | thmMovtAbs => Arm.thmMovtAbs word S

end RelocType

/-! ## The immediates of the architecture -/

/-- `B`, `BL` and `BLX`; the last has a bit of the offset in its place for the link. -/
def armImm (inst : BitVec 32) : BitVec 26 :=
  inst.extractLsb' 0 24 ++ (if inst.extractLsb' 28 4 = 0xF#4 then inst.extractLsb' 24 1 else 0#1) ++ 0#1

/-- `imm4:imm12`. -/
def movImm (inst : BitVec 32) : BitVec 16 := inst.extractLsb' 16 4 ++ inst.extractLsb' 0 12

/-- `S:I1:I2:imm10:imm11:'0'`, with `I1 = NOT(J1 EOR S)` and `I2 = NOT(J2 EOR S)`. -/
def thmBranchImm (inst : BitVec 32) : BitVec 25 :=
  let s := inst.extractLsb' 26 1
  s ++ ~~~(inst.extractLsb' 13 1 ^^^ s) ++ ~~~(inst.extractLsb' 11 1 ^^^ s) ++ inst.extractLsb' 16 10 ++
    inst.extractLsb' 0 11 ++ 0#1

/-- `S:J2:J1:imm6:imm11:'0'`, of a conditional branch. -/
def thmCondImm (inst : BitVec 32) : BitVec 21 :=
  inst.extractLsb' 26 1 ++ inst.extractLsb' 11 1 ++ inst.extractLsb' 13 1 ++ inst.extractLsb' 16 6 ++
    inst.extractLsb' 0 11 ++ 0#1

/-- `i:imm5:'0'`, of a compare and branch in the first halfword. -/
def thmCbzImm (inst : BitVec 32) : BitVec 7 := inst.extractLsb' 25 1 ++ inst.extractLsb' 19 5 ++ 0#1

/-- `imm4:i:imm3:imm8`. -/
def thmMovImm (inst : BitVec 32) : BitVec 16 :=
  inst.extractLsb' 16 4 ++ inst.extractLsb' 26 1 ++ inst.extractLsb' 12 3 ++ inst.extractLsb' 0 8

/-- The literal of a Thumb move with `i` in front of `imm4`. -/
def thmMovMisread (inst : BitVec 32) : BitVec 16 :=
  inst.extractLsb' 26 1 ++ inst.extractLsb' 16 4 ++ inst.extractLsb' 12 3 ++ inst.extractLsb' 0 8

namespace RelocType

/-- The instruction of the word at the place. -/
def instruction (type : RelocType) (word : BitVec 32) : BitVec 32 :=
  match type with
  | armCall | armJump24 | movwAbsNc | movtAbs => word
  | thmCall | thmJump24 | thmJump19 | thmJump6 | thmMovwAbsNc | thmMovtAbs => thumbInst word

/-- The bits of an instruction that are no immediate. -/
def fixed (type : RelocType) (inst : BitVec 32) : BitVec 32 :=
  match type with
  | armCall | armJump24 => if inst.extractLsb' 28 4 = 0xF#4 then 0xFE000000#32 else 0xFF000000#32
  | movwAbsNc | movtAbs => 0xFFF0F000#32
  | thmCall | thmJump24 => 0b11111000000000001101000000000000#32
  | thmJump19 => 0b11111011110000001101000000000000#32
  | thmJump6 => 0b11111101000001111111111111111111#32
  | thmMovwAbsNc | thmMovtAbs => 0b11111011111100001000111100000000#32

/-- The value of an instruction's immediate. -/
def decoded (type : RelocType) (inst : BitVec 32) : Int :=
  match type with
  | armCall | armJump24 => (armImm inst).toInt
  | movwAbsNc | movtAbs => (movImm inst).toNat
  | thmCall | thmJump24 => (thmBranchImm inst).toInt
  | thmJump19 => (thmCondImm inst).toInt
  | thmJump6 => (thmCbzImm inst).toNat
  | thmMovwAbsNc | thmMovtAbs => (thmMovImm inst).toNat

/-- The implicit addend. -/
def addend (type : RelocType) (inst : BitVec 32) : Int :=
  match type with
  | armCall | armJump24 => (armImm inst).toInt
  | movwAbsNc | movtAbs => (movImm inst).toInt
  | thmCall | thmJump24 => (thmBranchImm inst).toInt
  | thmJump19 => (thmCondImm inst).toInt
  | thmJump6 => (((thmCbzImm inst).toNat + 4) % 128 : Nat) - 4
  | thmMovwAbsNc | thmMovtAbs => (thmMovImm inst).toInt

/-- The value that the ABI gives to a relocation with the addend `A`. -/
def result (type : RelocType) (S A P : Int) (T : Bool) : Int :=
  match type with
  | armCall | armJump24 | thmCall | thmJump24 | thmJump19 | thmJump6 => orThumb (S + A) T - P
  | movwAbsNc | thmMovwAbsNc => orThumb (S + A) T
  | movtAbs | thmMovtAbs => S + A

/-- What an instruction has of a value: a branch has no lowest bit, and a move has one half. -/
def encoded (type : RelocType) (X : Int) : Int :=
  match type with
  | armCall | armJump24 | thmCall | thmJump24 | thmJump19 | thmJump6 => X - X % 2
  | movwAbsNc | thmMovwAbsNc => X % 0x10000
  | movtAbs | thmMovtAbs => X / 0x10000 % 0x10000

/-- An instruction reaches the value; ARM code is at multiples of four. -/
def InRange (type : RelocType) (S P X : Int) (T : Bool) : Prop :=
  match type with
  | armCall | armJump24 => -0x2000000 ≤ X ∧ X < 0x2000000 ∧ (T = false → 4 ∣ S - P)
  | thmCall | thmJump24 => -0x1000000 ≤ X ∧ X < 0x1000000
  | thmJump19 => -0x100000 ≤ X ∧ X < 0x100000
  | thmJump6 => 0 ≤ X ∧ X < 0x80
  | movwAbsNc | movtAbs | thmMovwAbsNc | thmMovtAbs => True

/-- The instructions that a relocation is for; of the ARM branches the ones with the bits
of a branch. -/
def IsInstruction (type : RelocType) (inst : BitVec 32) : Prop :=
  match type with
  | armCall | armJump24 => inst.extractLsb' 25 3 = 0b101#3
  | _ => True

/-- The word computed for a place has the value of the ABI, if the instruction reaches it,
and all the bits of the instruction that are no immediate. -/
def Follows (type : RelocType) (word : BitVec 32) (S P : Int) (isFunction : Bool) : Prop :=
  let T := isThumbFunc isFunction S
  let inst := type.instruction word
  let X := type.result S (type.addend inst) P T
  let inst' := type.instruction (type.value word S P isFunction)
  type.IsInstruction inst → type.InRange S P X T →
    type.decoded inst' = type.encoded X ∧ inst' &&& type.fixed inst = inst &&& type.fixed inst

/-- The places where that is so. -/
def When (type : RelocType) (word : BitVec 32) (S P : Int) (isFunction : Bool) : Prop :=
  let T := isThumbFunc isFunction S
  let inst := type.instruction word
  let A := type.addend inst
  let X := type.result S A P T
  match type with
  | armCall | armJump24 => T = false
  | movwAbsNc | movtAbs | thmCall | thmJump24 => True
  | thmJump19 => X / 0x40000 = A / 0x40000
  | thmJump6 => X - X % 2 = A
  | thmMovwAbsNc => -0x800 ≤ A ∧ A < 0x800
  | thmMovtAbs => (S + (thmMovMisread inst).toInt) / 0x10000 % 0x10000 = X / 0x10000 % 0x10000

end RelocType

end Vibr.Cle.Arm
