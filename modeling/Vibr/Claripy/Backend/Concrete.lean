import Mathlib.Data.Int.Bitwise
import Vibr.Lib.Bytes

/-!
# Concrete bitvectors

`backend_concrete/bv.py` computes on Python integers and masks every result when it
builds the `BVV`. The operations that check their operands return `Except`; the text of
an exception is the text of the source.
-/

namespace Claripy
namespace Concrete

inductive Error where
  | ClaripyTypeError (message : String)
  | ClaripyOperationError (message : String)
  | ClaripyZeroDivisionError
  | ZeroDivisionError
  | ValueError (message : String)
deriving DecidableEq, Repr

/-- A concrete value; the setter of `value` masks what it stores. -/
structure BVV where
  value : Nat
  bits : Nat
  value_lt : value < 2 ^ bits
deriving DecidableEq

theorem toNat_land_mask (v : Int) (bits : Nat) :
    (Int.land v ((1 <<< bits : Nat) - 1 : Nat)).toNat = (v % (2 ^ bits : Nat)).toNat := by
  rw [Nat.shiftLeft_eq, Nat.one_mul]
  cases v with
  | ofNat n =>
    change ((n &&& (2 ^ bits - 1) : Nat) : Int).toNat = ((n : Int) % (2 ^ bits : Nat)).toNat
    rw [Nat.and_two_pow_sub_one_eq_mod, ← Int.natCast_emod]
  | negSucc n =>
    have hpos : 0 < 2 ^ bits := Nat.two_pow_pos bits
    have hldiff : Nat.ldiff (2 ^ bits - 1) n = 2 ^ bits - (n % 2 ^ bits + 1) := by
      apply Nat.eq_of_testBit_eq
      intro i
      rw [Nat.testBit_ldiff, Nat.testBit_two_pow_sub_one,
        Nat.testBit_two_pow_sub_succ (Nat.mod_lt n hpos), Nat.testBit_mod_two_pow]
      cases decide (i < bits) <;> simp
    change ((Nat.ldiff (2 ^ bits - 1) n : Nat) : Int).toNat = _
    rw [hldiff, Int.negSucc_emod n (by exact_mod_cast hpos)]
    have hlt := Nat.mod_lt n hpos
    rw [← Int.natCast_emod]
    omega

namespace BVV

/-- `BVV(value, bits)` -/
def new (value : Int) (bits : Nat) : BVV where
  value := (Int.land value ((1 <<< bits : Nat) - 1 : Nat)).toNat
  bits := bits
  value_lt := by
    have hpos : (0 : Int) < (2 ^ bits : Nat) := by exact_mod_cast Nat.two_pow_pos bits
    rw [toNat_land_mask, Int.toNat_lt (Int.emod_nonneg _ hpos.ne')]
    exact Int.emod_lt_of_pos _ hpos

def mod (a : BVV) : Nat := 1 <<< a.bits

def size (a : BVV) : Nat := a.bits

/-- The value read in two's complement. Without bits, the modulus is zero. -/
def signed (a : BVV) : Except Error Int :=
  if a.value < a.mod / 2 then .ok a.value
  else if a.mod / 2 = 0 then .error .ZeroDivisionError
  else .ok ((a.value % (a.mod / 2) : Nat) - (a.mod / 2 : Nat))

/-- `compare_bits`, the guard of the binary operations. -/
def compareBits {α : Type} (f : BVV → BVV → Except Error α) (self o : BVV) : Except Error α :=
  if self.bits = 0 ∨ o.bits = 0 then
    .error (.ClaripyTypeError "The operation is not allowed on zero-length bitvectors.")
  else if self.bits ≠ o.bits then
    .error (.ClaripyTypeError
      ("bitvectors are differently-sized (" ++ toString self.bits ++ " and " ++ toString o.bits ++ ")"))
  else f self o

/-- `normalize_types`: an integer operand gets the length of the other one. -/
def normalize (self : BVV) (o : Int) : BVV := new o self.bits

def or : BVV → BVV → Except Error BVV :=
  compareBits fun self o => .ok (new (self.value ||| o.value : Nat) self.bits)

def umod : BVV → BVV → Except Error BVV :=
  compareBits fun self o =>
    if o.value = 0 then .error .ClaripyZeroDivisionError
    else .ok (new (self.value % o.value : Nat) self.bits)

/-- `__rsub__` -/
def rsub : BVV → BVV → Except Error BVV :=
  compareBits fun self o => .ok (new ((o.value : Int) - self.value) self.bits)

def lshift : BVV → BVV → Except Error BVV :=
  compareBits fun self o => .ok (new (self.value <<< o.value : Nat) self.bits)

/-- `__rshift__`, on the signed value. -/
def rshift : BVV → BVV → Except Error BVV :=
  compareBits fun self o => do
    let signed ← self.signed
    return new (signed >>> o.value) self.bits

end BVV

open BVV

def LShR : BVV → BVV → Except Error BVV :=
  compareBits fun a b => .ok (new (a.value >>> b.value : Nat) a.bits)

def SignExt (num : Nat) (o : BVV) : Except Error BVV := do
  let signed ← o.signed
  return new signed (o.bits + num)

def Extract (f t : Nat) (o : BVV) : Except Error BVV :=
  if f + 1 < t then .error (.ValueError "negative shift count")
  else .ok (new ((o.value >>> t) &&& ((1 <<< (f + 2 - t)) - 1) : Nat) (f + 1 - t))

def Concat (args : List BVV) : BVV :=
  let (totalValue, totalBits) := args.foldl
    (fun (totalValue, totalBits) o => ((totalValue <<< o.bits) ||| o.value, totalBits + o.bits)) (0, 0)
  new (totalValue : Nat) totalBits

def RotateRight (self bits : BVV) : Except Error BVV := do
  let bitsSmaller ← umod bits (normalize bits self.size)
  BVV.or (← LShR self bitsSmaller) (← lshift self (← rsub bitsSmaller (normalize bitsSmaller self.size)))

def RotateLeft (self bits : BVV) : Except Error BVV := do
  let bitsSmaller ← umod bits (normalize bits self.size)
  BVV.or (← lshift self bitsSmaller) (← LShR self (← rsub bitsSmaller (normalize bitsSmaller self.size)))

def reverse16 (v : Nat) : Nat := ((v &&& 0xFF) <<< 8) ||| ((v &&& 0xFF00) >>> 8)

def reverse32 (v : Nat) : Nat :=
  ((v &&& 0xFF) <<< 24) ||| ((v &&& 0xFF00) <<< 8) ||| ((v &&& 0xFF0000) >>> 8) |||
    ((v &&& 0xFF000000) >>> 24)

def reverse64 (v : Nat) : Nat :=
  ((v &&& 0xFF) <<< 56) ||| ((v &&& 0xFF00) <<< 40) ||| ((v &&& 0xFF0000) <<< 24) |||
    ((v &&& 0xFF000000) <<< 8) ||| ((v &&& 0xFF00000000) >>> 8) |||
    ((v &&& 0xFF0000000000) >>> 24) ||| ((v &&& 0xFF000000000000) >>> 40) |||
    ((v &&& 0xFF00000000000000) >>> 56)

/-- The loop of `Reverse` over `range(0, size, 8)`, for `size` a multiple of eight. -/
def reverseLoop (size v : Nat) : Nat :=
  ((List.range (size / 8)).map (8 * ·)).foldl
    (fun out i => out ||| (((v &&& (0xFF <<< i)) >>> i) <<< (size - 8 - i))) 0

def Reverse (a : BVV) : Except Error BVV :=
  let size := a.size
  if size = 8 then .ok a
  else if size % 8 ≠ 0 then
    .error (.ClaripyOperationError "can't reverse non-byte sized bitvectors")
  else
    let value := a.value
    let out :=
      if size = 64 then reverse64 value
      else if size = 32 then reverse32 value
      else if size = 16 then reverse16 value
      else reverseLoop size value
    .ok (new (out : Nat) size)

/-- C-like division: round towards zero. -/
def SDiv : BVV → BVV → Except Error BVV :=
  compareBits fun self o => do
    let a ← self.signed
    let b ← o.signed
    if b = 0 then .error .ClaripyZeroDivisionError
    else
      let val := if 0 < a * b then a.fdiv b else (a + (-a).fmod b).fdiv b
      return new val self.bits

/-- The remainder of the division above, like `%` in C. -/
def SMod : BVV → BVV → Except Error BVV :=
  compareBits fun self o => do
    let a ← self.signed
    let b ← o.signed
    if b = 0 then .error .ClaripyZeroDivisionError
    else
      let divisionResult := if 0 < a * b then a.fdiv b else (a + (-a).fmod b).fdiv b
      let val := a - divisionResult * b
      return new val self.bits

/-! ## Values of the bitvector theory -/

/-- The concrete value that stands for a bitvector. -/
def BVV.of {w : Nat} (x : BitVec w) : BVV := ⟨x.toNat, w, x.isLt⟩

variable {w : Nat}

theorem of_eq_of {v w : Nat} {x : BitVec v} {y : BitVec w} (hw : v = w) (h : x.toNat = y.toNat) :
    of x = of y := by
  subst hw
  rw [BitVec.eq_of_toNat_eq h]

theorem new_eq (v : Int) (w : Nat) : new v w = of (BitVec.ofInt w v) := by
  simp only [new, of, toNat_land_mask, BitVec.toNat_ofInt]

theorem new_natCast (v w : Nat) : new (v : Int) w = of (BitVec.ofNat w v) := by
  rw [new_eq, BitVec.ofInt_natCast]

theorem signed_of (hw : 0 < w) (x : BitVec w) : (of x).signed = .ok x.toInt := by
  obtain ⟨n, rfl⟩ := Nat.exists_eq_succ_of_ne_zero hw.ne'
  have hlt := x.isLt
  have hpos : 0 < 2 ^ n := Nat.two_pow_pos n
  have hhalf : 1 <<< (n + 1) / 2 = 2 ^ n := by
    rw [Nat.shiftLeft_eq, Nat.one_mul, pow_succ, Nat.mul_div_cancel _ (by decide)]
  rw [BitVec.toInt_eq_toNat_cond]
  simp only [signed, mod, of, Nat.succ_eq_add_one, hhalf]
  rw [pow_succ] at hlt ⊢
  by_cases hneg : x.toNat < 2 ^ n
  · rw [if_pos hneg, if_pos (by omega)]
  have hmod : x.toNat % 2 ^ n = x.toNat - 2 ^ n := by
    rw [Nat.mod_eq_sub_mod (Nat.le_of_not_lt hneg), Nat.mod_eq_of_lt (by omega)]
  rw [if_neg hneg, if_neg hpos.ne', if_neg (by omega), hmod]
  congr 1
  omega

/-- Operands of one positive length pass the guard. -/
theorem compareBits_of {α : Type} (f : BVV → BVV → Except Error α) (hw : 0 < w) (x y : BitVec w) :
    compareBits f (of x) (of y) = f (of x) (of y) := by
  have hbits : ¬ ((of x).bits = 0 ∨ (of y).bits = 0) := not_or.mpr ⟨hw.ne', hw.ne'⟩
  have hsame : ¬ (of x).bits ≠ (of y).bits := fun h => h rfl
  rw [compareBits, if_neg hbits, if_neg hsame]

theorem ok_bind {α β : Type} (a : α) (f : α → Except Error β) : (Except.ok a >>= f) = f a := rfl

/-! ## Shifts and rotations -/

theorem lshift_of (hw : 0 < w) (x y : BitVec w) : lshift (of x) (of y) = .ok (of (x <<< y)) := by
  rw [lshift, compareBits_of _ hw, new_natCast]
  exact congrArg Except.ok (of_eq_of rfl (by simp [of]))

theorem rshift_of (hw : 0 < w) (x y : BitVec w) :
    rshift (of x) (of y) = .ok (of (x.sshiftRight' y)) := by
  rw [rshift, compareBits_of _ hw, signed_of hw]
  exact congrArg Except.ok (new_eq _ _)

theorem LShR_of (hw : 0 < w) (x y : BitVec w) : LShR (of x) (of y) = .ok (of (x >>> y)) := by
  rw [LShR, compareBits_of _ hw, new_natCast]
  have hlt : x.toNat >>> y.toNat < 2 ^ w := (x >>> y).isLt
  exact congrArg Except.ok (of_eq_of rfl (by simp [of, Nat.mod_eq_of_lt hlt]))

theorem or_of (hw : 0 < w) (x y : BitVec w) : BVV.or (of x) (of y) = .ok (of (x ||| y)) := by
  rw [BVV.or, compareBits_of _ hw, new_natCast]
  exact congrArg Except.ok (of_eq_of rfl (by simp [of]))

theorem umod_of (hw : 0 < w) (x : BitVec w) {y : BitVec w} (hy : y.toNat ≠ 0) :
    umod (of x) (of y) = .ok (of (x % y)) := by
  rw [umod, compareBits_of _ hw, if_neg (by exact hy), new_natCast]
  have hlt : x.toNat % y.toNat < 2 ^ w := (x % y).isLt
  exact congrArg Except.ok (of_eq_of rfl (by simp [of, Nat.mod_eq_of_lt hlt]))

theorem rsub_of (hw : 0 < w) (x y : BitVec w) : rsub (of x) (of y) = .ok (of (y - x)) := by
  rw [rsub, compareBits_of _ hw, new_eq, Int.sub_eq_add_neg, BitVec.ofInt_add, BitVec.ofInt_neg,
    ← BitVec.sub_eq_add_neg]
  simp only [of, BitVec.ofInt_natCast, BitVec.ofNat_toNat, BitVec.setWidth_eq]
  rfl

theorem normalize_of (x : BitVec w) (o : Nat) : normalize (of x) o = of (BitVec.ofNat w o) :=
  new_natCast o w

/-- Reducing the amount by the length, and subtracting the result from it. The length
itself always fits the bits there are. -/
theorem bitsSmaller_spec (hw : 0 < w) (y : BitVec w) :
    ∃ s c : BitVec w, s.toNat = y.toNat % w ∧ c.toNat = w - y.toNat % w ∧
      umod (of y) (normalize (of y) w) = .ok (of s) ∧
      rsub (of s) (normalize (of s) w) = .ok (of c) := by
  have hwidth : (BitVec.ofNat w w).toNat = w := by
    rw [BitVec.toNat_ofNat, Nat.mod_eq_of_lt Nat.lt_two_pow_self]
  have hs : (y % BitVec.ofNat w w).toNat = y.toNat % w := by rw [BitVec.toNat_umod, hwidth]
  refine ⟨y % BitVec.ofNat w w, BitVec.ofNat w w - y % BitVec.ofNat w w, hs, ?_, ?_, ?_⟩
  · have hle : y % BitVec.ofNat w w ≤ BitVec.ofNat w w := by
      rw [BitVec.le_def, hs, hwidth]
      exact (Nat.mod_lt _ hw).le
    rw [BitVec.toNat_sub_of_le hle, hwidth, hs]
  · rw [normalize_of, umod_of hw _ (by rw [hwidth]; exact hw.ne')]
  · rw [normalize_of, rsub_of hw]

theorem RotateLeft_of (hw : 0 < w) (x y : BitVec w) :
    RotateLeft (of x) (of y) = .ok (of (x.rotateLeft y.toNat)) := by
  obtain ⟨s, c, hs, hc, hmod, hsub⟩ := bitsSmaller_spec hw y
  have hsize : (of x).size = w := rfl
  rw [RotateLeft, hsize, hmod, ok_bind, lshift_of hw, hsub, ok_bind, ok_bind,
    LShR_of hw, ok_bind, or_of hw, BitVec.rotateLeft_def, BitVec.shiftLeft_eq', hs,
    BitVec.ushiftRight_eq', hc]

theorem RotateRight_of (hw : 0 < w) (x y : BitVec w) :
    RotateRight (of x) (of y) = .ok (of (x.rotateRight y.toNat)) := by
  obtain ⟨s, c, hs, hc, hmod, hsub⟩ := bitsSmaller_spec hw y
  have hsize : (of x).size = w := rfl
  rw [RotateRight, hsize, hmod, ok_bind, LShR_of hw, hsub, ok_bind, ok_bind,
    lshift_of hw, ok_bind, or_of hw, BitVec.rotateRight_def, BitVec.shiftLeft_eq', hc,
    BitVec.ushiftRight_eq', hs]

/-! ## Division -/

theorem fdiv_eq_tdiv {a b : Int} (h : 0 ≤ a * b) : a.fdiv b = a.tdiv b := by
  rcases Int.lt_or_le b 0 with hb | hb
  · have ha : a ≤ 0 := by
      by_contra hpos
      have hneg := Int.mul_neg_of_pos_of_neg (Int.not_le.mp hpos) hb
      omega
    rw [← Int.neg_fdiv_neg, Int.fdiv_eq_tdiv_of_nonneg (by omega) (by omega), Int.neg_tdiv_neg]
  rcases Int.lt_or_le a 0 with ha | ha
  · have hzero : b = 0 := by
      by_contra hne
      have hneg := Int.mul_neg_of_neg_of_pos ha (by omega : 0 < b)
      omega
    rw [hzero, Int.fdiv_zero, Int.tdiv_zero]
  · exact Int.fdiv_eq_tdiv_of_nonneg ha hb

/-- Floor division of Python, bent to round towards zero. -/
theorem divisionResult_eq {a b : Int} (hb : b ≠ 0) :
    (if 0 < a * b then a.fdiv b else (a + (-a).fmod b).fdiv b) = a.tdiv b := by
  by_cases h : 0 < a * b
  · rw [if_pos h, fdiv_eq_tdiv (by omega)]
  have hsign : 0 ≤ -a * b := by
    rw [Int.neg_mul]
    omega
  calc (if 0 < a * b then a.fdiv b else (a + (-a).fmod b).fdiv b)
      = (-((-a).fdiv b) * b).fdiv b := by
        rw [if_neg h, Int.fmod_def]
        congr 1
        ring
    _ = -((-a).fdiv b) := Int.mul_fdiv_cancel _ hb
    _ = a.tdiv b := by rw [fdiv_eq_tdiv hsign, Int.neg_tdiv, Int.neg_neg]

theorem SDiv_of (hw : 0 < w) (x : BitVec w) {y : BitVec w} (hy : y ≠ 0) :
    SDiv (of x) (of y) = .ok (of (x.sdiv y)) := by
  have hb : y.toInt ≠ 0 := fun h => hy (BitVec.eq_of_toInt_eq (by simpa using h))
  rw [SDiv, compareBits_of _ hw, signed_of hw, signed_of hw, ok_bind, ok_bind, if_neg hb]
  simp only [divisionResult_eq hb]
  change Except.ok (new _ w) = _
  rw [new_eq]
  congr 2
  apply BitVec.eq_of_toInt_eq
  rw [BitVec.toInt_ofInt, BitVec.toInt_sdiv]

theorem SMod_of (hw : 0 < w) (x : BitVec w) {y : BitVec w} (hy : y ≠ 0) :
    SMod (of x) (of y) = .ok (of (x.srem y)) := by
  have hb : y.toInt ≠ 0 := fun h => hy (BitVec.eq_of_toInt_eq (by simpa using h))
  rw [SMod, compareBits_of _ hw, signed_of hw, signed_of hw, ok_bind, ok_bind, if_neg hb]
  simp only [divisionResult_eq hb]
  change Except.ok (new _ w) = _
  rw [new_eq, mul_comm, ← Int.tmod_def, ← BitVec.toInt_srem, BitVec.ofInt_toInt]

/-! ## Changes of length -/

theorem Extract_of (x : BitVec w) {f t : Nat} (h : t ≤ f) :
    Extract f t (of x) = .ok (of (x.extractLsb f t)) := by
  rw [Extract, if_neg (by omega), new_natCast]
  congr 1
  refine of_eq_of (by omega) ?_
  have hdvd : 2 ^ (f + 1 - t) ∣ 2 ^ (f + 2 - t) := Nat.pow_dvd_pow 2 (by omega)
  have hwidth : f + 1 - t = f - t + 1 := by omega
  rw [BitVec.toNat_ofNat, Nat.shiftLeft_eq, Nat.one_mul, Nat.and_two_pow_sub_one_eq_mod,
    Nat.mod_mod_of_dvd _ hdvd, BitVec.extractLsb_toNat, hwidth]
  rfl

theorem SignExt_of (hw : 0 < w) (n : Nat) (x : BitVec w) :
    SignExt n (of x) = .ok (of (x.signExtend (w + n))) := by
  rw [SignExt, signed_of hw]
  exact congrArg Except.ok (new_eq _ _)

/-- Bitvectors in sequence, the first in the most significant bits. -/
def concatAll (xs : List (Σ w, BitVec w)) : Σ w, BitVec w :=
  xs.foldl (fun x y => ⟨x.1 + y.1, x.2 ++ y.2⟩) ⟨0, 0⟩

theorem Concat_of (xs : List (Σ w, BitVec w)) :
    Concat (xs.map fun x => of x.2) = of (concatAll xs).2 := by
  have hfold : ∀ (xs : List (Σ w, BitVec w)) (x : Σ w, BitVec w),
      (xs.map fun x => of x.2).foldl
          (fun (p : Nat × Nat) o => ((p.1 <<< o.bits) ||| o.value, p.2 + o.bits)) (x.2.toNat, x.1) =
        ((xs.foldl (fun x y => ⟨x.1 + y.1, x.2 ++ y.2⟩) x).2.toNat,
          (xs.foldl (fun x y => ⟨x.1 + y.1, x.2 ++ y.2⟩) x).1) := by
    intro xs
    induction xs with
    | nil => intro x; rfl
    | cons y xs ih =>
      intro x
      rw [List.map_cons, List.foldl_cons, List.foldl_cons, ← ih, BitVec.toNat_append]
      rfl
  have hall := hfold xs ⟨0, 0⟩
  simp only [Concat]
  rw [show ((0, 0) : Nat × Nat) = ((0 : BitVec 0).toNat, 0) from rfl, hall]
  simp only [new_natCast, concatAll, BitVec.ofNat_toNat, BitVec.setWidth_eq]

/-! ## Reversal -/

/-- A byte moved down to bit zero and then up to bit `j`, in one shift. -/
theorem move_byte (v i j : Nat) :
    ((v &&& (0xFF <<< i)) >>> i) <<< j =
      if i ≤ j then (v &&& (0xFF <<< i)) <<< (j - i) else (v &&& (0xFF <<< i)) >>> (i - j) := by
  apply Nat.eq_of_testBit_eq
  intro k
  split <;> rename_i h
  · simp only [Nat.testBit_shiftLeft, Nat.testBit_shiftRight, Nat.testBit_and]
    grind
  · simp only [Nat.testBit_shiftLeft, Nat.testBit_shiftRight, Nat.testBit_and]
    grind

theorem reverse16_eq (v : Nat) : reverse16 v = reverseLoop 16 v := by
  simp [reverseLoop, reverse16, List.range_succ, move_byte]

theorem reverse32_eq (v : Nat) : reverse32 v = reverseLoop 32 v := by
  simp [reverseLoop, reverse32, List.range_succ, move_byte]

theorem reverse64_eq (v : Nat) : reverse64 v = reverseLoop 64 v := by
  simp [reverseLoop, reverse64, List.range_succ, move_byte]

theorem testBit_foldl_or (f : Nat → Nat) (is : List Nat) (out k : Nat) :
    (is.foldl (fun out i => out ||| f i) out).testBit k =
      (out.testBit k || is.any fun i => (f i).testBit k) := by
  induction is generalizing out with
  | nil => simp
  | cons i is ih => rw [List.foldl_cons, ih, Nat.testBit_or, List.any_cons, Bool.or_assoc]

theorem testBit_reverseLoop (n v : Nat) {k : Nat} (hk : k < 8 * n) :
    (reverseLoop (8 * n) v).testBit k = v.testBit (8 * (n - 1 - k / 8) + k % 8) := by
  have hterm : ∀ i < n, (((v &&& (0xFF <<< (8 * i))) >>> (8 * i)) <<< (8 * n - 8 - 8 * i)).testBit k =
      (decide (i = n - 1 - k / 8) && v.testBit (8 * (n - 1 - k / 8) + k % 8)) := by
    intro i hi
    have hmask : ∀ j, Nat.testBit 0xFF j = decide (j < 8) := Nat.testBit_two_pow_sub_one 8
    simp only [Nat.testBit_shiftLeft, Nat.testBit_shiftRight, Nat.testBit_and, hmask]
    by_cases hbyte : i = n - 1 - k / 8
    · have hlow : 8 * i + (k - (8 * n - 8 - 8 * i)) = 8 * (n - 1 - k / 8) + k % 8 := by omega
      rw [hlow]
      simp only [hbyte, decide_true, Bool.true_and]
      grind
    · grind
  rw [reverseLoop, testBit_foldl_or, Nat.zero_testBit, Bool.false_or,
    Nat.mul_div_cancel_left n (by decide), List.any_map, Bool.eq_iff_iff, List.any_eq_true]
  constructor
  · rintro ⟨i, hi, h⟩
    rw [Function.comp_apply, hterm i (List.mem_range.mp hi), Bool.and_eq_true] at h
    exact h.2
  intro h
  refine ⟨n - 1 - k / 8, List.mem_range.mpr (by omega), ?_⟩
  rw [Function.comp_apply, hterm _ (by omega), h]
  simp

/-- Whichever path `Reverse` takes, it computes what the loop computes. -/
theorem fast_paths_eq_loop (size v : Nat) :
    (if size = 64 then reverse64 v else if size = 32 then reverse32 v
      else if size = 16 then reverse16 v else reverseLoop size v) = reverseLoop size v := by
  split_ifs with h64 h32 h16
  · rw [h64, reverse64_eq]
  · rw [h32, reverse32_eq]
  · rw [h16, reverse16_eq]
  · rfl

theorem extract_reverseLoop {n : Nat} (x : BitVec (8 * n)) {i : Nat} (hi : i < n) :
    (BitVec.ofNat (8 * n) (reverseLoop (8 * n) x.toNat)).extractLsb' (8 * i) 8 =
      x.extractLsb' (8 * (n - 1 - i)) 8 := by
  apply BitVec.eq_of_getLsbD_eq
  intro j hj
  have hbit : 8 * i + j < 8 * n := by omega
  have hdiv : (8 * i + j) / 8 = i := by omega
  have hmod : (8 * i + j) % 8 = j := by omega
  rw [BitVec.getLsbD_extractLsb', BitVec.getLsbD_extractLsb', BitVec.getLsbD_ofNat,
    testBit_reverseLoop n _ hbit, hdiv, hmod, decide_eq_true hbit, BitVec.testBit_toNat, Bool.true_and]

/-- The bytes of the result are those of the operand, the other way round. -/
theorem Reverse_of {n : Nat} (x : BitVec (8 * n)) :
    ∃ r : BitVec (8 * n), Reverse (of x) = .ok (of r) ∧
      ∀ i < n, r.extractLsb' (8 * i) 8 = x.extractLsb' (8 * (n - 1 - i)) 8 := by
  have hsize : (of x).size = 8 * n := rfl
  simp only [Reverse, hsize, fast_paths_eq_loop]
  by_cases h8 : 8 * n = 8
  · refine ⟨x, if_pos h8, fun i hi => ?_⟩
    have hself : n - 1 - i = i := by omega
    rw [hself]
  · refine ⟨BitVec.ofNat (8 * n) (reverseLoop (8 * n) x.toNat), ?_, fun i => extract_reverseLoop x⟩
    rw [if_neg h8, if_neg (by omega), new_natCast]
    rfl

end Concrete
end Claripy
