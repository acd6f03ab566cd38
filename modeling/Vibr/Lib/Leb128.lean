import Mathlib.Data.Nat.Digits.Lemmas

/-!
# LEB128

A number is written in groups of seven bits, the lowest first; the last group is the first
byte below `128`. If the bytes end before such a byte, the number is what the groups that are
there say.
-/

namespace Leb128

/-- The bytes of the number at the front. -/
def groups : List UInt8 → List UInt8
  | [] => []
  | b :: l => if b.toNat < 128 then [b] else b :: groups l

def unsigned (l : List UInt8) : Nat := Nat.ofDigits 128 ((groups l).map fun b => b.toNat % 128)

/-- Whether a last group is there, and has the sign bit. -/
def negative (l : List UInt8) : Bool := (groups l).getLast?.any fun b => 64 ≤ b.toNat && b.toNat < 128

def signed (l : List UInt8) : Int := unsigned l - if negative l then 128 ^ (groups l).length else 0

variable {b : UInt8} {l : List UInt8}

theorem groups_cons_of_lt (h : b.toNat < 128) (l : List UInt8) : groups (b :: l) = [b] := if_pos h

theorem groups_cons_of_le (h : 128 ≤ b.toNat) (l : List UInt8) : groups (b :: l) = b :: groups l :=
  if_neg (not_lt.mpr h)

theorem unsigned_cons_of_lt (h : b.toNat < 128) (l : List UInt8) : unsigned (b :: l) = b.toNat := by
  rw [unsigned, groups_cons_of_lt h]
  simp [Nat.mod_eq_of_lt h]

theorem unsigned_cons_of_le (h : 128 ≤ b.toNat) (l : List UInt8) :
    unsigned (b :: l) = b.toNat % 128 + 128 * unsigned l := by
  rw [unsigned, groups_cons_of_le h, List.map_cons, Nat.ofDigits_cons, unsigned]

theorem negative_cons_of_lt (h : b.toNat < 128) (l : List UInt8) : negative (b :: l) = decide (64 ≤ b.toNat) := by
  rw [negative, groups_cons_of_lt h]
  simp [h]

theorem negative_cons_of_le (h : 128 ≤ b.toNat) (l : List UInt8) : negative (b :: l) = negative l := by
  rw [negative, groups_cons_of_le h, List.getLast?_cons, negative]
  cases (groups l).getLast? with
  | none => simp [not_lt.mpr h]
  | some b' => rfl

/-- The low seven bits of a byte, shifted behind what is there already. -/
theorem or_shiftLeft {result shift : Nat} (h : result < 2 ^ shift) (b : UInt8) :
    result ||| (b.toNat &&& 0x7F) <<< shift = result + b.toNat % 128 * 2 ^ shift := by
  have hand : b.toNat &&& 0x7F = b.toNat % 128 := Nat.and_two_pow_sub_one_eq_mod b.toNat 7
  rw [hand, Nat.or_comm, ← Nat.shiftLeft_add_eq_or_of_lt h, Nat.shiftLeft_eq, Nat.add_comm]

theorem and_eq_zero_iff (b : UInt8) : b &&& 0x80 = 0 ↔ b.toNat < 128 := by
  have hall : ∀ n < 256, n &&& 0x80 = 0 ↔ n < 128 := by decide +kernel
  rw [← UInt8.toNat_inj, UInt8.toNat_and]
  exact hall _ b.toNat_lt

theorem and_ne_zero_iff (h : b.toNat < 128) : b &&& 0x40 ≠ 0 ↔ 64 ≤ b.toNat := by
  have hall : ∀ n < 128, n &&& 0x40 ≠ 0 ↔ 64 ≤ n := by decide +kernel
  rw [Ne, ← UInt8.toNat_inj, UInt8.toNat_and]
  exact hall _ h

end Leb128
