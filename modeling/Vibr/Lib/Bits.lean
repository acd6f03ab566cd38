import Mathlib.Data.Int.Bitwise
import Mathlib.Data.Nat.Factorization.Basic
import Vibr.Lib.Bytes

/-!
# Packed bits

Bit `i` of a byte string is bit `i % 8` of byte `i / 8`, so a string read as a
little-endian number has the same bits as the string.
-/

namespace Bits

def bit (bs : List Nat) (i : Nat) : Bool := (bs.getD (i / 8) 0).testBit (i % 8)

/-- Strings of bytes. -/
def IsBytes (bs : List Nat) : Prop := ∀ b ∈ bs, b < 256

theorem testBit_of_byte {b i : Nat} (hb : b < 256) (hi : 8 ≤ i) : b.testBit i = false :=
  Nat.testBit_lt_two_pow (hb.trans_le (Nat.pow_le_pow_right Nat.two_pos hi))

theorem testBit_255 (i : Nat) : Nat.testBit 0xFF i = decide (i < 8) := Nat.testBit_two_pow_sub_one 8 i

theorem byte_of_testBit {b : Nat} (h : ∀ i, 8 ≤ i → b.testBit i = false) : b < 256 :=
  Nat.lt_pow_two_of_testBit b h

theorem IsBytes.set {bs : List Nat} (h : IsBytes bs) (k : Nat) {b : Nat} (hb : b < 256) :
    IsBytes (bs.set k b) := by
  intro c hc
  rcases List.mem_or_eq_of_mem_set hc with hc | rfl
  · exact h c hc
  · exact hb

theorem bit_set {bs : List Nat} {k b : Nat} (hk : k < bs.length) (i : Nat) :
    bit (bs.set k b) i = if i / 8 = k then b.testBit (i % 8) else bit bs i := by
  simp only [bit, List.getD_eq_getElem?_getD, List.getElem?_set, hk]
  by_cases h : i / 8 = k
  · rw [if_pos h.symm, if_pos h, if_true, Option.getD_some]
  · rw [if_neg (fun h' => h h'.symm), if_neg h]

theorem bit_replicate {n b i : Nat} (hi : i < 8 * n) :
    bit (List.replicate n b) i = b.testBit (i % 8) := by
  have hlt : i / 8 < n := by omega
  simp [bit, List.getD_eq_getElem?_getD, hlt]

theorem bit_slice (bs : List Nat) (a : Nat) {l i : Nat} (hi : i < 8 * l) :
    bit ((bs.drop a).take l) i = bit bs (8 * a + i) := by
  have hlt : i / 8 < l := by omega
  have hdiv : (8 * a + i) / 8 = a + i / 8 := by omega
  have hmod : (8 * a + i) % 8 = i % 8 := by omega
  simp [bit, List.getD_eq_getElem?_getD, hlt, hdiv, hmod]

theorem bit_append {as bs : List Nat} (i : Nat) :
    bit (as ++ bs) i = if i < 8 * as.length then bit as i else bit bs (i - 8 * as.length) := by
  simp only [bit, List.getD_eq_getElem?_getD, List.getElem?_append]
  split <;> rename_i h
  · rw [if_pos (by omega)]
  · rw [if_neg (by omega), show (i - 8 * as.length) / 8 = i / 8 - as.length by omega,
      show (i - 8 * as.length) % 8 = i % 8 by omega]

/-- The number a string is in little-endian order has the bits of the string. -/
theorem testBit_ofBytesLE {bs : List Nat} (h : IsBytes bs) (i : Nat) :
    (Bytes.ofBytesLE bs).testBit i = bit bs i := by
  induction bs generalizing i with
  | nil => simp [Bytes.ofBytesLE, Bytes.ofBytesBE, bit]
  | cons b bs ih =>
    have hb : b < 2 ^ 8 := h b List.mem_cons_self
    have hcons : Bytes.ofBytesLE (b :: bs) = 2 ^ 8 * Bytes.ofBytesLE bs + b := by
      rw [Bytes.ofBytesLE, List.reverse_cons, Bytes.ofBytesBE_append, List.length_singleton,
        Nat.mul_comm]
      simp [Bytes.ofBytesLE, Bytes.ofBytesBE]
    rw [hcons, Nat.testBit_two_pow_mul_add _ hb, ih (fun c hc => h c (List.mem_cons_of_mem _ hc))]
    by_cases hi : i < 8
    · have hdiv : i / 8 = 0 := by omega
      have hmod : i % 8 = i := by omega
      simp [bit, hi, hdiv, hmod]
    · have hdiv : i / 8 = (i - 8) / 8 + 1 := by omega
      have hmod : i % 8 = (i - 8) % 8 := by omega
      simp [bit, hi, hdiv, hmod]

theorem isBytes_bytesLE (n v : Nat) : IsBytes (Bytes.bytesLE n v) := fun _ hb =>
  Bytes.lt_of_mem_bytesBE (List.mem_reverse.mp hb)

/-- The string of a number has the bits of the number. -/
theorem bit_bytesLE {n v : Nat} (h : v < 256 ^ n) (i : Nat) :
    bit (Bytes.bytesLE n v) i = v.testBit i := by
  rw [← testBit_ofBytesLE (isBytes_bytesLE n v), Bytes.ofBytesLE_bytesLE h]

/-! ## The lowest set bit -/

/-- `w & -w` -/
def isolate (w : Nat) : Nat := (Int.land w (-w)).toNat

theorem isolate_eq_ldiff {w : Nat} (h : w ≠ 0) : isolate w = Nat.ldiff w (w - 1) := by
  obtain ⟨n, rfl⟩ := Nat.exists_eq_succ_of_ne_zero h
  rfl

/-- A number that is not zero is odd from its lowest set bit on. -/
theorem exists_lowest {w : Nat} (h : w ≠ 0) : ∃ k q, w = 2 ^ k * (2 * q + 1) := by
  obtain ⟨k, m, ⟨q, rfl⟩, rfl⟩ := Nat.exists_eq_two_pow_mul_odd h
  exact ⟨k, q, rfl⟩

theorem testBit_lowest (k q i : Nat) :
    (2 ^ k * (2 * q + 1)).testBit i = (decide (k ≤ i) && (2 * q + 1).testBit (i - k)) := by
  rw [Nat.testBit_two_pow_mul]

/-- Below the lowest set bit, the predecessor has all bits. -/
theorem pred_lowest (k q : Nat) : 2 ^ k * (2 * q + 1) - 1 = 2 ^ k * (2 * q) + (2 ^ k - 1) := by
  have hpos : 0 < 2 ^ k := Nat.two_pow_pos k
  rw [Nat.mul_add, Nat.mul_one]
  omega

/-- The bits of the predecessor that a number does not have are those below the lowest set bit. -/
theorem ldiff_pred_lowest (k q : Nat) :
    Nat.ldiff (2 ^ k * (2 * q + 1) - 1) (2 ^ k * (2 * q + 1)) = 2 ^ k - 1 := by
  have hpos : 0 < 2 ^ k := Nat.two_pow_pos k
  rw [pred_lowest]
  apply Nat.eq_of_testBit_eq
  intro i
  rw [Nat.testBit_ldiff, testBit_lowest, Nat.testBit_two_pow_mul_add _ (by omega), Nat.testBit_two_pow_sub_one]
  rcases Nat.lt_or_ge i k with hlt | hge
  · rw [if_pos hlt]
    simp [hlt, Nat.not_le.mpr hlt]
  obtain ⟨d, rfl⟩ := Nat.exists_eq_add_of_le hge
  rw [if_neg (by omega), Nat.add_sub_cancel_left, decide_eq_true (Nat.le_add_right k d), Bool.true_and,
    decide_eq_false (by omega)]
  cases d with
  | zero => simp
  | succ d =>
    have hhalf : (2 * q + 1) / 2 = q := by omega
    have hhalf' : 2 * q / 2 = q := by omega
    rw [Nat.testBit_succ, Nat.testBit_succ, hhalf, hhalf', Bool.and_not_self]

theorem size_two_pow_sub_one (k : Nat) : (2 ^ k - 1).size = k := by
  have hpos : 0 < 2 ^ k := Nat.two_pow_pos k
  refine Nat.le_antisymm (Nat.size_le.mpr (by omega)) ?_
  cases k with
  | zero => exact Nat.zero_le _
  | succ k =>
    refine Nat.lt_size.mpr ?_
    rw [Nat.pow_succ]
    omega

/-- Isolating the lowest set bit leaves a power of two. -/
theorem isolate_lowest (k q : Nat) : isolate (2 ^ k * (2 * q + 1)) = 2 ^ k := by
  have hpos : 0 < 2 ^ k := Nat.two_pow_pos k
  have hne : 2 ^ k * (2 * q + 1) ≠ 0 := Nat.mul_ne_zero hpos.ne' (Nat.succ_ne_zero _)
  rw [isolate_eq_ldiff hne, pred_lowest]
  apply Nat.eq_of_testBit_eq
  intro i
  rw [Nat.testBit_ldiff, testBit_lowest, Nat.testBit_two_pow_mul_add _ (by omega),
    Nat.testBit_two_pow_sub_one, Nat.testBit_two_pow]
  rcases Nat.lt_trichotomy i k with hlt | rfl | hgt
  · rw [if_pos hlt]
    simp [hlt.ne', Nat.not_le.mpr hlt]
  · simp
  obtain ⟨d, rfl⟩ := Nat.exists_eq_add_of_lt hgt
  have hsub : k + d + 1 - k = d + 1 := by omega
  rw [if_neg (by omega), hsub, Nat.testBit_succ, Nat.testBit_succ]
  have hhalf : (2 * q + 1) / 2 = q := by omega
  have hhalf' : 2 * q / 2 = q := by omega
  rw [hhalf, hhalf', decide_eq_true (by omega), decide_eq_false (by omega), Bool.true_and, Bool.and_not_self]

/-- `(w & -w).bit_length() - 1` is the position of the lowest set bit. -/
theorem size_isolate {w : Nat} (h : w ≠ 0) :
    ∃ k, (isolate w).size = k + 1 ∧ w.testBit k = true ∧ ∀ i < k, w.testBit i = false := by
  obtain ⟨k, q, rfl⟩ := exists_lowest h
  refine ⟨k, by rw [isolate_lowest, Nat.size_pow], by simp [testBit_lowest], fun i hi => ?_⟩
  rw [testBit_lowest, decide_eq_false (by omega), Bool.false_and]

end Bits
