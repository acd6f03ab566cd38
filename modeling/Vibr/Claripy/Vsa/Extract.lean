import Vibr.Claripy.Vsa.BitwiseOr
import Vibr.Claripy.Vsa.ShiftSound

/-!
# Extraction

The low bits of the integers of an interval are points on a smaller circle. Where the bounds fit it, or are less than once
round it apart, they are kept with the stride; where they fall on one point of it, only that point is kept.
-/

namespace Claripy.Vsa.StridedInterval

open Arc

variable {bits tok : Nat} {a s p r : StridedInterval bits} {x y : Int}

/-- `si._bits = newBits` -/
def withBits (newBits : Nat) (si : StridedInterval bits) : StridedInterval newBits :=
  ⟨si.stride, si.lowerBound, si.upperBound, si.isBottom, si.uninitialized⟩

/-- The constructor, on the attributes of an interval. -/
def copy (self : StridedInterval bits) : StridedInterval bits := self.normalize

def castLow (self : StridedInterval bits) (tok : Nat) : Option (StridedInterval tok) :=
  if bits < tok then none
  else if tok = bits then some (self.copy.withBits tok)
  else if self.lowerBound % 2 ^ tok = self.lowerBound ∧ self.upperBound % 2 ^ tok = self.upperBound then
    -- the interval can be represented in `tok` bits
    some (new self.stride self.lowerBound self.upperBound self.uninitialized)
  else if 0 ≤ self.upperBound - self.lowerBound ∧ self.upperBound - self.lowerBound ≤ 2 ^ tok - 1 then
    let lower := self.lowerBound % 2 ^ tok
    let upper := self.upperBound % 2 ^ tok
    some (new self.stride lower upper self.uninitialized)
  else if self.upperBound % 2 ^ tok = self.lowerBound % 2 ^ tok ∧ (self.upperBound - self.lowerBound) % 2 ^ tok = 0 then
    let bound := self.lowerBound % 2 ^ tok
    some (new 0 bound bound self.uninitialized)
  else
    let ntz := ntz self.stride
    if ntz < tok then
      let newLower := self.lowerBound % 2 ^ ntz
      let stride : Nat := 2 ^ ntz
      let ret : StridedInterval tok := top self.uninitialized
      let k := (ret.upperBound - newLower) / stride
      some { ret with stride := stride, lowerBound := newLower, upperBound := stride * k + newLower }
    else some (new 0 (self.lowerBound % 2 ^ tok) (self.upperBound % 2 ^ tok) false)

def extract (depth : Nat) (self : StridedInterval bits) (highBit lowBit : Nat) :
    Option (StridedInterval (highBit - lowBit + 1)) := do
  let ret ← if lowBit ≠ 0 then self.rshiftLogical depth (.number lowBit) else some self.copy
  let ret ← if highBit - lowBit + 1 ≠ bits then ret.castLow (highBit - lowBit + 1)
    else some (ret.withBits (highBit - lowBit + 1))
  return { ret with uninitialized := self.uninitialized }.normalize

/-! ## Smaller circles -/

/-- The multiples of a stride up to a length stay so on a circle of `m` points: there is none but zero, or all are zero, or
the length is less than once round, or none of the multiples is left out. -/
def Reduces (stride : Nat) (length m : Int) : Prop :=
  length / stride = 0 ∨ m ∣ stride ∨ length < m ∨ (stride : Int) ∣ m ∧ m - stride ≤ length % m

instance {stride : Nat} {length m : Int} : Decidable (Reduces stride length m) := inferInstanceAs (Decidable (_ ∨ _))

theorem size_dvd (h : tok ≤ bits) : (2 : Int) ^ tok ∣ 2 ^ bits := pow_dvd_pow 2 h

/-- The distances on a smaller circle are those on the larger one, reduced. -/
theorem off_reduce (h : tok ≤ bits) (a x : Int) : off (2 ^ tok) a x = off (2 ^ bits) a x % 2 ^ tok := by
  unfold off
  exact (Int.emod_emod_of_dvd _ (size_dvd h)).symm

/-- The low bits of all integers, in an interval with the bounds and the stride of the wider one. -/
theorem mem_reduced (hs : s.WellFormed) (hb : s.isBottom = false) (h : tok ≤ bits) :
    x % 2 ^ tok ∈ (new s.stride s.lowerBound s.upperBound s.uninitialized : StridedInterval tok).gamma ↔
      off (2 ^ bits) s.lowerBound x % 2 ^ tok ≤ s.length % 2 ^ tok ∧
        (s.stride : Int) ∣ off (2 ^ bits) s.lowerBound x % 2 ^ tok := by
  rw [mem_gamma_new fun hzero => by rw [(hs.stride hb).mp hzero], off_emod_right, off_reduce h, off_reduce h]
  exact and_iff_right (emod_on (size_pos tok) _)

theorem quotient_bounds {stride : Nat} {length : Int} (hpos : (0 : Int) < stride) (hlength : 0 ≤ length) :
    0 ≤ length / stride ∧ stride * (length / stride) ≤ length ∧ length < stride * (length / stride + 1) := by
  have hquot := Int.mul_ediv_add_emod length stride
  have hquot0 := Int.emod_nonneg length hpos.ne'
  have hquotlt := Int.emod_lt_of_pos length hpos
  have hnext : (stride : Int) * (length / stride + 1) = stride * (length / stride) + stride := by ring
  exact ⟨Int.ediv_nonneg hlength hpos.le, by omega, by omega⟩

theorem reduced_sound_iff (hs : s.WellFormed) (hb : s.isBottom = false) (h : tok ≤ bits) :
    (∀ x ∈ s.gamma, x % 2 ^ tok ∈ (new s.stride s.lowerBound s.upperBound s.uninitialized : StridedInterval tok).gamma) ↔
      Reduces s.stride s.length (2 ^ tok) := by
  have hlength := (off_on (size_pos bits) s.lowerBound s.upperBound).1
  by_cases hstride : s.stride = 0
  · refine iff_of_true (fun x hx => ?_) (.inl ?_)
    · obtain ⟨-, -, hdvd⟩ := off_spec hs hx
      rw [hstride, Nat.cast_zero, Int.zero_dvd] at hdvd
      rw [mem_reduced hs hb h, hdvd, Int.zero_emod]
      exact ⟨Int.emod_nonneg _ (size_pos tok).ne', Int.dvd_zero _⟩
    · rw [hstride, Nat.cast_zero, Int.ediv_zero]
  have hpos : (0 : Int) < s.stride := by omega
  obtain ⟨hcount, hle, hlt⟩ := quotient_bounds hpos hlength
  refine Iff.trans ?_ (multiples_iff (size_pos tok) hpos hcount hle hlt)
  refine Iff.trans ?_ (forall_off_iff hs hb hstride fun d => d % 2 ^ tok ≤ s.length % 2 ^ tok ∧ (s.stride : Int) ∣ d % 2 ^ tok)
  exact forall₂_congr fun x _ => mem_reduced hs hb h

/-- The low bits of all integers are those of the lower bound. -/
theorem constant_sound_iff {uninit : Bool} (hs : s.WellFormed) (hb : s.isBottom = false) (h : tok ≤ bits) :
    (∀ x ∈ s.gamma, x % 2 ^ tok ∈
        (new 0 (s.lowerBound % 2 ^ tok) (s.lowerBound % 2 ^ tok) uninit : StridedInterval tok).gamma) ↔
      s.length / s.stride = 0 ∨ (2 : Int) ^ tok ∣ s.stride := by
  have hmem : ∀ x, x % 2 ^ tok ∈
      (new 0 (s.lowerBound % 2 ^ tok) (s.lowerBound % 2 ^ tok) uninit : StridedInterval tok).gamma ↔
        (2 : Int) ^ tok ∣ off (2 ^ bits) s.lowerBound x := by
    intro x
    rw [mem_gamma_new fun _ => rfl, off_self, off_emod_right, off_emod_left, off_reduce h]
    have hnonneg := Int.emod_nonneg (off (2 ^ bits) s.lowerBound x) (size_pos tok).ne'
    constructor
    · rintro ⟨-, hle, -⟩
      exact Int.dvd_of_emod_eq_zero (by omega)
    · intro hdvd
      rw [Int.emod_eq_zero_of_dvd hdvd]
      exact ⟨emod_on (size_pos tok) _, Int.le_refl _, Int.dvd_zero _⟩
  rw [forall₂_congr fun x _ => hmem x]
  have hlength := (off_on (size_pos bits) s.lowerBound s.upperBound).1
  by_cases hstride : s.stride = 0
  · refine iff_of_true (fun x hx => ?_) (.inl ?_)
    · obtain ⟨-, -, hdvd⟩ := off_spec hs hx
      rw [hstride, Nat.cast_zero, Int.zero_dvd] at hdvd
      rw [hdvd]
      exact Int.dvd_zero _
    · rw [hstride, Nat.cast_zero, Int.ediv_zero]
  have hpos : (0 : Int) < s.stride := by omega
  obtain ⟨hcount, -, -⟩ := quotient_bounds hpos hlength
  rw [forall_off_iff hs hb hstride fun d => (2 : Int) ^ tok ∣ d]
  constructor
  · intro hall
    rcases hcount.eq_or_lt with hzero | hcount
    · exact .inl hzero.symm
    · have := hall 1 (by decide) hcount
      rw [Int.mul_one] at this
      exact .inr this
  rintro (hzero | hdvd) j hj hjle
  · rw [show j = 0 by omega, Int.mul_zero]
    exact Int.dvd_zero _
  · exact Int.dvd_mul_of_dvd_left hdvd

end Claripy.Vsa.StridedInterval
