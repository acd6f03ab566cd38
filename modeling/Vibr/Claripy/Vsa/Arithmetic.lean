import Vibr.Claripy.Vsa.StridedInterval

/-!
# Arithmetic of strided intervals

Sums start at the sum of the lower bounds, so that they are found at multiples of the common
stride. Differences start at the lower bound less the other's upper bound: they are found there
if the upper bound is one of the interval's integers, or if the other stride makes up for it.
-/

namespace Claripy.Vsa.StridedInterval

open Arc

variable {bits : Nat} {a b si : StridedInterval bits} {x y : Int}

/-- One operand's part in the overflow test. -/
def overflowCard (a : StridedInterval bits) : Int :=
  if a.isInteger && a.lowerBound = 0 then 0 else wrappedCardinality a.lowerBound a.upperBound bits

def wrappedOverflowAdd (a b : StridedInterval bits) : Bool :=
  overflowCard a + overflowCard b > maxInt bits + 1

def wrappedOverflowSub (a b : StridedInterval bits) : Bool := wrappedOverflowAdd a b

def add (self b : StridedInterval bits) : StridedInterval bits :=
  normalizeTypes self b <|
    if wrappedOverflowAdd self b then top false
    else
      let lb := modularAdd self.lowerBound b.lowerBound bits
      let ub := modularAdd self.upperBound b.upperBound bits
      let uninitialized := self.uninitialized || b.uninitialized
      let stride := Nat.gcd self.stride b.stride
      (new stride lb ub uninitialized).normalize

def sub (self b : StridedInterval bits) : StridedInterval bits :=
  normalizeTypes self b <|
    if wrappedOverflowSub self b then top false
    else
      let lb := modularSub self.lowerBound b.upperBound bits
      let ub := modularSub self.upperBound b.lowerBound bits
      let uninitialized := self.uninitialized || b.uninitialized
      let stride := Nat.gcd self.stride b.stride
      (new stride lb ub uninitialized).normalize

def neg (self : StridedInterval bits) : StridedInterval bits :=
  { (new 0 0 0 false).sub self with uninitialized := self.uninitialized }

/-! ## Overflow -/

theorem length_lt_of_not_overflow (ha : a.WellFormed) (hb : b.WellFormed) (h : wrappedOverflowAdd a b = false) :
    a.length + b.length < 2 ^ bits := by
  have hcard : ∀ si : StridedInterval bits, si.WellFormed → si.length = 0 ∧ overflowCard si = 0 ∨
      overflowCard si = si.length + 1 := by
    intro si hsi
    unfold overflowCard
    split
    · next hzero =>
        obtain ⟨hinteger, _⟩ := Bool.and_eq_true_iff.mp hzero
        refine .inl ⟨?_, rfl⟩
        rw [length, isInteger_iff.mp hinteger, off_self]
    · exact .inr (wrappedCardinality_eq hsi.lower hsi.upper)
  have hpos := size_pos bits
  have hle : overflowCard a + overflowCard b ≤ 2 ^ bits := by
    have := of_decide_eq_false h
    rw [maxInt_eq] at this
    omega
  obtain ⟨ha0, ha'⟩ | ha' := hcard a ha <;> obtain ⟨hb0, hb'⟩ | hb' := hcard b hb <;> omega

/-! ## Addition -/

theorem gcd_zero (ha : a.WellFormed) (hb : b.WellFormed) (hba : a.isBottom = false) (hbb : b.isBottom = false)
    (h : Nat.gcd a.stride b.stride = 0) : a.lowerBound = a.upperBound ∧ b.lowerBound = b.upperBound := by
  obtain ⟨ha0, hb0⟩ := Nat.gcd_eq_zero_iff.mp h
  exact ⟨(ha.stride hba).mp ha0, (hb.stride hbb).mp hb0⟩

/-- What is between the new bounds, at their common stride. -/
theorem mem_gamma_normalize_new {stride : Nat} {lb ub : Int} {uninit : Bool}
    (hstride : stride = 0 → lb % 2 ^ bits = ub % 2 ^ bits) :
    x ∈ (new stride lb ub uninit : StridedInterval bits).normalize.gamma ↔
      On (2 ^ bits) x ∧ off (2 ^ bits) lb x ≤ off (2 ^ bits) lb ub ∧ (stride : Int) ∣ off (2 ^ bits) lb x := by
  rw [normalize_eq (new_wellFormed hstride), mem_gamma_new hstride]

/-- Every sum is kept. -/
theorem mem_gamma_add (ha : a.WellFormed) (hb : b.WellFormed) (hx : x ∈ a.gamma) (hy : y ∈ b.gamma) :
    (x + y) % 2 ^ bits ∈ (a.add b).gamma := by
  have hpos := size_pos bits
  have hxy := emod_on hpos (x + y)
  unfold add
  rw [gamma_normalizeTypes]
  split
  · exact mem_gamma_top hxy
  next hoverflow =>
    have hzero := gcd_zero ha hb hx.1 hy.1
    obtain ⟨hxon, hxle, hxdvd⟩ := (mem_gamma ha hx.1).mp hx
    obtain ⟨hyon, hyle, hydvd⟩ := (mem_gamma hb hy.1).mp hy
    have hlt := length_lt_of_not_overflow ha hb (Bool.eq_false_of_not_eq_true hoverflow)
    unfold length at hlt
    have hx0 := (off_on hpos a.lowerBound x).1
    have hy0 := (off_on hpos b.lowerBound y).1
    have hub : off (2 ^ bits) (modularAdd a.lowerBound b.lowerBound bits)
        (modularAdd a.upperBound b.upperBound bits) = a.length + b.length := by
      unfold modularAdd length
      rw [off_emod_left, off_emod_right, off_add, Int.emod_eq_of_lt (by omega) hlt]
    have hoff : off (2 ^ bits) (modularAdd a.lowerBound b.lowerBound bits) ((x + y) % 2 ^ bits) =
        off (2 ^ bits) a.lowerBound x + off (2 ^ bits) b.lowerBound y := by
      unfold modularAdd
      rw [off_emod_left, off_emod_right, off_add, Int.emod_eq_of_lt (by omega) (by omega)]
    refine (mem_gamma_normalize_new ?_).mpr ⟨hxy, ?_, ?_⟩
    · intro h
      rw [(hzero h).1, (hzero h).2]
    · unfold length at hub
      rw [hub, hoff]
      omega
    rw [hoff]
    have hga : (Nat.gcd a.stride b.stride : Int) ∣ a.stride := Int.natCast_dvd_natCast.mpr (Nat.gcd_dvd_left _ _)
    have hgb : (Nat.gcd a.stride b.stride : Int) ∣ b.stride := Int.natCast_dvd_natCast.mpr (Nat.gcd_dvd_right _ _)
    exact Int.dvd_add (Int.dvd_trans hga hxdvd) (Int.dvd_trans hgb hydvd)

/-! ## Subtraction -/

/-- Without an overflow, a difference is kept iff it is a multiple of the common stride away from the
least one. -/
theorem mem_gamma_sub_iff (ha : a.WellFormed) (hb : b.WellFormed) (hx : x ∈ a.gamma) (hy : y ∈ b.gamma)
    (hoverflow : wrappedOverflowSub a b = false) : (x - y) % 2 ^ bits ∈ (a.sub b).gamma ↔
      (Nat.gcd a.stride b.stride : Int) ∣ b.length := by
  have hpos := size_pos bits
  have hxy := emod_on hpos (x - y)
  have hzero := gcd_zero ha hb hx.1 hy.1
  obtain ⟨hxon, hxle, hxdvd⟩ := (mem_gamma ha hx.1).mp hx
  obtain ⟨hyon, hyle, hydvd⟩ := (mem_gamma hb hy.1).mp hy
  have hlt := length_lt_of_not_overflow ha hb hoverflow
  unfold length at hlt
  have hx0 := (off_on hpos a.lowerBound x).1
  have hy0 := (off_on hpos b.lowerBound y).1
  have hrest := off_rest hpos hyle
  have hub : off (2 ^ bits) (modularSub a.lowerBound b.upperBound bits)
      (modularSub a.upperBound b.lowerBound bits) = a.length + b.length := by
    unfold modularSub length
    rw [off_emod_left, off_emod_right, off_sub, Int.emod_eq_of_lt (by omega) hlt]
  have hoff : off (2 ^ bits) (modularSub a.lowerBound b.upperBound bits) ((x - y) % 2 ^ bits) =
      off (2 ^ bits) a.lowerBound x + (b.length - off (2 ^ bits) b.lowerBound y) := by
    unfold modularSub length
    rw [off_emod_left, off_emod_right, off_sub, hrest, Int.emod_eq_of_lt (by omega) (by omega)]
  have hga : (Nat.gcd a.stride b.stride : Int) ∣ a.stride := Int.natCast_dvd_natCast.mpr (Nat.gcd_dvd_left _ _)
  have hgb : (Nat.gcd a.stride b.stride : Int) ∣ b.stride := Int.natCast_dvd_natCast.mpr (Nat.gcd_dvd_right _ _)
  have hphase : (Nat.gcd a.stride b.stride : Int) ∣ off (2 ^ bits) a.lowerBound x +
      (b.length - off (2 ^ bits) b.lowerBound y) ↔ (Nat.gcd a.stride b.stride : Int) ∣ b.length := by
    rw [Int.dvd_add_right (Int.dvd_trans hga hxdvd)]
    exact Int.dvd_iff_dvd_of_dvd_sub (by
      rw [show b.length - off (2 ^ bits) b.lowerBound y - b.length = -off (2 ^ bits) b.lowerBound y by omega]
      exact Int.dvd_neg.mpr (Int.dvd_trans hgb hydvd))
  unfold sub
  rw [gamma_normalizeTypes, hoverflow, if_neg Bool.false_ne_true, mem_gamma_normalize_new, hoff, hphase]
  · unfold length at hub ⊢
    rw [hub]
    refine ⟨fun h => h.2.2, fun h => ⟨hxy, by omega, h⟩⟩
  · intro h
    rw [(hzero h).1, (hzero h).2]

/-- Every difference is kept, or none is. -/
theorem sub_sound_iff (ha : a.WellFormed) (hb : b.WellFormed) :
    (∀ x ∈ a.gamma, ∀ y ∈ b.gamma, (x - y) % 2 ^ bits ∈ (a.sub b).gamma) ↔
      a.isBottom = true ∨ b.isBottom = true ∨ wrappedOverflowSub a b = true ∨
        (Nat.gcd a.stride b.stride : Int) ∣ b.length := by
  cases hba : a.isBottom with
  | true => exact iff_of_true (fun x hx => absurd hx.1 (by rw [hba]; decide)) (.inl rfl)
  | false =>
    cases hbb : b.isBottom with
    | true => exact iff_of_true (fun x _ y hy => absurd hy.1 (by rw [hbb]; decide)) (.inr (.inl rfl))
    | false =>
      simp only [Bool.false_eq_true, false_or]
      cases hoverflow : wrappedOverflowSub a b with
      | true =>
        refine iff_of_true (fun x _ y _ => ?_) (.inl rfl)
        unfold sub
        rw [gamma_normalizeTypes, hoverflow, if_pos rfl]
        exact mem_gamma_top (emod_on (size_pos bits) _)
      | false =>
        constructor
        · intro h
          have hlower := h _ (lowerBound_mem ha hba) _ (lowerBound_mem hb hbb)
          exact .inr ((mem_gamma_sub_iff ha hb (lowerBound_mem ha hba) (lowerBound_mem hb hbb) hoverflow).mp hlower)
        · rintro (h | h) x hx y hy
          · cases h
          · exact (mem_gamma_sub_iff ha hb hx hy hoverflow).mpr h

/-! ## Negation -/

theorem new_zero : (new 0 0 0 false : StridedInterval bits) = ⟨0, 0, 0, false, false⟩ := by
  obtain ⟨_, h⟩ | ⟨hne, _⟩ | ⟨hne, _⟩ := @new_cases bits 0 0 0 false
  · rw [h, Int.zero_emod]
  · exact absurd rfl hne
  · exact absurd rfl hne

theorem zero_not_overflow (ha : a.WellFormed) : wrappedOverflowSub (new 0 0 0 false) a = false := by
  have hlength := (off_on (size_pos bits) a.lowerBound a.upperBound).2
  have hpos := size_pos bits
  have hcard : overflowCard a ≤ 2 ^ bits := by
    unfold overflowCard
    split
    · omega
    · rw [wrappedCardinality_eq ha.lower ha.upper]
      exact Int.add_one_le_of_lt hlength
  have hzero : overflowCard (⟨0, 0, 0, false, false⟩ : StridedInterval bits) = 0 := rfl
  unfold wrappedOverflowSub wrappedOverflowAdd
  rw [new_zero, hzero, maxInt_eq, decide_eq_false_iff_not]
  omega

theorem neg_sound_iff (ha : a.WellFormed) :
    (∀ x ∈ a.gamma, (-x) % 2 ^ bits ∈ a.neg.gamma) ↔ a.isBottom = true ∨ (a.stride : Int) ∣ a.length := by
  have hzero : (new 0 0 0 false : StridedInterval bits).WellFormed := new_wellFormed (fun _ => rfl)
  have hmem : (0 : Int) ∈ (new 0 0 0 false : StridedInterval bits).gamma := by
    have := lowerBound_mem hzero new_isBottom
    rwa [new_zero] at this ⊢
  have hneg : a.neg.gamma = ((new 0 0 0 false).sub a).gamma := rfl
  have hiff : ∀ x ∈ a.gamma, (-x) % 2 ^ bits ∈ a.neg.gamma ↔ (a.stride : Int) ∣ a.length := by
    intro x hx
    have h := mem_gamma_sub_iff hzero ha hmem hx (zero_not_overflow ha)
    rwa [Int.zero_sub, new_zero, Nat.gcd_zero_left, ← new_zero, ← hneg] at h
  cases hba : a.isBottom with
  | true => exact iff_of_true (fun x hx => absurd hx.1 (by rw [hba]; decide)) (.inl rfl)
  | false =>
    have hlower := lowerBound_mem ha hba
    constructor
    · intro h
      exact .inr ((hiff _ hlower).mp (h _ hlower))
    · rintro (h | h) x hx
      · cases h
      · exact (hiff x hx).mpr h

/-! ## All three -/

/-- Sums are always kept. Negatives are kept iff the upper bound is one of the integers, and differences iff
the other's upper bound is a multiple of the common stride above its lower bound, or the
result is everything. -/
theorem arithmetic_sound_iff (ha : a.WellFormed) (hb : b.WellFormed) :
    ((∀ x ∈ a.gamma, ∀ y ∈ b.gamma, (x + y) % 2 ^ bits ∈ (a.add b).gamma) ∧
      (∀ x ∈ a.gamma, ∀ y ∈ b.gamma, (x - y) % 2 ^ bits ∈ (a.sub b).gamma) ∧
      ∀ x ∈ a.gamma, (-x) % 2 ^ bits ∈ a.neg.gamma) ↔
      (a.isBottom = true ∨ b.isBottom = true ∨ wrappedOverflowSub a b = true ∨
        (Nat.gcd a.stride b.stride : Int) ∣ b.length) ∧
      (a.isBottom = true ∨ (a.stride : Int) ∣ a.length) := by
  rw [sub_sound_iff ha hb, neg_sound_iff ha]
  refine and_iff_right ?_
  intro x hx y hy
  exact mem_gamma_add ha hb hx hy

theorem test_operands_sound :
    (new 2 (-2) 6 false : StridedInterval 4).WellFormed ∧ (new 1 0 3 false : StridedInterval 4).WellFormed ∧
      ∀ x ∈ (new 2 (-2) 6 false : StridedInterval 4).gamma, ∀ y ∈ (new 1 0 3 false : StridedInterval 4).gamma,
        (x - y) % 2 ^ 4 ∈ ((new 2 (-2) 6 false : StridedInterval 4).sub (new 1 0 3 false)).gamma := by
  have ha : (new 2 (-2) 6 false : StridedInterval 4).WellFormed := new_wellFormed nofun
  have hb : (new 1 0 3 false : StridedInterval 4).WellFormed := new_wellFormed nofun
  exact ⟨ha, hb, ((arithmetic_sound_iff ha hb).mpr (by decide)).2.1⟩

/-- The integers -2, 0, 2, 4 and 6, up to 7: their negatives are looked for from -7 on. -/
theorem neg_of_odd_length : ¬ ∀ (bits : Nat) (a b : StridedInterval bits), a.WellFormed → b.WellFormed →
    (∀ x ∈ a.gamma, ∀ y ∈ b.gamma, (x + y) % 2 ^ bits ∈ (a.add b).gamma) ∧
      (∀ x ∈ a.gamma, ∀ y ∈ b.gamma, (x - y) % 2 ^ bits ∈ (a.sub b).gamma) ∧
      ∀ x ∈ a.gamma, (-x) % 2 ^ bits ∈ a.neg.gamma := by
  intro h
  have hwf : (new 2 (-2) 7 false : StridedInterval 4).WellFormed := new_wellFormed nofun
  have hneg := (neg_sound_iff hwf).mp (h 4 _ _ hwf hwf).2.2
  revert hneg
  decide

end Claripy.Vsa.StridedInterval
