import Vibr.Claripy.Vsa.BitwiseNot
import Vibr.Claripy.Vsa.BitwiseOr

/-!
# Bitwise conjunction

An operand that is the sign bit is compared with the bounds of the other one. All other conjunctions are complements of
disjunctions of complements, which are right where the intervals end with integers of theirs.
-/

namespace Claripy.Vsa.StridedInterval

open Arc

variable {bits : Nat} {a b s t u v p : StridedInterval bits} {x y z : Int}

/-- Each turn removes the least one. -/
def numberOfOnes (n : Nat) : Nat := if h : n = 0 then 0 else numberOfOnes (n &&& (n - 1)) + 1
termination_by n
decreasing_by
  have := @Nat.and_le_right n (n - 1)
  omega

/-- It is testing the sign bit. -/
def testsSignBit (a : StridedInterval bits) : Bool :=
  a.isInteger && numberOfOnes a.lowerBound.toNat = 1 && a.lowerBound = 2 ^ (bits - 1)

/-- The conjunction with an integer `a` that has the sign bit only. -/
def andSignBit (a b : StridedInterval bits) : Option (StridedInterval bits) :=
  let stride : Nat := 2 ^ (bits - 1)
  if b.isInteger then
    if b.lowerBound = stride then some (new 0 stride stride false) else some (new 0 0 0 false)
  else do
    let rest ← strideMod (a.lowerBound - b.lowerBound) b.stride
    let isSol := rest = 0 ∧ b.lowerBound ≤ a.lowerBound ∧ a.lowerBound ≤ b.upperBound
    if isSol then return new stride 0 stride false
    return new 0 0 0 false

def bitwiseAnd (self t : StridedInterval bits) : Option (StridedInterval bits) := do
  if self.testsSignBit then return normalizeTypes self t (← andSignBit self t)
  if t.testsSignBit then return normalizeTypes self t (← andSignBit t self)
  let disjunction ← (← self.bitwiseNot).bitwiseOr (← t.bitwiseNot)
  let newInterval ← disjunction.bitwiseNot
  return normalizeTypes self t newInterval.normalize

/-! ## The sign bit -/

theorem numberOfOnes_two_pow (k : Nat) : numberOfOnes (2 ^ k) = 1 := by
  unfold numberOfOnes
  rw [dif_neg (Nat.two_pow_pos k).ne', Nat.and_two_pow_sub_one_eq_mod, Nat.mod_self]
  unfold numberOfOnes
  rfl

theorem testsSignBit_iff : a.testsSignBit = true ↔ a.isInteger = true ∧ a.lowerBound = 2 ^ (bits - 1) := by
  unfold testsSignBit
  rw [Bool.and_eq_true, Bool.and_eq_true, decide_eq_true_iff, decide_eq_true_iff]
  refine ⟨fun h => ⟨h.1.1, h.2⟩, fun ⟨hint, hlb⟩ => ⟨⟨hint, ?_⟩, hlb⟩⟩
  rw [hlb]
  exact numberOfOnes_two_pow _

theorem bits_of_testsSignBit (ha : a.WellFormed) (h : a.testsSignBit = true) : bits ≠ 0 := by
  rintro rfl
  have hlb := ha.lower.2
  rw [(testsSignBit_iff.mp h).2] at hlb
  exact absurd hlb (by decide)

/-- The conjunction of a sign bit and an integer. -/
theorem and_sign_bit (hbits : bits ≠ 0) (hy : On (2 ^ bits) y) :
    (((2 ^ (bits - 1) : Int).toNat &&& y.toNat : Nat) : Int) = if y < 2 ^ (bits - 1) then 0 else 2 ^ (bits - 1) := by
  have hhalf := two_halves hbits
  have hpow : (2 ^ (bits - 1) : Int).toNat = 2 ^ (bits - 1) := rfl
  have hsize : ((2 ^ (bits - 1) : Nat) : Int) = 2 ^ (bits - 1) := by push_cast; rfl
  have hy0 := hy.1
  have hylt := hy.2
  rw [hpow, Nat.two_pow_and]
  split
  · next hlow =>
      rw [Nat.testBit_lt_two_pow (by omega), Bool.toNat_false, Nat.mul_zero]
      rfl
  next hhigh =>
    rw [Nat.testBit_eq_decide_div_mod_eq, show y.toNat / 2 ^ (bits - 1) = 1 from ?_]
    · rw [decide_eq_true rfl, Bool.toNat_true, Nat.mul_one]
      exact hsize
    · refine Nat.div_eq_of_lt_le ?_ ?_ <;> omega

/-- The conjunctions of integers of two intervals. -/
def AndSound (s t : StridedInterval bits) : Prop :=
  ∀ x ∈ s.gamma, ∀ y ∈ t.gamma, ∃ r, s.bitwiseAnd t = some r ∧ ((x.toNat &&& y.toNat : Nat) : Int) ∈ r.gamma

/-- The other operand has the sign bit as an integer, or no integer past it. -/
def SignBitExact (b : StridedInterval bits) : Prop := Plain b (2 ^ (bits - 1)) ∨ ∀ y ∈ b.gamma, y < 2 ^ (bits - 1)

instance : Decidable (Plain p x) := inferInstanceAs (Decidable (_ ∧ _ ∧ _))

/-- Only a part of zero for the sign bit is said to be zero. -/
theorem zero_iff :
    (∀ y ∈ b.gamma, (if y < 2 ^ (bits - 1) then 0 else 2 ^ (bits - 1)) ∈ (new 0 0 0 false : StridedInterval bits).gamma) ↔
      ∀ y ∈ b.gamma, y < 2 ^ (bits - 1) := by
  have hzero : On (2 ^ bits) 0 := ⟨Int.le_refl 0, size_pos bits⟩
  have hhalf := half_pos bits
  refine forall₂_congr fun y _ => ?_
  constructor
  · intro h
    by_contra hhigh
    rw [if_neg hhigh, mem_new_plain hzero hzero (Int.le_refl 0) fun _ => rfl] at h
    omega
  · intro hlow
    rw [if_pos hlow]
    exact mem_new_integer hzero

theorem andSignBit_spec (ha : a.testsSignBit = true) (hbits : bits ≠ 0) (hb : b.WellFormed) :
    ∃ r, andSignBit a b = some r ∧ ((∀ y ∈ b.gamma, (if y < 2 ^ (bits - 1) then 0 else 2 ^ (bits - 1)) ∈ r.gamma) ↔
      SignBitExact b) := by
  have hhalf := two_halves hbits
  have hpos := half_pos bits
  have hsize : ((2 ^ (bits - 1) : Nat) : Int) = 2 ^ (bits - 1) := by push_cast; rfl
  have hon : On (2 ^ bits) (2 ^ (bits - 1)) := ⟨by omega, by omega⟩
  have halb := (testsSignBit_iff.mp ha).2
  unfold andSignBit
  dsimp only
  rw [hsize, halb]
  by_cases hint : b.isInteger = true
  · have heq := isInteger_iff.mp hint
    rw [if_pos hint]
    by_cases hlb : b.lowerBound = 2 ^ (bits - 1)
    · rw [if_pos hlb]
      refine ⟨_, rfl, iff_of_true (fun y hy => ?_) (.inl ⟨by omega, by omega, ?_⟩)⟩
      · rw [eq_of_mem_integer hb hint hy, hlb, if_neg (Int.lt_irrefl _)]
        exact mem_new_integer hon
      · rw [hlb, Int.sub_self]
        exact Int.dvd_zero _
    rw [if_neg hlb]
    refine ⟨_, rfl, zero_iff.trans ⟨.inr, fun h => h.resolve_left fun hplain => ?_⟩⟩
    have := hplain.1
    have := hplain.2.1
    omega
  · have hbb : b.stride ≠ 0 := fun h => hint (isInteger_iff.mpr (hb.integer_of_stride h))
    rw [if_neg hint]
    unfold strideMod
    rw [if_neg hbb, Option.bind_eq_bind, Option.bind_some]
    by_cases hplain : Plain b (2 ^ (bits - 1))
    · rw [if_pos ⟨Int.emod_eq_zero_of_dvd hplain.2.2, hplain.1, hplain.2.1⟩]
      refine ⟨_, rfl, iff_of_true (fun y hy => ?_) (.inl hplain)⟩
      rw [mem_new_plain ⟨Int.le_refl 0, size_pos bits⟩ hon (by omega) fun h => by omega, hsize]
      split
      · exact ⟨Int.le_refl 0, by omega, Int.dvd_zero _⟩
      · exact ⟨by omega, Int.le_refl _, by rw [Int.sub_zero]⟩
    · rw [if_neg fun h => hplain ⟨h.2.1, h.2.2, Int.dvd_of_emod_eq_zero h.1⟩]
      exact ⟨_, rfl, zero_iff.trans ⟨.inr, fun h => h.resolve_left hplain⟩⟩

/-- With the sign bit on the left, the conjunction is right if and only if the shortcut is. -/
theorem andSound_of_left (hs : s.WellFormed) (ht : t.WellFormed) (h : s.testsSignBit = true) :
    AndSound s t ↔ SignBitExact t := by
  have hbits := bits_of_testsSignBit hs h
  obtain ⟨hint, hlb⟩ := testsSignBit_iff.mp h
  obtain ⟨r, hr, hiff⟩ := andSignBit_spec h hbits ht
  have hand : s.bitwiseAnd t = some (normalizeTypes s t r) := by
    unfold bitwiseAnd
    rw [if_pos h, hr]
    rfl
  rw [← hiff]
  constructor
  · intro hsound y hy
    have hsb : s.isBottom = false := by
      refine Bool.eq_false_iff.mpr fun hb => ?_
      rw [hs.bottom hb] at hlb
      exact (half_pos bits).ne hlb
    obtain ⟨r', hr', hmem⟩ := hsound _ (lowerBound_mem hs hsb) y hy
    obtain rfl := Option.some.inj (hand.symm.trans hr')
    rwa [gamma_normalizeTypes, hlb, and_sign_bit hbits (gamma_on ht hy)] at hmem
  intro hall x hx y hy
  refine ⟨_, hand, ?_⟩
  rw [gamma_normalizeTypes, eq_of_mem_integer hs hint hx, hlb, and_sign_bit hbits (gamma_on ht hy)]
  exact hall y hy

/-- The same with the sign bit on the right. -/
theorem andSound_of_right (hs : s.WellFormed) (ht : t.WellFormed) (hnot : s.testsSignBit = false)
    (h : t.testsSignBit = true) : AndSound s t ↔ SignBitExact s := by
  have hbits := bits_of_testsSignBit ht h
  obtain ⟨r, hr, hiff⟩ := andSignBit_spec h hbits hs
  have hand : s.bitwiseAnd t = some (normalizeTypes s t r) := by
    unfold bitwiseAnd
    rw [if_neg (by rw [hnot]; exact Bool.false_ne_true), if_pos h, hr]
    rfl
  have hand' : t.bitwiseAnd s = some (normalizeTypes t s r) := by
    unfold bitwiseAnd
    rw [if_pos h, hr]
    rfl
  rw [← andSound_of_left ht hs h]
  unfold AndSound
  rw [hand, hand']
  constructor
  · intro hsound y hy x hx
    obtain ⟨r', hr', hmem⟩ := hsound x hx y hy
    obtain rfl := Option.some.inj hr'
    refine ⟨_, rfl, ?_⟩
    rwa [gamma_normalizeTypes, Nat.and_comm, ← gamma_normalizeTypes]
  intro hsound x hx y hy
  obtain ⟨r', hr', hmem⟩ := hsound y hy x hx
  obtain rfl := Option.some.inj hr'
  refine ⟨_, rfl, ?_⟩
  rwa [gamma_normalizeTypes, Nat.and_comm, ← gamma_normalizeTypes]

/-! ## Complements -/

theorem toNat_complement (hx : On (2 ^ bits) x) : (2 ^ bits - 1 - x).toNat = 2 ^ bits - (x.toNat + 1) := by
  have hsize : ((2 ^ bits : Nat) : Int) = 2 ^ bits := by push_cast; rfl
  unfold On at hx
  omega

/-- The disjunction of complements is the complement of the conjunction. -/
theorem or_complement (hx : On (2 ^ bits) x) (hy : On (2 ^ bits) y) :
    (2 ^ bits - 1 - x).toNat ||| (2 ^ bits - 1 - y).toNat = 2 ^ bits - ((x.toNat &&& y.toNat) + 1) := by
  have hxlt := toNat_lt hx
  have hylt := toNat_lt hy
  rw [toNat_complement hx, toNat_complement hy]
  refine Nat.eq_of_testBit_eq fun i => ?_
  rw [Nat.testBit_or, Nat.testBit_two_pow_sub_succ hxlt, Nat.testBit_two_pow_sub_succ hylt,
    Nat.testBit_two_pow_sub_succ (Nat.and_le_left.trans_lt hxlt), Nat.testBit_and, ← Bool.and_or_distrib_left, Bool.not_and]

theorem and_on (hx : On (2 ^ bits) x) : On (2 ^ bits) ((x.toNat &&& y.toNat : Nat) : Int) := by
  have hle := @Nat.and_le_left x.toNat y.toNat
  have hx0 := hx.1
  have hxlt := hx.2
  exact ⟨Int.natCast_nonneg _, by omega⟩

/-- A disjunction of complements, as an integer. -/
theorem cast_or_complement (hx : On (2 ^ bits) x) (hy : On (2 ^ bits) y) :
    (((2 ^ bits - 1 - x).toNat ||| (2 ^ bits - 1 - y).toNat : Nat) : Int) = 2 ^ bits - 1 - (x.toNat &&& y.toNat : Nat) := by
  have hand := and_on (y := y) hx
  have hsize : ((2 ^ bits : Nat) : Int) = 2 ^ bits := by push_cast; rfl
  rw [or_complement hx hy]
  unfold On at hand
  omega

/-- Complements have the same low bits if and only if the numbers have. -/
theorem complement_mod_iff {k m n : Nat} (hm : m < 2 ^ bits) (hn : n < 2 ^ bits) :
    (2 ^ bits - (m + 1)) % 2 ^ k = (2 ^ bits - (n + 1)) % 2 ^ k ↔ m % 2 ^ k = n % 2 ^ k := by
  have hsub : ((2 ^ bits - (n + 1) : Nat) : Int) - (2 ^ bits - (m + 1) : Nat) = m - n := by omega
  show Nat.ModEq _ _ _ ↔ Nat.ModEq _ _ _
  rw [Nat.modEq_iff_dvd, hsub, ← Nat.modEq_iff_dvd]
  exact ⟨Eq.symm, Eq.symm⟩

/-! ## Intervals that do not wrap -/

theorem notPiece_fields (hs : s.WellFormed) (hb : s.isBottom = false) (hle : s.lowerBound ≤ s.upperBound) :
    notPiece s.stride s = ⟨s.stride, 2 ^ bits - 1 - s.upperBound, 2 ^ bits - 1 - s.lowerBound, false, false⟩ := by
  rw [notPiece_eq, new_fields (complement_on hs.upper) (complement_on hs.lower) (by omega)]
  congr 1
  split
  · exact ((hs.stride hb).mpr (by omega)).symm
  · rfl

/-- The complement of an interval does not depend on whether it is initialized. -/
theorem bitwiseNot_normalizeTypes (h : ¬ Wraps p) (hstride : p.stride = 0 → p.lowerBound = p.upperBound) :
    ∃ uninit, (normalizeTypes u v p).bitwiseNot = some { notPiece p.stride p with uninitialized := uninit } := by
  unfold normalizeTypes
  split
  · exact ⟨true, @bitwiseNot_of_not_wraps _ { p with uninitialized := true } h hstride⟩
  · exact ⟨p.uninitialized, bitwiseNot_of_not_wraps h hstride⟩

theorem bitwiseOr_of_not_wraps (hu : u.WellFormed) (hv : v.WellFormed) (huw : ¬ Wraps u) (hvw : ¬ Wraps v) :
    u.bitwiseOr v = some (normalizeTypes u v (orPiece u v)) := by
  have hwf := orPiece_wellFormed hu hv
  unfold bitwiseOr
  rw [ssplit_of_not_wraps huw, ssplit_of_not_wraps hvw]
  show some (normalizeTypes u v (orPiece u v).normalize.normalize) = _
  rw [normalize_eq hwf, normalize_eq hwf]

/-- The complement of an interval that does not wrap does not wrap. -/
theorem bitwiseNot_plain (hs : s.WellFormed) (h : ¬ Wraps s) : ∃ u, s.bitwiseNot = some u ∧ u.WellFormed ∧ ¬ Wraps u ∧
    { u with uninitialized := false } = notPiece s.stride s := by
  have hle : s.lowerBound ≤ s.upperBound := Int.not_lt.mp h
  have hfields : notPiece s.stride s = _ :=
    notPiece_eq.trans (new_fields (complement_on hs.upper) (complement_on hs.lower) (by omega))
  refine ⟨_, bitwiseNot_of_not_wraps h hs.integer_of_stride,
    wellFormed_uninitialized (notPiece_wellFormed hs.integer_of_stride) _, ?_, ?_⟩ <;> rw [hfields]
  exact Int.not_lt.mpr (by dsimp only; omega)

theorem bitwiseAnd_eq {d r : StridedInterval bits} (hnots : s.testsSignBit = false) (hnott : t.testsSignBit = false)
    (hu : s.bitwiseNot = some u) (hv : t.bitwiseNot = some v) (hd : u.bitwiseOr v = some d) (hr : d.bitwiseNot = some r) :
    s.bitwiseAnd t = some (normalizeTypes s t r.normalize) := by
  unfold bitwiseAnd
  rw [if_neg (by rw [hnots]; exact Bool.false_ne_true), if_neg (by rw [hnott]; exact Bool.false_ne_true), hu, hv]
  show (u.bitwiseOr v >>= fun d => d.bitwiseNot >>= fun r => some (normalizeTypes s t r.normalize)) = _
  rw [hd, Option.bind_eq_bind, Option.bind_some, hr, Option.bind_some]

/-- What the conjunction of two intervals that do not wrap is, from the disjunction of their complements. -/
theorem bitwiseAnd_of_orPiece {k stride lb ub : Nat} (hs : s.WellFormed) (ht : t.WellFormed)
    (hsw : ¬ Wraps s) (htw : ¬ Wraps t) (hnots : s.testsSignBit = false) (hnott : t.testsSignBit = false)
    (h : OrPiece (notPiece s.stride s) (notPiece t.stride t) k stride lb ub) :
    ∃ r, s.bitwiseAnd t = some r ∧ ∀ z, 2 ^ bits - 1 - z ∈ r.gamma ↔
      (lb : Int) ≤ z ∧ z ≤ ub ∧ (stride : Int) ∣ ub - z := by
  have hsize : ((2 ^ bits : Nat) : Int) = 2 ^ bits := by push_cast; rfl
  have hlt := h.lt
  have hle := h.le
  have hlb : On (2 ^ bits) (lb : Int) := ⟨by omega, by omega⟩
  have hub : On (2 ^ bits) (ub : Int) := ⟨by omega, by omega⟩
  have hleint : (lb : Int) ≤ ub := by omega
  obtain ⟨u, hu, huwf, huw, hufields⟩ := bitwiseNot_plain hs hsw
  obtain ⟨v, hv, hvwf, hvw, hvfields⟩ := bitwiseNot_plain ht htw
  -- the disjunction, with its fields
  have hor : orPiece u v = ⟨if (lb : Int) = ub then 0 else stride, lb, ub, false, false⟩ := by
    show orPiece { u with uninitialized := false } { v with uninitialized := false } = _
    rw [hufields, hvfields, h.eq, new_fields hlb hub hleint]
  have hstride : (if (lb : Int) = ub then 0 else stride) = 0 → (lb : Int) = ub := by
    split
    · next heq => exact fun _ => heq
    · exact fun hzero => by rw [h.zero hzero]
  have hdisjunction := bitwiseOr_of_not_wraps huwf hvwf huw hvw
  rw [hor] at hdisjunction
  obtain ⟨uninit, hnot⟩ := @bitwiseNot_normalizeTypes bits u v
    ⟨if (lb : Int) = ub then 0 else stride, lb, ub, false, false⟩ (Int.not_lt.mpr hleint) hstride
  refine ⟨_, bitwiseAnd_eq hnots hnott hu hv hdisjunction hnot, fun z => ?_⟩
  have hwf := wellFormed_uninitialized (@notPiece_wellFormed bits
    ⟨if (lb : Int) = ub then 0 else stride, lb, ub, false, false⟩ _ hstride) uninit
  rw [gamma_normalizeTypes, normalize_eq hwf, gamma_uninitialized, mem_notPiece hlb hub hleint hstride]
  refine and_congr_right fun hlow => and_congr_right fun hup => ?_
  dsimp only at hlow hup ⊢
  split
  · rw [show (ub : Int) - z = 0 by omega]
    exact iff_of_true (Int.dvd_zero _) (Int.dvd_zero _)
  · exact Iff.rfl

/-- The low bits on which the strides have no influence are the same for the conjunctions of the lower and of the upper
bounds. -/
def SameLow (s t : StridedInterval bits) : Prop :=
  (s.upperBound.toNat &&& t.upperBound.toNat) % 2 ^ lowZeros s t =
    (s.lowerBound.toNat &&& t.lowerBound.toNat) % 2 ^ lowZeros s t

theorem lowZeros_complement (hs : s.WellFormed) (hsb : s.isBottom = false) (hsw : s.lowerBound ≤ s.upperBound)
    (ht : t.WellFormed) (htb : t.isBottom = false) (htw : t.lowerBound ≤ t.upperBound) :
    lowZeros (notPiece s.stride s) (notPiece t.stride t) = lowZeros s t := by
  have hint : ∀ {q : StridedInterval bits}, (⟨q.stride, 2 ^ bits - 1 - q.upperBound, 2 ^ bits - 1 - q.lowerBound, false,
      false⟩ : StridedInterval bits).isInteger = q.isInteger := by
    intro q
    refine Bool.eq_iff_iff.mpr ?_
    rw [isInteger_iff, isInteger_iff]
    dsimp only
    omega
  rw [notPiece_fields hs hsb hsw, notPiece_fields ht htb htw]
  unfold lowZeros
  rw [hint, hint]

/-- Beside a zero, the integers of the other complement are found from its upper bound. -/
theorem OfOther.dvd {k stride lb ub : Nat} (hs : s.WellFormed)
    (h : @OfOther bits k ⟨s.stride, 2 ^ bits - 1 - s.upperBound, 2 ^ bits - 1 - s.lowerBound, false, false⟩ stride lb ub)
    (hlow : (2 ^ bits - 1 - s.lowerBound).toNat % 2 ^ k = (2 ^ bits - 1 - s.upperBound).toNat % 2 ^ k) (hx : Plain s x) :
    (stride : Int) ∣ ub - ((2 ^ bits - 1 - x).toNat : Nat) := by
  have hupper := h.upper
  have hxon := plain_on hs hx
  have hlb := hs.lower
  unfold On at hxon hlb
  dsimp only at hupper
  rw [← hlow, Nat.div_add_mod] at hupper
  rw [h.stride_eq, hupper, Int.toNat_of_nonneg (by omega), Int.toNat_of_nonneg (by omega),
    show (2 ^ bits - 1 - s.lowerBound - (2 ^ bits - 1 - x) : Int) = x - s.lowerBound by omega]
  exact hx.2.2

/-- Between intervals that do not wrap, the conjunction is right if and only if the low bits are the same. -/
theorem andSound_of_not_wraps (hs : s.WellFormed) (hsb : s.isBottom = false) (hsw : s.lowerBound ≤ s.upperBound)
    (ht : t.WellFormed) (htb : t.isBottom = false) (htw : t.lowerBound ≤ t.upperBound)
    (hnots : s.testsSignBit = false) (hnott : t.testsSignBit = false) : AndSound s t ↔ SameLow s t := by
  have hsw' : ¬ Wraps s := Int.not_lt.mpr hsw
  have htw' : ¬ Wraps t := Int.not_lt.mpr htw
  have hu := notPiece_wellFormed (p := s) hs.integer_of_stride
  have hv := notPiece_wellFormed (p := t) ht.integer_of_stride
  have hufields := notPiece_fields hs hsb hsw
  have hvfields := notPiece_fields ht htb htw
  obtain ⟨stride, lb, ub, h⟩ := orPiece_spec hu hv (by rw [hufields]; dsimp only; omega) (by rw [hvfields]; dsimp only; omega)
  obtain ⟨r, hr, hmem⟩ := bitwiseAnd_of_orPiece hs ht hsw' htw' hnots hnott h
  rw [lowZeros_complement hs hsb hsw ht htb htw, hufields, hvfields] at h
  -- the low bits of all integers of the disjunction
  have hand_lt := fun {x} y (hx : On (2 ^ bits) x) => (@Nat.and_le_left x.toNat (Int.toNat y)).trans_lt (toNat_lt hx)
  have hlow : ((2 ^ bits - 1 - s.upperBound).toNat % 2 ^ lowZeros s t ||| (2 ^ bits - 1 - t.upperBound).toNat %
      2 ^ lowZeros s t) = (2 ^ bits - ((s.upperBound.toNat &&& t.upperBound.toNat) + 1)) % 2 ^ lowZeros s t := by
    rw [← Nat.or_mod_two_pow, or_complement hs.upper ht.upper]
  have hupper := h.upper_low.trans hlow
  have hvalue : ∀ {x y}, On (2 ^ bits) x → On (2 ^ bits) y → (((x.toNat &&& y.toNat : Nat) : Int) ∈ r.gamma ↔
      lb ≤ (2 ^ bits - 1 - x).toNat ||| (2 ^ bits - 1 - y).toNat ∧
      (2 ^ bits - 1 - x).toNat ||| (2 ^ bits - 1 - y).toNat ≤ ub ∧
      (stride : Int) ∣ ub - ((2 ^ bits - 1 - x).toNat ||| (2 ^ bits - 1 - y).toNat : Nat)) := by
    intro x y hx hy
    have hcast := cast_or_complement hx hy
    rw [show ((x.toNat &&& y.toNat : Nat) : Int) =
      2 ^ bits - 1 - ((2 ^ bits - 1 - x).toNat ||| (2 ^ bits - 1 - y).toNat : Nat) by omega, hmem]
    exact and_congr Int.ofNat_le (and_congr Int.ofNat_le Iff.rfl)
  unfold SameLow
  constructor
  · intro hsound
    obtain ⟨r', hr', hmem'⟩ := hsound _ (lowerBound_mem hs hsb) _ (lowerBound_mem ht htb)
    obtain rfl := Option.some.inj (hr.symm.trans hr')
    have hdvd := ((hvalue hs.lower ht.lower).mp hmem').2.2
    have hmod : ((2 ^ bits - 1 - s.lowerBound).toNat ||| (2 ^ bits - 1 - t.lowerBound).toNat) % 2 ^ lowZeros s t =
        ub % 2 ^ lowZeros s t := Nat.modEq_iff_dvd.mpr ((Int.natCast_dvd_natCast.mpr h.dvd).trans hdvd)
    rw [hupper, or_complement hs.lower ht.lower] at hmod
    exact ((complement_mod_iff (hand_lt _ hs.lower) (hand_lt _ hs.upper)).mp hmod).symm
  intro hsame
  have hxylow : ∀ {x y}, Plain s x → Plain t y →
      ((2 ^ bits - 1 - x).toNat ||| (2 ^ bits - 1 - y).toNat) % 2 ^ lowZeros s t =
        (2 ^ bits - ((s.upperBound.toNat &&& t.upperBound.toNat) + 1)) % 2 ^ lowZeros s t := by
    intro x y hxs hyt
    rw [or_complement (plain_on hs hxs) (plain_on ht hyt)]
    refine (complement_mod_iff (hand_lt _ (plain_on hs hxs)) (hand_lt _ hs.upper)).mpr ?_
    rw [hsame, Nat.and_mod_two_pow, low_of_dvd hs hxs low_left, low_of_dvd ht hyt low_right, ← Nat.and_mod_two_pow]
  intro x hx y hy
  have hxs := plain_of_mem hs hsw' hx
  have hyt := plain_of_mem ht htw' hy
  have hrange := fun {q : StridedInterval bits} {z} (hq : q.WellFormed) (hz : Plain q z) =>
    show (2 ^ bits - 1 - q.upperBound).toNat ≤ (2 ^ bits - 1 - z).toNat ∧
        (2 ^ bits - 1 - z).toNat ≤ (2 ^ bits - 1 - q.lowerBound).toNat ∧
        (2 ^ bits - 1 - q.lowerBound).toNat < 2 ^ bits from
      ⟨Int.toNat_le_toNat (by have := hz.2.1; omega), Int.toNat_le_toNat (by have := hz.1; omega),
        toNat_lt (complement_on hq.lower)⟩
  obtain ⟨hlb, hub⟩ := h.between _ _ ⟨hrange hs hxs, hrange ht hyt⟩ ((hxylow hxs hyt).trans hlow.symm)
  refine ⟨r, hr, (hvalue (gamma_on hs hx) (gamma_on ht hy)).mpr ⟨hlb, hub, ?_⟩⟩
  have hstart := hxylow (plain_of_mem hs hsw' (lowerBound_mem hs hsb)) (plain_of_mem ht htw' (lowerBound_mem ht htb))
  obtain heq | hstride | ⟨huz, hother⟩ | ⟨hvz, hother⟩ := h.step
  · rw [show ((2 ^ bits - 1 - x).toNat ||| (2 ^ bits - 1 - y).toNat) = ub by omega, Int.sub_self]
    exact Int.dvd_zero _
  · rw [hstride]
    exact Nat.modEq_iff_dvd.mp ((hxylow hxs hyt).trans hupper.symm)
  · -- the integers of `s` are the greatest integer
    have hzero : 2 ^ bits - 1 - s.upperBound = 0 ∧ 2 ^ bits - 1 - s.lowerBound = 0 :=
      ⟨huz.2, (isInteger_iff.mp huz.1).symm.trans huz.2⟩
    rw [hzero.1, Int.toNat_zero, Nat.zero_mod, Nat.zero_or] at hlow
    rw [hzero.2, Int.toNat_zero, Nat.zero_or, ← hlow] at hstart
    rw [show 2 ^ bits - 1 - x = 0 by have := hxs.1; have := hxs.2.1; omega, Int.toNat_zero, Nat.zero_or]
    exact hother.dvd ht hstart hyt
  have hzero : 2 ^ bits - 1 - t.upperBound = 0 ∧ 2 ^ bits - 1 - t.lowerBound = 0 :=
    ⟨hvz.2, (isInteger_iff.mp hvz.1).symm.trans hvz.2⟩
  rw [hzero.1, Int.toNat_zero, Nat.zero_mod, Nat.or_zero] at hlow
  rw [hzero.2, Int.toNat_zero, Nat.or_zero, ← hlow] at hstart
  rw [show 2 ^ bits - 1 - y = 0 by have := hyt.1; have := hyt.2.1; omega, Int.toNat_zero, Nat.or_zero]
  exact hother.dvd hs hstart hxs

/-! ## Aligned intervals -/

/-- The pieces of an aligned interval end with integers of theirs. -/
theorem ssplit_aligned (hs : s.WellFormed) (haligned : Aligned s) {pieces : List (StridedInterval bits)}
    (h : s.ssplit = some pieces) : ∀ p ∈ pieces, Plain p p.upperBound := by
  by_cases hwraps : Wraps s
  · have hturn := turn hs hwraps
    obtain ⟨hi, lo, hsplit, hhi, hlo⟩ := ssplit_of_turn hs hturn rfl
    obtain ⟨hfirst, hdvd⟩ := hturn.of_aligned hs haligned
    have hrest := hturn.rest_lt
    have hub := hs.upper
    unfold On at hub
    rw [Int.emod_eq_of_lt (by omega) (by omega)] at hlo
    obtain rfl := Option.some.inj (hsplit.symm.trans h)
    intro p hp
    rcases List.mem_pair.mp hp with rfl | rfl
    · rw [hhi.plain_iff, hhi.upper]
      exact ⟨hturn.last, Int.le_refl _, hturn.dvd⟩
    · rw [hlo.plain_iff, hlo.upper]
      exact ⟨hfirst, Int.le_refl _, hdvd⟩
  · obtain rfl := Option.some.inj ((ssplit_of_not_wraps hwraps).symm.trans h)
    intro p hp
    obtain rfl := List.mem_singleton.mp hp
    have hle : p.lowerBound ≤ p.upperBound := Int.not_lt.mp hwraps
    unfold Aligned length at haligned
    rw [off_cases hs.lower hs.upper, if_pos hle] at haligned
    exact ⟨hle, Int.le_refl _, haligned⟩

/-- The disjunction of aligned intervals of which one does not wrap is aligned. -/
theorem bitwiseOr_aligned (hu : u.WellFormed) (hv : v.WellFormed) (hualigned : Aligned u) (hvaligned : Aligned v)
    (hwraps : ¬ (Wraps u ∧ Wraps v)) : ∃ d, u.bitwiseOr v = some d ∧ d.WellFormed ∧ Aligned d ∧
      ∀ x ∈ u.gamma, ∀ y ∈ v.gamma, ((x.toNat ||| y.toNat : Nat) : Int) ∈ d.gamma := by
  obtain ⟨us, hus, hupieces, hulength, huone⟩ := ssplit_pieces hu
  obtain ⟨vs, hvs, hvpieces, hvlength, hvone⟩ := ssplit_pieces hv
  have hlength : (orPieces us vs).length ≤ 2 := by
    rw [orPieces_length]
    rcases not_and_or.mp hwraps with huw | hvw
    · rw [huone huw, Nat.one_mul]
      exact hvlength
    · rw [hvone hvw, Nat.mul_one]
      exact hulength
  obtain ⟨r, hr, hrwf, hraligned, hsub⟩ := join_aligned (orPieces_ne_nil hupieces.nonempty hvpieces.nonempty) hlength (by
    intro m hm
    refine ⟨orPieces_wellFormed hupieces hvpieces hm, ?_⟩
    obtain ⟨u', hu', v', hv', rfl⟩ := mem_orPieces.mp hm
    exact orPiece_aligned (hupieces.wellFormed u' hu') (hvpieces.wellFormed v' hv') (ssplit_aligned hu hualigned hus u' hu')
      (ssplit_aligned hv hvaligned hvs v' hv'))
  refine ⟨_, bitwiseOr_eq hus hvs hr hrwf, wellFormed_normalizeTypes hrwf, aligned_normalizeTypes.mpr hraligned,
    fun x hx y hy => ?_⟩
  obtain ⟨m, hm, hxy⟩ := orPieces_cover hupieces hvpieces hx hy
  rw [gamma_normalizeTypes]
  exact hsub m hm hxy

/-- The conjunction is right for aligned intervals of which one does not wrap. -/
theorem andSound_of_aligned (hs : s.WellFormed) (ht : t.WellFormed) (hsaligned : Aligned s) (htaligned : Aligned t)
    (hwraps : ¬ (Wraps s ∧ Wraps t)) (hnots : s.testsSignBit = false) (hnott : t.testsSignBit = false) :
    AndSound s t := by
  obtain ⟨u, hu, hucomplement⟩ := bitwiseNot_of_aligned hs hsaligned
  obtain ⟨v, hv, hvcomplement⟩ := bitwiseNot_of_aligned ht htaligned
  have hplain : ∀ {q r : StridedInterval bits}, q.WellFormed → q.bitwiseNot = some r → ¬ Wraps q → ¬ Wraps r := by
    intro q r hq hr hqw
    obtain ⟨r', hr', -, hrw, -⟩ := bitwiseNot_plain hq hqw
    rwa [← Option.some.inj (hr'.symm.trans hr)]
  obtain ⟨d, hd, hdwf, hdaligned, hdmem⟩ := bitwiseOr_aligned hucomplement.wellFormed hvcomplement.wellFormed
    hucomplement.aligned hvcomplement.aligned fun ⟨huw, hvw⟩ =>
      hwraps ⟨by_contra fun hsw => hplain hs hu hsw huw, by_contra fun htw => hplain ht hv htw hvw⟩
  obtain ⟨r, hr, hrcomplement⟩ := bitwiseNot_of_aligned hdwf hdaligned
  intro x hx y hy
  refine ⟨_, bitwiseAnd_eq hnots hnott hu hv hd hr, ?_⟩
  have hmem := hrcomplement.mem _ (hdmem _ (hucomplement.mem x hx) _ (hvcomplement.mem y hy))
  rw [cast_or_complement (gamma_on hs hx) (gamma_on ht hy)] at hmem
  rw [gamma_normalizeTypes, normalize_eq hrcomplement.wellFormed]
  rwa [show (2 : Int) ^ bits - 1 - (2 ^ bits - 1 - (x.toNat &&& y.toNat : Nat)) = (x.toNat &&& y.toNat : Nat) by omega] at hmem

/-! ## Where the conjunction is right -/

instance : Decidable (Wraps s) := inferInstanceAs (Decidable (_ < _))

/-- One operand is empty, or the shortcut for the sign bit is right, or the upper bounds agree with the lower bounds. -/
def AndExact (s t : StridedInterval bits) : Prop :=
  s.isBottom = true ∨ t.isBottom = true ∨
    if s.testsSignBit then SignBitExact t
    else if t.testsSignBit then SignBitExact s
    else if Wraps s ∨ Wraps t then Aligned s ∧ Aligned t ∧ ¬ (Wraps s ∧ Wraps t)
    else SameLow s t

end Claripy.Vsa.StridedInterval
