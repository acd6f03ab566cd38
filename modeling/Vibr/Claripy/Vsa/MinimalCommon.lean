import Vibr.Claripy.Vsa.Diophantine
import Vibr.Claripy.Vsa.StridedInterval

/-!
# The first common integer

Intervals are split at the south pole, and the pieces are searched as intervals of plain integers: the first
common integer of two of them solves a linear equation. The pieces up to the largest integer come
first.
-/

namespace Claripy.Vsa.StridedInterval

open Arc

variable {bits : Nat} {a b s r si x y : StridedInterval bits} {z v : Int}

/-- The common integer where `si_0` is a single one. -/
def commonInteger (si0 si1 : StridedInterval bits) : Option (Option Int) :=
  if si1.isInteger then return if si0.lowerBound ≠ si1.lowerBound then none else some si0.lowerBound
  else if si0.lowerBound ≥ si1.lowerBound && si0.lowerBound ≤ si1.upperBound then do
    let rest ← strideMod (si0.lowerBound - si1.lowerBound) si1.stride
    return if rest = 0 then some si0.lowerBound else none
  else return none

def minimalCommonIntegerSplitted (si0 si1 : StridedInterval bits) : Option (Option Int) :=
  let a := si0.stride
  let c := si1.stride
  let b := si0.lowerBound
  let d := si1.lowerBound
  if si0.isInteger then commonInteger si0 si1
  else if si1.isInteger then commonInteger si1 si0
  else if si0.upperBound < si1.lowerBound || si1.upperBound < si0.lowerBound then return none
  else do
    let rest ← strideMod (d - b) (Nat.gcd a c)
    if rest ≠ 0 then return none
    else
      let (x, y) ← (← diopNaturalSolutionLinear (-(b - d)) a (-c))
      let firstInteger := x * a + b
      if firstInteger ≠ y * c + d then none
      else if si0.lowerBound ≤ firstInteger && firstInteger ≤ si0.upperBound && si1.lowerBound ≤ firstInteger &&
          firstInteger ≤ si1.upperBound then
        return some firstInteger
      else return none

def minimalCommonInteger (si0 si1 : StridedInterval bits) : Option (Option Int) := do
  let splitted0 ← si0.ssplit
  let splitted1 ← si1.ssplit
  match splitted0, splitted1 with
  | [hi, lo], [hi', lo'] =>
    let int0 ← minimalCommonIntegerSplitted hi hi'
    let int1 ← minimalCommonIntegerSplitted lo lo'
    return int0.or int1
  | [hi, lo], [piece] | [piece], [hi, lo] =>
    let int0 ← minimalCommonIntegerSplitted hi piece
    let int1 ← minimalCommonIntegerSplitted lo piece
    return int0.or int1
  | _, _ => minimalCommonIntegerSplitted si0 si1

/-! ## Plain intervals -/

/-- An integer of an interval that does not wrap. -/
def Plain (si : StridedInterval bits) (z : Int) : Prop :=
  si.lowerBound ≤ z ∧ z ≤ si.upperBound ∧ (si.stride : Int) ∣ z - si.lowerBound

/-- A stride of zero is that of an integer. -/
def Strided (si : StridedInterval bits) : Prop := si.stride = 0 ↔ si.lowerBound = si.upperBound

/-- The least integer of two plain intervals, or that there is none. -/
structure LeastCommon (x y : StridedInterval bits) (o : Option Int) : Prop where
  found : ∀ v, o = some v → (Plain x v ∧ Plain y v) ∧ ∀ z, Plain x z → Plain y z → v ≤ z
  missing : o = none → ∀ z, Plain x z → ¬ Plain y z

theorem LeastCommon.symm {o : Option Int} (h : LeastCommon x y o) : LeastCommon y x o where
  found := fun v hv => ⟨(h.found v hv).1.symm, fun z hy hx => (h.found v hv).2 z hx hy⟩
  missing := fun ho z hy hx => h.missing ho z hx hy

theorem plain_integer (hx : Strided x) (hint : x.isInteger = true) : Plain x z ↔ z = x.lowerBound := by
  have hub := isInteger_iff.mp hint
  have hzero : x.stride = 0 := hx.mpr hub
  unfold Plain
  rw [hzero, ← hub]
  constructor
  · rintro ⟨h1, h2, _⟩
    omega
  · rintro rfl
    exact ⟨Int.le_refl _, Int.le_refl _, by simp⟩

theorem leastCommon_found (hx : Strided x) (hint : x.isInteger = true) (h : Plain y x.lowerBound) :
    LeastCommon x y (some x.lowerBound) := by
  refine ⟨?_, nofun⟩
  rintro v ⟨⟩
  refine ⟨⟨(plain_integer hx hint).mpr rfl, h⟩, fun z hz _ => ?_⟩
  rw [(plain_integer hx hint).mp hz]

theorem leastCommon_missing (hx : Strided x) (hint : x.isInteger = true) (h : ¬ Plain y x.lowerBound) :
    LeastCommon x y none := by
  refine ⟨nofun, fun _ z hz hzy => h ?_⟩
  rwa [← (plain_integer hx hint).mp hz]

theorem commonInteger_spec (hx : Strided x) (hy : Strided y) (hint : x.isInteger = true) :
    ∃ o, commonInteger x y = some o ∧ LeastCommon x y o := by
  unfold commonInteger
  split
  · next hint' =>
      refine ⟨_, rfl, ?_⟩
      split
      · next hne => exact leastCommon_missing hx hint (fun h => hne ((plain_integer hy hint').mp h))
      · next heq => exact leastCommon_found hx hint ((plain_integer hy hint').mpr (Decidable.of_not_not heq))
  next hint' =>
    have hpos : y.stride ≠ 0 := fun h => hint' (isInteger_iff.mpr (hy.mp h))
    split
    · next hbounds =>
        simp only [ge_iff_le, Bool.and_eq_true, decide_eq_true_eq] at hbounds
        unfold strideMod
        rw [if_neg hpos]
        refine ⟨_, rfl, ?_⟩
        split
        · next hdvd =>
            exact leastCommon_found hx hint ⟨hbounds.1, hbounds.2, Int.dvd_of_emod_eq_zero hdvd⟩
        · next hdvd =>
            exact leastCommon_missing hx hint (fun h => hdvd (Int.emod_eq_zero_of_dvd h.2.2))
    · next hbounds =>
        simp only [ge_iff_le, Bool.and_eq_true, decide_eq_true_eq] at hbounds
        exact ⟨_, rfl, leastCommon_missing hx hint (fun h => hbounds ⟨h.1, h.2.1⟩)⟩

theorem quotient_nonneg {step d k : Int} (hstep : 0 < step) (hd : 0 ≤ d) (h : d = step * k) : 0 ≤ k := by
  by_contra hneg
  have := Int.mul_neg_of_pos_of_neg hstep (Int.not_le.mp hneg)
  omega

/-- From the first solution of the equation to the least common integer. -/
theorem firstInteger_spec {k l : Int} (hxpos : (0 : Int) < x.stride) (hypos : (0 : Int) < y.stride)
    (h : FirstSolution (y.lowerBound - x.lowerBound) x.stride y.stride k l) :
    ∃ o, (if k * x.stride + x.lowerBound ≠ l * y.stride + y.lowerBound then none
      else if x.lowerBound ≤ k * x.stride + x.lowerBound && k * x.stride + x.lowerBound ≤ x.upperBound &&
          y.lowerBound ≤ k * x.stride + x.lowerBound && k * x.stride + x.lowerBound ≤ y.upperBound then
        pure (some (k * x.stride + x.lowerBound))
      else pure none) = some o ∧ LeastCommon x y o := by
  obtain ⟨hsol, hk, hl, hfirst⟩ := h
  have heq : k * x.stride + x.lowerBound = l * y.stride + y.lowerBound := by linarith
  have hk' := Int.mul_nonneg hk (Int.le_of_lt hxpos)
  have hl' := Int.mul_nonneg hl (Int.le_of_lt hypos)
  have hleast : ∀ z, Plain x z → Plain y z → k * x.stride + x.lowerBound ≤ z := by
    intro z hzx hzy
    obtain ⟨i, hi⟩ := hzx.2.2
    obtain ⟨j, hj⟩ := hzy.2.2
    have hle := hfirst i j (by linarith) (quotient_nonneg hxpos (by have := hzx.1; omega) hi)
      (quotient_nonneg hypos (by have := hzy.1; omega) hj)
    have := Int.mul_le_mul_of_nonneg_right hle (Int.le_of_lt hxpos)
    linarith
  rw [if_neg (not_not.mpr heq)]
  split
  · next hbounds =>
      simp only [Bool.and_eq_true, decide_eq_true_eq] at hbounds
      obtain ⟨⟨⟨hxl, hxu⟩, hyl⟩, hyu⟩ := hbounds
      refine ⟨_, rfl, ?_, nofun⟩
      rintro v ⟨⟩
      refine ⟨⟨⟨hxl, hxu, ?_⟩, ⟨hyl, hyu, ?_⟩⟩, hleast⟩
      · exact ⟨k, by linarith⟩
      · exact ⟨l, by linarith⟩
  next hbounds =>
    simp only [Bool.and_eq_true, decide_eq_true_eq, not_and] at hbounds
    refine ⟨none, rfl, nofun, fun _ z hzx hzy => ?_⟩
    have hle := hleast z hzx hzy
    have hxu := hzx.2.1
    have hyu := hzy.2.1
    exact hbounds ⟨⟨by omega, by omega⟩, by omega⟩ (by omega)

/-- The first common integer is the one of the first solution, if that is not beyond an upper bound. -/
theorem minimalCommonIntegerSplitted_spec (hx : Strided x) (hy : Strided y) :
    ∃ o, minimalCommonIntegerSplitted x y = some o ∧ LeastCommon x y o := by
  unfold minimalCommonIntegerSplitted
  dsimp only
  split
  · next hint => exact commonInteger_spec hx hy hint
  next hxint =>
    split
    · next hint =>
        obtain ⟨o, ho, hleast⟩ := commonInteger_spec hy hx hint
        exact ⟨o, ho, hleast.symm⟩
    next hyint =>
      have hxpos : x.stride ≠ 0 := fun h => hxint (isInteger_iff.mpr (hx.mp h))
      have hypos : y.stride ≠ 0 := fun h => hyint (isInteger_iff.mpr (hy.mp h))
      split
      · next hapart =>
          simp only [Bool.or_eq_true, decide_eq_true_eq] at hapart
          refine ⟨none, rfl, nofun, fun _ z hzx hzy => ?_⟩
          have := hzx.1
          have := hzx.2.1
          have := hzy.1
          have := hzy.2.1
          omega
      unfold strideMod
      rw [if_neg (fun h => hxpos (Nat.gcd_eq_zero_iff.mp h).1)]
      have hgcd : (Nat.gcd x.stride y.stride : Int) = Int.gcd x.stride y.stride := by rw [Int.gcd_natCast_natCast]
      have hcommon : ∀ z, Plain x z → Plain y z →
          (Nat.gcd x.stride y.stride : Int) ∣ y.lowerBound - x.lowerBound := by
        intro z hzx hzy
        have hx' := Int.dvd_trans (Int.natCast_dvd_natCast.mpr (Nat.gcd_dvd_left x.stride y.stride)) hzx.2.2
        have hy' := Int.dvd_trans (Int.natCast_dvd_natCast.mpr (Nat.gcd_dvd_right x.stride y.stride)) hzy.2.2
        have := Int.dvd_sub hx' hy'
        rwa [show z - x.lowerBound - (z - y.lowerBound) = y.lowerBound - x.lowerBound by omega] at this
      simp only [Option.bind_eq_bind, Option.bind_some]
      by_cases hrest : (y.lowerBound - x.lowerBound) % (Nat.gcd x.stride y.stride : Int) = 0
      · rw [if_neg (not_not.mpr hrest)]
        have hdvd := Int.dvd_of_emod_eq_zero hrest
        rw [hgcd] at hdvd
        obtain ⟨k, l, hsol, hfirst⟩ := diopNaturalSolutionLinear_spec (a := x.stride) (e := y.stride)
          (by omega) (by omega) hdvd
        rw [show -(x.lowerBound - y.lowerBound) = y.lowerBound - x.lowerBound by omega, hsol]
        simp only [Option.bind_some]
        exact firstInteger_spec (by omega) (by omega) hfirst
      · rw [if_pos hrest]
        exact ⟨none, rfl, nofun, fun _ z hzx hzy => hrest (Int.emod_eq_zero_of_dvd (hcommon z hzx hzy))⟩

/-! ## Splitting -/

theorem WellFormed.strided (h : s.WellFormed) (hb : s.isBottom = false) : Strided s := h.stride hb

/-- An interval goes past the largest integer. -/
def Wraps (s : StridedInterval bits) : Prop := s.upperBound < s.lowerBound

theorem ssplit_of_not_wraps (h : ¬ Wraps s) : s.ssplit = some [s] := if_neg h

/-- The integers of an interval that does not wrap. -/
theorem plain_iff (hs : s.WellFormed) (hb : s.isBottom = false) (h : ¬ Wraps s) : Plain s z ↔ z ∈ s.gamma := by
  rw [mem_gamma hs hb, off_cases hs.lower hs.upper, if_pos (Int.not_lt.mp h)]
  have hlb := hs.lower
  have hub := hs.upper
  unfold On at hlb hub
  constructor
  · rintro ⟨h1, h2, hdvd⟩
    have hz : On (2 ^ bits) z := ⟨by omega, by omega⟩
    rw [off_cases hs.lower hz, if_pos h1]
    exact ⟨hz, by omega, hdvd⟩
  rintro ⟨hz, hle, hdvd⟩
  rw [off_cases hs.lower hz] at hle hdvd
  unfold On at hz
  unfold Wraps at h
  split at hle
  · rw [if_pos ‹_›] at hdvd
    exact ⟨‹_›, by omega, hdvd⟩
  · omega

theorem plain_new {stride : Nat} {l u : Int} {uninit : Bool} (hl : On (2 ^ bits) l) (hu : On (2 ^ bits) u)
    (hnot : stride = 1 → l ≠ (u + 1) % 2 ^ bits) :
    Plain (new stride l u uninit : StridedInterval bits) z ↔ l ≤ z ∧ z ≤ u ∧ (stride : Int) ∣ z - l := by
  have hl' := emod_of_on hl
  have hu' := emod_of_on hu
  obtain ⟨heq, h⟩ | ⟨_, ⟨hmeet, hone⟩, _⟩ | ⟨_, _, h⟩ := @new_cases bits stride l u uninit
  · rw [hl', hu'] at heq h
    rw [h, heq]
    unfold Plain
    dsimp only
    constructor
    · rintro ⟨h1, h2, _⟩
      exact ⟨h1, h2, by rw [show z - u = 0 by omega]; exact Int.dvd_zero _⟩
    · rintro ⟨h1, h2, _⟩
      exact ⟨h1, h2, by rw [show z - u = 0 by omega]; exact Int.dvd_zero _⟩
  · rw [hl', hu'] at hmeet
    exact absurd hmeet (hnot hone)
  · rw [h, hl', hu']
    rfl

/-- The distance from the last multiple of `step` to `d`. -/
theorem rest_spec {step d : Int} (hstep : 0 < step) (hd : 0 ≤ d) :
    0 ≤ d % step ∧ d % step < step ∧ d % step ≤ d ∧ step ∣ d - d % step := by
  refine ⟨Int.emod_nonneg _ (by omega), Int.emod_lt_of_pos _ hstep, ?_, Int.dvd_self_sub_emod⟩
  rcases Int.lt_or_le d step with hlt | hge
  · rw [Int.emod_eq_of_lt hd hlt]
  · have := Int.emod_lt_of_pos d hstep
    omega

theorem multiple_pos {step d : Int} (hd : -step < d) (h : step ∣ d) : 0 ≤ d := by
  by_contra hneg
  have := Int.le_of_dvd (by omega) ((Int.dvd_neg).mpr h)
  omega

section Pieces

variable {rest : Int}

/-- The piece up to the largest integer, whose last integer is at a distance of `rest` to it. -/
theorem plain_upper (hs : s.WellFormed) (hb : s.isBottom = false) (h : Wraps s)
    (hrest : 0 ≤ rest ∧ rest < s.stride ∧ rest ≤ 2 ^ bits - 1 - s.lowerBound ∧
      (s.stride : Int) ∣ 2 ^ bits - 1 - s.lowerBound - rest) :
    Plain (new s.stride s.lowerBound (2 ^ bits - 1 - rest) s.uninitialized : StridedInterval bits) z ↔
      z ∈ s.gamma ∧ s.lowerBound ≤ z := by
  obtain ⟨hrest0, hrestlt, hrestle, hrestdvd⟩ := hrest
  have hlb := hs.lower
  have hub := hs.upper
  unfold On at hlb hub
  unfold Wraps at h
  have hnot : s.stride = 1 → s.lowerBound ≠ (2 ^ bits - 1 - rest + 1) % 2 ^ bits := by
    intro hone
    rw [show (2 ^ bits - 1 - rest + 1 : Int) = 2 ^ bits by omega, Int.emod_self]
    omega
  rw [plain_new hs.lower ⟨by omega, by omega⟩ hnot, mem_gamma hs hb, off_cases hs.lower hs.upper,
    if_neg (Int.not_le.mpr h)]
  constructor
  · rintro ⟨h1, h2, hdvd⟩
    have hz : On (2 ^ bits) z := ⟨by omega, by omega⟩
    rw [off_cases hs.lower hz, if_pos h1]
    exact ⟨⟨hz, by omega, hdvd⟩, h1⟩
  rintro ⟨⟨hz, _, hdvd⟩, h1⟩
  rw [off_cases hs.lower hz, if_pos h1] at hdvd
  have hlast := Int.dvd_sub hrestdvd hdvd
  unfold On at hz
  have := multiple_pos (by omega) hlast
  exact ⟨h1, by omega, hdvd⟩

/-- The piece from zero on, which starts at the first integer after the largest one. -/
theorem plain_lower (hs : s.WellFormed) (hb : s.isBottom = false) (h : Wraps s)
    (hrest : 0 ≤ rest ∧ rest < s.stride ∧ rest ≤ 2 ^ bits - 1 - s.lowerBound ∧
      (s.stride : Int) ∣ 2 ^ bits - 1 - s.lowerBound - rest) (hz : z ∈ s.gamma) (hlow : z < s.lowerBound) :
    let lo : StridedInterval bits :=
      new s.stride ((2 ^ bits - 1 - rest + s.stride) % 2 ^ bits) s.upperBound s.uninitialized
    Plain lo z ∧ ∀ v, Plain lo v → v ∈ s.gamma ∧ v < s.lowerBound := by
  obtain ⟨hrest0, hrestlt, hrestle, hrestdvd⟩ := hrest
  have hlb := hs.lower
  have hub := hs.upper
  unfold On at hlb hub
  unfold Wraps at h
  intro lo
  obtain ⟨hon, hle, hdvd⟩ := (mem_gamma hs hb).mp hz
  have hwrap : off (2 ^ bits) s.lowerBound s.upperBound = s.upperBound - s.lowerBound + 2 ^ bits := by
    rw [off_cases hs.lower hs.upper, if_neg (Int.not_le.mpr h)]
  rw [hwrap, off_cases hs.lower hon, if_neg (Int.not_le.mpr hlow)] at hle
  rw [off_cases hs.lower hon, if_neg (Int.not_le.mpr hlow)] at hdvd
  -- where the piece starts
  obtain ⟨start, hstart⟩ : ∃ start, start = s.stride - 1 - rest := ⟨_, rfl⟩
  have hphase : (s.stride : Int) ∣ z - start := by
    have hsum := Int.dvd_sub (Int.dvd_sub hdvd hrestdvd) (Int.dvd_refl (s.stride : Int))
    rwa [show z - s.lowerBound + 2 ^ bits - (2 ^ bits - 1 - s.lowerBound - rest) - s.stride = z - start by omega]
      at hsum
  unfold On at hon
  have hstartz := multiple_pos (by omega) hphase
  have hmod : (2 ^ bits - 1 - rest + s.stride : Int) % 2 ^ bits = start := by
    rw [show (2 ^ bits - 1 - rest + s.stride : Int) = start + 2 ^ bits by omega, Int.add_emod_right]
    exact Int.emod_eq_of_lt (by omega) (by omega)
  have hnot : s.stride = 1 → start ≠ (s.upperBound + 1) % 2 ^ bits := by
    intro hone
    rw [Int.emod_eq_of_lt (by omega) (by omega)]
    omega
  have hplain : ∀ v, Plain lo v ↔ start ≤ v ∧ v ≤ s.upperBound ∧ (s.stride : Int) ∣ v - start := by
    intro v
    show Plain (new _ _ _ _) v ↔ _
    rw [hmod]
    exact plain_new ⟨by omega, by omega⟩ hs.upper hnot
  refine ⟨(hplain z).mpr ⟨by omega, by omega, hphase⟩, fun v hv => ?_⟩
  obtain ⟨h1, h2, hvdvd⟩ := (hplain v).mp hv
  have hv : On (2 ^ bits) v := ⟨by omega, by omega⟩
  refine ⟨(mem_gamma hs hb).mpr ⟨hv, ?_, ?_⟩, by omega⟩
  · rw [hwrap, off_cases hs.lower hv, if_neg (by omega)]
    omega
  rw [off_cases hs.lower hv, if_neg (by omega)]
  have hsum := Int.dvd_add (Int.dvd_add hvdvd hrestdvd) (Int.dvd_refl (s.stride : Int))
  rwa [show v - start + (2 ^ bits - 1 - s.lowerBound - rest) + s.stride = v - s.lowerBound + 2 ^ bits by omega]
    at hsum

end Pieces

/-- The two pieces of an interval that wraps. The second one is right only if there is an integer of the
interval below its lower bound. -/
theorem ssplit_of_wraps (hs : s.WellFormed) (hb : s.isBottom = false) (h : Wraps s) :
    ∃ hi lo, s.ssplit = some [hi, lo] ∧ Strided hi ∧ Strided lo ∧
      (∀ z, Plain hi z ↔ z ∈ s.gamma ∧ s.lowerBound ≤ z) ∧
      ∀ z ∈ s.gamma, z < s.lowerBound → Plain lo z ∧ ∀ v, Plain lo v → v ∈ s.gamma ∧ v < s.lowerBound := by
  have hlb := hs.lower
  unfold On at hlb
  have hstride : s.stride ≠ 0 := by
    intro h0
    have := (hs.stride hb).mp h0
    unfold Wraps at h
    omega
  have hrest := @rest_spec s.stride (2 ^ bits - 1 - s.lowerBound) (by omega) (by omega)
  have hstrided : ∀ l u uninit, Strided (new s.stride l u uninit : StridedInterval bits) := fun l u uninit =>
    (new_wellFormed (fun h0 => absurd h0 hstride)).strided new_isBottom
  have hsplit : s.ssplit = some
      [new s.stride s.lowerBound (2 ^ bits - 1 - (2 ^ bits - 1 - s.lowerBound) % s.stride) s.uninitialized,
        new s.stride ((2 ^ bits - 1 - (2 ^ bits - 1 - s.lowerBound) % s.stride + s.stride) % 2 ^ bits) s.upperBound
          s.uninitialized] := by
    unfold ssplit strideMod
    dsimp only
    rw [if_pos (show s.upperBound < s.lowerBound from h), if_neg hstride]
    rfl
  exact ⟨_, _, hsplit, hstrided _ _ _, hstrided _ _ _, fun z => plain_upper hs hb h hrest,
    fun z hz hlow => plain_lower hs hb h hrest hz hlow⟩

/-! ## The pieces together -/

section Or

variable {hi lo hi' lo' : StridedInterval bits} {o₀ o₁ : Option Int}

/-- An integer of the first pieces is found first. -/
theorem or_first (h₀ : LeastCommon hi hi' o₀) (h₁ : LeastCommon lo lo' o₁)
    (hz : Plain hi z ∧ Plain hi' z ∨ Plain lo z ∧ Plain lo' z) :
    ∃ v, o₀.or o₁ = some v ∧ ((Plain hi v ∧ Plain hi' v) ∧ (Plain hi z → Plain hi' z → v ≤ z) ∨
      ¬ (Plain hi z ∧ Plain hi' z) ∧ (Plain lo v ∧ Plain lo' v) ∧ v ≤ z) := by
  cases o₀ with
  | some v =>
    obtain ⟨hv, hle⟩ := h₀.found v rfl
    exact ⟨v, rfl, .inl ⟨hv, hle z⟩⟩
  | none =>
    have hnot : ¬ (Plain hi z ∧ Plain hi' z) := fun h => h₀.missing rfl z h.1 h.2
    have hlow := hz.resolve_left hnot
    cases o₁ with
    | some v =>
      obtain ⟨hv, hle⟩ := h₁.found v rfl
      exact ⟨v, rfl, .inr ⟨hnot, hv, hle z hlow.1 hlow.2⟩⟩
    | none => exact absurd hlow.2 (h₁.missing rfl z hlow.1)

end Or

/-- `v` is not after `z` on the way up from the lower bound of `s`. -/
def NotAfter (s : StridedInterval bits) (v z : Int) : Prop :=
  off (2 ^ bits) s.lowerBound v ≤ off (2 ^ bits) s.lowerBound z

theorem notAfter_of (hs : s.WellFormed) (hv : On (2 ^ bits) v) (hz : On (2 ^ bits) z)
    (h : s.lowerBound ≤ v ∧ (s.lowerBound ≤ z → v ≤ z) ∨ v < s.lowerBound ∧ z < s.lowerBound ∧ v ≤ z) :
    NotAfter s v z := by
  have hlb := hs.lower
  unfold NotAfter
  rw [off_cases hs.lower hv, off_cases hs.lower hz]
  unfold On at hv hz hlb
  split <;> split <;> omega

/-- What is found if there is a common integer. -/
structure FirstCommon (x y : StridedInterval bits) (v z : Int) : Prop where
  left : v ∈ x.gamma
  right : v ∈ y.gamma
  before_left : Wraps x ∨ ¬ Wraps y → NotAfter x v z
  before_right : Wraps y ∨ ¬ Wraps x → NotAfter y v z

theorem FirstCommon.symm (h : FirstCommon x y v z) : FirstCommon y x v z :=
  ⟨h.right, h.left, h.before_right, h.before_left⟩

theorem minimalCommonInteger_plain (hx : x.WellFormed) (hxb : x.isBottom = false) (hy : y.WellFormed)
    (hyb : y.isBottom = false) (hxw : ¬ Wraps x) (hyw : ¬ Wraps y) :
    ∃ o, minimalCommonInteger x y = some o ∧ ∀ z ∈ x.gamma, z ∈ y.gamma → ∃ v, o = some v ∧ FirstCommon x y v z := by
  obtain ⟨o, ho, hleast⟩ := minimalCommonIntegerSplitted_spec (hx.strided hxb) (hy.strided hyb)
  refine ⟨o, ?_, fun z hzx hzy => ?_⟩
  · unfold minimalCommonInteger
    rw [ssplit_of_not_wraps hxw, ssplit_of_not_wraps hyw]
    exact ho
  have hzx' := (plain_iff hx hxb hxw).mpr hzx
  have hzy' := (plain_iff hy hyb hyw).mpr hzy
  cases o with
  | none => exact absurd hzy' (hleast.missing rfl z hzx')
  | some v =>
    obtain ⟨⟨hvx, hvy⟩, hle⟩ := hleast.found v rfl
    have hvx' := (plain_iff hx hxb hxw).mp hvx
    have hvy' := (plain_iff hy hyb hyw).mp hvy
    have hz := gamma_on hx hzx
    have hv := gamma_on hx hvx'
    exact ⟨v, rfl, hvx', hvy',
      fun _ => notAfter_of hx hv hz (.inl ⟨hvx.1, fun _ => hle z hzx' hzy'⟩),
      fun _ => notAfter_of hy hv hz (.inl ⟨hvy.1, fun _ => hle z hzx' hzy'⟩)⟩

/-- Two pieces and a single one. -/
theorem pieces_spec (hx : x.WellFormed) (hy : y.WellFormed) (hyb : y.isBottom = false) (hxb : x.isBottom = false)
    (hxw : Wraps x) (hyw : ¬ Wraps y) :
    ∃ hi lo o₀ o₁, x.ssplit = some [hi, lo] ∧ minimalCommonIntegerSplitted hi y = some o₀ ∧
      minimalCommonIntegerSplitted lo y = some o₁ ∧
      ∀ z ∈ x.gamma, z ∈ y.gamma → ∃ v, o₀.or o₁ = some v ∧ FirstCommon x y v z := by
  obtain ⟨hi, lo, hsplit, hhi, hlo, hupper, hlower⟩ := ssplit_of_wraps hx hxb hxw
  obtain ⟨o₀, ho₀, h₀⟩ := minimalCommonIntegerSplitted_spec hhi (hy.strided hyb)
  obtain ⟨o₁, ho₁, h₁⟩ := minimalCommonIntegerSplitted_spec hlo (hy.strided hyb)
  refine ⟨hi, lo, o₀, o₁, hsplit, ho₀, ho₁, fun z hzx hzy => ?_⟩
  have hzy' := (plain_iff hy hyb hyw).mpr hzy
  have hz := gamma_on hx hzx
  have hor : Plain hi z ∧ Plain y z ∨ Plain lo z ∧ Plain y z := by
    rcases Int.lt_or_le z x.lowerBound with hlow | hhigh
    · exact .inr ⟨(hlower z hzx hlow).1, hzy'⟩
    · exact .inl ⟨(hupper z).mpr ⟨hzx, hhigh⟩, hzy'⟩
  have hright : Wraps y ∨ ¬ Wraps x → ∀ v, NotAfter y v z := fun h => (h.elim hyw (absurd hxw)).elim
  obtain ⟨v, hv, ⟨⟨hvhi, hvy⟩, hle⟩ | ⟨hnot, ⟨hvlo, hvy⟩, hle⟩⟩ := or_first h₀ h₁ hor
  · obtain ⟨hvx, hvhigh⟩ := (hupper v).mp hvhi
    refine ⟨v, hv, hvx, (plain_iff hy hyb hyw).mp hvy, fun _ => ?_, fun h => hright h v⟩
    refine notAfter_of hx (gamma_on hx hvx) hz (.inl ⟨hvhigh, fun hhigh => ?_⟩)
    exact hle ((hupper z).mpr ⟨hzx, hhigh⟩) hzy'
  have hlow : z < x.lowerBound := by
    by_contra hhigh
    exact hnot ⟨(hupper z).mpr ⟨hzx, Int.not_lt.mp hhigh⟩, hzy'⟩
  obtain ⟨hvx, hvlow⟩ := (hlower z hzx hlow).2 v hvlo
  refine ⟨v, hv, hvx, (plain_iff hy hyb hyw).mp hvy, fun _ => ?_, fun h => hright h v⟩
  exact notAfter_of hx (gamma_on hx hvx) hz (.inr ⟨hvlow, hlow, hle⟩)

/-- Two pieces each. No common integer may be in the first piece of the one and in the second piece of the
other one. -/
theorem minimalCommonInteger_wraps (hx : x.WellFormed) (hxb : x.isBottom = false) (hy : y.WellFormed)
    (hyb : y.isBottom = false) (hxw : Wraps x) (hyw : Wraps y)
    (hcross : ∀ z ∈ x.gamma, z ∈ y.gamma → (x.lowerBound ≤ z ↔ y.lowerBound ≤ z)) :
    ∃ o, minimalCommonInteger x y = some o ∧ ∀ z ∈ x.gamma, z ∈ y.gamma → ∃ v, o = some v ∧ FirstCommon x y v z := by
  obtain ⟨hi, lo, hsplit, hhi, hlo, hupper, hlower⟩ := ssplit_of_wraps hx hxb hxw
  obtain ⟨hi', lo', hsplit', hhi', hlo', hupper', hlower'⟩ := ssplit_of_wraps hy hyb hyw
  obtain ⟨o₀, ho₀, h₀⟩ := minimalCommonIntegerSplitted_spec hhi hhi'
  obtain ⟨o₁, ho₁, h₁⟩ := minimalCommonIntegerSplitted_spec hlo hlo'
  refine ⟨o₀.or o₁, ?_, fun z hzx hzy => ?_⟩
  · unfold minimalCommonInteger
    rw [hsplit, hsplit']
    simp only [Option.bind_eq_bind, Option.bind_some, ho₀, ho₁]
    rfl
  have hz := gamma_on hx hzx
  have hor : Plain hi z ∧ Plain hi' z ∨ Plain lo z ∧ Plain lo' z := by
    rcases Int.lt_or_le z x.lowerBound with hlow | hhigh
    · have hlow' : z < y.lowerBound := by
        have := hcross z hzx hzy
        omega
      exact .inr ⟨(hlower z hzx hlow).1, (hlower' z hzy hlow').1⟩
    · exact .inl ⟨(hupper z).mpr ⟨hzx, hhigh⟩, (hupper' z).mpr ⟨hzy, (hcross z hzx hzy).mp hhigh⟩⟩
  obtain ⟨v, hv, ⟨⟨hvhi, hvhi'⟩, hle⟩ | ⟨hnot, ⟨hvlo, hvlo'⟩, hle⟩⟩ := or_first h₀ h₁ hor
  · obtain ⟨hvx, hvhigh⟩ := (hupper v).mp hvhi
    obtain ⟨hvy, hvhigh'⟩ := (hupper' v).mp hvhi'
    have hle' : x.lowerBound ≤ z → v ≤ z := fun hhigh =>
      hle ((hupper z).mpr ⟨hzx, hhigh⟩) ((hupper' z).mpr ⟨hzy, (hcross z hzx hzy).mp hhigh⟩)
    have hv' := gamma_on hx hvx
    exact ⟨v, hv, hvx, hvy, fun _ => notAfter_of hx hv' hz (.inl ⟨hvhigh, hle'⟩),
      fun _ => notAfter_of hy hv' hz (.inl ⟨hvhigh', fun h => hle' ((hcross z hzx hzy).mpr h)⟩)⟩
  have hlow : z < x.lowerBound := by
    by_contra hhigh
    have hhigh' := Int.not_lt.mp hhigh
    exact hnot ⟨(hupper z).mpr ⟨hzx, hhigh'⟩, (hupper' z).mpr ⟨hzy, (hcross z hzx hzy).mp hhigh'⟩⟩
  have hlow' : z < y.lowerBound := by
    have := hcross z hzx hzy
    omega
  obtain ⟨hvx, hvlow⟩ := (hlower z hzx hlow).2 v hvlo
  obtain ⟨hvy, hvlow'⟩ := (hlower' z hzy hlow').2 v hvlo'
  have hv' := gamma_on hx hvx
  exact ⟨v, hv, hvx, hvy, fun _ => notAfter_of hx hv' hz (.inr ⟨hvlow, hlow, hle⟩),
    fun _ => notAfter_of hy hv' hz (.inr ⟨hvlow', hlow', hle⟩)⟩

/-- The first common integer is found, if the pieces are searched in one order. -/
theorem minimalCommonInteger_spec (hx : x.WellFormed) (hxb : x.isBottom = false) (hy : y.WellFormed)
    (hyb : y.isBottom = false)
    (hcross : Wraps x → Wraps y → ∀ z ∈ x.gamma, z ∈ y.gamma → (x.lowerBound ≤ z ↔ y.lowerBound ≤ z)) :
    ∃ o, minimalCommonInteger x y = some o ∧ ∀ z ∈ x.gamma, z ∈ y.gamma → ∃ v, o = some v ∧ FirstCommon x y v z := by
  by_cases hxw : Wraps x <;> by_cases hyw : Wraps y
  · exact minimalCommonInteger_wraps hx hxb hy hyb hxw hyw (hcross hxw hyw)
  · obtain ⟨hi, lo, o₀, o₁, hsplit, ho₀, ho₁, h⟩ := pieces_spec hx hy hyb hxb hxw hyw
    refine ⟨o₀.or o₁, ?_, h⟩
    unfold minimalCommonInteger
    rw [hsplit, ssplit_of_not_wraps hyw]
    simp only [Option.bind_eq_bind, Option.bind_some, ho₀, ho₁]
    rfl
  · obtain ⟨hi, lo, o₀, o₁, hsplit, ho₀, ho₁, h⟩ := pieces_spec hy hx hxb hyb hyw hxw
    refine ⟨o₀.or o₁, ?_, fun z hzx hzy => ?_⟩
    · unfold minimalCommonInteger
      rw [hsplit, ssplit_of_not_wraps hxw]
      simp only [Option.bind_eq_bind, Option.bind_some, ho₀, ho₁]
      rfl
    · obtain ⟨v, hv, hfirst⟩ := h z hzy hzx
      exact ⟨v, hv, hfirst.symm⟩
  · exact minimalCommonInteger_plain hx hxb hy hyb hxw hyw

end Claripy.Vsa.StridedInterval
