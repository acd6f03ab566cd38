import Vibr.Claripy.Vsa.Comparison

/-!
# Signed comparisons

An interval is split at the north pole, between the largest and the least signed integer. One that
starts below zero and goes on past the north pole is split at a wrong phase unless its stride divides the
number of integers of the width.
-/

namespace Claripy.Vsa

def signedMaxInt (k : Nat) : Int := 2 ^ (k - 1) - 1

def isMsbZero (v : Int) (bits : Nat) : Bool := v % 2 ^ bits < 2 ^ (bits - 1)

def unsignedToSigned (v : Int) (bits : Nat) : Int := if isMsbZero v bits then v else -(2 ^ bits - v)

namespace StridedInterval

open Arc

variable {bits : Nat} {a b s : StridedInterval bits} {x y : Int}

/-- Whether the interval goes over the north pole. -/
def straddling (si : StridedInterval bits) : Bool :=
  let northPoleLeft := maxInt (bits - 1)
  let northPoleRight : Int := 2 ^ (bits - 1)
  if si.upperBound ≥ northPoleRight then si.lowerBound > si.upperBound || si.lowerBound ≤ northPoleLeft
  else si.lowerBound > si.upperBound && si.lowerBound ≤ northPoleLeft

/-- Split at the north pole. -/
def nsplit (si : StridedInterval bits) : Option (List (StridedInterval bits)) :=
  let northPoleLeft := maxInt (bits - 1)
  if si.straddling then do
    let rest ← strideMod (northPoleLeft - si.lowerBound) si.stride
    let aUpperBound := northPoleLeft - rest
    let a := new si.stride si.lowerBound aUpperBound si.uninitialized
    let bLowerBound := aUpperBound + si.stride
    let b := new si.stride bLowerBound si.upperBound si.uninitialized
    return [a, b]
  else return [si]

def signedBounds (si : StridedInterval bits) : Option (List (Int × Int)) := do
  match ← si.nsplit with
  | [piece] => return [(unsignedToSigned piece.lowerBound bits, unsignedToSigned piece.upperBound bits)]
  | [left, right] =>
    return [(left.lowerBound, left.upperBound),
      (unsignedToSigned right.lowerBound bits, unsignedToSigned right.upperBound bits)]
  | _ => none

def compareSigned (definitely never : Int × Int → Int × Int → Bool) (self o : StridedInterval bits) :
    Option BoolResult := do
  let signedBounds1 ← self.signedBounds
  let signedBounds2 ← o.signedBounds
  let ret := signedBounds1.flatMap fun p => signedBounds2.map fun q => compareBounds definitely never p q
  if ret.all (· = .TrueResult) then return .TrueResult
  else if ret.all (· = .FalseResult) then return .FalseResult
  else return .MaybeResult

def SLT (self o : StridedInterval bits) : Option BoolResult :=
  compareSigned (fun (_, ub1) (lb2, _) => ub1 < lb2) (fun (lb1, _) (_, ub2) => lb1 ≥ ub2) self o

def SLE (self o : StridedInterval bits) : Option BoolResult :=
  compareSigned (fun (_, ub1) (lb2, _) => ub1 ≤ lb2) (fun (lb1, _) (_, ub2) => lb1 > ub2) self o

def SGT (self o : StridedInterval bits) : Option BoolResult :=
  compareSigned (fun (lb1, _) (_, ub2) => lb1 > ub2) (fun (_, ub1) (lb2, _) => ub1 ≤ lb2) self o

def SGE (self o : StridedInterval bits) : Option BoolResult :=
  compareSigned (fun (lb1, _) (_, ub2) => lb1 ≥ ub2) (fun (_, ub1) (lb2, _) => ub1 < lb2) self o

/-! ## The split at the north pole -/

/-- The signed value of an integer of the width. -/
def signed (bits : Nat) (x : Int) : Int := if x < 2 ^ (bits - 1) then x else x - 2 ^ bits

/-- An interval that starts below zero and goes on past the north pole is split at the right phase, or at one that
loses none of its least and greatest integers. -/
def SplitsRight (s : StridedInterval bits) : Prop :=
  s.upperBound < s.lowerBound → 2 ^ (bits - 1) ≤ s.upperBound →
    let rest := (2 ^ (bits - 1) - 1 - s.lowerBound) % s.stride
    let exactRest := (2 ^ (bits - 1) - 1 - s.lowerBound + 2 ^ bits) % s.stride
    (2 ^ (bits - 1) ≤ rest ∨ rest ≤ exactRest) ∧
      (2 ^ (bits - 1) - 1 - exactRest + s.stride ≤ s.upperBound → exactRest ≤ rest)

instance : Decidable (SplitsRight s) := by
  unfold SplitsRight
  infer_instance

theorem unsignedToSigned_of_on (hx : On (2 ^ bits) x) : unsignedToSigned x bits = signed bits x := by
  unfold unsignedToSigned isMsbZero signed
  rw [emod_of_on hx]
  simp only [decide_eq_true_eq]
  split
  · rfl
  · omega

/-- The width is two halves, unless it is zero. -/
theorem half_pos (bits : Nat) : (0 : Int) < 2 ^ (bits - 1) := Int.pow_pos (by decide)

theorem two_halves (h : bits ≠ 0) : (2 : Int) ^ bits = 2 * 2 ^ (bits - 1) := by
  obtain ⟨k, rfl⟩ := Nat.exists_eq_succ_of_ne_zero h
  rw [Nat.succ_sub_one, Int.pow_succ, Int.mul_comm]

theorem straddling_iff : s.straddling = true ↔
    2 ^ (bits - 1) ≤ s.upperBound ∧ (s.upperBound < s.lowerBound ∨ s.lowerBound < 2 ^ (bits - 1)) ∨
      s.upperBound < 2 ^ (bits - 1) ∧ s.upperBound < s.lowerBound ∧ s.lowerBound < 2 ^ (bits - 1) := by
  unfold straddling
  rw [maxInt_eq]
  dsimp only
  split <;> simp only [Bool.or_eq_true, Bool.and_eq_true, decide_eq_true_eq] <;> omega

theorem not_bottom_of_wraps (hs : s.WellFormed) (h : s.upperBound < s.lowerBound) : s.isBottom = false := by
  cases hb : s.isBottom with
  | false => rfl
  | true =>
    have hpos := size_pos bits
    rw [hs.bottom hb] at h
    change (2 ^ bits - 1 : Int) < 0 at h
    omega

theorem bits_ne_zero (hs : s.WellFormed) (h : s.straddling = true) : bits ≠ 0 := by
  rintro rfl
  have hlb := hs.lower
  have hub := hs.upper
  have hcases := straddling_iff.mp h
  unfold On at hlb hub
  simp only [Nat.zero_sub, pow_zero] at hlb hub hcases
  omega

theorem stride_pos_of_straddling (hs : s.WellFormed) (hb : s.isBottom = false) (h : s.straddling = true) :
    s.stride ≠ 0 := by
  intro hzero
  have heq := (hs.stride hb).mp hzero
  have hcases := straddling_iff.mp h
  omega

/-- The bounds of a piece are those it is made with. -/
theorem new_bounds_of {stride : Nat} {l u : Int} {uninit : Bool}
    (h : ¬ (l % 2 ^ bits = (u % 2 ^ bits + 1) % 2 ^ bits ∧ stride = 1)) :
    (new stride l u uninit : StridedInterval bits).lowerBound = l % 2 ^ bits ∧
      (new stride l u uninit : StridedInterval bits).upperBound = u % 2 ^ bits := by
  obtain ⟨_, hnew⟩ | ⟨_, hmeet, _⟩ | ⟨_, _, hnew⟩ := @new_cases bits stride l u uninit
  · rw [hnew]
    exact ⟨rfl, rfl⟩
  · exact absurd hmeet h
  · rw [hnew]
    exact ⟨rfl, rfl⟩

theorem signedBounds_of_not_straddling (hs : s.WellFormed) (h : s.straddling = false) :
    s.signedBounds = some [(signed bits s.lowerBound, signed bits s.upperBound)] := by
  unfold signedBounds nsplit
  rw [h, if_neg Bool.false_ne_true, ← unsignedToSigned_of_on hs.lower, ← unsignedToSigned_of_on hs.upper]
  rfl

theorem signedBounds_of_stride (h : s.straddling = true) (hstride : s.stride ≠ 0) :
    let rest := (2 ^ (bits - 1) - 1 - s.lowerBound) % s.stride
    let left : StridedInterval bits := new s.stride s.lowerBound (2 ^ (bits - 1) - 1 - rest) s.uninitialized
    let right : StridedInterval bits :=
      new s.stride (2 ^ (bits - 1) - 1 - rest + s.stride) s.upperBound s.uninitialized
    s.signedBounds = some [(left.lowerBound, left.upperBound),
      (unsignedToSigned right.lowerBound bits, unsignedToSigned right.upperBound bits)] := by
  unfold signedBounds nsplit strideMod
  rw [h, if_pos rfl, if_neg hstride]
  rfl

theorem signedBounds_of_straddling (hs : s.WellFormed) (hb : s.isBottom = false) (h : s.straddling = true) :
    let rest := (2 ^ (bits - 1) - 1 - s.lowerBound) % s.stride
    s.signedBounds = some
      [(s.lowerBound, (2 ^ (bits - 1) - 1 - rest) % 2 ^ bits),
        (signed bits ((2 ^ (bits - 1) - 1 - rest + s.stride) % 2 ^ bits), signed bits s.upperBound)] := by
  intro rest
  have hstride := stride_pos_of_straddling hs hb h
  have hwidth := two_halves (bits_ne_zero hs h)
  have hhalf := half_pos bits
  have hcases := straddling_iff.mp h
  have hlb := hs.lower
  have hub := hs.upper
  have hlb' := emod_of_on hs.lower
  have hub' := emod_of_on hs.upper
  unfold On at hlb hub
  have hone : s.stride = 1 → rest = 0 := by
    intro hone
    show (2 ^ (bits - 1) - 1 - s.lowerBound) % ((s.stride : Nat) : Int) = 0
    rw [hone, Nat.cast_one, Int.emod_one]
  have hleft : ¬ (s.lowerBound % 2 ^ bits = ((2 ^ (bits - 1) - 1 - rest) % 2 ^ bits + 1) % 2 ^ bits ∧ s.stride = 1) := by
    rintro ⟨hmeet, hs1⟩
    have hpole : (2 ^ (bits - 1) - 1 : Int) % 2 ^ bits = 2 ^ (bits - 1) - 1 := Int.emod_eq_of_lt (by omega) (by omega)
    rw [hone hs1, Int.sub_zero, hlb', hpole, Int.sub_add_cancel, Int.emod_eq_of_lt (by omega) (by omega)] at hmeet
    omega
  have hright : ¬ ((2 ^ (bits - 1) - 1 - rest + s.stride) % 2 ^ bits = (s.upperBound % 2 ^ bits + 1) % 2 ^ bits ∧
      s.stride = 1) := by
    rintro ⟨hmeet, hs1⟩
    have hpole : (2 ^ (bits - 1) : Int) % 2 ^ bits = 2 ^ (bits - 1) := Int.emod_eq_of_lt (by omega) (by omega)
    rw [hone hs1, hs1, hub', Nat.cast_one, Int.sub_zero, Int.sub_add_cancel, hpole] at hmeet
    by_cases hmax : s.upperBound + 1 = 2 ^ bits
    · rw [hmax, Int.emod_self] at hmeet
      omega
    · rw [Int.emod_eq_of_lt (by omega) (by omega)] at hmeet
      omega
  obtain ⟨hleft1, hleft2⟩ := @new_bounds_of bits _ _ _ s.uninitialized hleft
  obtain ⟨hright1, hright2⟩ := @new_bounds_of bits _ _ _ s.uninitialized hright
  have hright1' : On (2 ^ bits) ((2 ^ (bits - 1) - 1 - rest + s.stride) % 2 ^ bits) := emod_on (size_pos bits) _
  rw [signedBounds_of_stride h hstride, hleft1, hleft2, hright1, hright2, hlb', hub', unsignedToSigned_of_on hright1', unsignedToSigned_of_on hs.upper]

/-! ## Bounds -/

/-- An integer of an interval, by its distance from the lower bound. -/
theorem mem_cases (hs : s.WellFormed) (hx : x ∈ s.gamma) : On (2 ^ bits) x ∧
    (s.lowerBound ≤ x ∧ (s.stride : Int) ∣ x - s.lowerBound ∧ (s.lowerBound ≤ s.upperBound → x ≤ s.upperBound) ∨
      x < s.lowerBound ∧ (s.stride : Int) ∣ x - s.lowerBound + 2 ^ bits ∧ s.upperBound < s.lowerBound ∧
        x ≤ s.upperBound) := by
  obtain ⟨hon, hle, hdvd⟩ := (mem_gamma hs hx.1).mp hx
  have hlb := hs.lower
  have hub := hs.upper
  rw [off_cases hs.lower hon, off_cases hs.lower hs.upper] at hle
  rw [off_cases hs.lower hon] at hdvd
  refine ⟨hon, ?_⟩
  unfold On at hon hlb hub
  split at hdvd
  · refine .inl ⟨‹_›, hdvd, fun h => ?_⟩
    rw [if_pos ‹_›, if_pos h] at hle
    omega
  · rw [if_neg ‹_›] at hle
    refine .inr ⟨by omega, hdvd, ?_⟩
    split at hle <;> omega

theorem enclosed_of_not_straddling (hs : s.WellFormed) (h : s.straddling = false) (hx : x ∈ s.gamma) :
    Enclosed [(signed bits s.lowerBound, signed bits s.upperBound)] (signed bits x) := by
  have hnot : ¬ s.straddling = true := by rw [h]; exact Bool.false_ne_true
  rw [straddling_iff] at hnot
  obtain ⟨hon, hcases⟩ := mem_cases hs hx
  have hlb := hs.lower
  have hub := hs.upper
  unfold On at hon hlb hub
  have hbounds : signed bits s.lowerBound ≤ signed bits x ∧ signed bits x ≤ signed bits s.upperBound := by
    unfold signed
    rcases hcases with ⟨hle, -, hup⟩ | ⟨hlow, -, hwraps, hup⟩
    · by_cases hplain : s.lowerBound ≤ s.upperBound
      · have hup := hup hplain
        split <;> split <;> split <;> omega
      · split <;> split <;> split <;> omega
    · split <;> split <;> split <;> omega
  exact ⟨⟨_, List.mem_singleton_self _, hbounds.1⟩, ⟨_, List.mem_singleton_self _, hbounds.2⟩⟩

section Straddling

variable {left right : Int}

/-- The last integer before the north pole, and the first after it, of an interval that starts at a signed integer
that is not negative. -/
theorem enclosed_from_left (hs : s.WellFormed) (hb : s.isBottom = false) (h : s.straddling = true)
    (hx : x ∈ s.gamma)
    (hleft : 0 ≤ left ∧ left < 2 ^ (bits - 1) ∧ s.lowerBound ≤ left ∧ (2 ^ (bits - 1) : Int) ≤ left + s.stride)
    (hphase : (s.stride : Int) ∣ left - s.lowerBound) :
    Enclosed [(s.lowerBound, left % 2 ^ bits),
      (signed bits ((left + s.stride) % 2 ^ bits), signed bits s.upperBound)] (signed bits x) := by
  have hwidth := two_halves (bits_ne_zero hs h)
  have hhalf := half_pos bits
  have hstride := stride_pos_of_straddling hs hb h
  have hcases := straddling_iff.mp h
  obtain ⟨hon, hmem⟩ := mem_cases hs hx
  have hlb := hs.lower
  have hub := hs.upper
  unfold On at hon hlb hub
  obtain ⟨hleft0, hleftlt, hleftle, hnext⟩ := hleft
  have hmod : left % 2 ^ bits = left := Int.emod_eq_of_lt hleft0 (by omega)
  rw [hmod]
  -- where the second piece starts is not after an integer past the pole
  have hnext_le : ∀ y, (s.stride : Int) ∣ y - s.lowerBound → left < y → left + s.stride ≤ y := by
    intro y hy hlt
    have hdvd := Int.dvd_sub hy (Int.dvd_add hphase (Int.dvd_refl (s.stride : Int)))
    rw [show y - s.lowerBound - (left - s.lowerBound + s.stride) = y - (left + s.stride) by omega] at hdvd
    have hpos := multiple_pos (by omega) hdvd
    omega
  by_cases hneg : x < 2 ^ (bits - 1)
  · have hx_signed : signed bits x = x := if_pos hneg
    rw [hx_signed]
    rcases hmem with ⟨hle, hdvd, -⟩ | ⟨hlt, hdvd, hwraps, hup⟩
    · -- before the pole
      have hlast : x ≤ left := by
        by_contra hgt
        have := hnext_le x hdvd (by omega)
        omega
      exact ⟨⟨_, List.mem_cons_self, hle⟩, ⟨_, List.mem_cons_self, hlast⟩⟩
    -- past the south pole
    refine ⟨⟨_, List.mem_cons_of_mem _ List.mem_cons_self, ?_⟩, ⟨_, List.mem_cons_self, by dsimp only; omega⟩⟩
    dsimp only
    rw [show x - s.lowerBound + 2 ^ bits = x + 2 ^ bits - s.lowerBound by omega] at hdvd
    have hfirst := hnext_le (x + 2 ^ bits) hdvd (by omega)
    unfold signed
    rcases Int.lt_or_le (left + s.stride) (2 ^ bits) with hlt' | hge'
    · rw [Int.emod_eq_of_lt (by omega) hlt']
      split <;> omega
    · rw [← Int.sub_emod_right, Int.emod_eq_of_lt (by omega) (by omega)]
      split <;> omega
  · have hx_signed : signed bits x = x - 2 ^ bits := if_neg hneg
    rw [hx_signed]
    rcases hmem with ⟨hle, hdvd, hup⟩ | ⟨hlt, hdvd, hwraps, hup⟩
    · have hfirst := hnext_le x hdvd (by omega)
      refine ⟨⟨_, List.mem_cons_of_mem _ List.mem_cons_self, ?_⟩, ⟨_, List.mem_cons_self, by dsimp only; omega⟩⟩
      dsimp only
      rw [Int.emod_eq_of_lt (by omega) (by omega)]
      unfold signed
      split <;> omega
    · omega

/-- What is known about an interval that starts below zero, passes it and goes on past the north pole: the remainders
that place the end of its first piece, as it is computed and as it ought to be. -/
structure Rests (s : StridedInterval bits) (rest exactRest : Int) : Prop where
  straddles : s.straddling = true
  half : (2 : Int) ^ bits = 2 * 2 ^ (bits - 1)
  stride : s.stride ≠ 0
  bounds : 0 ≤ rest ∧ rest < s.stride
  exact_bounds : 0 ≤ exactRest ∧ exactRest < s.stride
  dvd : (s.stride : Int) ∣ 2 ^ (bits - 1) - 1 - s.lowerBound - rest
  exact_dvd : (s.stride : Int) ∣ 2 ^ (bits - 1) - 1 - s.lowerBound + 2 ^ bits - exactRest

theorem rests (hs : s.WellFormed) (hb : s.isBottom = false) (hwraps : s.upperBound < s.lowerBound)
    (hpole : 2 ^ (bits - 1) ≤ s.upperBound) :
    Rests s ((2 ^ (bits - 1) - 1 - s.lowerBound) % s.stride)
      ((2 ^ (bits - 1) - 1 - s.lowerBound + 2 ^ bits) % s.stride) := by
  have h : s.straddling = true := straddling_iff.mpr (.inl ⟨hpole, .inl hwraps⟩)
  have hstride := stride_pos_of_straddling hs hb h
  exact ⟨h, two_halves (bits_ne_zero hs h), hstride,
    ⟨Int.emod_nonneg _ (by omega), Int.emod_lt_of_pos _ (by omega)⟩,
    ⟨Int.emod_nonneg _ (by omega), Int.emod_lt_of_pos _ (by omega)⟩, Int.dvd_self_sub_emod, Int.dvd_self_sub_emod⟩

/-- The second piece starts at an integer past the pole and not after the lower bound. -/
theorem Rests.start_le {rest exactRest : Int} (h : Rests s rest exactRest) (hlow : 2 ^ (bits - 1) ≤ s.lowerBound) :
    2 ^ (bits - 1) - 1 - rest + s.stride ≤ s.lowerBound := by
  have hrest := h.bounds
  have hdvd := (Int.dvd_neg).mpr (Int.dvd_add h.dvd (Int.dvd_refl (s.stride : Int)))
  have := multiple_pos (by omega) hdvd
  omega

/-- An interval that starts below zero, passes it and goes on past the north pole. -/
theorem enclosed_from_right (hs : s.WellFormed) (hb : s.isBottom = false) (hwraps : s.upperBound < s.lowerBound)
    (hpole : 2 ^ (bits - 1) ≤ s.upperBound) (hright : SplitsRight s) (hx : x ∈ s.gamma) :
    let rest := (2 ^ (bits - 1) - 1 - s.lowerBound) % s.stride
    Enclosed [(s.lowerBound, (2 ^ (bits - 1) - 1 - rest) % 2 ^ bits),
      (signed bits ((2 ^ (bits - 1) - 1 - rest + s.stride) % 2 ^ bits), signed bits s.upperBound)] (signed bits x) := by
  intro rest
  obtain ⟨hphase, hfirst⟩ := hright hwraps hpole
  have hrests := rests hs hb hwraps hpole
  obtain ⟨exactRest, hexact⟩ : ∃ r, r = (2 ^ (bits - 1) - 1 - s.lowerBound + 2 ^ bits) % s.stride := ⟨_, rfl⟩
  change Rests s rest _ at hrests
  change _ ≤ rest ∨ rest ≤ _ at hphase
  change _ → _ ≤ rest at hfirst
  rw [← hexact] at hphase hfirst hrests
  have hwidth := hrests.half
  have hhalf := half_pos bits
  have hstart_le := hrests.start_le (by omega)
  have ⟨hrest0, hrestlt⟩ := hrests.bounds
  have ⟨hexact0, hexactlt⟩ := hrests.exact_bounds
  have hdvd := hrests.exact_dvd
  obtain ⟨hon, hmem⟩ := mem_cases hs hx
  have hlb := hs.lower
  have hub := hs.upper
  unfold On at hon hlb hub
  have hstart : signed bits ((2 ^ (bits - 1) - 1 - rest + s.stride) % 2 ^ bits) =
      2 ^ (bits - 1) - 1 - rest + s.stride - 2 ^ bits := by
    rw [Int.emod_eq_of_lt (by omega) (by omega)]
    exact if_neg (by omega)
  rw [hstart]
  by_cases hneg : x < 2 ^ (bits - 1)
  · have hx_signed : signed bits x = x := if_pos hneg
    rw [hx_signed]
    obtain ⟨-, hxdvd, -, -⟩ : x < s.lowerBound ∧ (s.stride : Int) ∣ x - s.lowerBound + 2 ^ bits ∧ _ :=
      hmem.resolve_left (by omega)
    have hlast := multiple_pos (by omega) (Int.dvd_sub hdvd hxdvd)
    have hle := Int.le_of_dvd (by omega) hxdvd
    refine ⟨⟨_, List.mem_cons_of_mem _ List.mem_cons_self, by dsimp only; omega⟩, ⟨_, List.mem_cons_self, ?_⟩⟩
    dsimp only
    rcases Int.lt_or_le rest (2 ^ (bits - 1)) with hsmall | hlarge
    · rw [Int.emod_eq_of_lt (by omega) (by omega)]
      omega
    · rw [← Int.add_emod_right, Int.emod_eq_of_lt (by omega) (by omega)]
      omega
  · have hx_signed : signed bits x = x - 2 ^ bits := if_neg hneg
    rw [hx_signed]
    have hmod := Int.emod_nonneg (2 ^ (bits - 1) - 1 - rest) (show (2 : Int) ^ bits ≠ 0 by omega)
    refine ⟨⟨_, List.mem_cons_of_mem _ List.mem_cons_self, ?_⟩, ⟨_, List.mem_cons_self, by dsimp only; omega⟩⟩
    dsimp only
    rcases hmem with ⟨hle, -, -⟩ | ⟨hlt, hxdvd, -, hup⟩
    · omega
    have hnext := Int.dvd_sub hxdvd hdvd
    have hnext := multiple_pos (by omega) (Int.dvd_sub hnext (Int.dvd_refl (s.stride : Int)))
    have := hfirst (by omega)
    omega

/-- An interval that is split at another phase has an integer beyond all bounds of its pieces. -/
theorem exists_beyond (hs : s.WellFormed) (h : ¬ SplitsRight s) :
    ∃ bounds, s.signedBounds = some bounds ∧ ∃ x ∈ s.gamma,
      (∀ p ∈ bounds, p.2 < signed bits x) ∨ ∀ p ∈ bounds, signed bits x < p.1 := by
  unfold SplitsRight at h
  simp only [Classical.not_imp] at h
  obtain ⟨hwraps, hpole, hwrong⟩ := h
  have hb := not_bottom_of_wraps hs hwraps
  have hrests := rests hs hb hwraps hpole
  refine ⟨_, signedBounds_of_straddling hs hb hrests.straddles, ?_⟩
  generalize (2 ^ (bits - 1) - 1 - s.lowerBound) % (s.stride : Int) = rest at hrests hwrong ⊢
  generalize (2 ^ (bits - 1) - 1 - s.lowerBound + 2 ^ bits) % (s.stride : Int) = exactRest at hrests hwrong
  simp only [List.forall_mem_cons, List.not_mem_nil, false_imp_iff, implies_true, and_true]
  have hwidth := hrests.half
  have hhalf := half_pos bits
  have hstart_le := hrests.start_le (by omega)
  have ⟨hrest0, hrestlt⟩ := hrests.bounds
  have ⟨hexact0, hexactlt⟩ := hrests.exact_bounds
  have hdvd := hrests.exact_dvd
  have hlb := hs.lower
  have hub := hs.upper
  unfold On at hlb hub
  have hstart : signed bits ((2 ^ (bits - 1) - 1 - rest + s.stride) % 2 ^ bits) =
      2 ^ (bits - 1) - 1 - rest + s.stride - 2 ^ bits := by
    rw [Int.emod_eq_of_lt (by omega) (by omega)]
    exact if_neg (by omega)
  have hlast : signed bits s.upperBound = s.upperBound - 2 ^ bits := if_neg (by omega)
  rw [hstart, hlast]
  by_cases hphase : 2 ^ (bits - 1) ≤ rest ∨ rest ≤ exactRest
  · -- the first integer past the pole is below the bounds
    have hfirst : 2 ^ (bits - 1) - 1 - exactRest + s.stride ≤ s.upperBound ∧ rest < exactRest := by
      by_contra hnot
      exact hwrong ⟨hphase, fun hle => by omega⟩
    refine ⟨2 ^ (bits - 1) - 1 - exactRest + s.stride, ?_, .inr ?_⟩
    · have hon : On (2 ^ bits) (2 ^ (bits - 1) - 1 - exactRest + s.stride) := ⟨by omega, by omega⟩
      refine (mem_gamma hs hb).mpr ⟨hon, ?_, ?_⟩
      · rw [off_cases hs.lower hon, off_cases hs.lower hs.upper, if_neg (by omega), if_neg (by omega)]
        omega
      rw [off_cases hs.lower hon, if_neg (by omega)]
      have hsum := Int.dvd_add hdvd (Int.dvd_refl (s.stride : Int))
      rwa [show 2 ^ (bits - 1) - 1 - s.lowerBound + 2 ^ bits - exactRest + s.stride =
        2 ^ (bits - 1) - 1 - exactRest + s.stride - s.lowerBound + 2 ^ bits by omega] at hsum
    · rw [show signed bits (2 ^ (bits - 1) - 1 - exactRest + s.stride) = _ from if_neg (by omega)]
      exact ⟨by omega, by omega⟩
  · -- the last integer before the pole is above the bounds
    refine ⟨2 ^ (bits - 1) - 1 - exactRest, ?_, .inl ?_⟩
    · have hon : On (2 ^ bits) (2 ^ (bits - 1) - 1 - exactRest) := ⟨by omega, by omega⟩
      refine (mem_gamma hs hb).mpr ⟨hon, ?_, ?_⟩
      · rw [off_cases hs.lower hon, off_cases hs.lower hs.upper, if_neg (by omega), if_neg (by omega)]
        omega
      · rw [off_cases hs.lower hon, if_neg (by omega)]
        rwa [show 2 ^ (bits - 1) - 1 - s.lowerBound + 2 ^ bits - exactRest =
          2 ^ (bits - 1) - 1 - exactRest - s.lowerBound + 2 ^ bits by omega] at hdvd
    · rw [show signed bits (2 ^ (bits - 1) - 1 - exactRest) = _ from if_pos (by omega),
        Int.emod_eq_of_lt (by omega) (by omega)]
      exact ⟨by omega, by omega⟩

end Straddling

/-- All integers of an interval that is split at the right phase are between its bounds. -/
theorem signedBounds_spec (hs : s.WellFormed) (hright : SplitsRight s) :
    ∃ bounds, s.signedBounds = some bounds ∧ ∀ x ∈ s.gamma, Enclosed bounds (signed bits x) := by
  cases hb : s.isBottom with
  | true =>
    have hnone : ∀ x, x ∉ s.gamma := fun x hx => absurd (hb.symm.trans hx.1) (by decide)
    cases h : s.straddling with
    | false => exact ⟨_, signedBounds_of_not_straddling hs h, fun x hx => absurd hx (hnone x)⟩
    | true =>
      refine ⟨_, signedBounds_of_stride h ?_, fun x hx => absurd hx (hnone x)⟩
      rw [hs.bottom hb]
      exact Nat.one_ne_zero
  | false =>
    cases h : s.straddling with
    | false => exact ⟨_, signedBounds_of_not_straddling hs h, fun x hx => enclosed_of_not_straddling hs h hx⟩
    | true =>
      refine ⟨_, signedBounds_of_straddling hs hb h, fun x hx => ?_⟩
      have hwidth := two_halves (bits_ne_zero hs h)
      have hstride := stride_pos_of_straddling hs hb h
      have hlb := hs.lower
      unfold On at hlb
      rcases straddling_iff.mp h with ⟨hpole, hwraps | hlow⟩ | ⟨-, -, hlow⟩
      · exact enclosed_from_right hs hb hwraps hpole hright hx
      all_goals
        have ⟨h0, hlt, hle, hdvd⟩ := @rest_spec s.stride (2 ^ (bits - 1) - 1 - s.lowerBound) (by omega) (by omega)
        refine enclosed_from_left hs hb h hx ⟨by omega, by omega, by omega, by omega⟩ ?_
        rwa [show 2 ^ (bits - 1) - 1 - s.lowerBound - (2 ^ (bits - 1) - 1 - s.lowerBound) % (s.stride : Int) =
          2 ^ (bits - 1) - 1 - (2 ^ (bits - 1) - 1 - s.lowerBound) % (s.stride : Int) - s.lowerBound by omega] at hdvd

/-! ## Comparisons -/

/-- The signed comparisons answer, and their definite answers hold for all integers of the two intervals. -/
structure SignedSound (a b : StridedInterval bits) : Prop where
  lt : ∃ r, SLT a b = some r ∧ Sound a b (fun x y => signed bits x < signed bits y) r
  le : ∃ r, SLE a b = some r ∧ Sound a b (fun x y => signed bits x ≤ signed bits y) r
  gt : ∃ r, SGT a b = some r ∧ Sound a b (fun x y => signed bits x > signed bits y) r
  ge : ∃ r, SGE a b = some r ∧ Sound a b (fun x y => signed bits x ≥ signed bits y) r

theorem compareSigned_sound (rel : Int → Int → Prop) {definitely never : Int × Int → Int × Int → Bool}
    (ha : a.WellFormed) (hb : b.WellFormed) (haright : SplitsRight a) (hbright : SplitsRight b)
    (hdefinitely : ∀ x y (l u l' u' : Int × Int), l.1 ≤ x → x ≤ u.2 → l'.1 ≤ y → y ≤ u'.2 →
      definitely l u' = true → definitely u l' = true → rel x y)
    (hnever : ∀ x y (l u l' u' : Int × Int), l.1 ≤ x → x ≤ u.2 → l'.1 ≤ y → y ≤ u'.2 →
      never l u' = true → never u l' = true → ¬ rel x y) :
    ∃ r, compareSigned definitely never a b = some r ∧
      Sound a b (fun x y => rel (signed bits x) (signed bits y)) r := by
  obtain ⟨bounds, hbounds, hcover⟩ := signedBounds_spec ha haright
  obtain ⟨bounds', hbounds', hcover'⟩ := signedBounds_spec hb hbright
  obtain ⟨r, hr, hsound⟩ := compareAll_sound (signed bits) hcover hcover' hdefinitely hnever
  refine ⟨r, ?_, hsound⟩
  unfold compareSigned
  rw [hbounds, hbounds']
  exact hr

theorem signedSound_of_splitsRight (ha : a.WellFormed) (hb : b.WellFormed) (haright : SplitsRight a)
    (hbright : SplitsRight b) : SignedSound a b := by
  constructor
  · refine compareSigned_sound (· < ·) ha hb haright hbright ?_ ?_ <;> intro x y l u l' u' _ _ _ _ h h' <;>
      have := of_decide_eq_true h <;> have := of_decide_eq_true h' <;> omega
  · refine compareSigned_sound (· ≤ ·) ha hb haright hbright ?_ ?_ <;> intro x y l u l' u' _ _ _ _ h h' <;>
      have := of_decide_eq_true h <;> have := of_decide_eq_true h' <;> omega
  · refine compareSigned_sound (· > ·) ha hb haright hbright ?_ ?_ <;> intro x y l u l' u' _ _ _ _ h h' <;>
      have := of_decide_eq_true h <;> have := of_decide_eq_true h' <;> omega
  · refine compareSigned_sound (· ≥ ·) ha hb haright hbright ?_ ?_ <;> intro x y l u l' u' _ _ _ _ h h' <;>
      have := of_decide_eq_true h <;> have := of_decide_eq_true h' <;> omega

theorem new_integer (hx : On (2 ^ bits) x) : (new 0 x x false : StridedInterval bits) = ⟨0, x, x, false, false⟩ := by
  obtain ⟨_, h⟩ | ⟨hne, _⟩ | ⟨hne, _⟩ := @new_cases bits 0 x x false
  · rw [h, emod_of_on hx]
  · exact absurd rfl hne
  · exact absurd rfl hne

theorem signedBounds_integer (hx : On (2 ^ bits) x) :
    (new 0 x x false : StridedInterval bits).signedBounds = some [(signed bits x, signed bits x)] := by
  have hwf : (new 0 x x false : StridedInterval bits).WellFormed := new_wellFormed fun _ => rfl
  rw [new_integer hx] at hwf ⊢
  refine signedBounds_of_not_straddling hwf ?_
  rw [Bool.eq_false_iff, Ne, straddling_iff]
  dsimp only
  omega

variable {bounds : List (Int × Int)}

/-- The answer is definite if it is so for every bound of the one interval and an integer. -/
theorem compareSigned_integer {definitely never : Int × Int → Int × Int → Bool} (hx : On (2 ^ bits) x)
    (hbounds : a.signedBounds = some bounds)
    (hall : ∀ p ∈ bounds, definitely p (signed bits x, signed bits x) = true) :
    compareSigned definitely never a (new 0 x x false) = some .TrueResult := by
  unfold compareSigned
  rw [hbounds, signedBounds_integer hx]
  simp only [Option.bind_eq_bind, Option.bind_some, List.map_cons, List.map_nil]
  refine if_pos (List.all_eq_true.mpr fun r hr => ?_)
  obtain ⟨p, hp, hr⟩ := List.mem_flatMap.mp hr
  rw [List.mem_singleton.mp hr]
  exact decide_eq_true (if_pos (hall p hp))

/-- A definite answer about an integer beyond all bounds. -/
theorem SLT_integer (hx : On (2 ^ bits) x) (hbounds : a.signedBounds = some bounds)
    (habove : ∀ p ∈ bounds, p.2 < signed bits x) : SLT a (new 0 x x false) = some .TrueResult :=
  compareSigned_integer hx hbounds fun p hp => decide_eq_true (habove p hp)

theorem SGT_integer (hx : On (2 ^ bits) x) (hbounds : a.signedBounds = some bounds)
    (hbelow : ∀ p ∈ bounds, signed bits x < p.1) : SGT a (new 0 x x false) = some .TrueResult :=
  compareSigned_integer hx hbounds fun p hp => decide_eq_true (hbelow p hp)

/-- The signed comparisons of an interval with all intervals that are split at the right phase are sound exactly if it
is split at the right phase itself. -/
theorem splitsRight_iff_comparisons_sound (ha : a.WellFormed) :
    SplitsRight a ↔ ∀ b : StridedInterval bits, b.WellFormed → SplitsRight b → SignedSound a b ∧ SignedSound b a := by
  constructor
  · intro haright b hb hbright
    exact ⟨signedSound_of_splitsRight ha hb haright hbright, signedSound_of_splitsRight hb ha hbright haright⟩
  · intro hsound
    by_contra hwrong
    obtain ⟨bounds, hbounds, x, hx, hbeyond⟩ := exists_beyond ha hwrong
    have hon := gamma_on ha hx
    have hright : SplitsRight (new 0 x x false : StridedInterval bits) := by
      intro hwraps
      rw [new_integer hon] at hwraps
      exact absurd hwraps (Int.lt_irrefl x)
    have hab := (hsound _ (new_wellFormed fun _ => rfl) hright).1
    rcases hbeyond with habove | hbelow
    · obtain ⟨r, hr, hrsound⟩ := hab.lt
      have hr_eq : r = .TrueResult := Option.some.inj (hr.symm.trans (SLT_integer hon hbounds habove))
      exact absurd (hrsound.definitely hr_eq x hx x (mem_new_integer hon)) (Int.lt_irrefl _)
    · obtain ⟨r, hr, hrsound⟩ := hab.gt
      have hr_eq : r = .TrueResult := Option.some.inj (hr.symm.trans (SGT_integer hon hbounds hbelow))
      exact absurd (hrsound.definitely hr_eq x hx x (mem_new_integer hon)) (Int.lt_irrefl _)

/-- An interval that goes past zero and the north pole, with a stride that divides the number of integers. -/
theorem comparisons_sound_of_four_steps :
    let a : StridedInterval 4 := new 4 13 9 false
    SplitsRight a ↔ ∀ b : StridedInterval 4, b.WellFormed → SplitsRight b → SignedSound a b ∧ SignedSound b a :=
  splitsRight_iff_comparisons_sound (new_wellFormed nofun)

/-- The least signed integer, 8 of four bits, is in the first interval, and the answer is that all of it is greater. -/
theorem signed_comparison_of_lost_integer :
    ∃ a b : StridedInterval 4, a.WellFormed ∧ b.WellFormed ∧ ¬ SignedSound a b := by
  have ha : (new 3 9 8 false : StridedInterval 4).WellFormed := new_wellFormed nofun
  have hb : (new 0 8 8 false : StridedInterval 4).WellFormed := new_wellFormed fun _ => rfl
  have hmem : (8 : Int) ∈ (new 3 9 8 false : StridedInterval 4).gamma :=
    (@mem_gamma_new 4 3 9 8 8 false (by decide)).mpr (by decide)
  refine ⟨_, _, ha, hb, fun h => ?_⟩
  obtain ⟨r, hr, hsound⟩ := h.gt
  have hr_eq : r = .TrueResult := Option.some.inj (hr.symm.trans (by decide))
  exact absurd (hsound.definitely hr_eq 8 hmem 8 (mem_new_integer (by decide))) (Int.lt_irrefl _)

end StridedInterval
end Claripy.Vsa
