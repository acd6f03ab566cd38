import Vibr.Lib.Arc

/-!
# Strided intervals

`claripy/backends/backend_vsa/strided_interval.py`. An interval goes upwards from its lower bound to its
upper bound, past the largest integer of its width if the upper bound is the lesser one. All
intervals here have one width and are not reversed. A `none` stands for an exception.
-/

namespace Claripy.Vsa

structure StridedInterval (bits : Nat) where
  stride : Nat
  lowerBound : Int
  upperBound : Int
  isBottom : Bool := false
  uninitialized : Bool := false
  deriving DecidableEq

variable {bits : Nat}

def modularAdd (a b : Int) (bits : Nat) : Int := (a + b) % 2 ^ bits

def modularSub (a b : Int) (bits : Nat) : Int := (a - b) % 2 ^ bits

def highbit (k : Nat) : Int := 2 ^ (k - 1)

def maxInt (k : Nat) : Int := highbit (k + 1) - 1

/-- The number of integers from `x` upwards to `y`. -/
def wrappedCardinality (x y : Int) (bits : Nat) : Int :=
  if x = (y + 1) % 2 ^ bits then 2 ^ bits else (y - x + 1) % 2 ^ bits

/-- A remainder by a stride. -/
def strideMod (a : Int) (stride : Nat) : Option Int :=
  if stride = 0 then none else some (a % stride)

namespace StridedInterval

/-- Bounds are stored unsigned, and a stride of one between bounds that meet is the whole circle. -/
def normalize (si : StridedInterval bits) : StridedInterval bits :=
  if si.isBottom then si
  else
    let lowerBound := si.lowerBound % 2 ^ bits
    let upperBound := si.upperBound % 2 ^ bits
    let stride := if lowerBound = upperBound then 0 else si.stride
    if lowerBound = modularAdd upperBound 1 bits ∧ stride = 1 then
      { si with stride := stride, lowerBound := 0, upperBound := maxInt bits }
    else { si with stride := stride, lowerBound := lowerBound, upperBound := upperBound }

/-- `StridedInterval(bits, stride, lower_bound, upper_bound, uninitialized)`. -/
def new (stride : Nat) (lowerBound upperBound : Int) (uninitialized : Bool) : StridedInterval bits :=
  normalize { stride, lowerBound, upperBound, uninitialized }

def top (uninitialized : Bool) : StridedInterval bits := new 1 0 (maxInt bits) uninitialized

/-- The default bounds and stride, with the bottom flag. -/
def empty : StridedInterval bits where
  stride := 1
  lowerBound := 0
  upperBound := 2 ^ bits - 1
  isBottom := true

def isEmpty (si : StridedInterval bits) : Bool := si.isBottom

def isTop (si : StridedInterval bits) : Bool :=
  si.stride = 1 ∧ si.lowerBound = modularAdd si.upperBound 1 bits

def isInteger (si : StridedInterval bits) : Bool := si.lowerBound = si.upperBound

def isInterval (si : StridedInterval bits) : Bool := !si.isInteger

def nValues (si : StridedInterval bits) : Option Int :=
  if si.stride = 0 then none
  else some (wrappedCardinality si.lowerBound si.upperBound bits / si.stride + 1)

/-- Split at the south pole, between the largest integer and zero. -/
def ssplit (si : StridedInterval bits) : Option (List (StridedInterval bits)) :=
  let southPoleRight := maxInt bits
  if si.upperBound < si.lowerBound then do
    let rest ← strideMod (southPoleRight - si.lowerBound) si.stride
    let aUpperBound := southPoleRight - rest
    let a := new si.stride si.lowerBound aUpperBound si.uninitialized
    let bLowerBound := modularAdd aUpperBound si.stride bits
    let b := new si.stride bLowerBound si.upperBound si.uninitialized
    return [a, b]
  else return [si]

def lexLte (x y : Int) (bits : Nat) : Bool := x % 2 ^ bits ≤ y % 2 ^ bits

def surroundsMember (si : StridedInterval bits) (v : Int) : Bool :=
  lexLte (v - si.lowerBound) (si.upperBound - si.lowerBound) bits

/-- Whether `a` lies in `b`, by the bounds alone. -/
def isSurrounded (a b : StridedInterval bits) : Bool :=
  if a.isEmpty then true
  else if a.isTop && b.isTop then true
  else if a.isTop then false
  else if b.isTop then true
  else
    b.surroundsMember a.lowerBound && b.surroundsMember a.upperBound &&
      (b.lowerBound = a.lowerBound && b.upperBound = a.upperBound ||
        !a.surroundsMember b.lowerBound || !a.surroundsMember b.upperBound)

/-- What the wrapper of binary operations does to the result when both operands have one width and neither
is reversed. -/
def normalizeTypes (self o ret : StridedInterval bits) : StridedInterval bits :=
  if self.uninitialized || o.uninitialized then { ret with uninitialized := true } else ret

/-! ## The integers of an interval -/

/-- The integers that an interval stands for. -/
def gamma (si : StridedInterval bits) : Set Int :=
  {x | si.isBottom = false ∧ x ∈ Arc.steps (2 ^ bits) si.lowerBound si.upperBound si.stride}

/-- What the constructor makes, with a stride of zero only for single integers. -/
structure WellFormed (si : StridedInterval bits) : Prop where
  bottom : si.isBottom = true → si = { (empty : StridedInterval bits) with uninitialized := si.uninitialized }
  lower : Arc.On (2 ^ bits) si.lowerBound
  upper : Arc.On (2 ^ bits) si.upperBound
  stride : si.isBottom = false → (si.stride = 0 ↔ si.lowerBound = si.upperBound)
  whole : si.stride = 1 → si.lowerBound = modularAdd si.upperBound 1 bits → si.lowerBound = 0

open Arc

/-- The length of an interval, from the first bound to the last one. -/
def length (si : StridedInterval bits) : Int := off (2 ^ bits) si.lowerBound si.upperBound

variable {si : StridedInterval bits} {stride : Nat} {lb ub x : Int} {uninit : Bool}

theorem size_pos (bits : Nat) : (0 : Int) < 2 ^ bits := Int.pow_pos (by decide)

theorem maxInt_eq (bits : Nat) : maxInt bits = 2 ^ bits - 1 := rfl

theorem mem_gamma (h : si.WellFormed) (hb : si.isBottom = false) :
    x ∈ si.gamma ↔ On (2 ^ bits) x ∧ off (2 ^ bits) si.lowerBound x ≤ off (2 ^ bits) si.lowerBound si.upperBound ∧
      (si.stride : Int) ∣ off (2 ^ bits) si.lowerBound x := by
  have hstride : si.stride = 0 → off (2 ^ bits) si.lowerBound si.upperBound = 0 := by
    intro h0
    rw [(h.stride hb).mp h0, off_self]
  rw [← mem_steps_iff (size_pos bits) hstride]
  exact and_iff_right hb

theorem gamma_bottom (hb : si.isBottom = true) : si.gamma = ∅ := by
  ext x
  simp [gamma, hb]

/-! ## The constructor -/

/-- What the constructor makes: an integer, the whole circle from zero, or the bounds as they are. -/
theorem new_cases (stride : Nat) (lb ub : Int) (uninit : Bool) :
    let l := lb % 2 ^ bits
    let u := ub % 2 ^ bits
    l = u ∧ (new stride lb ub uninit : StridedInterval bits) = ⟨0, l, u, false, uninit⟩ ∨
      l ≠ u ∧ (l = (u + 1) % 2 ^ bits ∧ stride = 1) ∧
        (new stride lb ub uninit : StridedInterval bits) = ⟨1, 0, 2 ^ bits - 1, false, uninit⟩ ∨
      l ≠ u ∧ ¬(l = (u + 1) % 2 ^ bits ∧ stride = 1) ∧
        (new stride lb ub uninit : StridedInterval bits) = ⟨stride, l, u, false, uninit⟩ := by
  intro l u
  have hnew : (new stride lb ub uninit : StridedInterval bits) =
      let step := if l = u then 0 else stride
      if l = (u + 1) % 2 ^ bits ∧ step = 1 then ⟨step, 0, maxInt bits, false, uninit⟩
      else ⟨step, l, u, false, uninit⟩ := rfl
  rw [hnew]
  by_cases hlu : l = u
  · refine .inl ⟨hlu, ?_⟩
    rw [if_pos hlu]
    exact if_neg (fun h => absurd h.2 (by decide))
  rw [if_neg hlu]
  by_cases htop : l = (u + 1) % 2 ^ bits ∧ stride = 1
  · refine .inr (.inl ⟨hlu, htop, (if_pos htop).trans ?_⟩)
    rw [htop.2, maxInt_eq]
  · exact .inr (.inr ⟨hlu, htop, if_neg htop⟩)

@[simp] theorem new_isBottom : (new stride lb ub uninit : StridedInterval bits).isBottom = false := by
  obtain ⟨_, h⟩ | ⟨_, _, h⟩ | ⟨_, _, h⟩ := @new_cases bits stride lb ub uninit <;> rw [h]

theorem new_wellFormed (hstride : stride = 0 → lb % 2 ^ bits = ub % 2 ^ bits) :
    (new stride lb ub uninit : StridedInterval bits).WellFormed := by
  have hlb := emod_on (size_pos bits) lb
  have hub := emod_on (size_pos bits) ub
  have hpos := size_pos bits
  obtain ⟨heq, h⟩ | ⟨hne, ⟨hmeet, hone⟩, h⟩ | ⟨hne, hnot, h⟩ := @new_cases bits stride lb ub uninit <;> rw [h]
  · exact ⟨nofun, hlb, hub, fun _ => iff_of_true rfl heq, nofun⟩
  · have hsize : (1 : Int) < 2 ^ bits := by
      unfold On at hlb hub
      omega
    refine ⟨nofun, ⟨Int.le_refl 0, hpos⟩, ⟨?_, ?_⟩, fun _ => iff_of_false nofun ?_, fun _ _ => rfl⟩ <;> dsimp only <;>
      omega
  · refine ⟨nofun, hlb, hub, fun _ => ⟨hstride, fun heq => absurd heq hne⟩, ?_⟩
    intro hone hmeet
    exact absurd ⟨hmeet, hone⟩ hnot

theorem off_of_meet (hlb : On (2 ^ bits) lb) (hub : On (2 ^ bits) ub) (h : lb = (ub + 1) % 2 ^ bits) :
    off (2 ^ bits) lb ub = 2 ^ bits - 1 := by
  rw [off_cases hlb hub]
  unfold On at hlb hub
  by_cases hmax : ub + 1 < 2 ^ bits
  · rw [Int.emod_eq_of_lt (by omega) hmax] at h
    rw [if_neg (by omega)]
    omega
  have hub' : ub + 1 = 2 ^ bits := by omega
  rw [hub', Int.emod_self] at h
  rw [if_pos (by omega)]
  omega

/-- The number of points on an arc is the distance and one. -/
theorem wrappedCardinality_eq (hlb : On (2 ^ bits) lb) (hub : On (2 ^ bits) ub) :
    wrappedCardinality lb ub bits = off (2 ^ bits) lb ub + 1 := by
  unfold wrappedCardinality
  split
  · next hmeet =>
      rw [off_of_meet hlb hub hmeet]
      omega
  next hnot =>
    rw [off_cases hlb hub]
    unfold On at hlb hub
    have hne : ub + 1 = 2 ^ bits → lb ≠ 0 := by
      rintro hmax hzero
      rw [hmax, Int.emod_self] at hnot
      exact hnot hzero
    have hne' : ub + 1 < 2 ^ bits → lb ≠ ub + 1 := by
      intro hmax
      rwa [Int.emod_eq_of_lt (by omega) hmax] at hnot
    split
    · exact Int.emod_eq_of_lt (by omega) (by omega)
    · rw [← Int.add_emod_right, Int.emod_eq_of_lt (by omega) (by omega)]
      omega

/-- The integers between two bounds, whatever the constructor does to them. -/
theorem mem_gamma_new (hstride : stride = 0 → lb % 2 ^ bits = ub % 2 ^ bits) :
    x ∈ (new stride lb ub uninit : StridedInterval bits).gamma ↔
      On (2 ^ bits) x ∧ off (2 ^ bits) lb x ≤ off (2 ^ bits) lb ub ∧ (stride : Int) ∣ off (2 ^ bits) lb x := by
  have hwf := @new_wellFormed bits stride lb ub uninit hstride
  have hlb := emod_on (size_pos bits) lb
  have hub := emod_on (size_pos bits) ub
  have hx_eq : off (2 ^ bits) lb x = off (2 ^ bits) (lb % 2 ^ bits) x := off_emod_left.symm
  have hub_eq : off (2 ^ bits) lb ub = off (2 ^ bits) (lb % 2 ^ bits) (ub % 2 ^ bits) := by
    rw [off_emod_left, off_emod_right]
  rw [mem_gamma hwf new_isBottom, hx_eq, hub_eq]
  refine and_congr_right fun hx => ?_
  have hoff := off_on (size_pos bits) (lb % 2 ^ bits) x
  obtain ⟨heq, h⟩ | ⟨hne, ⟨hmeet, hone⟩, h⟩ | ⟨hne, hnot, h⟩ := @new_cases bits stride lb ub uninit <;> rw [h]
  · -- both say that the distance is zero
    dsimp only
    rw [← heq, off_self]
    refine and_congr_right fun hle => ?_
    rw [show off (2 ^ bits) (lb % 2 ^ bits) x = 0 by have := hoff.1; omega]
    exact iff_of_true (Int.dvd_zero _) (Int.dvd_zero _)
  -- both hold of every integer
  dsimp only
  rw [off_of_meet hlb hub hmeet, hone]
  refine iff_of_true ⟨?_, Int.one_dvd _⟩ ⟨by have := hoff.2; omega, Int.one_dvd _⟩
  have hx0 := (off_on (size_pos bits) 0 x).2
  have hmax : On (2 ^ bits) (2 ^ bits - 1) := ⟨by have := size_pos bits; omega, by omega⟩
  rw [off_cases ⟨Int.le_refl 0, size_pos bits⟩ hmax, if_pos hmax.1]
  omega

theorem lowerBound_mem (h : si.WellFormed) (hb : si.isBottom = false) : si.lowerBound ∈ si.gamma := by
  have hlength := (off_on (size_pos bits) si.lowerBound si.upperBound).1
  refine (mem_gamma h hb).mpr ⟨h.lower, ?_, ?_⟩ <;> rw [off_self]
  · exact hlength
  · exact Int.dvd_zero _

@[simp] theorem gamma_normalizeTypes {a b : StridedInterval bits} : (normalizeTypes a b si).gamma = si.gamma := by
  unfold normalizeTypes
  split <;> rfl

theorem empty_wellFormed : (empty : StridedInterval bits).WellFormed := by
  have hpos := size_pos bits
  refine ⟨fun _ => rfl, ⟨Int.le_refl 0, hpos⟩, ⟨?_, ?_⟩, nofun, fun _ _ => rfl⟩ <;> dsimp only [empty] <;> omega

theorem gamma_on (h : si.WellFormed) (hx : x ∈ si.gamma) : On (2 ^ bits) x := ((mem_gamma h hx.1).mp hx).1

theorem top_zero_stride : (1 : Nat) = 0 → (0 : Int) % 2 ^ bits = maxInt bits % 2 ^ bits := nofun

theorem mem_gamma_top (hx : On (2 ^ bits) x) : x ∈ (top uninit : StridedInterval bits).gamma := by
  have hoff := off_on (size_pos bits) 0 x
  have hmax : On (2 ^ bits) (2 ^ bits - 1) := ⟨by have := size_pos bits; omega, by omega⟩
  refine (mem_gamma_new top_zero_stride).mpr ⟨hx, ?_, Int.one_dvd _⟩
  rw [maxInt_eq, off_cases ⟨Int.le_refl 0, size_pos bits⟩ hmax, if_pos hmax.1]
  have := hoff.2
  omega

/-! ## Membership tests -/

theorem surroundsMember_iff {v : Int} : si.surroundsMember v = true ↔
    off (2 ^ bits) si.lowerBound v ≤ off (2 ^ bits) si.lowerBound si.upperBound := decide_eq_true_iff

theorem isInteger_iff : si.isInteger = true ↔ si.lowerBound = si.upperBound := decide_eq_true_iff

/-- The whole circle, in its normal form. -/
theorem WellFormed.of_isTop (h : si.WellFormed) (htop : si.isTop = true) :
    si.stride = 1 ∧ si.lowerBound = 0 ∧ si.upperBound = 2 ^ bits - 1 := by
  obtain ⟨hone, hmeet⟩ := of_decide_eq_true htop
  have hzero := h.whole hone hmeet
  have hupper := off_of_meet h.lower h.upper hmeet
  rw [off_cases h.lower h.upper, hzero] at hupper
  have hub := h.upper
  unfold On at hub
  refine ⟨hone, hzero, ?_⟩
  rw [if_pos hub.1] at hupper
  omega

/-- Intervals are in normal form. -/
theorem normalize_eq (h : si.WellFormed) : si.normalize = si := by
  cases hb : si.isBottom with
  | true => exact if_pos hb
  | false =>
    obtain ⟨stride, lb, ub, isBottom, uninit⟩ := si
    obtain rfl : isBottom = false := hb
    have hlb : lb % 2 ^ bits = lb := emod_of_on h.lower
    have hub : ub % 2 ^ bits = ub := emod_of_on h.upper
    have hnew : normalize ⟨stride, lb, ub, false, uninit⟩ = (new stride lb ub uninit : StridedInterval bits) := rfl
    rw [hnew]
    obtain ⟨heq, hn⟩ | ⟨hne, ⟨hmeet, hone⟩, hn⟩ | ⟨hne, hnot, hn⟩ := @new_cases bits stride lb ub uninit
    · have hzero : stride = 0 := (h.stride rfl).mpr (by rwa [hlb, hub] at heq)
      rw [hn, hlb, hub, hzero]
    · rw [hlb, hub] at hmeet
      obtain ⟨_, hlb0, hub0⟩ := h.of_isTop (decide_eq_true ⟨hone, hmeet⟩)
      dsimp only at hlb0 hub0
      rw [hn, hone, hlb0, hub0]
    · rw [hn, hlb, hub]

end StridedInterval

end Claripy.Vsa
