import Vibr.Claripy.Vsa.Shift

/-!
# Widening

A bound that the second operand passes is pushed to an end: the lower one to the least signed integer, the upper one to the
greatest unsigned integer, at the phase that the bound has. The phase of the second operand plays no part.
-/

namespace Claripy.Vsa

def minInt (k : Nat) : Int := -highbit k

/-- The greatest unsigned integer at the phase of `i`. -/
def upper (bits : Nat) (i : Int) (stride : Nat) : Int :=
  if stride ≥ 1 then
    let offset := i % stride
    let max := maxInt bits
    let maxOffset := max % stride
    if maxOffset ≥ offset then max - (maxOffset - offset) else max - (maxOffset + stride - offset)
  else maxInt bits

/-- The least signed integer at the phase of `i`. -/
def lower (bits : Nat) (i : Int) (stride : Nat) : Int :=
  if stride ≥ 1 then
    let offset := i % stride
    let min := minInt bits
    let minOffset := min % stride
    if offset ≥ minOffset then min + (offset - minOffset) else min + (offset + stride - minOffset)
  else minInt bits

namespace StridedInterval

open Arc

variable {bits : Nat} {a b s : StridedInterval bits} {x y : Int}

def widen (self b : StridedInterval bits) : Option (StridedInterval bits) :=
  Option.map (fun ret => normalizeTypes self b ret.normalize) <|
    if self.isEmpty && !b.isEmpty then some (top false)
    else if self.isEmpty then some b
    else if b.isEmpty then some self
    else
      let newStride := Nat.gcd self.stride b.stride
      let lower := if b.lowerBound < self.lowerBound then lower bits self.lowerBound newStride else self.lowerBound
      let upper := if b.upperBound > self.upperBound then upper bits self.upperBound newStride else self.upperBound
      if newStride = 0 then
        -- integers; other operands are not reduced
        if self.isInteger && b.isInteger then some (new 1 lower upper false) else none
      else some (new newStride lower upper false)

/-! ## Intervals between two bounds -/

/-- Points `s` apart, from `first` on and possibly past the circle of `m` points: they are all at multiples of `t` up to
`l` iff the first one is, and the last one is not beyond, or, past the circle, `t` fits it and the last point before is not
beyond. -/
theorem multiples_from_iff {m first s t count l : Int} (hfirst : 0 ≤ first) (hlt : first < m) (hs : 0 < s)
    (hcount : 0 ≤ count) (hround : s * count < m) (hl : l < m) (ht : t ∣ s) :
    (∀ j, 0 ≤ j → j ≤ count → (first + s * j) % m ≤ l ∧ t ∣ (first + s * j) % m) ↔
      t ∣ first ∧ first ≤ l ∧
        (first + s * count ≤ l ∨ m ≤ first + s * count ∧ t ∣ m ∧ first + s * ((m - 1 - first) / s) ≤ l) := by
  -- `q` steps before the end of the circle, one more past it
  have hq := Int.mul_ediv_add_emod (m - 1 - first) s
  have hq0 := Int.emod_nonneg (m - 1 - first) hs.ne'
  have hqlt := Int.emod_lt_of_pos (m - 1 - first) hs
  have hquot : 0 ≤ (m - 1 - first) / s := Int.ediv_nonneg (by omega) hs.le
  generalize (m - 1 - first) / s = q at hq hquot ⊢
  have hsq := Int.mul_nonneg hs.le hquot
  have hnext : s * (q + 1) = s * q + s := by ring
  have hsteps : ∀ {i j : Int}, i ≤ j → s * i ≤ s * j := fun h => Int.mul_le_mul_of_nonneg_left h hs.le
  have hmult : ∀ j, t ∣ s * j := fun j => Int.dvd_mul_of_dvd_left ht
  constructor
  · intro h
    have hzero := h 0 (Int.le_refl 0) hcount
    rw [Int.mul_zero, Int.add_zero, Int.emod_eq_of_lt hfirst hlt] at hzero
    refine ⟨hzero.2, hzero.1, ?_⟩
    by_cases hpast : m ≤ first + s * count
    · have hqcount : q < count := by
        by_contra hge
        have := hsteps (Int.not_lt.mp hge)
        omega
      have hover := (h (q + 1) (by omega) (by omega)).2
      rw [← Int.sub_emod_right, Int.emod_eq_of_lt (by omega) (by have := hsteps (show q + 1 ≤ count by omega); omega)] at hover
      have hbefore := (h q hquot (by omega)).1
      rw [Int.emod_eq_of_lt (by omega) (by omega)] at hbefore
      refine .inr ⟨hpast, ?_, hbefore⟩
      have := Int.dvd_sub (Int.dvd_add hzero.2 (hmult (q + 1))) hover
      rwa [sub_sub_cancel] at this
    · have hlast := (h count hcount (Int.le_refl _)).1
      have := Int.mul_nonneg hs.le hcount
      rw [Int.emod_eq_of_lt (by omega) (by omega)] at hlast
      exact .inl hlast
  · rintro ⟨hdvd, hle, hlast⟩ j hj hjcount
    have hjle := hsteps hjcount
    have hj0 := Int.mul_nonneg hs.le hj
    have hpoint := Int.dvd_add hdvd (hmult j)
    by_cases hpast : m ≤ first + s * j
    · rcases hlast with hlast | ⟨-, hm, -⟩
      · omega
      · rw [← Int.sub_emod_right, Int.emod_eq_of_lt (by omega) (by omega)]
        exact ⟨by omega, Int.dvd_sub hpoint hm⟩
    rw [Int.emod_eq_of_lt (by omega) (by omega)]
    refine ⟨?_, hpoint⟩
    rcases hlast with hlast | ⟨-, -, hbefore⟩
    · omega
    have hjq : j ≤ q := by
      by_contra hgt
      have := hsteps (show q + 1 ≤ j by omega)
      omega
    have := hsteps hjq
    omega

/-- The integers of an interval are at multiples of a stride between two bounds: the first one is, and the last one is not
beyond the upper bound, or, where they pass the lower bound, the stride fits the circle and there is none beyond. -/
def Spans (stride : Nat) (lb ub : Int) (s : StridedInterval bits) : Prop :=
  let first := off (2 ^ bits) lb s.lowerBound
  let last := first + s.stride * (s.length / s.stride)
  (stride : Int) ∣ first ∧ first ≤ off (2 ^ bits) lb ub ∧
    (last ≤ off (2 ^ bits) lb ub ∨ 2 ^ bits ≤ last ∧ (stride : Int) ∣ 2 ^ bits ∧
      first + s.stride * ((2 ^ bits - 1 - first) / s.stride) ≤ off (2 ^ bits) lb ub)

instance {stride : Nat} {lb ub : Int} : Decidable (Spans stride lb ub s) := inferInstanceAs (Decidable (_ ∧ _))

theorem spans_iff {stride : Nat} {lb ub : Int} (uninit : Bool) (hs : s.WellFormed) (hb : s.isBottom = false)
    (hpos : stride ≠ 0) (hstride : stride ∣ s.stride) :
    (∀ x ∈ s.gamma, x ∈ (new stride lb ub uninit : StridedInterval bits).gamma) ↔ Spans stride lb ub s := by
  have hmem : ∀ x, x ∈ (new stride lb ub uninit : StridedInterval bits).gamma ↔ On (2 ^ bits) x ∧
      off (2 ^ bits) lb x ≤ off (2 ^ bits) lb ub ∧ (stride : Int) ∣ off (2 ^ bits) lb x :=
    fun x => mem_gamma_new fun h => absurd h hpos
  have hfirst := off_on (size_pos bits) lb s.lowerBound
  have hl := (off_on (size_pos bits) lb ub).2
  by_cases hzero : s.stride = 0
  · -- one integer
    have hint := (hs.stride hb).mp hzero
    have hall : (∀ x ∈ s.gamma, x ∈ (new stride lb ub uninit : StridedInterval bits).gamma) ↔
        s.lowerBound ∈ (new stride lb ub uninit : StridedInterval bits).gamma := by
      constructor
      · exact fun h => h _ (lowerBound_mem hs hb)
      intro h x hx
      obtain ⟨-, hle, -⟩ := (mem_gamma hs hb).mp hx
      rw [← hint, off_self] at hle
      have hx0 := (off_on (size_pos bits) s.lowerBound x).1
      rwa [(off_eq_zero_iff hs.lower (gamma_on hs hx)).mp (by omega)]
    rw [hall, hmem]
    unfold Spans
    dsimp only
    rw [hzero, Nat.cast_zero, Int.zero_mul, Int.add_zero]
    unfold On at hfirst
    constructor
    · rintro ⟨-, hle, hdvd⟩
      exact ⟨hdvd, hle, .inl hle⟩
    · rintro ⟨hdvd, hle, -⟩
      exact ⟨hs.lower, hle, hdvd⟩
  · have hspos : (0 : Int) < s.stride := by omega
    have hlength := off_on (size_pos bits) s.lowerBound s.upperBound
    have hround : s.stride * (s.length / s.stride) < (2 : Int) ^ bits :=
      (Int.mul_ediv_self_le hspos.ne').trans_lt hlength.2
    refine Iff.trans ?_ (multiples_from_iff hfirst.1 hfirst.2 hspos (Int.ediv_nonneg hlength.1 hspos.le) hround hl
      (Int.natCast_dvd_natCast.mpr hstride))
    refine Iff.trans ?_ (forall_off_iff hs hb hzero fun d => (off (2 ^ bits) lb s.lowerBound + d) % 2 ^ bits ≤
      off (2 ^ bits) lb ub ∧ (stride : Int) ∣ (off (2 ^ bits) lb s.lowerBound + d) % 2 ^ bits)
    refine forall₂_congr fun x hx => ?_
    rw [hmem, ← off_trans]
    exact and_iff_right (gamma_on hs hx)

/-! ## The bounds of the result -/

/-- The lower bound is kept, or it is the least signed integer at its phase. -/
def widenedLower (a b : StridedInterval bits) : Int :=
  if b.lowerBound < a.lowerBound then lower bits a.lowerBound (Nat.gcd a.stride b.stride) else a.lowerBound

/-- The upper bound is kept, or it is the greatest unsigned integer at its phase. -/
def widenedUpper (a b : StridedInterval bits) : Int :=
  if b.upperBound > a.upperBound then upper bits a.upperBound (Nat.gcd a.stride b.stride) else a.upperBound

/-- Two integers are joined at a stride of one. -/
def widenedStride (a b : StridedInterval bits) : Nat := max (Nat.gcd a.stride b.stride) 1

/-- An operand is empty, or both lie between the bounds at the common stride. -/
def WidenExact (a b : StridedInterval bits) : Prop :=
  a.isBottom = true ∨ b.isBottom = true ∨ Spans (widenedStride a b) (widenedLower a b) (widenedUpper a b) a ∧
    Spans (widenedStride a b) (widenedLower a b) (widenedUpper a b) b

instance : Decidable (WidenExact a b) := inferInstanceAs (Decidable (_ ∨ _))

theorem widen_of_nonempty (ha : a.WellFormed) (hb : b.WellFormed) (hab : a.isBottom = false) (hbb : b.isBottom = false) :
    a.widen b = some (normalizeTypes a b (new (widenedStride a b) (widenedLower a b) (widenedUpper a b) false)) := by
  have hwf : (new (widenedStride a b) (widenedLower a b) (widenedUpper a b) false : StridedInterval bits).WellFormed :=
    new_wellFormed fun h => by unfold widenedStride at h; omega
  unfold widen isEmpty
  rw [hab, hbb]
  show Option.map (fun ret => normalizeTypes a b ret.normalize) (if Nat.gcd a.stride b.stride = 0 then
      if a.isInteger && b.isInteger then some (new 1 (widenedLower a b) (widenedUpper a b) false) else none
    else some (new (Nat.gcd a.stride b.stride) (widenedLower a b) (widenedUpper a b) false)) = _
  split
  · next hzero =>
      obtain ⟨hza, hzb⟩ := Nat.gcd_eq_zero_iff.mp hzero
      rw [isInteger_iff.mpr ((ha.stride hab).mp hza), isInteger_iff.mpr ((hb.stride hbb).mp hzb),
        show (1 : Nat) = widenedStride a b by unfold widenedStride; rw [hzero]; rfl]
      exact congrArg (fun r => some (normalizeTypes a b r)) (normalize_eq hwf)
  · next hpos =>
      rw [show Nat.gcd a.stride b.stride = widenedStride a b by unfold widenedStride; omega]
      exact congrArg (fun r => some (normalizeTypes a b r)) (normalize_eq hwf)

theorem widenedStride_dvd (a b : StridedInterval bits) : widenedStride a b ∣ a.stride ∧ widenedStride a b ∣ b.stride := by
  unfold widenedStride
  rcases Nat.eq_zero_or_pos (Nat.gcd a.stride b.stride) with hzero | hpos
  · rw [hzero]
    exact ⟨Nat.one_dvd _, Nat.one_dvd _⟩
  · rw [Nat.max_eq_left hpos]
    exact ⟨Nat.gcd_dvd_left _ _, Nat.gcd_dvd_right _ _⟩

end StridedInterval

end Claripy.Vsa
