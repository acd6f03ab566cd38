import Vibr.Claripy.Vsa.ShiftArithmetic

/-!
# All shifts

The left shift keeps the integers where the multiples of the shifted stride are not reduced past the upper bound. An
amount that is no number is not looked at: the range of amounts is then read off the operand.
-/

namespace Claripy.Vsa.StridedInterval

open Arc

variable {bits : Nat} {a s n : StridedInterval bits} {x y : Int}

/-! ## The left shift -/

/-- The shift to the left, by a number of bits. -/
def shiftedLeft (shiftAmount : Nat) (si : StridedInterval bits) : StridedInterval bits :=
  new (max (si.stride <<< shiftAmount) 1) (si.lowerBound * 2 ^ shiftAmount) (si.upperBound * 2 ^ shiftAmount)
    si.uninitialized

/-- There is one integer, or all integers are shifted to one, or the length does not go past the circle when it is
shifted, or it goes up to the last one of the shifted integers. -/
def ShiftsLeft (s : StridedInterval bits) (k : Nat) : Prop :=
  s.length / s.stride = 0 ∨ (2 : Int) ^ bits ∣ s.stride * 2 ^ k ∨ s.length * 2 ^ k < 2 ^ bits ∨
    ((s.stride : Int) * 2 ^ k ∣ 2 ^ bits ∧ 2 ^ bits - s.stride * 2 ^ k ≤ s.length * 2 ^ k % 2 ^ bits)

instance {k : Nat} : Decidable (ShiftsLeft s k) := inferInstanceAs (Decidable (_ ∨ _))

theorem shiftedLeft_stride_pos {s k : Nat} : max (s <<< k) 1 ≠ 0 := by
  have := Nat.le_max_right (s <<< k) 1
  omega

variable {k : Nat}

theorem shiftedLeft_wellFormed : (shiftedLeft k s).WellFormed :=
  new_wellFormed fun h => absurd h shiftedLeft_stride_pos

theorem mem_shiftedLeft : x * 2 ^ k % 2 ^ bits ∈ (shiftedLeft k s).gamma ↔
    off (2 ^ bits) s.lowerBound x * 2 ^ k % 2 ^ bits ≤ s.length * 2 ^ k % 2 ^ bits ∧
      ((max (s.stride <<< k) 1 : Nat) : Int) ∣ off (2 ^ bits) s.lowerBound x * 2 ^ k % 2 ^ bits := by
  have hoff : ∀ y : Int, off (2 ^ bits) (s.lowerBound * 2 ^ k) (y * 2 ^ k) =
      off (2 ^ bits) s.lowerBound y * 2 ^ k % 2 ^ bits := by
    intro y
    unfold off
    rw [← Int.sub_mul, Int.mul_emod ((y - s.lowerBound) % 2 ^ bits), Int.emod_emod_of_dvd _ (Int.dvd_refl _), ← Int.mul_emod]
  unfold shiftedLeft length
  rw [mem_gamma_new fun h => absurd h shiftedLeft_stride_pos, off_emod_right, hoff, hoff]
  exact and_iff_right (emod_on (size_pos bits) _)

theorem shiftedLeft_sound_iff (hs : s.WellFormed) (hb : s.isBottom = false) :
    (∀ x ∈ s.gamma, x * 2 ^ k % 2 ^ bits ∈ (shiftedLeft k s).gamma) ↔ ShiftsLeft s k := by
  have hlength := (off_on (size_pos bits) s.lowerBound s.upperBound).1
  have hpow : (0 : Int) < 2 ^ k := Int.pow_pos (by decide)
  by_cases hstride : s.stride = 0
  · have hzero : s.length / s.stride = 0 := by
      rw [hstride, Nat.cast_zero, Int.ediv_zero]
    refine iff_of_true (fun x hx => ?_) (.inl hzero)
    obtain ⟨-, -, hdvd⟩ := off_spec hs hx
    rw [hstride, Nat.cast_zero, Int.zero_dvd] at hdvd
    rw [mem_shiftedLeft, hdvd, Int.zero_mul, Int.zero_emod]
    exact ⟨Int.emod_nonneg _ (size_pos bits).ne', Int.dvd_zero _⟩
  have hpos : (0 : Int) < s.stride := by omega
  have hcast : ((max (s.stride <<< k) 1 : Nat) : Int) = s.stride * 2 ^ k := by
    have hshift : s.stride <<< k = s.stride * 2 ^ k := Nat.shiftLeft_eq _ _
    have := Nat.mul_pos (Nat.pos_of_ne_zero hstride) (Nat.two_pow_pos k)
    rw [Nat.max_eq_left (by omega), hshift]
    push_cast
    rfl
  have hquot := Int.mul_ediv_add_emod s.length s.stride
  have hquot0 := Int.emod_nonneg s.length hpos.ne'
  have hquotlt := Int.emod_lt_of_pos s.length hpos
  have hcount : 0 ≤ s.length / s.stride := Int.ediv_nonneg hlength hpos.le
  have hmul : ∀ j : Int, s.stride * 2 ^ k * j = s.stride * j * 2 ^ k := fun j => by ring
  have hle : s.stride * 2 ^ k * (s.length / s.stride) ≤ s.length * 2 ^ k := by
    rw [hmul]
    exact Int.mul_le_mul_of_nonneg_right (by omega) hpow.le
  have hlt : s.length * 2 ^ k < s.stride * 2 ^ k * (s.length / s.stride + 1) := by
    rw [hmul]
    refine Int.mul_lt_mul_of_pos_right ?_ hpow
    rw [Int.mul_add, Int.mul_one]
    omega
  refine Iff.trans ?_ (multiples_iff (size_pos bits) (Int.mul_pos hpos hpow) hcount hle hlt)
  refine Iff.trans ?_ ((forall_off_iff hs hb hstride fun d => d * 2 ^ k % 2 ^ bits ≤ s.length * 2 ^ k % 2 ^ bits ∧
    (s.stride : Int) * 2 ^ k ∣ d * 2 ^ k % 2 ^ bits).trans ?_)
  · refine forall₂_congr fun x _ => ?_
    rw [mem_shiftedLeft, hcast]
  · exact forall₃_congr fun j _ _ => by rw [hmul]

/-! ## Amounts -/

section Amounts

theorem round_eq (max : Nat) (hy : 0 ≤ y) : round max y = min max y.toNat := by
  unfold round
  split <;> omega

theorem amounts_single (k : Nat) : amounts (k, k) = [k] := by
  unfold amounts
  rw [Nat.add_sub_cancel_left]
  rfl

theorem getShiftRange_of_integer (hint : n.isInteger = true) : s.getShiftRange (.interval n) =
    (round bits n.lowerBound, round bits n.lowerBound) := if_pos hint

theorem unionOfAll_single (shift : Nat → Option (StridedInterval bits)) (k : Nat) :
    unionOfAll shift [k] = (shift k).map some := by
  unfold unionOfAll
  rw [List.foldlM_cons]
  cases shift k <;> rfl

/-- A right shift by one amount. -/
theorem rshift_of_single {shift : Nat → StridedInterval bits → Option (StridedInterval bits)}
    {shiftAmount : ShiftAmount bits} {r : StridedInterval bits} (hrange : s.getShiftRange shiftAmount = (k, k))
    (hr : shift k s = some r) (hrwf : r.WellFormed) :
    s.rshift shift shiftAmount = some { r with uninitialized := s.uninitialized } := by
  unfold rshift
  rw [hrange, amounts_single, unionOfAll_single, hr]
  show some { r.normalize with uninitialized := s.uninitialized } = _
  rw [normalize_eq hrwf]

theorem lshift_of_single {shiftAmount : ShiftAmount bits} (hrange : s.getShiftRange shiftAmount = (k, k)) :
    s.lshift shiftAmount = shiftedLeft k s := by
  unfold lshift
  dsimp only
  rw [hrange, amounts_single]
  exact normalize_eq shiftedLeft_wellFormed

/-- A shift to the right by more bits than there are is one by all of them. -/
theorem ediv_round (hx : -2 ^ bits ≤ x ∧ x < 2 ^ bits) (hy : 0 ≤ y) : x / 2 ^ y.toNat = x / 2 ^ round bits y := by
  rw [round_eq bits hy]
  rcases Nat.le_total y.toNat bits with hle | hle
  · rw [Nat.min_eq_right hle]
  have hpow : (2 : Int) ^ bits ≤ 2 ^ y.toNat := by exact_mod_cast Nat.pow_le_pow_right (by decide) hle
  have hpos := size_pos bits
  rw [Nat.min_eq_left hle]
  by_cases hneg : x < 0
  · have hminus : ∀ m : Int, 0 < m → -m ≤ x → x / m = -1 := fun m hm hle =>
      (Int.ediv_eq_iff_of_pos hm).mpr (by omega)
    rw [hminus _ (by omega) (by omega), hminus _ hpos hx.1]
  · rw [Int.ediv_eq_zero_of_lt (by omega) (by omega), Int.ediv_eq_zero_of_lt (by omega) hx.2]

/-- The same for shifts to the left. -/
theorem mul_round (x : Int) (hy : 0 ≤ y) : x * 2 ^ y.toNat % 2 ^ bits = x * 2 ^ round bits y % 2 ^ bits := by
  rw [round_eq bits hy]
  rcases Nat.le_total y.toNat bits with hle | hle
  · rw [Nat.min_eq_right hle]
  · rw [Nat.min_eq_left hle, Int.mul_emod_left, ← Nat.add_sub_cancel' hle, pow_add, ← Int.mul_assoc, Int.mul_right_comm,
      Int.mul_emod_left]

end Amounts

/-! ## All shifts -/

/-- With enough calls, all three shifts contain the shifts of all integers by all amounts. -/
def ShiftSound (a n : StridedInterval bits) : Prop :=
  ∃ enough, ∀ depth ≥ enough, ∀ x ∈ a.gamma, ∀ y ∈ n.gamma,
    (∃ r, a.rshiftLogical depth (.interval n) = some r ∧ x / 2 ^ y.toNat ∈ r.gamma) ∧
    (∃ r, a.rshiftArithmetic depth (.interval n) = some r ∧ signed bits x / 2 ^ y.toNat % 2 ^ bits ∈ r.gamma) ∧
    x * 2 ^ y.toNat % 2 ^ bits ∈ (a.lshift (.interval n)).gamma

/-- The amount is one number, the interval is split right at both poles, and its stride and its bounds are shifted
right. -/
structure ShiftsBy (a n : StridedInterval bits) : Prop where
  single : n.isInteger = true
  south : SplitsSouth a
  north : SplitsNorth a
  rescales : Rescales a.stride a.lowerBound a.length (round bits n.lowerBound)
  left : ShiftsLeft a (round bits n.lowerBound)
  signs : Wraps a → n.lowerBound < bits

/-- One operand is empty, or the shifts are by one number of bits, and right. -/
def ShiftExact (a n : StridedInterval bits) : Prop := a.isBottom = true ∨ n.isBottom = true ∨ ShiftsBy a n

theorem signed_bounds (hx : On (2 ^ bits) x) : -2 ^ bits ≤ signed bits x ∧ signed bits x < 2 ^ bits := by
  unfold signed
  unfold On at hx
  split <;> omega

theorem shiftSound_of_shiftsBy (ha : a.WellFormed) (hab : a.isBottom = false) (hn : n.WellFormed) (h : ShiftsBy a n) :
    ShiftSound a n := by
  have hrange := getShiftRange_of_integer (s := a) h.single
  have hround := round_eq bits hn.lower.1
  have hk : round bits n.lowerBound ≤ bits := by
    rw [hround]
    exact Nat.min_le_left _ _
  have hsigns : Wraps a → round bits n.lowerBound < bits := by
    intro hwraps
    have := h.signs hwraps
    have := hn.lower.1
    rw [hround]
    omega
  obtain ⟨r, hr, hrwf, hmem⟩ := rshiftLogicalBy_sound ha hab h.south h.rescales hk
  obtain ⟨r', hr', hrwf', hmem'⟩ := rshiftArithmeticBy_sound ha hab h.north h.rescales hk hsigns
  refine ⟨2, fun depth hdepth x hx y hy => ?_⟩
  obtain ⟨depth, rfl⟩ := Nat.exists_eq_add_of_le' hdepth
  have hx' := gamma_on ha hx
  have hx0 := hx'.1
  have hpos := size_pos bits
  rw [eq_of_mem_integer hn h.single hy, ediv_round ⟨by omega, hx'.2⟩ hn.lower.1, ediv_round (signed_bounds hx') hn.lower.1,
    mul_round x hn.lower.1]
  refine ⟨⟨_, rshift_of_single hrange (hr depth) hrwf, hmem x hx⟩,
    ⟨_, rshift_of_single hrange (hr' depth) hrwf', hmem' x hx⟩, ?_⟩
  rw [lshift_of_single hrange]
  exact (shiftedLeft_sound_iff ha hab).mpr h.left x hx

end Claripy.Vsa.StridedInterval
