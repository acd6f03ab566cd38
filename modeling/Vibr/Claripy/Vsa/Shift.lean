import Vibr.Claripy.Vsa.Pieces

/-!
# Shifts

The amounts are those from one number of bits to another one. Right shifts split an interval at a pole, shift the bounds
and the stride of the pieces, and join the results; the left shift works on the bounds as they are. Pieces are split again where they
go over the pole again, so that the recursion need not end.
-/

namespace Claripy.Vsa.StridedInterval

open Arc

variable {bits : Nat} {a b s p n : StridedInterval bits} {x y : Int}

/-- A shift amount is a number or an interval. -/
inductive ShiftAmount (bits : Nat) where
  | number (n : Nat)
  | interval (si : StridedInterval bits)

def round (max : Nat) (x : Int) : Nat := if x < 0 ∨ x > max then max else x.toNat

/-- The range of bits for shifting. -/
def getShiftRange (self : StridedInterval bits) : ShiftAmount bits → Nat × Nat
  | .number n => (n, n)
  | .interval shiftAmount =>
    if shiftAmount.isInteger then (round bits shiftAmount.lowerBound, round bits shiftAmount.lowerBound)
    else if shiftAmount.lowerBound < 0 then if shiftAmount.upperBound ≥ 0 then (0, bits) else (bits, bits)
    else (round bits self.lowerBound, round bits self.upperBound)

/-- `range(lower, upper + 1)` -/
def amounts (range : Nat × Nat) : List Nat := List.range' range.1 (range.2 + 1 - range.1)

/-- Discrete sets are not allowed, which is the default. -/
def union (self b : StridedInterval bits) : Option (StridedInterval bits) := do
  return normalizeTypes self b (← leastUpperBound [self, b])

/-- Logical shift right by a number of bits, with calls up to a depth. -/
def rshiftLogicalBy (depth shiftAmount : Nat) (self : StridedInterval bits) : Option (StridedInterval bits) :=
  match depth with
  | 0 => none
  | depth + 1 =>
    if self.isEmpty then some self
    else do
      let ssplit ← self.ssplit
      if ssplit.length = 1 then
        let lower := self.lowerBound / 2 ^ shiftAmount
        let upper := self.upperBound / 2 ^ shiftAmount
        let stride := max (self.stride >>> shiftAmount) 1
        return new stride lower upper self.uninitialized
      let a ← rshiftLogicalBy depth shiftAmount (← ssplit[0]?)
      let b ← rshiftLogicalBy depth shiftAmount (← ssplit[1]?)
      a.union b

/-- Arithmetic shift right by a number of bits, with calls up to a depth. -/
def rshiftArithmeticBy (depth shiftAmount : Nat) (self : StridedInterval bits) : Option (StridedInterval bits) :=
  match depth with
  | 0 => none
  | depth + 1 =>
    if self.isEmpty then some self
    else do
      let nsplit ← self.nsplit
      if nsplit.length = 1 then
        -- preserve the highest bit
        let highestBitSet := self.lowerBound > signedMaxInt bits
        let lower := (self.lowerBound / 2 ^ shiftAmount).toNat
        let upper := (self.upperBound / 2 ^ shiftAmount).toNat
        let stride := max (self.stride >>> shiftAmount) 1
        let mask ← if shiftAmount ≤ bits then some ((2 ^ shiftAmount - 1) <<< (bits - shiftAmount)) else none
        let lower := if highestBitSet then lower ||| mask else lower
        let upper := if highestBitSet then upper ||| mask else upper
        let stride := if lower = upper then 0 else stride
        return new stride lower upper self.uninitialized
      let a ← rshiftArithmeticBy depth shiftAmount (← nsplit[0]?)
      let b ← rshiftArithmeticBy depth shiftAmount (← nsplit[1]?)
      a.union b

/-- The union of the results of all amounts. -/
def unionOfAll (shift : Nat → Option (StridedInterval bits)) (amounts : List Nat) :
    Option (Option (StridedInterval bits)) :=
  amounts.foldlM (fun ret amount => do
    let si ← shift amount
    match ret with
    | none => return some si
    | some ret => return some (← ret.union si)) none

/-- A right shift by an amount, from one by a number of bits. -/
def rshift (shift : Nat → StridedInterval bits → Option (StridedInterval bits)) (self : StridedInterval bits)
    (shiftAmount : ShiftAmount bits) : Option (StridedInterval bits) := do
  match ← unionOfAll (fun amount => shift amount self) (amounts (self.getShiftRange shiftAmount)) with
  | none => return top false
  | some ret => return { ret.normalize with uninitialized := self.uninitialized }

def rshiftLogical (depth : Nat) (self : StridedInterval bits) (shiftAmount : ShiftAmount bits) :
    Option (StridedInterval bits) := self.rshift (rshiftLogicalBy depth) shiftAmount

def rshiftArithmetic (depth : Nat) (self : StridedInterval bits) (shiftAmount : ShiftAmount bits) :
    Option (StridedInterval bits) := self.rshift (rshiftArithmeticBy depth) shiftAmount

/-- Bounds that are not given are those of the whole circle. -/
def lshift (self : StridedInterval bits) (shiftAmount : ShiftAmount bits) : StridedInterval bits :=
  let range := self.getShiftRange shiftAmount
  let newLowerBound := ((amounts range).map fun amount => self.lowerBound * 2 ^ amount).min?
  let newUpperBound := ((amounts range).map fun amount => self.upperBound * 2 ^ amount).max?
  let ret := new (max (self.stride <<< range.1) 1) (newLowerBound.getD 0) (newUpperBound.getD (2 ^ bits - 1))
    self.uninitialized
  ret.normalize

/-! ## Strides -/

/-- The integers at a stride, shifted to the right, are at the shifted stride: it is one at the most, or no bits that are
shifted out are carried. -/
def Rescales (stride : Nat) (lb length : Int) (k : Nat) : Prop :=
  stride / 2 ^ k ≤ 1 ∨ lb % 2 ^ k + length / stride * ((stride : Int) % 2 ^ k) < 2 ^ k

instance {stride : Nat} {lb length : Int} {k : Nat} : Decidable (Rescales stride lb length k) :=
  inferInstanceAs (Decidable (_ ∨ _))

section Strides

variable {stride k : Nat} {lb length d j m : Int}

/-- The quotients of two numbers that are a multiple of a stride apart. -/
theorem ediv_sub_ediv (hm : 0 < m) (lb j s : Int) :
    (lb + s * j) / m - lb / m = s / m * j + (lb % m + s % m * j) / m := by
  have hlb := Int.mul_ediv_add_emod lb m
  have hs := Int.mul_ediv_add_emod s m
  have hsum : lb + s * j = lb % m + s % m * j + m * (lb / m + s / m * j) := by
    calc lb + s * j = (m * (lb / m) + lb % m) + (m * (s / m) + s % m) * j := by rw [hlb, hs]
      _ = lb % m + s % m * j + m * (lb / m + s / m * j) := by ring
  rw [hsum, Int.add_mul_ediv_left _ _ hm.ne']
  omega

theorem cast_shifted (stride k : Nat) : ((stride >>> k : Nat) : Int) = (stride : Int) / 2 ^ k := by
  rw [Nat.shiftRight_eq_div_pow]
  push_cast
  rfl

theorem Rescales.dvd (h : Rescales stride lb length k) (hd : 0 ≤ d) (hle : d ≤ length) (hdvd : (stride : Int) ∣ d) :
    ((max (stride >>> k) 1 : Nat) : Int) ∣ (lb + d) / 2 ^ k - lb / 2 ^ k := by
  have hpos : (0 : Int) < 2 ^ k := Int.pow_pos (by decide)
  rcases h with hone | hlow
  · rw [Nat.shiftRight_eq_div_pow, Nat.max_eq_right hone]
    exact Int.one_dvd _
  by_cases hsmall : stride >>> k ≤ 1
  · rw [Nat.max_eq_right hsmall]
    exact Int.one_dvd _
  obtain ⟨j, rfl⟩ := hdvd
  have hstride : (0 : Int) < stride := by
    rcases Nat.eq_zero_or_pos stride with rfl | hpos
    · rw [Nat.zero_shiftRight] at hsmall
      exact absurd (Nat.zero_le 1) hsmall
    · exact_mod_cast hpos
  have hj : 0 ≤ j := Int.nonneg_of_mul_nonneg_right hd hstride
  have hjle : j ≤ length / stride := by
    rw [Int.le_ediv_iff_mul_le hstride, Int.mul_comm]
    exact hle
  -- nothing is carried
  have hrest := Int.emod_nonneg (stride : Int) hpos.ne'
  have hprod : (stride : Int) % 2 ^ k * j ≤ length / stride * ((stride : Int) % 2 ^ k) := by
    rw [Int.mul_comm]
    exact Int.mul_le_mul_of_nonneg_right hjle hrest
  have hnonneg := Int.mul_nonneg hrest hj
  have hcarry : (lb % 2 ^ k + (stride : Int) % 2 ^ k * j) / 2 ^ k = 0 :=
    Int.ediv_eq_zero_of_lt (by omega) (by omega)
  rw [ediv_sub_ediv hpos, hcarry, Int.add_zero, Nat.max_eq_left (Nat.le_of_not_le hsmall), cast_shifted]
  exact Int.dvd_mul_right _ _

/-- Where all shifted integers are at the shifted stride, it is one at the most, or nothing is carried. -/
theorem rescales_of_dvd (hstride : stride ≠ 0)
    (h : ∀ d, 0 ≤ d → d ≤ length → (stride : Int) ∣ d →
      ((max (stride >>> k) 1 : Nat) : Int) ∣ (lb + d) / 2 ^ k - lb / 2 ^ k) (hlength : 0 ≤ length) :
    Rescales stride lb length k := by
  have hpos : (0 : Int) < 2 ^ k := Int.pow_pos (by decide)
  have hspos : (0 : Int) < stride := by omega
  by_cases hsmall : stride / 2 ^ k ≤ 1
  · exact .inl hsmall
  refine .inr ?_
  have hrest := Int.emod_nonneg (stride : Int) hpos.ne'
  have hlow : ∀ j : Nat, (j : Int) ≤ length / stride → lb % 2 ^ k + (stride : Int) % 2 ^ k * j < 2 ^ k := by
    intro j
    induction j with
    | zero =>
      intro _
      rw [Nat.cast_zero, Int.mul_zero, Int.add_zero]
      exact Int.emod_lt_of_pos lb hpos
    | succ j ih =>
      intro hj
      have hprev := ih (by omega)
      have hnext : (stride : Int) % 2 ^ k * (j + 1 : Nat) = (stride : Int) % 2 ^ k * j + (stride : Int) % 2 ^ k := by
        push_cast
        ring
      have hdvd := h (stride * (j + 1 : Nat)) (Int.mul_nonneg (Int.natCast_nonneg _) (Int.natCast_nonneg _)) (by
        rw [Int.mul_comm]
        exact (Int.le_ediv_iff_mul_le hspos).mp hj) (Int.dvd_mul_right _ _)
      rw [ediv_sub_ediv hpos, Nat.max_eq_left (by rw [Nat.shiftRight_eq_div_pow]; omega), cast_shifted] at hdvd
      have hcarry := (Int.dvd_add_right (Int.dvd_mul_right _ _)).mp hdvd
      by_contra hge
      -- the carry is one
      have hone : (lb % 2 ^ k + (stride : Int) % 2 ^ k * (j + 1 : Nat)) / 2 ^ k = 1 := by
        rw [hnext] at hge ⊢
        exact (Int.ediv_eq_iff_of_pos hpos).mpr (by omega)
      rw [hone] at hcarry
      have hle := Int.le_of_dvd (by decide) hcarry
      rw [← cast_shifted, Nat.shiftRight_eq_div_pow] at hle
      omega
  have hcount : 0 ≤ length / stride := Int.ediv_nonneg hlength (Int.natCast_nonneg _)
  have := hlow (length / stride).toNat (by omega)
  rwa [Int.toNat_of_nonneg hcount, Int.mul_comm] at this

/-- The multiples of `s` up to `l` stay multiples of `s` up to `l`, modulo `m`: there is none but zero, or all are zero, or
`l` is not reduced, or none of them is left out. -/
theorem multiples_iff {s l count : Int} (hm : 0 < m) (hs : 0 < s) (hcount : 0 ≤ count) (hle : s * count ≤ l)
    (hlt : l < s * (count + 1)) :
    (∀ j, 0 ≤ j → j ≤ count → s * j % m ≤ l % m ∧ s ∣ s * j % m) ↔
      count = 0 ∨ m ∣ s ∨ l < m ∨ s ∣ m ∧ m - s ≤ l % m := by
  have hl0 : 0 ≤ l := (Int.mul_nonneg hs.le hcount).trans hle
  constructor
  · intro h
    by_cases hzero : count = 0
    · exact .inl hzero
    by_cases hdvd : m ∣ s
    · exact .inr (.inl hdvd)
    by_cases hsmall : l < m
    · exact .inr (.inr (.inl hsmall))
    -- the first multiple is not reduced
    have hslt : s < m := by
      obtain ⟨-, hone⟩ := h 1 (by decide) (by omega)
      rw [Int.mul_one] at hone
      have hpos := Int.emod_nonneg s hm.ne'
      have hne : s % m ≠ 0 := fun h => hdvd (Int.dvd_of_emod_eq_zero h)
      exact (Int.le_of_dvd (by omega) hone).trans_lt (Int.emod_lt_of_pos s hm)
    have hnext : s * (count + 1) = s * count + s := by ring
    by_cases hall : s * count < m
    · -- the bound is reduced below the last multiple
      have hlast := (h count hcount (Int.le_refl _)).1
      have hred : l % m = l - m := by
        rw [← Int.sub_emod_right, Int.emod_eq_of_lt (by omega) (by omega)]
      rw [Int.emod_eq_of_lt (Int.mul_nonneg hs.le hcount) hall, hred] at hlast
      omega
    -- the first multiple that is reduced
    have hq := Int.mul_ediv_add_emod (m - 1) s
    have hq0 := Int.emod_nonneg (m - 1) hs.ne'
    have hqlt := Int.emod_lt_of_pos (m - 1) hs
    have hquot : 0 ≤ (m - 1) / s := Int.ediv_nonneg (by omega) hs.le
    generalize (m - 1) / s = q at hq hquot
    have hqcount : q < count := by
      by_contra hge
      have := Int.mul_le_mul_of_nonneg_left (Int.not_lt.mp hge) hs.le
      omega
    have hstep : s * (q + 1) = s * q + s := by ring
    have hover := (h (q + 1) (by omega) (by omega)).2
    rw [← Int.sub_emod_right, Int.emod_eq_of_lt (by omega) (by omega)] at hover
    have hexact : s * (q + 1) = m := by
      have := Int.eq_zero_of_dvd_of_nonneg_of_lt (by omega) (by omega) hover
      omega
    refine .inr (.inr (.inr ⟨⟨q + 1, hexact.symm⟩, ?_⟩))
    have hbefore := (h q hquot (by omega)).1
    rw [Int.emod_eq_of_lt (Int.mul_nonneg hs.le hquot) (by omega)] at hbefore
    omega
  · intro h j hj hjle
    have hnonneg := Int.mul_nonneg hs.le hj
    have hjl := (Int.mul_le_mul_of_nonneg_left hjle hs.le).trans hle
    rcases h with rfl | hdvd | hsmall | ⟨hdvd, hlow⟩
    · obtain rfl : j = 0 := by omega
      rw [Int.mul_zero, Int.zero_emod]
      exact ⟨Int.emod_nonneg _ hm.ne', Int.dvd_zero _⟩
    · rw [Int.emod_eq_zero_of_dvd (Int.dvd_mul_of_dvd_left hdvd)]
      exact ⟨Int.emod_nonneg _ hm.ne', Int.dvd_zero _⟩
    · rw [Int.emod_eq_of_lt hnonneg (by omega), Int.emod_eq_of_lt hl0 hsmall]
      exact ⟨hjl, Int.dvd_mul_right _ _⟩
    have hrem : s ∣ s * j % m := by
      rw [Int.emod_def]
      exact Int.dvd_sub (Int.dvd_mul_right _ _) (Int.dvd_mul_of_dvd_left hdvd)
    have hlt' := Int.emod_lt_of_pos (s * j) hm
    have := Int.le_of_dvd (by omega) (Int.dvd_sub hdvd hrem)
    exact ⟨by omega, hrem⟩

end Strides

/-! ## The logical shift -/

section Logical

variable {depth k : Nat}

theorem shifted_on (k : Nat) (hx : On (2 ^ bits) x) : On (2 ^ bits) (x / 2 ^ k) := by
  have hpos : (0 : Int) < 2 ^ k := Int.pow_pos (by decide)
  exact ⟨Int.ediv_nonneg hx.1 hpos.le, Int.lt_of_le_of_lt (Int.ediv_le_self _ hx.1) hx.2⟩

theorem shifted_le (k : Nat) (h : x ≤ y) : x / 2 ^ k ≤ y / 2 ^ k := Int.ediv_le_ediv (Int.pow_pos (by decide)) h

/-- The shift of a piece, which is not split again. -/
def shiftedPiece (shiftAmount : Nat) (si : StridedInterval bits) : StridedInterval bits :=
  new (max (si.stride >>> shiftAmount) 1) (si.lowerBound / 2 ^ shiftAmount) (si.upperBound / 2 ^ shiftAmount)
    si.uninitialized

theorem shifted_stride_pos {s k : Nat} : max (s >>> k) 1 ≠ 0 := by
  have := Nat.le_max_right (s >>> k) 1
  omega

theorem shiftedPiece_wellFormed : (shiftedPiece k p).WellFormed := new_wellFormed fun h => absurd h shifted_stride_pos

theorem mem_shiftedPiece (hp : p.WellFormed) (hle : p.lowerBound ≤ p.upperBound) :
    y ∈ (shiftedPiece k p).gamma ↔ p.lowerBound / 2 ^ k ≤ y ∧ y ≤ p.upperBound / 2 ^ k ∧
      ((max (p.stride >>> k) 1 : Nat) : Int) ∣ y - p.lowerBound / 2 ^ k :=
  mem_new_plain (shifted_on k hp.lower) (shifted_on k hp.upper) (shifted_le k hle) fun h => absurd h shifted_stride_pos

theorem rshiftLogicalBy_of_not_wraps (hb : p.isBottom = false) (h : ¬ Wraps p) :
    rshiftLogicalBy (depth + 1) k p = some (shiftedPiece k p) := by
  unfold rshiftLogicalBy
  rw [if_neg (by rw [isEmpty, hb]; exact Bool.false_ne_true), ssplit_of_not_wraps h]
  rfl

/-- The shift of an interval that wraps is the union of those of its pieces. -/
theorem rshiftLogicalBy_of_pieces {hi lo r : StridedInterval bits} (hb : s.isBottom = false)
    (hsplit : s.ssplit = some [hi, lo]) (hhib : hi.isBottom = false) (hhiw : ¬ Wraps hi) (hlob : lo.isBottom = false)
    (hlow : ¬ Wraps lo) (hr : (shiftedPiece k hi).union (shiftedPiece k lo) = some r) :
    rshiftLogicalBy (depth + 2) k s = some r := by
  unfold rshiftLogicalBy
  rw [if_neg (by rw [isEmpty, hb]; exact Bool.false_ne_true), hsplit]
  show (rshiftLogicalBy (depth + 1) k hi >>= fun a => rshiftLogicalBy (depth + 1) k lo >>= fun b => a.union b) = _
  rw [rshiftLogicalBy_of_not_wraps hhib hhiw, rshiftLogicalBy_of_not_wraps hlob hlow]
  exact hr

theorem union_spec (ha : a.WellFormed) (hb : b.WellFormed) :
    ∃ r, a.union b = some r ∧ r.WellFormed ∧ a.gamma ⊆ r.gamma ∧ b.gamma ⊆ r.gamma := by
  have hpair : ∀ m ∈ [a, b], m.WellFormed := by
    intro m hm
    rcases List.mem_pair.mp hm with rfl | rfl
    · exact ha
    · exact hb
  obtain ⟨r, hr, hrwf, hsub⟩ := leastUpperBound_spec (List.cons_ne_nil _ _) hpair (.inl (Nat.le_refl 2))
  refine ⟨normalizeTypes a b r, ?_, wellFormed_normalizeTypes hrwf, ?_, ?_⟩
  · unfold union
    rw [hr]
    rfl
  · rw [gamma_normalizeTypes]
    exact hsub a List.mem_cons_self
  · rw [gamma_normalizeTypes]
    exact hsub b (List.mem_cons_of_mem _ List.mem_cons_self)

/-- The first integer past zero of an interval that wraps. -/
def startOf (s : StridedInterval bits) : Int := s.stride - 1 - (2 ^ bits - 1 - s.lowerBound) % s.stride

/-- The split at the south pole finds the integers past zero, if there are any. -/
def SplitsSouth (s : StridedInterval bits) : Prop := Wraps s → startOf s ≤ s.upperBound

/-- The distance of an integer from the lower bound. -/
theorem off_spec (hs : s.WellFormed) (hx : x ∈ s.gamma) : 0 ≤ off (2 ^ bits) s.lowerBound x ∧
    off (2 ^ bits) s.lowerBound x ≤ s.length ∧ (s.stride : Int) ∣ off (2 ^ bits) s.lowerBound x := by
  obtain ⟨-, hle, hdvd⟩ := (mem_gamma hs hx.1).mp hx
  exact ⟨(off_on (size_pos bits) _ _).1, hle, hdvd⟩

/-- The distances of the integers from the lower bound are the multiples of the stride up to the length. -/
theorem forall_off_iff (hs : s.WellFormed) (hb : s.isBottom = false) (hstride : s.stride ≠ 0) (P : Int → Prop) :
    (∀ x ∈ s.gamma, P (off (2 ^ bits) s.lowerBound x)) ↔ ∀ j, 0 ≤ j → j ≤ s.length / s.stride → P (s.stride * j) := by
  have hpos : (0 : Int) < s.stride := by omega
  have hlength : s.length < 2 ^ bits := (off_on (size_pos bits) s.lowerBound s.upperBound).2
  constructor
  · intro h j hj hjle
    have hle : s.stride * j ≤ s.length := by
      rw [Int.mul_comm]
      exact (Int.le_ediv_iff_mul_le hpos).mp hjle
    have hj0 : 0 ≤ s.stride * j := Int.mul_nonneg hpos.le hj
    have hoff : off (2 ^ bits) s.lowerBound ((s.lowerBound + s.stride * j) % 2 ^ bits) = s.stride * j := by
      rw [off_emod_right]
      unfold off
      rw [add_sub_cancel_left, Int.emod_eq_of_lt hj0 (by omega)]
    have hmem : (s.lowerBound + s.stride * j) % 2 ^ bits ∈ s.gamma := by
      rw [mem_gamma hs hb, hoff]
      exact ⟨emod_on (size_pos bits) _, hle, Int.dvd_mul_right _ _⟩
    rw [← hoff]
    exact h _ hmem
  · intro h x hx
    obtain ⟨hd, hdle, j, hj⟩ := off_spec hs hx
    rw [hj]
    refine h j (Int.nonneg_of_mul_nonneg_right (hj ▸ hd) hpos) ?_
    rw [Int.le_ediv_iff_mul_le hpos, Int.mul_comm, ← hj]
    exact hdle

/-- Shifted members of an interval are at the shifted stride. -/
theorem Rescales.dvd_of_mem (hs : s.WellFormed) (h : Rescales s.stride s.lowerBound s.length k) (hk : k ≤ bits)
    (hx : x ∈ s.gamma) (hy : y ∈ s.gamma) (hpast : s.lowerBound ≤ x ↔ s.lowerBound ≤ y) :
    ((max (s.stride >>> k) 1 : Nat) : Int) ∣ y / 2 ^ k - x / 2 ^ k := by
  have hon := fun {z} (hz : z ∈ s.gamma) => gamma_on hs hz
  have hround : ∀ z : Int, (s.lowerBound + (z - s.lowerBound + 2 ^ bits)) / 2 ^ k = z / 2 ^ k + 2 ^ (bits - k) := by
    intro z
    rw [show s.lowerBound + (z - s.lowerBound + 2 ^ bits) = z + 2 ^ k * 2 ^ (bits - k) by
      rw [← pow_add, Nat.add_sub_cancel' hk]
      omega, Int.add_mul_ediv_left _ _ (Int.pow_pos (by decide)).ne']
  obtain ⟨hx0, hxle, hxdvd⟩ := off_spec hs hx
  obtain ⟨hy0, hyle, hydvd⟩ := off_spec hs hy
  have hdvd := Int.dvd_sub (h.dvd hy0 hyle hydvd) (h.dvd hx0 hxle hxdvd)
  rw [sub_sub_sub_cancel_right, off_cases hs.lower (hon hx), off_cases hs.lower (hon hy)] at hdvd
  by_cases hlow : s.lowerBound ≤ x
  · rwa [if_pos hlow, if_pos (hpast.mp hlow), add_sub_cancel, add_sub_cancel] at hdvd
  · rwa [if_neg hlow, if_neg fun h => hlow (hpast.mpr h), hround, hround, add_sub_add_right_eq_sub] at hdvd

theorem PieceOf.mem_shifted {lb ub : Int} (h : PieceOf s lb ub p) (hs : s.WellFormed)
    (hrescales : Rescales s.stride s.lowerBound s.length k) (hk : k ≤ bits) (hlb : lb ∈ s.gamma) (hx : x ∈ s.gamma)
    (hpast : s.lowerBound ≤ lb ↔ s.lowerBound ≤ x) (hlow : lb ≤ x) (hup : x ≤ ub) :
    x / 2 ^ k ∈ (shiftedPiece k p).gamma := by
  rw [mem_shiftedPiece h.wellFormed (by rw [h.lower, h.upper]; exact hlow.trans hup), h.lower, h.upper, h.stride]
  refine ⟨shifted_le k hlow, shifted_le k hup, ?_⟩
  split
  · rw [show x = lb by omega, Int.sub_self]
    exact Int.dvd_zero _
  · exact hrescales.dvd_of_mem hs hk hlb hx hpast

/-- The logical shift is right where the split finds all pieces and the stride is rescaled right. -/
theorem rshiftLogicalBy_sound (hs : s.WellFormed) (hb : s.isBottom = false) (hsouth : SplitsSouth s)
    (hrescales : Rescales s.stride s.lowerBound s.length k) (hk : k ≤ bits) :
    ∃ r, (∀ depth, rshiftLogicalBy (depth + 2) k s = some r) ∧ r.WellFormed ∧ ∀ x ∈ s.gamma, x / 2 ^ k ∈ r.gamma := by
  by_cases hwraps : Wraps s
  · have hturn := turn hs hwraps
    have hstart : startOf s ≤ s.upperBound := hsouth hwraps
    obtain ⟨hi, lo, hsplit, hhi, hlo⟩ := ssplit_of_turn hs hturn rfl
    have hrest := hturn.rest_lt
    have hlast := hturn.last
    have hub := hs.upper
    unfold startOf at hstart
    unfold Wraps at hwraps
    unfold On at hub
    rw [Int.emod_eq_of_lt (by omega) (by omega)] at hlo
    have hhiw : ¬ Wraps hi := by
      unfold Wraps
      rw [hhi.lower, hhi.upper]
      omega
    have hlow : ¬ Wraps lo := by
      unfold Wraps
      rw [hlo.lower, hlo.upper]
      omega
    obtain ⟨r, hr, hrwf, hleft, hright⟩ := union_spec (@shiftedPiece_wellFormed bits hi k) (@shiftedPiece_wellFormed bits lo k)
    refine ⟨r, fun depth => rshiftLogicalBy_of_pieces hb hsplit hhi.bottom hhiw hlo.bottom hlow hr, hrwf, fun x hx => ?_⟩
    rcases (mem_of_turn hs hturn).mp hx with ⟨hxlow, hxup, -⟩ | ⟨hxlow, hxup, -⟩
    · exact hleft (hhi.mem_shifted hs hrescales hk (lowerBound_mem hs hb) hx (iff_of_true (Int.le_refl _) hxlow) hxlow hxup)
    · have hfirst := (mem_of_turn hs hturn).mpr (.inr ⟨Int.le_refl _, hstart, by rw [Int.sub_self]; exact Int.dvd_zero _⟩)
      exact hright (hlo.mem_shifted hs hrescales hk hfirst hx (by omega) hxlow hxup)
  · have hself := PieceOf.self hs hb
    refine ⟨shiftedPiece k s, fun depth => rshiftLogicalBy_of_not_wraps hb hwraps, shiftedPiece_wellFormed, fun x hx => ?_⟩
    obtain ⟨hxlow, hxup, -⟩ := plain_of_mem hs hwraps hx
    exact hself.mem_shifted hs hrescales hk (lowerBound_mem hs hb) hx (iff_of_true (Int.le_refl _) hxlow) hxlow hxup

/-- An interval that does not wrap is shifted right only if its stride is rescaled right. -/
theorem rescales_of_sound (hs : s.WellFormed) (hb : s.isBottom = false) (hle : s.lowerBound ≤ s.upperBound)
    (h : ∀ x ∈ s.gamma, x / 2 ^ k ∈ (shiftedPiece k s).gamma) : Rescales s.stride s.lowerBound s.length k := by
  by_cases hstride : s.stride = 0
  · refine .inl ?_
    rw [hstride, Nat.zero_div]
    exact Nat.zero_le 1
  have hlength : s.length = s.upperBound - s.lowerBound := by
    unfold length
    rw [off_cases hs.lower hs.upper, if_pos hle]
  refine rescales_of_dvd hstride (fun d hd hdle hdvd => ?_) (by omega)
  have hmem : s.lowerBound + d ∈ s.gamma := by
    refine (mem_of_not_wraps hs hb hle).mpr ⟨by omega, by omega, ?_⟩
    rwa [add_sub_cancel_left]
  exact ((mem_shiftedPiece hs hle).mp (h _ hmem)).2.2

end Logical

end Claripy.Vsa.StridedInterval
