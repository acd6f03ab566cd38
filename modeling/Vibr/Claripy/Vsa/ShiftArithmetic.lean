import Vibr.Claripy.Vsa.Shift

/-!
# Arithmetic shifts

A piece that does not go over the north pole keeps the distances of its integers, seen from its lower bound.
-/

namespace Claripy.Vsa.StridedInterval

open Arc

variable {bits : Nat} {s p : StridedInterval bits} {x y : Int}

/-! ## The arithmetic shift -/

section Arithmetic

variable {k depth : Nat}

/-- The arithmetic shift of a piece, which is not split again. -/
def shiftedSigned (shiftAmount : Nat) (si : StridedInterval bits) : StridedInterval bits :=
  let highestBitSet := si.lowerBound > signedMaxInt bits
  let lower := (si.lowerBound / 2 ^ shiftAmount).toNat
  let upper := (si.upperBound / 2 ^ shiftAmount).toNat
  let mask := (2 ^ shiftAmount - 1) <<< (bits - shiftAmount)
  let lower := if highestBitSet then lower ||| mask else lower
  let upper := if highestBitSet then upper ||| mask else upper
  new (if lower = upper then 0 else max (si.stride >>> shiftAmount) 1) lower upper si.uninitialized

theorem nsplit_of_not_straddling (h : p.straddling = false) : p.nsplit = some [p] := by
  unfold nsplit
  rw [h, if_neg Bool.false_ne_true]
  rfl

theorem rshiftArithmeticBy_of_not_straddling (hb : p.isBottom = false) (h : p.straddling = false) (hk : k ≤ bits) :
    rshiftArithmeticBy (depth + 1) k p = some (shiftedSigned k p) := by
  unfold rshiftArithmeticBy
  rw [if_neg (by rw [isEmpty, hb]; exact Bool.false_ne_true), nsplit_of_not_straddling h, if_pos hk]
  rfl

/-- The bits that are filled in. -/
theorem or_mask (hx : On (2 ^ bits) x) (hk : k ≤ bits) :
    (((x / 2 ^ k).toNat ||| (2 ^ k - 1) <<< (bits - k) : Nat) : Int) = x / 2 ^ k + (2 ^ bits - 2 ^ (bits - k)) := by
  have hsize : ((2 ^ (bits - k) : Nat) : Int) = 2 ^ (bits - k) := by push_cast; rfl
  have hprod : (2 : Int) ^ bits = 2 ^ k * 2 ^ (bits - k) := by rw [← pow_add, Nat.add_sub_cancel' hk]
  have hpow : (0 : Int) < 2 ^ k := Int.pow_pos (by decide)
  have hnonneg := (shifted_on k hx).1
  have hlt : (x / 2 ^ k).toNat < 2 ^ (bits - k) := by
    have : x / 2 ^ k < 2 ^ (bits - k) := Int.ediv_lt_of_lt_mul hpow (by rw [Int.mul_comm, ← hprod]; exact hx.2)
    omega
  have hmask : ((2 ^ k - 1 : Nat) : Int) = 2 ^ k - 1 := by
    rw [Nat.cast_sub (Nat.two_pow_pos k)]
    push_cast
    rfl
  rw [Nat.shiftLeft_eq, Nat.mul_comm (2 ^ k - 1), Nat.or_comm, ← Nat.two_pow_add_eq_or_of_lt hlt, Nat.cast_add,
    Nat.cast_mul, hmask, hsize, Int.toNat_of_nonneg hnonneg, hprod]
  ring

/-- The arithmetic shift of an integer is its logical shift with the highest bit filled in. -/
theorem signed_shift (hx : On (2 ^ bits) x) (hk : k ≤ bits) : signed bits x / 2 ^ k % 2 ^ bits =
    x / 2 ^ k + if 2 ^ (bits - 1) ≤ x then 2 ^ bits - 2 ^ (bits - k) else 0 := by
  have hpow : (0 : Int) < 2 ^ k := Int.pow_pos (by decide)
  have hprod : (2 : Int) ^ bits = 2 ^ k * 2 ^ (bits - k) := by rw [← pow_add, Nat.add_sub_cancel' hk]
  have hon := shifted_on k hx
  unfold signed
  by_cases hhigh : (2 : Int) ^ (bits - 1) ≤ x
  · have hle : (2 : Int) ^ (bits - k) ≤ 2 ^ bits := by
      exact_mod_cast Nat.pow_le_pow_right (by decide) (Nat.sub_le bits k)
    have hlt : x / 2 ^ k < 2 ^ (bits - k) := Int.ediv_lt_of_lt_mul hpow (by rw [Int.mul_comm, ← hprod]; exact hx.2)
    have hdiv : (x - 2 ^ bits) / 2 ^ k = x / 2 ^ k - 2 ^ (bits - k) := by
      rw [hprod, Int.sub_mul_ediv_left _ _ hpow.ne']
    have := hon.1
    rw [if_neg (Int.not_lt.mpr hhigh), if_pos hhigh, hdiv, ← Int.add_emod_right, Int.emod_eq_of_lt (by omega) (by omega)]
    omega
  · rw [if_pos (Int.not_le.mp hhigh), if_neg hhigh, Int.add_zero]
    exact emod_of_on hon

/-- The bits that the shift fills in for an interval, as those of its lower bound. -/
def filled (k : Nat) (si : StridedInterval bits) : Int :=
  if 2 ^ (bits - 1) ≤ si.lowerBound then 2 ^ bits - 2 ^ (bits - k) else 0

theorem shiftedSigned_eq (hp : p.WellFormed) (hk : k ≤ bits) : shiftedSigned k p =
    new (if p.lowerBound / 2 ^ k = p.upperBound / 2 ^ k then 0 else max (p.stride >>> k) 1)
      (p.lowerBound / 2 ^ k + filled k p) (p.upperBound / 2 ^ k + filled k p) p.uninitialized := by
  have hlower := (shifted_on k hp.lower).1
  have hupper := (shifted_on k hp.upper).1
  unfold shiftedSigned filled signedMaxInt
  dsimp only
  by_cases hhigh : (2 : Int) ^ (bits - 1) ≤ p.lowerBound
  · have hl := or_mask hp.lower hk
    have hu := or_mask hp.upper hk
    have hgt : p.lowerBound > 2 ^ (bits - 1) - 1 := by omega
    rw [if_pos hgt, if_pos hgt, if_pos hhigh, hl, hu]
    congr 1
    exact if_congr (by omega) rfl rfl
  have hngt : ¬ p.lowerBound > 2 ^ (bits - 1) - 1 := by omega
  rw [if_neg hngt, if_neg hngt, if_neg hhigh, Int.toNat_of_nonneg hlower, Int.toNat_of_nonneg hupper,
    Int.add_zero, Int.add_zero]
  congr 1
  exact if_congr (by omega) rfl rfl

/-- The shifted integers are as far from the shifted lower bound as if the circle were unrolled. -/
theorem mem_shiftedSigned (hp : p.WellFormed) (hstraddling : p.straddling = false) (hk : k ≤ bits)
    (hwraps : Wraps p → k < bits) (hx : x ∈ p.gamma)
    (hdvd : ((max (p.stride >>> k) 1 : Nat) : Int) ∣
      (p.lowerBound + off (2 ^ bits) p.lowerBound x) / 2 ^ k - p.lowerBound / 2 ^ k) :
    signed bits x / 2 ^ k % 2 ^ bits ∈ (shiftedSigned k p).gamma := by
  have hpow : (0 : Int) < 2 ^ k := Int.pow_pos (by decide)
  have hprod : (2 : Int) ^ bits = 2 ^ k * 2 ^ (bits - k) := by rw [← pow_add, Nat.add_sub_cancel' hk]
  have hxon := gamma_on hp hx
  have hlb := hp.lower
  have hub := hp.upper
  have hnot := mt straddling_iff.mpr (by rw [hstraddling]; exact Bool.false_ne_true)
  have hlbk := shifted_on k hlb
  have hubk := shifted_on k hub
  have hlt : ∀ {z : Int}, On (2 ^ bits) z → z / 2 ^ k < 2 ^ (bits - k) := fun hz =>
    Int.ediv_lt_of_lt_mul hpow (by rw [Int.mul_comm, ← hprod]; exact hz.2)
  have hlblt := hlt hlb
  have hublt := hlt hub
  have hxlt := hlt hxon
  have hfull : (2 : Int) ^ (bits - k) ≤ 2 ^ bits := by exact_mod_cast Nat.pow_le_pow_right (by decide) (Nat.sub_le bits k)
  have hz := signed_shift hxon hk
  have hzon : On (2 ^ bits) (signed bits x / 2 ^ k % 2 ^ bits) := emod_on (size_pos bits) _
  rw [off_cases hp.lower hxon] at hdvd
  rw [shiftedSigned_eq hp hk]
  unfold filled
  by_cases hle : p.lowerBound ≤ p.upperBound
  · -- all integers are of one sign
    have hxin := (mem_cases hp hx).2
    have hlow : p.lowerBound ≤ x := by omega
    have hup : x ≤ p.upperBound := by omega
    have hxlow := shifted_le k hlow
    have hxup := shifted_le k hup
    rw [if_pos hlow, add_sub_cancel] at hdvd
    have hsign : (2 : Int) ^ (bits - 1) ≤ p.lowerBound ↔ 2 ^ (bits - 1) ≤ x := by omega
    rw [if_congr hsign rfl rfl, hz]
    have hc := fun (z : Int) (h0 : 0 ≤ z) (h1 : z < 2 ^ (bits - k)) =>
      show On (2 ^ bits) (z + if 2 ^ (bits - 1) ≤ x then 2 ^ bits - 2 ^ (bits - k) else 0) from by
        unfold On
        split <;> omega
    rw [mem_new_plain (hc _ hlbk.1 hlblt) (hc _ hubk.1 hublt) (by omega) fun h => by
      split at h
      · omega
      · exact absurd h shifted_stride_pos]
    refine ⟨by omega, by omega, ?_⟩
    rw [add_sub_add_right_eq_sub]
    split
    · rw [show x / 2 ^ k - p.lowerBound / 2 ^ k = 0 by omega]
      exact Int.dvd_zero _
    · exact hdvd
  · -- the interval goes from negative integers to others
    have hk' := hwraps (Int.not_le.mp hle)
    have hhigh : (2 : Int) ^ (bits - 1) ≤ p.lowerBound := by omega
    have hlow : p.upperBound < 2 ^ (bits - 1) := by omega
    have hhalf : (2 : Int) ^ (bits - 1) = 2 ^ k * 2 ^ (bits - 1 - k) := by
      rw [← pow_add, Nat.add_sub_cancel' (by omega)]
    have hcross : p.upperBound / 2 ^ k < p.lowerBound / 2 ^ k := by
      have hu : p.upperBound / 2 ^ k < 2 ^ (bits - 1 - k) :=
        Int.ediv_lt_of_lt_mul hpow (by rw [Int.mul_comm, ← hhalf]; exact hlow)
      have hl : (2 : Int) ^ (bits - 1 - k) ≤ p.lowerBound / 2 ^ k := by
        rw [Int.le_ediv_iff_mul_le hpow, Int.mul_comm, ← hhalf]
        exact hhigh
      omega
    rw [if_neg (by omega), if_pos hhigh]
    have hlbon : On (2 ^ bits) (p.lowerBound / 2 ^ k + (2 ^ bits - 2 ^ (bits - k))) := ⟨by have := hlbk.1; omega, by omega⟩
    have hubon : On (2 ^ bits) (p.upperBound / 2 ^ k + (2 ^ bits - 2 ^ (bits - k))) := ⟨by have := hubk.1; omega, by omega⟩
    have hub' : ¬ p.lowerBound / 2 ^ k + (2 ^ bits - 2 ^ (bits - k)) ≤
        p.upperBound / 2 ^ k + (2 ^ bits - 2 ^ (bits - k)) := by omega
    rw [mem_gamma_new fun h => absurd h shifted_stride_pos, off_cases hlbon hzon, off_cases hlbon hubon, if_neg hub', hz]
    refine ⟨hz ▸ hzon, ?_⟩
    have hub0 := hubk.1
    by_cases hxhigh : (2 : Int) ^ (bits - 1) ≤ x
    · have hxlow : p.lowerBound ≤ x := by
        rcases (mem_cases hp hx).2 with ⟨h, -⟩ | ⟨-, -, -, h⟩ <;> omega
      have hxk' := shifted_le k hxlow
      rw [if_pos hxlow, add_sub_cancel] at hdvd
      rw [if_pos hxhigh, if_pos (Int.add_le_add_right hxk' _), add_sub_add_right_eq_sub]
      exact ⟨by omega, hdvd⟩
    have hxup : x ≤ p.upperBound := by
      rcases (mem_cases hp hx).2 with ⟨h, -⟩ | ⟨-, -, -, h⟩ <;> omega
    have hxk' := shifted_le k hxup
    have hround : (p.lowerBound + (x - p.lowerBound + 2 ^ bits)) / 2 ^ k = x / 2 ^ k + 2 ^ (bits - k) := by
      rw [show p.lowerBound + (x - p.lowerBound + 2 ^ bits) = x + 2 ^ k * 2 ^ (bits - k) by omega,
        Int.add_mul_ediv_left _ _ hpow.ne']
    rw [if_neg (by omega), hround] at hdvd
    have hbelow : ¬ p.lowerBound / 2 ^ k + (2 ^ bits - 2 ^ (bits - k)) ≤ x / 2 ^ k := by omega
    rw [if_neg hxhigh, Int.add_zero, if_neg hbelow]
    refine ⟨by omega, ?_⟩
    rwa [show x / 2 ^ k - (p.lowerBound / 2 ^ k + (2 ^ bits - 2 ^ (bits - k))) + 2 ^ bits =
      x / 2 ^ k + 2 ^ (bits - k) - p.lowerBound / 2 ^ k by omega]

/-- The distance from the lower bound to the first integer past the north pole. -/
def northOf (s : StridedInterval bits) : Int :=
  (2 ^ (bits - 1) - 1 - s.lowerBound) % 2 ^ bits - (2 ^ (bits - 1) - 1 - s.lowerBound) % s.stride + s.stride

/-- The split at the north pole is at the right phase, and finds an integer past the pole. -/
def SplitsNorth (s : StridedInterval bits) : Prop :=
  s.straddling = true → (s.lowerBound < 2 ^ (bits - 1) ∨ (s.stride : Int) ∣ 2 ^ bits) ∧ northOf s ≤ s.length

/-- The piece of an interval between two distances from its lower bound. -/
structure ArcPiece (s : StridedInterval bits) (first last : Int) (p : StridedInterval bits) : Prop where
  piece : PieceOf s ((s.lowerBound + first) % 2 ^ bits) ((s.lowerBound + last) % 2 ^ bits) p
  start : (s.lowerBound + first) % 2 ^ bits ∈ s.gamma
  start_off : off (2 ^ bits) s.lowerBound ((s.lowerBound + first) % 2 ^ bits) = first
  mem : ∀ x ∈ s.gamma, first ≤ off (2 ^ bits) s.lowerBound x → off (2 ^ bits) s.lowerBound x ≤ last → x ∈ p.gamma

theorem arcPiece_new {first last l u : Int} {uninit : Bool} (hs : s.WellFormed) (hb : s.isBottom = false)
    (hstride : s.stride ≠ 0) (hfirst : 0 ≤ first ∧ first ≤ last ∧ (s.stride : Int) ∣ first) (hlast : last ≤ s.length)
    (hshort : last - first < 2 ^ bits - 1) (hl : l % 2 ^ bits = (s.lowerBound + first) % 2 ^ bits)
    (hu : u % 2 ^ bits = (s.lowerBound + last) % 2 ^ bits) : ArcPiece s first last (new s.stride l u uninit) := by
  obtain ⟨hfirst0, hle, hdvd⟩ := hfirst
  have hlength := (off_on (size_pos bits) s.lowerBound s.upperBound).2
  unfold length at hlast
  have hoff : ∀ d : Int, 0 ≤ d → d < 2 ^ bits → off (2 ^ bits) s.lowerBound ((s.lowerBound + d) % 2 ^ bits) = d := by
    intro d hd hdlt
    rw [off_emod_right]
    unfold off
    rw [add_sub_cancel_left, Int.emod_eq_of_lt hd hdlt]
  have hfirston := emod_on (size_pos bits) (s.lowerBound + first)
  have hlaston := emod_on (size_pos bits) (s.lowerBound + last)
  have hspan : off (2 ^ bits) ((s.lowerBound + first) % 2 ^ bits) ((s.lowerBound + last) % 2 ^ bits) = last - first := by
    rw [off_from (size_pos bits) s.lowerBound, hoff first hfirst0 (by omega), hoff last (by omega) (by omega), if_pos hle]
  refine ⟨pieceOf_new hstride hl hu ?_, ?_, hoff first hfirst0 (by omega), ?_⟩
  · rintro ⟨hmeet, -⟩
    have := off_of_meet hfirston hlaston hmeet
    omega
  · rw [mem_gamma hs hb, hoff first hfirst0 (by omega)]
    exact ⟨hfirston, by omega, hdvd⟩
  intro x hx hlow hup
  obtain ⟨-, -, hxdvd⟩ := off_spec hs hx
  rw [mem_gamma_new fun h => absurd h hstride, ← off_emod_left, hl, ← off_emod_right, emod_of_on (gamma_on hs hx),
    ← off_emod_left (a := l), hl, ← off_emod_right (x := u), hu, hspan, off_from (size_pos bits) s.lowerBound,
    hoff first hfirst0 (by omega), if_pos hlow]
  exact ⟨gamma_on hs hx, by omega, Int.dvd_sub hxdvd hdvd⟩

/-- The last multiple of the stride up to the north pole. -/
theorem northOf_spec (hs : s.WellFormed) (hb : s.isBottom = false) (hstraddling : s.straddling = true)
    (hphase : s.lowerBound < 2 ^ (bits - 1) ∨ (s.stride : Int) ∣ 2 ^ bits) :
    0 ≤ northOf s - s.stride ∧ (s.stride : Int) ∣ northOf s - s.stride ∧
      (2 ^ (bits - 1) - 1 - s.lowerBound) % 2 ^ bits - s.stride < northOf s - s.stride ∧
      northOf s - s.stride ≤ (2 ^ (bits - 1) - 1 - s.lowerBound) % 2 ^ bits := by
  have hstride := stride_pos_of_straddling hs hb hstraddling
  have hwidth := two_halves (bits_ne_zero hs hstraddling)
  have hlb := hs.lower
  unfold On at hlb
  have hpole : (2 ^ (bits - 1) - 1 - s.lowerBound) % 2 ^ bits % s.stride = (2 ^ (bits - 1) - 1 - s.lowerBound) % s.stride := by
    rcases hphase with hlow | hdvd
    · rw [Int.emod_eq_of_lt (by omega : 0 ≤ 2 ^ (bits - 1) - 1 - s.lowerBound) (by omega)]
    · exact Int.emod_emod_of_dvd _ hdvd
  obtain ⟨hrest, hrestlt, hrestle, hdvd⟩ := @rest_spec s.stride ((2 ^ (bits - 1) - 1 - s.lowerBound) % 2 ^ bits) (by omega)
    (Int.emod_nonneg _ (size_pos bits).ne')
  rw [hpole] at hrest hrestlt hrestle hdvd
  unfold northOf
  rw [add_sub_cancel_right]
  exact ⟨by omega, hdvd, by omega, by omega⟩

theorem nsplit_of_straddling (hs : s.WellFormed) (hb : s.isBottom = false) (hstraddling : s.straddling = true)
    (hnorth : SplitsNorth s) : ∃ left right, s.nsplit = some [left, right] ∧ ArcPiece s 0 (northOf s - s.stride) left ∧
      ArcPiece s (northOf s) s.length right ∧ left.straddling = false ∧ right.straddling = false ∧
      (Wraps left → Wraps s) ∧ (Wraps right → Wraps s) := by
  obtain ⟨hphase, hfound⟩ := hnorth hstraddling
  obtain ⟨hlast0, hlastdvd, hlastlow, hlastle⟩ := northOf_spec hs hb hstraddling hphase
  have hstride := stride_pos_of_straddling hs hb hstraddling
  have hhalf := half_pos bits
  have hwidth := two_halves (bits_ne_zero hs hstraddling)
  have hlength : s.length = _ := off_cases hs.lower hs.upper
  have hlb := hs.lower
  have hub := hs.upper
  unfold On at hlb hub
  have hfirstdvd : (s.stride : Int) ∣ northOf s := by
    have := Int.dvd_add hlastdvd (Int.dvd_refl (s.stride : Int))
    rwa [Int.sub_add_cancel] at this
  have hupper : (s.lowerBound + s.length) % 2 ^ bits = s.upperBound := add_off hs.upper
  have hpole : (s.lowerBound + (2 ^ (bits - 1) - 1 - s.lowerBound) % 2 ^ bits) % 2 ^ bits = 2 ^ (bits - 1) - 1 := by
    rw [Int.add_emod_emod, show s.lowerBound + (2 ^ (bits - 1) - 1 - s.lowerBound) = 2 ^ (bits - 1) - 1 by omega]
    exact Int.emod_eq_of_lt (by omega) (by omega)
  have hdist : (2 ^ (bits - 1) - 1 - s.lowerBound) % 2 ^ bits =
      if s.lowerBound < 2 ^ (bits - 1) then 2 ^ (bits - 1) - 1 - s.lowerBound
      else 2 ^ (bits - 1) - 1 - s.lowerBound + 2 ^ bits := by
    split
    · exact Int.emod_eq_of_lt (by omega) (by omega)
    · rw [← Int.add_emod_right]
      exact Int.emod_eq_of_lt (by omega) (by omega)
  have hon : ∀ z : Int, 0 ≤ z → z < 2 * 2 ^ bits → z % 2 ^ bits = if z < 2 ^ bits then z else z - 2 ^ bits := by
    intro z hz hzlt
    split
    · exact Int.emod_eq_of_lt hz (by omega)
    · rw [← Int.sub_emod_right]
      exact Int.emod_eq_of_lt (by omega) (by omega)
  obtain ⟨rest, hrest⟩ : ∃ rest, (2 ^ (bits - 1) - 1 - s.lowerBound) % (s.stride : Int) = rest := ⟨_, rfl⟩
  have hnsplit : s.nsplit = some [new s.stride s.lowerBound (2 ^ (bits - 1) - 1 - rest) s.uninitialized,
      new s.stride (2 ^ (bits - 1) - 1 - rest + s.stride) s.upperBound s.uninitialized] := by
    unfold nsplit strideMod
    rw [hstraddling, if_pos rfl, if_neg hstride, ← hrest]
    rfl
  have hdef : northOf s = (2 ^ (bits - 1) - 1 - s.lowerBound) % 2 ^ bits - rest + s.stride := by
    unfold northOf
    rw [hrest]
  have hpast : ∀ d : Int, (2 ^ (bits - 1) - 1 + d) % 2 ^ bits =
      (s.lowerBound + ((2 ^ (bits - 1) - 1 - s.lowerBound) % 2 ^ bits + d)) % 2 ^ bits := by
    intro d
    rw [← Int.add_assoc, ← Int.emod_add_emod (s.lowerBound + _), hpole]
  have hleft : ArcPiece s 0 (northOf s - s.stride)
      (new s.stride s.lowerBound (2 ^ (bits - 1) - 1 - rest) s.uninitialized) := by
    refine arcPiece_new hs hb hstride ⟨Int.le_refl 0, hlast0, Int.dvd_zero _⟩ (by omega) ?_ (by rw [Int.add_zero]) ?_
    · split at hdist <;> omega
    · rw [Int.sub_eq_add_neg, hpast, hdef]
      exact congrArg (· % 2 ^ bits) (by omega)
  have hright : ArcPiece s (northOf s) s.length
      (new s.stride (2 ^ (bits - 1) - 1 - rest + s.stride) s.upperBound s.uninitialized) := by
    refine arcPiece_new hs hb hstride ⟨by omega, hfound, hfirstdvd⟩ (Int.le_refl _) ?_ ?_ ?_
    · split at hdist <;> split at hlength <;> omega
    · rw [show (2 ^ (bits - 1) - 1 - rest + s.stride : Int) = 2 ^ (bits - 1) - 1 + (s.stride - rest) by omega, hpast, hdef]
      exact congrArg (· % 2 ^ bits) (by omega)
    · rw [hupper, emod_of_on hs.upper]
  refine ⟨_, _, hnsplit, hleft, hright, ?_, ?_, ?_, ?_⟩
  · refine Bool.eq_false_iff.mpr fun h => ?_
    have hbounds := straddling_iff.mp h
    rw [hleft.piece.lower, hleft.piece.upper, hon _ (by omega) (by omega), hon _ (by omega) (by split at hdist <;> omega)]
      at hbounds
    split at hdist <;> split at hbounds <;> omega
  · refine Bool.eq_false_iff.mpr fun h => ?_
    have hbounds := straddling_iff.mp h
    rw [hright.piece.lower, hright.piece.upper, hupper, hon _ (by omega) (by split at hlength <;> omega)] at hbounds
    split at hdist <;> split at hlength <;> split at hbounds <;> omega
  · unfold Wraps
    rw [hleft.piece.lower, hleft.piece.upper, hon _ (by omega) (by omega), hon _ (by omega) (by split at hdist <;> omega)]
    split at hdist <;> split <;> omega
  · unfold Wraps
    rw [hright.piece.lower, hright.piece.upper, hupper, hon _ (by omega) (by split at hlength <;> omega)]
    split at hlength <;> split <;> omega

/-- Shifted members of a piece are at the shifted stride, seen from its first one. -/
theorem Rescales.dvd_of_piece (hs : s.WellFormed) (h : Rescales s.stride s.lowerBound s.length k) (hk : k ≤ bits)
    (hx : x ∈ s.gamma) (hy : y ∈ s.gamma) (hle : off (2 ^ bits) s.lowerBound x ≤ off (2 ^ bits) s.lowerBound y) :
    ((max (s.stride >>> k) 1 : Nat) : Int) ∣ (x + off (2 ^ bits) x y) / 2 ^ k - x / 2 ^ k := by
  have hpow : (2 : Int) ^ k ≠ 0 := (Int.pow_pos (by decide)).ne'
  have hprod : (2 : Int) ^ bits = 2 ^ k * 2 ^ (bits - k) := by rw [← pow_add, Nat.add_sub_cancel' hk]
  obtain ⟨hx0, hxle, hxdvd⟩ := off_spec hs hx
  obtain ⟨hy0, hyle, hydvd⟩ := off_spec hs hy
  have hdvd := Int.dvd_sub (h.dvd hy0 hyle hydvd) (h.dvd hx0 hxle hxdvd)
  rw [sub_sub_sub_cancel_right] at hdvd
  have hspan : off (2 ^ bits) x y = off (2 ^ bits) s.lowerBound y - off (2 ^ bits) s.lowerBound x := by
    rw [off_from (size_pos bits) s.lowerBound, if_pos hle]
  rw [hspan]
  -- the first member, seen from the lower bound
  have hcases := off_cases hs.lower (gamma_on hs hx)
  split at hcases
  · rw [show s.lowerBound + off (2 ^ bits) s.lowerBound x = x by omega] at hdvd
    rwa [show x + (off (2 ^ bits) s.lowerBound y - off (2 ^ bits) s.lowerBound x) =
      s.lowerBound + off (2 ^ bits) s.lowerBound y by omega]
  rw [show s.lowerBound + off (2 ^ bits) s.lowerBound x = x + 2 ^ k * 2 ^ (bits - k) by omega,
    Int.add_mul_ediv_left _ _ hpow, show s.lowerBound + off (2 ^ bits) s.lowerBound y =
      x + (off (2 ^ bits) s.lowerBound y - off (2 ^ bits) s.lowerBound x) + 2 ^ k * 2 ^ (bits - k) by omega,
    Int.add_mul_ediv_left _ _ hpow, add_sub_add_right_eq_sub] at hdvd
  exact hdvd

theorem ArcPiece.mem_shifted {first last : Int} (h : ArcPiece s first last p) (hs : s.WellFormed)
    (hrescales : Rescales s.stride s.lowerBound s.length k) (hk : k ≤ bits) (hwraps : Wraps p → k < bits)
    (hstraddling : p.straddling = false) (hx : x ∈ s.gamma) (hlow : first ≤ off (2 ^ bits) s.lowerBound x)
    (hup : off (2 ^ bits) s.lowerBound x ≤ last) : signed bits x / 2 ^ k % 2 ^ bits ∈ (shiftedSigned k p).gamma := by
  refine mem_shiftedSigned h.piece.wellFormed hstraddling hk hwraps (h.mem x hx hlow hup) ?_
  have hstart := h.start
  rw [← h.piece.lower] at hstart
  rw [h.piece.stride]
  split
  · rw [Nat.zero_shiftRight]
    exact Int.one_dvd _
  · exact hrescales.dvd_of_piece hs hk hstart hx (by rw [h.piece.lower, h.start_off]; exact hlow)

theorem shiftedSigned_wellFormed (hp : p.WellFormed) (hk : k ≤ bits) : (shiftedSigned k p).WellFormed := by
  rw [shiftedSigned_eq hp hk]
  refine new_wellFormed fun h => ?_
  split at h
  · next heq => rw [heq]
  · exact absurd h shifted_stride_pos

/-- The arithmetic shift is right where the split finds all pieces and the stride is rescaled right, unless no bit is left
of integers of both signs. -/
theorem rshiftArithmeticBy_sound (hs : s.WellFormed) (hb : s.isBottom = false) (hnorth : SplitsNorth s)
    (hrescales : Rescales s.stride s.lowerBound s.length k) (hk : k ≤ bits) (hwraps : Wraps s → k < bits) :
    ∃ r, (∀ depth, rshiftArithmeticBy (depth + 2) k s = some r) ∧ r.WellFormed ∧
      ∀ x ∈ s.gamma, signed bits x / 2 ^ k % 2 ^ bits ∈ r.gamma := by
  cases hstraddling : s.straddling with
  | false =>
    refine ⟨shiftedSigned k s, fun depth => rshiftArithmeticBy_of_not_straddling hb hstraddling hk,
      shiftedSigned_wellFormed hs hk, fun x hx => mem_shiftedSigned hs hstraddling hk hwraps hx ?_⟩
    refine hrescales.dvd_of_piece hs hk (lowerBound_mem hs hb) hx ?_
    rw [off_self]
    exact (off_spec hs hx).1
  | true =>
    obtain ⟨left, right, hsplit, hleft, hright, hleftn, hrightn, hleftw, hrightw⟩ :=
      nsplit_of_straddling hs hb hstraddling hnorth
    obtain ⟨r, hr, hrwf, hl, hr'⟩ := union_spec (shiftedSigned_wellFormed hleft.piece.wellFormed hk)
      (shiftedSigned_wellFormed hright.piece.wellFormed hk)
    refine ⟨r, fun depth => ?_, hrwf, fun x hx => ?_⟩
    · unfold rshiftArithmeticBy
      rw [if_neg (by rw [isEmpty, hb]; exact Bool.false_ne_true), hsplit]
      show (rshiftArithmeticBy (depth + 1) k left >>= fun a => rshiftArithmeticBy (depth + 1) k right >>= fun b =>
        a.union b) = _
      rw [rshiftArithmeticBy_of_not_straddling hleft.piece.bottom hleftn hk,
        rshiftArithmeticBy_of_not_straddling hright.piece.bottom hrightn hk]
      exact hr
    obtain ⟨hx0, hxle, hxdvd⟩ := off_spec hs hx
    obtain ⟨-, hlastdvd, -, -⟩ := northOf_spec hs hb hstraddling (hnorth hstraddling).1
    by_cases hbefore : off (2 ^ bits) s.lowerBound x ≤ northOf s - s.stride
    · exact hl (hleft.mem_shifted hs hrescales hk (fun h => hwraps (hleftw h)) hleftn hx hx0 hbefore)
    · have := Int.le_of_dvd (by omega) (Int.dvd_sub hxdvd hlastdvd)
      exact hr' (hright.mem_shifted hs hrescales hk (fun h => hwraps (hrightw h)) hrightn hx (by omega) hxle)

end Arithmetic

end Claripy.Vsa.StridedInterval
