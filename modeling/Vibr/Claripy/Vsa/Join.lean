import Vibr.Claripy.Vsa.StridedInterval

/-!
# Joins

Two intervals are joined to the shorter one of the two that go from one to the other, or, when
the join is not smart, to the one from the first to the second. Two integers are at a stride of the
difference of their values; that is not their distance when the first one is the greater.
-/

namespace Claripy.Vsa.StridedInterval

open Arc

variable {bits : Nat} {a b s r : StridedInterval bits} {x y : Int}

def pseudoJoin (s b : StridedInterval bits) (smartJoin : Bool) : Option (StridedInterval bits) :=
  let uninitFlag := s.uninitialized || b.uninitialized
  if s.isEmpty then some b
  else if b.isEmpty then some s
  else if s.isInteger && b.isInteger then
    let upper := if smartJoin then max s.upperBound b.upperBound else b.upperBound
    let lower := if smartJoin then min s.lowerBound b.lowerBound else s.lowerBound
    let stride := (upper - lower).natAbs
    some (new stride lower upper uninitFlag)
  else if s.isSurrounded b then
    let newStride := if s.isInterval then Nat.gcd s.stride b.stride else b.stride
    let newStride := Int.gcd newStride (modularSub s.lowerBound b.lowerBound bits)
    some (new newStride b.lowerBound b.upperBound uninitFlag)
  else if b.isSurrounded s then
    let newStride := if b.isInterval then Nat.gcd s.stride b.stride else s.stride
    let newStride := Int.gcd newStride (modularSub b.lowerBound s.lowerBound bits)
    some (new newStride s.lowerBound s.upperBound uninitFlag)
  else if s.surroundsMember b.lowerBound && s.surroundsMember b.upperBound && b.surroundsMember s.lowerBound &&
      b.surroundsMember s.upperBound then
    some (top uninitFlag)
  else if s.surroundsMember b.lowerBound then
    let newStride := Nat.gcd s.stride b.stride
    let newStride := Int.gcd newStride (modularSub b.lowerBound s.lowerBound bits)
    some (new newStride s.lowerBound b.upperBound uninitFlag)
  else if b.surroundsMember s.lowerBound then
    let newStride := Nat.gcd s.stride b.stride
    let newStride := Int.gcd newStride (modularSub s.lowerBound b.lowerBound bits)
    some (new newStride b.lowerBound s.upperBound uninitFlag)
  else if !smartJoin then
    let newStride :=
      if s.isInteger then Int.gcd b.stride (modularSub b.lowerBound s.lowerBound bits)
      else if b.isInteger then Int.gcd s.stride (modularSub b.lowerBound s.lowerBound bits)
      else Int.gcd (Nat.gcd s.stride b.stride) (wrappedCardinality s.lowerBound b.lowerBound bits - 1)
    some (new newStride s.lowerBound b.upperBound uninitFlag)
  else do
    let newStride :=
      if s.isInteger then b.stride
      else if b.isInteger then s.stride
      else Nat.gcd s.stride b.stride
    -- from `b` to `s`, and from `s` to `b`
    let newStride1 := Int.gcd newStride (wrappedCardinality b.lowerBound s.lowerBound bits - 1)
    let newStride2 := Int.gcd newStride (wrappedCardinality s.lowerBound b.lowerBound bits - 1)
    let si1 := new newStride1 b.lowerBound s.upperBound uninitFlag
    let si2 := new newStride2 s.lowerBound b.upperBound uninitFlag
    return if (← si1.nValues) ≤ (← si2.nValues) then si1 else si2

/-! ## Results -/

variable {stride : Nat} {lb ub : Int} {uninit : Bool}

/-- An interval lies between two bounds at a stride. -/
structure Fits (si : StridedInterval bits) (stride : Nat) (lb ub : Int) : Prop where
  within : off (2 ^ bits) lb si.lowerBound + si.length ≤ off (2 ^ bits) lb ub
  divides : stride ∣ si.stride
  phase : (stride : Int) ∣ off (2 ^ bits) lb si.lowerBound

theorem Fits.gamma_subset (h : a.Fits stride lb ub) (ha : a.WellFormed)
    (hstride : stride = 0 → lb % 2 ^ bits = ub % 2 ^ bits) :
    a.gamma ⊆ (new stride lb ub uninit : StridedInterval bits).gamma := by
  intro x hx
  have hpos := size_pos bits
  obtain ⟨hon, hle, hdvd⟩ := (mem_gamma ha hx.1).mp hx
  have hub := (off_on hpos lb ub).2
  have hwithin := h.within
  unfold length at hwithin
  have hoff : off (2 ^ bits) lb x = off (2 ^ bits) lb a.lowerBound + off (2 ^ bits) a.lowerBound x :=
    off_trans_of_lt hpos (by omega)
  refine (mem_gamma_new hstride).mpr ⟨hon, by omega, ?_⟩
  rw [hoff]
  exact Int.dvd_add h.phase (Int.dvd_trans (Int.natCast_dvd_natCast.mpr h.divides) hdvd)

/-- What a join of two intervals is. -/
structure JoinOf (s b r : StridedInterval bits) : Prop where
  wellFormed : r.WellFormed
  bottom : r.isBottom = (s.isBottom && b.isBottom)
  integer : r.isBottom = false → r.isInteger = true →
    (s.isBottom = true ∨ s.isInteger = true) ∧ (b.isBottom = true ∨ b.isInteger = true)
  left : s.gamma ⊆ r.gamma
  right : b.gamma ⊆ r.gamma

/-- Both operands are integers, the first one the greater, and the join goes from the first to the second. -/
def WrapsBetween (s b : StridedInterval bits) (smartJoin : Bool) : Prop :=
  smartJoin = false ∧ s.isBottom = false ∧ b.isBottom = false ∧ s.isInteger = true ∧ b.isInteger = true ∧
    b.lowerBound < s.lowerBound

theorem isInteger_new (h : (new stride lb ub uninit : StridedInterval bits).isInteger = true) :
    off (2 ^ bits) lb ub = 0 := by
  have hlb := emod_on (size_pos bits) lb
  have hub := emod_on (size_pos bits) ub
  rw [← off_emod_left, ← off_emod_right, off_eq_zero_iff hlb hub]
  have hbounds := isInteger_iff.mp h
  obtain ⟨heq, hn⟩ | ⟨hne, _, hn⟩ | ⟨hne, _, hn⟩ := @new_cases bits stride lb ub uninit <;> rw [hn] at hbounds <;>
    dsimp only at hbounds
  · exact heq.symm
  · unfold On at hlb hub
    omega
  · exact hbounds.symm

theorem Fits.isInteger (h : a.Fits stride lb ub) (ha : a.WellFormed) (hlength : off (2 ^ bits) lb ub = 0) :
    a.isInteger = true := by
  have hwithin := h.within
  have hpos := size_pos bits
  have hlb := (off_on hpos lb a.lowerBound).1
  have ha0 := (off_on hpos a.lowerBound a.upperBound).1
  unfold length at hwithin
  exact isInteger_iff.mpr ((off_eq_zero_iff ha.lower ha.upper).mp (by omega)).symm

theorem joinOf_new (hs : s.WellFormed) (hb : b.WellFormed) (hsb : s.isBottom = false) (hbb : b.isBottom = false)
    (hstride : stride = 0 → lb % 2 ^ bits = ub % 2 ^ bits) (hfs : s.Fits stride lb ub) (hfb : b.Fits stride lb ub) :
    JoinOf s b (new stride lb ub uninit) where
  wellFormed := new_wellFormed hstride
  bottom := by rw [new_isBottom, hsb, hbb]; rfl
  integer := fun _ h => ⟨.inr (hfs.isInteger hs (isInteger_new h)), .inr (hfb.isInteger hb (isInteger_new h))⟩
  left := hfs.gamma_subset hs hstride
  right := hfb.gamma_subset hb hstride

theorem joinOf_top (hs : s.WellFormed) (hb : b.WellFormed) (hsb : s.isBottom = false) (hbb : b.isBottom = false) :
    JoinOf s b (top uninit) := by
  have hmax : off (2 ^ bits) 0 (maxInt bits) = 2 ^ bits - 1 := by
    have hpos := size_pos bits
    rw [maxInt_eq, off_cases ⟨Int.le_refl 0, hpos⟩ ⟨by omega, by omega⟩, if_pos (by omega)]
    omega
  -- the circle has a single point
  have hinteger : ∀ si : StridedInterval bits, si.WellFormed →
      (top uninit : StridedInterval bits).isInteger = true → si.isInteger = true := by
    intro si hsi h
    have hone := isInteger_new h
    have hlb := hsi.lower
    have hub := hsi.upper
    unfold On at hlb hub
    exact isInteger_iff.mpr (by omega)
  refine ⟨new_wellFormed top_zero_stride, ?_, fun _ h => ⟨.inr (hinteger s hs h), .inr (hinteger b hb h)⟩, ?_, ?_⟩
  · rw [hsb, hbb]
    exact new_isBottom
  · exact fun x hx => mem_gamma_top (gamma_on hs hx)
  · exact fun x hx => mem_gamma_top (gamma_on hb hx)

/-! ## The cases of a join -/

theorem lt_of_not_surrounds {v : Int} (h : ¬ s.surroundsMember v = true) :
    s.length < off (2 ^ bits) s.lowerBound v := by
  rw [surroundsMember_iff] at h
  exact Int.not_le.mp h

/-- An interval that lies in another one, if the other one is not the whole circle. -/
theorem within_of_isSurrounded (hsb : s.isBottom = false) (h : s.isSurrounded b = true) :
    b.isTop = true ∨ off (2 ^ bits) b.lowerBound s.lowerBound + s.length ≤ b.length := by
  unfold isSurrounded isEmpty at h
  rw [hsb, if_neg Bool.false_ne_true] at h
  cases hbtop : b.isTop with
  | true => exact .inl rfl
  | false =>
    cases hstop : s.isTop with
    | true => simp [hbtop, hstop] at h
    | false =>
      simp only [hbtop, hstop, Bool.and_self, Bool.false_eq_true, if_false, Bool.and_eq_true, Bool.or_eq_true,
        decide_eq_true_eq, Bool.not_eq_true'] at h
      obtain ⟨⟨hstart, hend⟩, hround⟩ := h
      refine .inr ?_
      rw [surroundsMember_iff] at hstart hend
      obtain (⟨hlb, hub⟩ | hlb) | hub := hround
      · unfold length
        rw [hlb, hub, off_self, Int.zero_add]
      · exact arc_le (size_pos bits) hstart hend (.inl (lt_of_not_surrounds (by rw [hlb]; decide)))
      · exact arc_le (size_pos bits) hstart hend (.inr (lt_of_not_surrounds (by rw [hub]; decide)))

/-- The whole circle and another interval: one of them lies in the other one. -/
theorem isSurrounded_of_isTop (hbtop : b.isTop = true) : s.isSurrounded b = true := by
  unfold isSurrounded
  cases s.isEmpty <;> cases s.isTop <;> simp [hbtop]

/-- Otherwise, the first one of the ends of `b` is on `s` iff its other end is not, or both are and they meet
at both ends. -/
theorem not_within (hbb : b.isBottom = false) (hsb' : s.isSurrounded b = false)
    (hbs : b.isSurrounded s = false) (hlb : s.surroundsMember b.lowerBound = true)
    (hub : s.surroundsMember b.upperBound = true) :
    b.surroundsMember s.lowerBound = true ∧ b.surroundsMember s.upperBound = true := by
  have hstop : s.isTop = false := by
    by_contra h
    rw [isSurrounded_of_isTop (Bool.eq_true_of_not_eq_false h)] at hbs
    cases hbs
  have hbtop : b.isTop = false := by
    by_contra h
    rw [isSurrounded_of_isTop (Bool.eq_true_of_not_eq_false h)] at hsb'
    cases hsb'
  unfold isSurrounded isEmpty at hbs
  simp only [hbb, hstop, hbtop, hlb, hub] at hbs
  simp at hbs
  exact ⟨hbs.1.2, hbs.2⟩

/-- One interval in the other one. -/
theorem joinOf_containment (hs : s.WellFormed) (hb : b.WellFormed) (hsb : s.isBottom = false)
    (hbb : b.isBottom = false) (h : s.isSurrounded b = true) (hstride_s : stride ∣ s.stride)
    (hstride_b : stride ∣ b.stride) (hphase : (stride : Int) ∣ off (2 ^ bits) b.lowerBound s.lowerBound)
    (hstride : stride = 0 → b.stride = 0) : JoinOf s b (new stride b.lowerBound b.upperBound uninit) := by
  obtain htop | hwithin := within_of_isSurrounded hsb h
  · obtain ⟨hone, hlb, hub⟩ := hb.of_isTop htop
    rw [hone, Nat.dvd_one] at hstride_b
    rw [hstride_b, hlb, hub, ← maxInt_eq]
    exact joinOf_top hs hb hsb hbb
  refine joinOf_new hs hb hsb hbb ?_ ⟨hwithin, hstride_s, hphase⟩ ⟨?_, hstride_b, ?_⟩
  · intro h0
    rw [(hb.stride hbb).mp (hstride h0)]
  · rw [off_self, Int.zero_add]
    exact Int.le_refl _
  · rw [off_self]
    exact Int.dvd_zero _

theorem JoinOf.symm (h : JoinOf b s r) : JoinOf s b r where
  wellFormed := h.wellFormed
  bottom := by rw [h.bottom, Bool.and_comm]
  integer := fun hr hi => (h.integer hr hi).symm
  left := h.right
  right := h.left

/-! ## Strides -/

/-- The common stride at which both intervals are found, from the place where they meet. -/
theorem commonStride_dvd {step : Nat} {distance : Int} (h : step ∣ s.stride ∧ step ∣ b.stride) :
    Int.gcd step distance ∣ s.stride ∧ Int.gcd step distance ∣ b.stride ∧
      (Int.gcd step distance : Int) ∣ distance := by
  have hstep : Int.gcd step distance ∣ step := by
    have := @Int.gcd_dvd_left (step : Int) distance
    exact Int.natCast_dvd_natCast.mp this
  exact ⟨hstep.trans h.1, hstep.trans h.2, Int.gcd_dvd_right _ _⟩

/-- The stride of an integer is not counted. -/
theorem strideOf_dvd (hs : s.WellFormed) (hsb : s.isBottom = false) :
    (if s.isInterval then Nat.gcd s.stride b.stride else b.stride) ∣ s.stride ∧
      (if s.isInterval then Nat.gcd s.stride b.stride else b.stride) ∣ b.stride := by
  unfold isInterval
  cases hi : s.isInteger with
  | true =>
    have hzero : s.stride = 0 := (hs.stride hsb).mpr (isInteger_iff.mp hi)
    rw [hzero]
    exact ⟨Nat.dvd_zero _, Nat.dvd_refl _⟩
  | false => exact ⟨Nat.gcd_dvd_left _ _, Nat.gcd_dvd_right _ _⟩

/-- Two integers, from the lesser to the greater one. -/
theorem joinOf_integers {lo hi : Int} (hs : s.WellFormed) (hb : b.WellFormed) (hsb : s.isBottom = false)
    (hbb : b.isBottom = false) (his : s.isInteger = true) (hib : b.isInteger = true) (hle : lo ≤ hi)
    (hlo : On (2 ^ bits) lo) (hhi : On (2 ^ bits) hi) (hs' : s.lowerBound = lo ∨ s.lowerBound = hi)
    (hb' : b.lowerBound = lo ∨ b.lowerBound = hi) : JoinOf s b (new (hi - lo).natAbs lo hi uninit) := by
  have hoff : off (2 ^ bits) lo hi = hi - lo := (off_cases hlo hhi).trans (if_pos hle)
  have habs : ((hi - lo).natAbs : Int) = hi - lo := Int.natAbs_of_nonneg (by omega)
  have hfits : ∀ si : StridedInterval bits, si.WellFormed → si.isBottom = false → si.isInteger = true →
      si.lowerBound = lo ∨ si.lowerBound = hi → si.Fits (hi - lo).natAbs lo hi := by
    intro si hsi hbot hi' hbound
    have hlength : si.length = 0 := by
      rw [length, isInteger_iff.mp hi', off_self]
    have hzero : si.stride = 0 := (hsi.stride hbot).mpr (isInteger_iff.mp hi')
    refine ⟨?_, hzero ▸ Nat.dvd_zero _, ?_⟩ <;> obtain hlb | hlb := hbound <;> rw [hlb]
    · rw [off_self, hoff, hlength]
      omega
    · rw [hlength]
      omega
    · rw [off_self]
      exact Int.dvd_zero _
    · rw [hoff, habs]
  refine joinOf_new hs hb hsb hbb ?_ (hfits s hs hsb his hs') (hfits b hb hbb hib hb')
  intro h
  rw [Int.natAbs_eq_zero] at h
  rw [show lo = hi by omega]

theorem nValues_new (hstride : stride = 0 → lb % 2 ^ bits = ub % 2 ^ bits) (hne : off (2 ^ bits) lb ub ≠ 0) :
    ∃ n, (new stride lb ub uninit : StridedInterval bits).nValues = some n := by
  have hwf := @new_wellFormed bits stride lb ub uninit hstride
  have hnonzero : (new stride lb ub uninit : StridedInterval bits).stride ≠ 0 := by
    intro h
    exact hne (isInteger_new (isInteger_iff.mpr ((hwf.stride new_isBottom).mp h)))
  exact ⟨_, if_neg hnonzero⟩

/-- From one interval to the end of the other one. -/
theorem joinOf_between (hs : s.WellFormed) (hb : b.WellFormed) (hsb : s.isBottom = false) (hbb : b.isBottom = false)
    (hnot : ¬ (s.isInteger = true ∧ b.isInteger = true)) {step : Nat} (hstep : step ∣ s.stride ∧ step ∣ b.stride)
    (hzero : step = 0 → s.stride = 0 ∧ b.stride = 0) (hle : s.length ≤ off (2 ^ bits) s.lowerBound b.upperBound)
    (hsum : off (2 ^ bits) s.lowerBound b.lowerBound + b.length = off (2 ^ bits) s.lowerBound b.upperBound) :
    Int.gcd step (off (2 ^ bits) s.lowerBound b.lowerBound) ≠ 0 ∧
      JoinOf s b (new (Int.gcd step (off (2 ^ bits) s.lowerBound b.lowerBound)) s.lowerBound b.upperBound uninit) := by
  obtain ⟨hds, hdb, hphase⟩ := @commonStride_dvd _ _ _ _ (off (2 ^ bits) s.lowerBound b.lowerBound) hstep
  have hnonzero : Int.gcd step (off (2 ^ bits) s.lowerBound b.lowerBound) ≠ 0 := by
    intro h
    obtain ⟨hs0, hb0⟩ := hzero (by exact_mod_cast (Int.gcd_eq_zero_iff.mp h).1)
    exact hnot ⟨isInteger_iff.mpr ((hs.stride hsb).mp hs0), isInteger_iff.mpr ((hb.stride hbb).mp hb0)⟩
  refine ⟨hnonzero, ?_⟩
  refine joinOf_new hs hb hsb hbb (fun h => absurd h hnonzero) ⟨?_, hds, ?_⟩ ⟨Int.le_of_eq hsum, hdb, hphase⟩
  · rw [off_self, Int.zero_add]
    exact hle
  · rw [off_self]
    exact Int.dvd_zero _

/-- The stride of two intervals apart: that of an integer is not counted. -/
def strideApart (s b : StridedInterval bits) : Nat :=
  if s.isInteger then b.stride else if b.isInteger then s.stride else Nat.gcd s.stride b.stride

theorem strideApart_spec (hs : s.WellFormed) (hb : b.WellFormed) (hsb : s.isBottom = false)
    (hbb : b.isBottom = false) : (strideApart s b ∣ s.stride ∧ strideApart s b ∣ b.stride) ∧
      (strideApart s b = 0 → s.stride = 0 ∧ b.stride = 0) := by
  have hszero : s.isInteger = true → s.stride = 0 := fun h => (hs.stride hsb).mpr (isInteger_iff.mp h)
  have hbzero : b.isInteger = true → b.stride = 0 := fun h => (hb.stride hbb).mpr (isInteger_iff.mp h)
  unfold strideApart
  split
  · next h => exact ⟨⟨hszero h ▸ Nat.dvd_zero _, Nat.dvd_refl _⟩, fun h0 => ⟨hszero h, h0⟩⟩
  · split
    · next h => exact ⟨⟨Nat.dvd_refl _, hbzero h ▸ Nat.dvd_zero _⟩, fun h0 => ⟨h0, hbzero h⟩⟩
    · exact ⟨⟨Nat.gcd_dvd_left _ _, Nat.gcd_dvd_right _ _⟩, Nat.gcd_eq_zero_iff.mp⟩

theorem strideApart_comm (hnot : ¬ (s.isInteger = true ∧ b.isInteger = true)) : strideApart s b = strideApart b s := by
  unfold strideApart
  cases his : s.isInteger <;> cases hib : b.isInteger
  · exact Nat.gcd_comm _ _
  · rfl
  · rfl
  · exact absurd ⟨his, hib⟩ hnot

/-- Two intervals that do not meet: in their order, or the shorter way. -/
theorem pseudoJoin_apart (hs : s.WellFormed) (hb : b.WellFormed) (hsb : s.isBottom = false) (hbb : b.isBottom = false)
    (hnot : ¬ (s.isInteger = true ∧ b.isInteger = true)) (hlb : ¬ s.surroundsMember b.lowerBound = true)
    (hlb' : ¬ b.surroundsMember s.lowerBound = true) :
    JoinOf s b (new (Int.gcd (strideApart s b) (wrappedCardinality s.lowerBound b.lowerBound bits - 1)) s.lowerBound
        b.upperBound uninit) ∧
      ∃ n, (new (Int.gcd (strideApart s b) (wrappedCardinality s.lowerBound b.lowerBound bits - 1)) s.lowerBound
        b.upperBound uninit : StridedInterval bits).nValues = some n := by
  have hpos := size_pos bits
  have hlt := lt_of_not_surrounds hlb
  have hlt' := lt_of_not_surrounds hlb'
  have hblength := (off_on hpos b.lowerBound b.upperBound).1
  have hslength := (off_on hpos s.lowerBound s.upperBound).1
  have hsum := arc_gap hpos hlt hlt'
  obtain ⟨hstep, hzero⟩ := strideApart_spec hs hb hsb hbb
  unfold length at hlt hlt'
  have hle : s.length ≤ off (2 ^ bits) s.lowerBound b.upperBound := by
    unfold length
    omega
  rw [wrappedCardinality_eq hs.lower hb.lower, Int.add_sub_cancel]
  obtain ⟨hnonzero, hjoin⟩ := @joinOf_between _ _ _ uninit hs hb hsb hbb hnot _ hstep hzero hle hsum
  refine ⟨hjoin, nValues_new (fun h => absurd h hnonzero) ?_⟩
  omega

theorem shorter_spec {si1 si2 : StridedInterval bits} {n1 n2 : Int} (h1 : JoinOf s b si1) (h2 : JoinOf s b si2)
    (hn1 : si1.nValues = some n1) (hn2 : si2.nValues = some n2) :
    ∃ r, (do return if (← si1.nValues) ≤ (← si2.nValues) then si1 else si2) = some r ∧ JoinOf s b r := by
  rw [hn1, hn2]
  refine ⟨if n1 ≤ n2 then si1 else si2, rfl, ?_⟩
  split
  · exact h1
  · exact h2

/-- The join of two integers. -/
theorem pseudoJoin_integers (hs : s.WellFormed) (hb : b.WellFormed) (hsb : s.isBottom = false) (hbb : b.isBottom = false)
    {smartJoin : Bool} (hwraps : ¬ WrapsBetween s b smartJoin) (his : s.isInteger = true) (hib : b.isInteger = true) :
    ∃ r, pseudoJoin s b smartJoin = some r ∧ JoinOf s b r := by
  have hs_eq := isInteger_iff.mp his
  have hb_eq := isInteger_iff.mp hib
  unfold pseudoJoin isEmpty
  rw [hsb, hbb, if_neg Bool.false_ne_true, if_neg Bool.false_ne_true, if_pos (by rw [his, hib]; rfl)]
  refine ⟨_, rfl, ?_⟩
  cases smartJoin with
  | true =>
    rw [if_pos rfl, if_pos rfl, ← hs_eq, ← hb_eq]
    rcases Int.le_total s.lowerBound b.lowerBound with hle | hle
    · rw [Int.max_eq_right hle, Int.min_eq_left hle]
      exact joinOf_integers hs hb hsb hbb his hib hle hs.lower hb.lower (.inl rfl) (.inr rfl)
    · rw [Int.max_eq_left hle, Int.min_eq_right hle]
      exact joinOf_integers hs hb hsb hbb his hib hle hb.lower hs.lower (.inr rfl) (.inl rfl)
  | false =>
    have hle : s.lowerBound ≤ b.lowerBound := by
      by_contra hlt
      exact hwraps ⟨rfl, hsb, hbb, his, hib, Int.not_le.mp hlt⟩
    rw [if_neg Bool.false_ne_true, if_neg Bool.false_ne_true, ← hb_eq]
    exact joinOf_integers hs hb hsb hbb his hib hle hs.lower hb.lower (.inl rfl) (.inr rfl)

/-- The join of two intervals of which neither lies in the other one. -/
theorem pseudoJoin_outside (hs : s.WellFormed) (hb : b.WellFormed) (hsb : s.isBottom = false) (hbb : b.isBottom = false)
    (smartJoin : Bool) (hnot : ¬ (s.isInteger = true ∧ b.isInteger = true)) (hout : s.isSurrounded b = false)
    (hout' : b.isSurrounded s = false) : ∃ r, pseudoJoin s b smartJoin = some r ∧ JoinOf s b r := by
  have hpos := size_pos bits
  have hgcd : Nat.gcd s.stride b.stride ∣ s.stride ∧ Nat.gcd s.stride b.stride ∣ b.stride :=
    ⟨Nat.gcd_dvd_left _ _, Nat.gcd_dvd_right _ _⟩
  unfold pseudoJoin isEmpty
  rw [hsb, hbb, hout, hout', if_neg Bool.false_ne_true, if_neg Bool.false_ne_true,
    if_neg (by rwa [Bool.and_eq_true]), if_neg Bool.false_ne_true, if_neg Bool.false_ne_true]
  split
  · exact ⟨_, rfl, joinOf_top hs hb hsb hbb⟩
  next hcover =>
    simp only [Bool.and_eq_true, not_and] at hcover
    split
    · next hlb =>
        have hub : ¬ s.surroundsMember b.upperBound = true := by
          intro hub
          obtain ⟨h1, h2⟩ := not_within hbb hout hout' hlb hub
          exact hcover ⟨⟨hlb, hub⟩, h1⟩ h2
        have hlt := lt_of_not_surrounds hub
        have hsum := arc_join hpos (surroundsMember_iff.mp hlb) hlt
        exact ⟨_, rfl, (joinOf_between hs hb hsb hbb hnot hgcd Nat.gcd_eq_zero_iff.mp (Int.le_of_lt hlt) hsum).2⟩
    next hlb =>
      split
      · next hlb' =>
          have hub : ¬ b.surroundsMember s.upperBound = true := by
            intro hub
            exact hlb (not_within hsb hout' hout hlb' hub).1
          have hlt := lt_of_not_surrounds hub
          have hsum := arc_join hpos (surroundsMember_iff.mp hlb') hlt
          exact ⟨_, rfl, (joinOf_between hb hs hbb hsb (fun h => hnot h.symm) hgcd.symm
            (fun h => (Nat.gcd_eq_zero_iff.mp h).symm) (Int.le_of_lt hlt) hsum).2.symm⟩
      next hlb' =>
        obtain ⟨hjoin, n, hn⟩ :=
          @pseudoJoin_apart _ _ _ (s.uninitialized || b.uninitialized) hs hb hsb hbb hnot hlb hlb'
        cases smartJoin with
        | false =>
          refine ⟨_, rfl, ?_⟩
          have hstep : (if s.isInteger then Int.gcd b.stride (modularSub b.lowerBound s.lowerBound bits)
              else if b.isInteger then Int.gcd s.stride (modularSub b.lowerBound s.lowerBound bits)
              else Int.gcd (Nat.gcd s.stride b.stride)
                (wrappedCardinality s.lowerBound b.lowerBound bits - 1)) =
              Int.gcd (strideApart s b) (wrappedCardinality s.lowerBound b.lowerBound bits - 1) := by
            rw [wrappedCardinality_eq hs.lower hb.lower, Int.add_sub_cancel]
            unfold strideApart
            split
            · rfl
            · split <;> rfl
          rw [hstep]
          exact hjoin
        | true =>
          obtain ⟨hjoin', n', hn'⟩ :=
            @pseudoJoin_apart _ _ _ (s.uninitialized || b.uninitialized) hb hs hbb hsb
              (fun h => hnot h.symm) hlb' hlb
          rw [strideApart_comm (fun h => hnot h.symm)] at hjoin' hn'
          exact shorter_spec hjoin'.symm hjoin hn' hn

/-- A join exists, and is one as long as it is not between integers the wrong way round. -/
theorem pseudoJoin_spec (hs : s.WellFormed) (hb : b.WellFormed) {smartJoin : Bool} (hwraps : ¬ WrapsBetween s b smartJoin) :
    ∃ r, pseudoJoin s b smartJoin = some r ∧ JoinOf s b r := by
  cases hsb : s.isBottom with
  | true =>
    refine ⟨b, if_pos hsb, hb, ?_, fun _ h => ⟨.inl hsb, .inr h⟩, ?_, fun x hx => hx⟩
    · rw [hsb, Bool.true_and]
    · rw [gamma_bottom hsb]
      exact Set.empty_subset _
  | false =>
    cases hbb : b.isBottom with
    | true =>
      refine ⟨s, ?_, hs, ?_, fun _ h => ⟨.inr h, .inl hbb⟩, fun x hx => hx, ?_⟩
      · unfold pseudoJoin isEmpty
        rw [hsb, hbb, if_neg Bool.false_ne_true, if_pos rfl]
      · rw [hbb, Bool.and_true]
      · rw [gamma_bottom hbb]
        exact Set.empty_subset _
    | false =>
      by_cases hint : s.isInteger = true ∧ b.isInteger = true
      · exact pseudoJoin_integers hs hb hsb hbb hwraps hint.1 hint.2
      cases hin : s.isSurrounded b with
      | true =>
        unfold pseudoJoin isEmpty
        rw [hsb, hbb, hin, if_neg Bool.false_ne_true, if_neg Bool.false_ne_true,
          if_neg (by rwa [Bool.and_eq_true]), if_pos rfl]
        obtain ⟨hds, hdb, hphase⟩ := commonStride_dvd (strideOf_dvd hs hsb)
        refine ⟨_, rfl, joinOf_containment hs hb hsb hbb hin hds hdb hphase ?_⟩
        intro h0
        exact Nat.eq_zero_of_zero_dvd (h0 ▸ hdb)
      | false =>
        cases hin' : b.isSurrounded s with
        | true =>
          unfold pseudoJoin isEmpty
          rw [hsb, hbb, hin, hin', if_neg Bool.false_ne_true, if_neg Bool.false_ne_true,
            if_neg (by rwa [Bool.and_eq_true]), if_neg Bool.false_ne_true, if_pos rfl, Nat.gcd_comm]
          obtain ⟨hds, hdb, hphase⟩ := commonStride_dvd (strideOf_dvd hb hbb)
          refine ⟨_, rfl, (joinOf_containment hb hs hbb hsb hin' hds hdb hphase ?_).symm⟩
          intro h0
          exact Nat.eq_zero_of_zero_dvd (h0 ▸ hdb)
        | false => exact pseudoJoin_outside hs hb hsb hbb smartJoin hint hin hin'

/-- The smart join is an upper bound. -/
theorem smartJoin_upper (hs : s.WellFormed) (hb : b.WellFormed) :
    ∃ r, pseudoJoin s b true = some r ∧ s.gamma ∪ b.gamma ⊆ r.gamma := by
  obtain ⟨r, hr, hjoin⟩ := @pseudoJoin_spec _ _ _ hs hb true (fun h => nomatch h.1)
  exact ⟨r, hr, Set.union_subset hjoin.left hjoin.right⟩

theorem smartJoin_upper_zero_three : ∃ r, pseudoJoin (new 3 9 12 false : StridedInterval 4) (new 3 0 3 false) true =
    some r ∧ (new 3 9 12 false : StridedInterval 4).gamma ∪ (new 3 0 3 false : StridedInterval 4).gamma ⊆ r.gamma :=
  smartJoin_upper (new_wellFormed nofun) (new_wellFormed nofun)

end Claripy.Vsa.StridedInterval
