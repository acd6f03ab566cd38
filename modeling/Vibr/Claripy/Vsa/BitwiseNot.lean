import Vibr.Claripy.Vsa.Pieces

/-!
# Bitwise complement

Every piece is turned round, at the same stride, from the complement of its upper bound on. This keeps the integers
only if the upper bound is one of them. The operators `~` and unary `-` both call it.
-/

namespace Claripy.Vsa.StridedInterval

open Arc

variable {bits : Nat} {a s p : StridedInterval bits} {x z : Int}

/-- A piece turned round. -/
def notPiece (stride : Nat) (si : StridedInterval bits) : StridedInterval bits :=
  new stride (-si.upperBound - 1) (-si.lowerBound - 1) false

def bitwiseNot (self : StridedInterval bits) : Option (StridedInterval bits) := do
  let splittedSi ← self.ssplit
  let si ← leastUpperBound (splittedSi.map (notPiece self.stride))
  return { si.normalize with uninitialized := self.uninitialized }

/-- `~self` -/
def invertOp (self : StridedInterval bits) : Option (StridedInterval bits) := self.bitwiseNot

/-- `-self` -/
def negOp (self : StridedInterval bits) : Option (StridedInterval bits) := self.bitwiseNot

/-! ## One piece -/

section Piece

variable {stride : Nat} {lb ub : Int}

theorem complement_on (hx : On (2 ^ bits) x) : On (2 ^ bits) (2 ^ bits - 1 - x) := by
  unfold On at hx ⊢
  omega

theorem notPiece_eq : notPiece stride p = new stride (2 ^ bits - 1 - p.upperBound) (2 ^ bits - 1 - p.lowerBound) false := by
  have hmod : ∀ x : Int, (-x - 1) % 2 ^ bits = (2 ^ bits - 1 - x) % 2 ^ bits := by
    intro x
    rw [show (2 ^ bits - 1 - x : Int) = -x - 1 + 2 ^ bits by omega, Int.add_emod_right]
  exact new_congr (hmod _) (hmod _)

theorem notPiece_wellFormed (h : stride = 0 → p.lowerBound = p.upperBound) : (notPiece stride p).WellFormed := by
  rw [notPiece_eq]
  exact new_wellFormed_plain fun hzero => by rw [h hzero]

/-- The integers of a piece that is turned round. -/
theorem mem_notPiece (hlb : On (2 ^ bits) p.lowerBound) (hub : On (2 ^ bits) p.upperBound)
    (hle : p.lowerBound ≤ p.upperBound) (h : stride = 0 → p.lowerBound = p.upperBound) :
    2 ^ bits - 1 - x ∈ (notPiece stride p).gamma ↔
      p.lowerBound ≤ x ∧ x ≤ p.upperBound ∧ (stride : Int) ∣ p.upperBound - x := by
  rw [notPiece_eq, mem_new_plain (complement_on hub) (complement_on hlb) (by omega) fun hzero => by rw [h hzero]]
  rw [show 2 ^ bits - 1 - x - (2 ^ bits - 1 - p.upperBound) = p.upperBound - x by omega]
  constructor <;> rintro ⟨hlow, hup, hdvd⟩ <;> exact ⟨by omega, by omega, hdvd⟩

/-- Turned round, the integers of a piece remain if the upper bound is one of them. -/
theorem notPiece_spec (h : PieceOf s lb ub p) (hle : lb ≤ ub) (hdvd : (s.stride : Int) ∣ ub - lb) :
    (notPiece s.stride p).WellFormed ∧ Aligned (notPiece s.stride p) ∧
      ∀ x, Plain p x → 2 ^ bits - 1 - x ∈ (notPiece s.stride p).gamma := by
  have hstride : s.stride = 0 → p.lowerBound = p.upperBound := by
    intro hzero
    rw [hzero] at hdvd
    rw [h.lower, h.upper]
    have := Int.zero_dvd.mp hdvd
    omega
  have hwf := notPiece_wellFormed (p := p) hstride
  have hmem : ∀ x, Plain p x → 2 ^ bits - 1 - x ∈ (notPiece s.stride p).gamma := by
    intro x hx
    obtain ⟨hlow, hup, hxdvd⟩ := h.plain_iff.mp hx
    refine (mem_notPiece h.wellFormed.lower h.wellFormed.upper (by rw [h.lower, h.upper]; exact hle) hstride).mpr ?_
    rw [h.lower, h.upper]
    refine ⟨hlow, hup, ?_⟩
    rw [show ub - x = ub - lb - (x - lb) by omega]
    exact Int.dvd_sub hdvd hxdvd
  refine ⟨hwf, ?_, hmem⟩
  rw [notPiece_eq] at hwf hmem ⊢
  refine aligned_new (complement_on h.wellFormed.lower) hwf (hmem _ (h.plain_iff.mpr ?_))
  rw [h.lower, Int.sub_self]
  exact ⟨Int.le_refl _, hle, Int.dvd_zero _⟩

end Piece

/-- An aligned interval that wraps has an integer past zero, and its second piece ends with one. -/
theorem Turn.of_aligned {rest start : Int} (hs : s.WellFormed) (h : Turn s rest start) (haligned : Aligned s) :
    start ≤ s.upperBound ∧ (s.stride : Int) ∣ s.upperBound - start := by
  have hmem := (aligned_iff hs h.bottom).mp haligned
  have hwraps := h.wraps
  rcases (mem_of_turn hs h).mp hmem with hup | ⟨hlow, -, hdvd⟩
  · omega
  · exact ⟨hlow, hdvd⟩

/-! ## All pieces -/

/-- The complement of an interval that does not wrap is that of one piece. -/
theorem bitwiseNot_of_not_wraps (h : ¬ Wraps s) (hstride : s.stride = 0 → s.lowerBound = s.upperBound) :
    s.bitwiseNot = some { notPiece s.stride s with uninitialized := s.uninitialized } := by
  have hwf := notPiece_wellFormed hstride
  unfold bitwiseNot
  rw [ssplit_of_not_wraps h]
  show some { (notPiece s.stride s).normalize.normalize with uninitialized := s.uninitialized } = _
  rw [normalize_eq hwf, normalize_eq hwf]

/-- What the complement of an interval has to be. -/
structure Complement (s r : StridedInterval bits) : Prop where
  wellFormed : r.WellFormed
  aligned : Aligned r
  mem : ∀ x ∈ s.gamma, 2 ^ bits - 1 - x ∈ r.gamma

theorem bitwiseNot_of_bottom (hs : s.WellFormed) (hb : s.isBottom = true) :
    ∃ r, s.bitwiseNot = some r ∧ Complement s r := by
  have hnot : ¬ Wraps s := fun h => absurd (hb.symm.trans (not_bottom_of_wraps hs h)) (by decide)
  have hone : s.stride = 1 := by rw [hs.bottom hb]; rfl
  have hzero : s.stride = 0 → s.lowerBound = s.upperBound := fun h => absurd (hone.symm.trans h) (by decide)
  have hwf := notPiece_wellFormed hzero
  refine ⟨_, bitwiseNot_of_not_wraps hnot hzero, wellFormed_uninitialized hwf s.uninitialized, ?_, ?_⟩
  · show Aligned (notPiece s.stride s)
    have hle := Int.not_lt.mp hnot
    rw [notPiece_eq] at hwf ⊢
    refine aligned_new (complement_on hs.lower) hwf ((mem_new_plain (complement_on hs.upper) (complement_on hs.lower)
      (by omega) fun h => by rw [hzero h]).mpr ⟨by omega, Int.le_refl _, ?_⟩)
    rw [hone]
    exact Int.one_dvd _
  · rw [gamma_bottom hb]
    exact fun x hx => hx.elim

/-- The complement of an aligned interval is aligned and contains the complements of all integers. -/
theorem bitwiseNot_of_aligned (hs : s.WellFormed) (haligned : Aligned s) :
    ∃ r, s.bitwiseNot = some r ∧ Complement s r := by
  cases hb : s.isBottom with
  | true => exact bitwiseNot_of_bottom hs hb
  | false =>
    by_cases hwraps : Wraps s
    · have hturn := turn hs hwraps
      obtain ⟨hi, lo, hsplit, hhi, hlo⟩ := ssplit_of_turn hs hturn rfl
      obtain ⟨hfirst, hdvd⟩ := hturn.of_aligned hs haligned
      have hrest := hturn.rest_lt
      have hub := hs.upper
      unfold On at hub
      rw [Int.emod_eq_of_lt (by omega) (by omega)] at hlo
      obtain ⟨hhiwf, hhialigned, hhimem⟩ := notPiece_spec hhi hturn.last hturn.dvd
      obtain ⟨hlowf, hloaligned, hlomem⟩ := notPiece_spec hlo hfirst hdvd
      obtain ⟨r, hr, hrwf, hraligned, hleft, hright⟩ := smartJoin_aligned hhiwf hlowf hhialigned hloaligned
      refine ⟨{ r with uninitialized := s.uninitialized }, ?_, wellFormed_uninitialized hrwf _, hraligned, ?_⟩
      · unfold bitwiseNot
        rw [hsplit]
        show (pseudoJoin (notPiece s.stride hi) (notPiece s.stride lo) true >>= fun si =>
          some { si.normalize with uninitialized := s.uninitialized }) = _
        rw [hr, Option.bind_eq_bind, Option.bind_some, normalize_eq hrwf]
      intro x hx
      rcases (mem_of_turn hs hturn).mp hx with hx | hx
      · exact hleft (hhimem x (hhi.plain_iff.mpr hx))
      · exact hright (hlomem x (hlo.plain_iff.mpr hx))
    · have hle : s.lowerBound ≤ s.upperBound := Int.not_lt.mp hwraps
      have hdvd : (s.stride : Int) ∣ s.upperBound - s.lowerBound := by
        unfold Aligned length at haligned
        rwa [off_cases hs.lower hs.upper, if_pos hle] at haligned
      obtain ⟨hwf, haligned', hmem⟩ := notPiece_spec (PieceOf.self hs hb) hle hdvd
      exact ⟨_, bitwiseNot_of_not_wraps hwraps hs.integer_of_stride, wellFormed_uninitialized hwf _, haligned',
        fun x hx => hmem x (plain_of_mem hs hwraps hx)⟩

/-! ## The operators -/

/-- Both unary operators answer, and contain what they compute of all integers. -/
def UnarySound (a : StridedInterval bits) : Prop :=
  ∃ r r', a.invertOp = some r ∧ a.negOp = some r' ∧
    ∀ x ∈ a.gamma, 2 ^ bits - 1 - x ∈ r.gamma ∧ (-x) % 2 ^ bits ∈ r'.gamma

/-- The interval has no integer, or all of them. -/
def EmptyOrWhole (a : StridedInterval bits) : Prop :=
  a.isBottom = true ∨ a.lowerBound = 0 ∧ a.upperBound = 2 ^ bits - 1 ∧ a.stride ≤ 1

instance : Decidable (EmptyOrWhole a) := by
  unfold EmptyOrWhole
  infer_instance

theorem mem_of_whole (ha : a.WellFormed) (hb : a.isBottom = false)
    (h : a.lowerBound = 0 ∧ a.upperBound = 2 ^ bits - 1 ∧ a.stride ≤ 1) (hx : On (2 ^ bits) x) : x ∈ a.gamma := by
  obtain ⟨hlb, hub, hstride⟩ := h
  unfold On at hx
  refine (mem_of_not_wraps ha hb (by omega)).mpr ⟨by omega, by omega, ?_⟩
  rcases Nat.le_one_iff_eq_zero_or_eq_one.mp hstride with hzero | hone
  · have := (ha.stride hb).mp hzero
    rw [show x - a.lowerBound = 0 by omega]
    exact Int.dvd_zero _
  · rw [hone]
    exact Int.one_dvd _

theorem unarySound_of_emptyOrWhole (ha : a.WellFormed) (h : EmptyOrWhole a) : UnarySound a := by
  cases hb : a.isBottom with
  | true =>
    obtain ⟨r, hr, -⟩ := bitwiseNot_of_bottom ha hb
    refine ⟨r, r, hr, hr, fun x hx => ?_⟩
    exact absurd (hb.symm.trans hx.1) (by decide)
  | false =>
    have hwhole := h.resolve_left (by rw [hb]; exact Bool.false_ne_true)
    have haligned : Aligned a :=
      (aligned_iff ha hb).mpr (mem_of_whole ha hb hwhole ha.upper)
    obtain ⟨r, hr, hcomplement⟩ := bitwiseNot_of_aligned ha haligned
    have hall : ∀ z, On (2 ^ bits) z → z ∈ r.gamma := by
      intro z hz
      have hmem := hcomplement.mem _ (mem_of_whole ha hb hwhole (complement_on hz))
      rwa [show (2 : Int) ^ bits - 1 - (2 ^ bits - 1 - z) = z by omega] at hmem
    exact ⟨r, r, hr, hr, fun x hx => ⟨hall _ (complement_on (gamma_on ha hx)), hall _ (emod_on (size_pos bits) _)⟩⟩

/-- An interval that does not wrap and on which both operators are right is empty or has all integers. -/
theorem emptyOrWhole_of_unarySound (ha : a.WellFormed) (hle : a.lowerBound ≤ a.upperBound) (h : UnarySound a) :
    EmptyOrWhole a := by
  cases hb : a.isBottom with
  | true => exact .inl hb
  | false =>
    have hzero : a.stride = 0 → a.lowerBound = a.upperBound := (ha.stride hb).mp
    obtain ⟨r, r', hr, hr', hsound⟩ := h
    have hnot := bitwiseNot_of_not_wraps (Int.not_lt.mpr hle) hzero
    obtain rfl := Option.some.inj (hnot.symm.trans hr)
    obtain rfl := Option.some.inj (hnot.symm.trans hr')
    have hmem : ∀ x, 2 ^ bits - 1 - x ∈ (notPiece a.stride a).gamma ↔ _ := fun x =>
      mem_notPiece (p := a) (x := x) ha.lower ha.upper hle hzero
    have hlb := ha.lower
    have hub := ha.upper
    unfold On at hlb hub
    -- the negative of the lower bound is only reached past zero
    obtain ⟨hcomplement, hneg⟩ := hsound _ (lowerBound_mem ha hb)
    have hlb0 : a.lowerBound = 0 := by
      by_contra hne
      rw [← Int.add_emod_right, Int.emod_eq_of_lt (by omega) (by omega),
        show -a.lowerBound + 2 ^ bits = 2 ^ bits - 1 - (a.lowerBound - 1) by omega] at hneg
      have := ((hmem _).mp hneg).1
      omega
    rw [hlb0, Int.neg_zero, Int.zero_emod, show (0 : Int) = 2 ^ bits - 1 - (2 ^ bits - 1) by omega] at hneg
    have hub_max : a.upperBound = 2 ^ bits - 1 := by
      have := ((hmem _).mp hneg).2.1
      omega
    refine .inr ⟨hlb0, hub_max, ?_⟩
    by_contra hstride
    have hdvd : (a.stride : Int) ∣ 2 ^ bits - 1 := by
      have := ((hmem _).mp hcomplement).2.2
      rwa [hlb0, hub_max, Int.sub_zero] at this
    have hne : a.lowerBound ≠ a.upperBound := fun heq => hstride (by rw [(ha.stride hb).mpr heq]; omega)
    have hsle := Int.le_of_dvd (by omega) hdvd
    -- a stride that divides the number of integers and the one before it is one
    have hnext : (a.stride : Int) ∈ a.gamma :=
      (mem_of_not_wraps ha hb hle).mpr ⟨by omega, by omega, by rw [hlb0, Int.sub_zero]⟩
    have hneg' := (hsound _ hnext).2
    rw [← Int.add_emod_right, Int.emod_eq_of_lt (by omega) (by omega),
      show -(a.stride : Int) + 2 ^ bits = 2 ^ bits - 1 - (a.stride - 1) by omega] at hneg'
    have hdvd' := ((hmem _).mp hneg').2.2
    rw [hub_max] at hdvd'
    have hone := Int.dvd_sub hdvd' hdvd
    rw [show (2 : Int) ^ bits - 1 - (a.stride - 1) - (2 ^ bits - 1) = 1 - a.stride by omega] at hone
    have hone := Int.dvd_add hone (Int.dvd_refl (a.stride : Int))
    rw [Int.sub_add_cancel] at hone
    have := Int.le_of_dvd (by decide) hone
    omega

/-- Both unary operators are right on an interval that is empty or has all integers, and on no other one that does not
wrap. -/
theorem unary_operators_sound (ha : a.WellFormed) :
    (EmptyOrWhole a → UnarySound a) ∧ (a.lowerBound ≤ a.upperBound → UnarySound a → EmptyOrWhole a) :=
  ⟨unarySound_of_emptyOrWhole ha, emptyOrWhole_of_unarySound ha⟩

theorem unary_operators_sound_of_whole :
    (EmptyOrWhole (new 1 0 15 false : StridedInterval 4) → UnarySound (new 1 0 15 false : StridedInterval 4)) ∧
      ((new 1 0 15 false : StridedInterval 4).lowerBound ≤ (new 1 0 15 false : StridedInterval 4).upperBound →
        UnarySound (new 1 0 15 false : StridedInterval 4) → EmptyOrWhole (new 1 0 15 false : StridedInterval 4)) :=
  unary_operators_sound (new_wellFormed nofun)

/-- Minus one, for the integer one, is said to be minus two. -/
theorem minus_of_one : ¬ ∀ (bits : Nat) (a : StridedInterval bits), a.WellFormed → UnarySound a := by
  intro h
  have hone : (new 0 1 1 false : StridedInterval 4).WellFormed := new_wellFormed fun _ => rfl
  exact absurd (emptyOrWhole_of_unarySound hone (by decide) (h 4 _ hone)) (by decide)

end Claripy.Vsa.StridedInterval
