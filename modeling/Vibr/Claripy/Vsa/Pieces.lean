import Vibr.Claripy.Vsa.Enumeration
import Vibr.Claripy.Vsa.LeastUpperBound

/-!
# Pieces

An operator splits its operands at the south pole, and at the north pole where signs matter, works on the pieces,
and joins the results. It contains all values if every piece has the integers that it ought to have, if the operator is
right on pieces, and if the join loses none of the results.
-/

namespace Claripy.Vsa.StridedInterval

open Arc

variable {bits width : Nat} {a b s p q r : StridedInterval bits} {x y z : Int} {pieces : List (StridedInterval bits)}

/-- Every integer of an interval is one of a piece, read without wrapping. -/
structure Pieces (s : StridedInterval bits) (pieces : List (StridedInterval bits)) : Prop where
  wellFormed : ∀ p ∈ pieces, p.WellFormed
  nonempty : pieces ≠ []
  covers : ∀ x ∈ s.gamma, ∃ p ∈ pieces, Plain p x

theorem WellFormed.integer_of_stride (hs : s.WellFormed) (h : s.stride = 0) : s.lowerBound = s.upperBound := by
  cases hb : s.isBottom with
  | false => exact (hs.stride hb).mp h
  | true =>
    rw [hs.bottom hb] at h
    exact absurd h Nat.one_ne_zero

theorem plain_on (hp : p.WellFormed) (hx : Plain p x) : On (2 ^ bits) x :=
  ⟨Int.le_trans hp.lower.1 hx.1, Int.lt_of_le_of_lt hx.2.1 hp.upper.2⟩

theorem plain_of_mem (hs : s.WellFormed) (h : ¬ Wraps s) (hx : x ∈ s.gamma) : Plain s x := (plain_iff hs hx.1 h).mpr hx

/-- An interval that does not wrap is its only piece. -/
theorem Pieces.single (hs : s.WellFormed) (h : ¬ Wraps s) : Pieces s [s] where
  wellFormed := fun _ hp => List.mem_singleton.mp hp ▸ hs
  nonempty := List.cons_ne_nil _ _
  covers := fun _ hx => ⟨s, List.mem_singleton_self s, plain_of_mem hs h hx⟩

/-- An interval that does not wrap is a piece of its own. -/
theorem PieceOf.self (hs : s.WellFormed) (hb : s.isBottom = false) : PieceOf s s.lowerBound s.upperBound s where
  wellFormed := hs
  lower := rfl
  upper := rfl
  stride := by
    split
    · next heq => exact (hs.stride hb).mpr heq
    · rfl
  bottom := hb

/-- At the south pole, there are one or two pieces. -/
theorem ssplit_pieces (hs : s.WellFormed) :
    ∃ pieces, s.ssplit = some pieces ∧ Pieces s pieces ∧ pieces.length ≤ 2 ∧ (¬ Wraps s → pieces.length = 1) := by
  by_cases hwraps : Wraps s
  · have hturn := turn hs hwraps
    obtain ⟨hi, lo, hsplit, hhi, hlo⟩ := ssplit_of_turn hs hturn rfl
    refine ⟨[hi, lo], hsplit, ⟨?_, List.cons_ne_nil _ _, ?_⟩, Nat.le_refl 2, fun h => absurd hwraps h⟩
    · intro p hp
      rcases List.mem_pair.mp hp with rfl | rfl
      · exact hhi.wellFormed
      · exact hlo.wellFormed
    intro x hx
    rcases (mem_of_turn hs hturn).mp hx with hx | ⟨hlow, hup, hdvd⟩
    · exact ⟨hi, List.mem_cons_self, hhi.plain_iff.mpr hx⟩
    have hstart := hturn.start_eq
    have hrest := hturn.rest_lt
    have hub := hs.upper
    unfold On at hub
    refine ⟨lo, List.mem_cons_of_mem _ List.mem_cons_self, hlo.plain_iff.mpr ?_⟩
    rw [Int.emod_eq_of_lt (by omega) (by omega)]
    exact ⟨hlow, hup, hdvd⟩
  · exact ⟨[s], ssplit_of_not_wraps hwraps, Pieces.single hs hwraps, Nat.le_succ 1, fun _ => rfl⟩

/-! ## The constructor, between bounds in order -/

section New

variable {stride : Nat} {lb ub lb' ub' : Int} {uninit : Bool}

theorem new_congr (hlb : lb % 2 ^ bits = lb' % 2 ^ bits) (hub : ub % 2 ^ bits = ub' % 2 ^ bits) :
    (new stride lb ub uninit : StridedInterval bits) = new stride lb' ub' uninit := by
  unfold new normalize
  dsimp only
  rw [hlb, hub]
  rfl

/-- An integer between two bounds that are in order. -/
theorem mem_new_plain (hlb : On (2 ^ bits) lb) (hub : On (2 ^ bits) ub) (hle : lb ≤ ub)
    (hstride : stride = 0 → lb = ub) : x ∈ (new stride lb ub uninit : StridedInterval bits).gamma ↔
      lb ≤ x ∧ x ≤ ub ∧ (stride : Int) ∣ x - lb := by
  rw [mem_gamma_new fun h => by rw [hstride h], off_cases hlb hub, if_pos hle]
  constructor
  · rintro ⟨hon, hdist, hdvd⟩
    rw [off_cases hlb hon] at hdist hdvd
    unfold On at hlb hub hon
    split at hdist
    · next hlow =>
        rw [if_pos hlow] at hdvd
        exact ⟨hlow, by omega, hdvd⟩
    · omega
  rintro ⟨hlow, hup, hdvd⟩
  have hon : On (2 ^ bits) x := by
    unfold On at hlb hub ⊢
    omega
  rw [off_cases hlb hon, if_pos hlow]
  exact ⟨hon, by omega, hdvd⟩

/-- Between bounds that are in order, the constructor only takes the stride away from integers. -/
theorem new_fields (hlb : On (2 ^ bits) lb) (hub : On (2 ^ bits) ub) (hle : lb ≤ ub) :
    (new stride lb ub uninit : StridedInterval bits) = ⟨if lb = ub then 0 else stride, lb, ub, false, uninit⟩ := by
  have hlb' := emod_of_on hlb
  have hub' := emod_of_on hub
  obtain ⟨heq, h⟩ | ⟨hne, ⟨hmeet, hone⟩, h⟩ | ⟨hne, -, h⟩ := @new_cases bits stride lb ub uninit
  · rw [hlb', hub'] at heq
    rw [h, if_pos heq, hlb', hub']
  · -- the bounds meet at the ends of the circle
    rw [hlb', hub'] at hne hmeet
    have hlength := off_of_meet hlb hub hmeet
    rw [off_cases hlb hub, if_pos hle] at hlength
    unfold On at hlb hub
    rw [h, if_neg hne, hone, show lb = 0 by omega, show ub = 2 ^ bits - 1 by omega]
  · rw [hlb', hub'] at hne
    rw [h, if_neg hne, hlb', hub']

theorem new_wellFormed_plain (hstride : stride = 0 → lb = ub) :
    (new stride lb ub uninit : StridedInterval bits).WellFormed := new_wellFormed fun h => by rw [hstride h]

end New

/-! ## Results -/

/-- The join of the results loses none of them: there are at most two, or they neither go from the least to the
greatest integer nor are all one integer. -/
def Joinable (results : List (StridedInterval bits)) : Prop :=
  results.length ≤ 2 ∨ ¬ WrapsAround results ∧ ¬ Constant results

theorem wellFormed_normalizeTypes (h : r.WellFormed) : (normalizeTypes a b r).WellFormed := by
  unfold normalizeTypes
  split
  · exact wellFormed_uninitialized h true
  · exact h

/-! ## Upper bounds that are integers of their intervals -/

/-- The upper bound is an integer of the interval. -/
def Aligned (s : StridedInterval bits) : Prop := (s.stride : Int) ∣ s.length

theorem aligned_normalizeTypes : Aligned (normalizeTypes a b r) ↔ Aligned r := by
  unfold normalizeTypes
  split <;> rfl

theorem aligned_iff (hs : s.WellFormed) (hb : s.isBottom = false) : Aligned s ↔ s.upperBound ∈ s.gamma := by
  rw [mem_gamma hs hb]
  exact ⟨fun h => ⟨hs.upper, Int.le_refl _, h⟩, fun h => h.2.2⟩

theorem aligned_of_one (h : s.stride = 1) : Aligned s := by
  unfold Aligned
  rw [h]
  exact Int.one_dvd _

/-- Every join is one of its operands, the whole circle, or goes from a lower bound to an upper bound of theirs. -/
theorem pseudoJoin_cases {smartJoin : Bool} (h : pseudoJoin a b smartJoin = some r) :
    r = a ∨ r = b ∨ (∃ uninit, r = top uninit) ∨ ∃ stride lb ub uninit, (lb = a.lowerBound ∨ lb = b.lowerBound) ∧
      (ub = a.upperBound ∨ ub = b.upperBound) ∧ r = new stride lb ub uninit := by
  unfold pseudoJoin at h
  dsimp only at h
  rcases ite_eq_iff.mp h with ⟨_, h⟩ | ⟨_, h⟩
  · exact .inr (.inl (Option.some.inj h).symm)
  rcases ite_eq_iff.mp h with ⟨_, h⟩ | ⟨_, h⟩
  · exact .inl (Option.some.inj h).symm
  rcases ite_eq_iff.mp h with ⟨_, h⟩ | ⟨_, h⟩
  · refine .inr (.inr (.inr ⟨_, _, _, _, ?_, ?_, (Option.some.inj h).symm⟩)) <;> split
    · exact min_choice _ _
    · exact .inl rfl
    · exact max_choice _ _
    · exact .inr rfl
  rcases ite_eq_iff.mp h with ⟨_, h⟩ | ⟨_, h⟩
  · exact .inr (.inr (.inr ⟨_, _, _, _, .inr rfl, .inr rfl, (Option.some.inj h).symm⟩))
  rcases ite_eq_iff.mp h with ⟨_, h⟩ | ⟨_, h⟩
  · exact .inr (.inr (.inr ⟨_, _, _, _, .inl rfl, .inl rfl, (Option.some.inj h).symm⟩))
  rcases ite_eq_iff.mp h with ⟨_, h⟩ | ⟨_, h⟩
  · exact .inr (.inr (.inl ⟨_, (Option.some.inj h).symm⟩))
  rcases ite_eq_iff.mp h with ⟨_, h⟩ | ⟨_, h⟩
  · exact .inr (.inr (.inr ⟨_, _, _, _, .inl rfl, .inr rfl, (Option.some.inj h).symm⟩))
  rcases ite_eq_iff.mp h with ⟨_, h⟩ | ⟨_, h⟩
  · exact .inr (.inr (.inr ⟨_, _, _, _, .inr rfl, .inl rfl, (Option.some.inj h).symm⟩))
  rcases ite_eq_iff.mp h with ⟨_, h⟩ | ⟨_, h⟩
  · exact .inr (.inr (.inr ⟨_, _, _, _, .inl rfl, .inr rfl, (Option.some.inj h).symm⟩))
  -- the shorter one of two
  obtain ⟨n1, _, h⟩ := Option.bind_eq_some_iff.mp h
  obtain ⟨n2, _, h⟩ := Option.bind_eq_some_iff.mp h
  rw [← Option.some.inj h]
  split
  · exact .inr (.inr (.inr ⟨_, _, _, _, .inr rfl, .inl rfl, rfl⟩))
  · exact .inr (.inr (.inr ⟨_, _, _, _, .inl rfl, .inr rfl, rfl⟩))

/-- Bounds of which the upper one is an integer of the interval that they make. -/
theorem aligned_new {stride : Nat} {lb ub : Int} {uninit : Bool} (hub : On (2 ^ bits) ub)
    (hwf : (new stride lb ub uninit : StridedInterval bits).WellFormed)
    (hmem : ub ∈ (new stride lb ub uninit : StridedInterval bits).gamma) :
    Aligned (new stride lb ub uninit : StridedInterval bits) := by
  have hub' := emod_of_on hub
  obtain ⟨_, h⟩ | ⟨_, _, h⟩ | ⟨_, _, h⟩ := @new_cases bits stride lb ub uninit
  · refine (aligned_iff hwf new_isBottom).mpr ?_
    rwa [show (new stride lb ub uninit : StridedInterval bits).upperBound = ub by rw [h]; exact hub']
  · exact aligned_of_one (by rw [h])
  · refine (aligned_iff hwf new_isBottom).mpr ?_
    rwa [show (new stride lb ub uninit : StridedInterval bits).upperBound = ub by rw [h]; exact hub']

/-- The join of aligned intervals is aligned. -/
theorem smartJoin_aligned (ha : a.WellFormed) (hb : b.WellFormed) (haligned : Aligned a) (hbligned : Aligned b) :
    ∃ r, pseudoJoin a b true = some r ∧ r.WellFormed ∧ Aligned r ∧ a.gamma ⊆ r.gamma ∧ b.gamma ⊆ r.gamma := by
  obtain ⟨r, hr, hjoin⟩ := @pseudoJoin_spec _ _ _ ha hb true (fun h => absurd h.1 (by decide))
  refine ⟨r, hr, hjoin.wellFormed, ?_, hjoin.left, hjoin.right⟩
  cases hab : a.isBottom with
  | true =>
    have hrb : pseudoJoin a b true = some b := if_pos hab
    rwa [← Option.some.inj (hrb.symm.trans hr)]
  | false =>
    cases hbb : b.isBottom with
    | true =>
      have hra : pseudoJoin a b true = some a := by
        unfold pseudoJoin isEmpty
        rw [hab, hbb, if_neg Bool.false_ne_true, if_pos rfl]
      rwa [← Option.some.inj (hra.symm.trans hr)]
    | false =>
      have ha' := hjoin.left ((aligned_iff ha hab).mp haligned)
      have hb' := hjoin.right ((aligned_iff hb hbb).mp hbligned)
      have hwf := hjoin.wellFormed
      obtain rfl | rfl | ⟨uninit, rfl⟩ | ⟨stride, lb, ub, uninit, -, hub, rfl⟩ := pseudoJoin_cases hr
      · exact haligned
      · exact hbligned
      · have hmax : On (2 ^ bits) (2 ^ bits - 1) := ⟨by have := size_pos bits; omega, by omega⟩
        exact aligned_new hmax hwf (mem_gamma_top hmax)
      · rcases hub with rfl | rfl
        · exact aligned_new ha.upper hwf ha'
        · exact aligned_new hb.upper hwf hb'

/-- The join of one or two aligned intervals is aligned. -/
theorem join_aligned {results : List (StridedInterval bits)} (hne : results ≠ []) (hlength : results.length ≤ 2)
    (hall : ∀ m ∈ results, m.WellFormed ∧ Aligned m) :
    ∃ r, leastUpperBound results = some r ∧ r.WellFormed ∧ Aligned r ∧ ∀ m ∈ results, m.gamma ⊆ r.gamma := by
  match results, hne, hlength, hall with
  | [m], _, _, hall =>
    obtain ⟨hwf, haligned⟩ := hall m List.mem_cons_self
    refine ⟨m, ?_, hwf, haligned, fun m' hm' => by rw [List.mem_singleton.mp hm']⟩
    show some m.normalize = _
    rw [normalize_eq hwf]
  | [m, n], _, _, hall =>
    obtain ⟨hm, hmaligned⟩ := hall m List.mem_cons_self
    obtain ⟨hn, hnaligned⟩ := hall n (List.mem_cons_of_mem _ List.mem_cons_self)
    obtain ⟨r, hr, hrwf, hraligned, hleft, hright⟩ := smartJoin_aligned hm hn hmaligned hnaligned
    refine ⟨r, hr, hrwf, hraligned, fun m' hm' => ?_⟩
    rcases List.mem_pair.mp hm' with rfl | rfl
    · exact hleft
    · exact hright

end Claripy.Vsa.StridedInterval
