import Vibr.Claripy.Vsa.SignedComparison

/-!
# Enumeration

The integers of an interval are listed piece by piece, each piece from its lower bound on. The greatest and the least
integer are read off the bounds of the pieces, which need not be integers of the interval.
-/

namespace Claripy.Vsa.StridedInterval

open Arc

variable {bits : Nat} {s : StridedInterval bits} {x lb ub : Int} {stride room : Nat}

def bounds (si : StridedInterval bits) (signed : Bool) : Option (List (Int × Int)) :=
  if signed then si.signedBounds else si.unsignedBounds

/-- The loop over one pair of bounds, with `room` for further results. -/
def evalLoop (stride : Nat) : Nat → Int → Int → List Int
  | 0, _, _ => []
  | room + 1, lb, ub => if lb ≤ ub then lb :: evalLoop stride room (lb + stride) ub else []

def eval (si : StridedInterval bits) (n : Int) (signed : Bool) : Option (List Int) :=
  if si.isEmpty then some []
  else if si.stride = 0 ∧ n > 0 then some [si.lowerBound]
  else do
    let bounds ← si.bounds signed
    return bounds.foldl (fun results (lb, ub) => results ++ evalLoop si.stride (n - results.length).toNat lb ub) []

def cardinality (si : StridedInterval bits) : Option Int :=
  if si.isEmpty then some 0
  else if si.isInteger then some 1
  else if si.stride = 0 then none
  else some ((modularSub si.upperBound si.lowerBound bits + si.stride) / si.stride)

/-- The greatest integer, or `some none` if there is none. -/
protected def max (si : StridedInterval bits) (signed : Bool) : Option (Option Int) :=
  if si.isEmpty then some none
  else do
    let split ← si.bounds signed
    return some (← (split.map Prod.snd).max?)

/-- The least integer, or `some none` if there is none. -/
protected def min (si : StridedInterval bits) (signed : Bool) : Option (Option Int) :=
  if si.isEmpty then some none
  else do
    let split ← si.bounds signed
    return some (← (split.map Prod.fst).min?)

/-! ## One pair of bounds -/

/-- The number of integers from one bound on that are `stride` apart and not above the other bound. -/
def count (stride : Nat) (lb ub : Int) : Nat := if lb ≤ ub then ((ub - lb) / stride).toNat + 1 else 0

theorem count_of_le (hstride : stride ≠ 0) (h : lb ≤ ub) : count stride lb ub = count stride (lb + stride) ub + 1 := by
  have hdiv : (ub - lb) / stride = (ub - (lb + stride)) / stride + 1 := by
    rw [← Int.add_mul_ediv_right _ 1 (by omega)]
    exact congrArg (· / (stride : Int)) (by omega)
  unfold count
  rw [if_pos h, hdiv]
  split
  · have := Int.ediv_nonneg (show 0 ≤ ub - (lb + stride) by omega) (show (0 : Int) ≤ stride by omega)
    omega
  · have := Int.ediv_neg_of_neg_of_pos (show ub - (lb + stride) < 0 by omega) (show (0 : Int) < stride by omega)
    omega

theorem evalLoop_length (hstride : stride ≠ 0) : (evalLoop stride room lb ub).length = min room (count stride lb ub) := by
  induction room generalizing lb with
  | zero => simp [evalLoop]
  | succ room ih =>
    unfold evalLoop
    split
    · next hle =>
        rw [List.length_cons, ih, count_of_le hstride hle]
        omega
    · next hlt => simp [count, hlt]

theorem evalLoop_mem (hx : x ∈ evalLoop stride room lb ub) : lb ≤ x ∧ x ≤ ub ∧ (stride : Int) ∣ x - lb := by
  induction room generalizing lb with
  | zero => exact absurd hx List.not_mem_nil
  | succ room ih =>
    unfold evalLoop at hx
    split at hx
    · next hle =>
        rcases List.mem_cons.mp hx with rfl | hx
        · exact ⟨Int.le_refl _, hle, by rw [Int.sub_self]; exact Int.dvd_zero _⟩
        obtain ⟨hlow, hup, hdvd⟩ := ih hx
        refine ⟨by omega, hup, ?_⟩
        rw [show x - lb = x - (lb + stride) + stride by omega]
        exact Int.dvd_add hdvd (Int.dvd_refl _)
    · exact absurd hx List.not_mem_nil

theorem evalLoop_nodup (hstride : stride ≠ 0) : (evalLoop stride room lb ub).Nodup := by
  induction room generalizing lb with
  | zero => exact List.nodup_nil
  | succ room ih =>
    unfold evalLoop
    split
    · refine List.nodup_cons.mpr ⟨fun hmem => ?_, ih⟩
      have := (evalLoop_mem hmem).1
      omega
    · exact List.nodup_nil

theorem evalLoop_complete (hstride : stride ≠ 0) (hroom : count stride lb ub ≤ room)
    (hx : lb ≤ x ∧ x ≤ ub ∧ (stride : Int) ∣ x - lb) : x ∈ evalLoop stride room lb ub := by
  induction room generalizing lb with
  | zero =>
    unfold count at hroom
    rw [if_pos (by omega)] at hroom
    omega
  | succ room ih =>
    obtain ⟨hlow, hup, hdvd⟩ := hx
    have hle : lb ≤ ub := by omega
    unfold evalLoop
    rw [if_pos hle]
    by_cases hfirst : x = lb
    · exact hfirst ▸ List.mem_cons_self
    rw [count_of_le hstride hle] at hroom
    have hnext : (stride : Int) ∣ x - (lb + stride) := by
      rw [show x - (lb + stride) = x - lb - stride by omega]
      exact Int.dvd_sub hdvd (Int.dvd_refl _)
    have := multiple_pos (by omega) hnext
    exact List.mem_cons_of_mem _ (ih (by omega) ⟨by omega, hup, hnext⟩)

/-! ## The pieces -/

/-- The second piece of an interval that wraps starts at its first integer past zero, or past its upper bound. The upper
bound of one that does not is one of its integers. -/
def Exact (s : StridedInterval bits) : Prop :=
  if s.lowerBound ≤ s.upperBound then (s.stride : Int) ∣ s.upperBound - s.lowerBound
  else
    let start := s.stride - 1 - (2 ^ bits - 1 - s.lowerBound) % s.stride
    start ≤ s.upperBound ∨ s.lowerBound ≤ start % 2 ^ bits

instance : Decidable (Exact s) := by
  unfold Exact
  infer_instance

theorem mem_of_not_wraps (hs : s.WellFormed) (hb : s.isBottom = false) (h : s.lowerBound ≤ s.upperBound) :
    x ∈ s.gamma ↔ s.lowerBound ≤ x ∧ x ≤ s.upperBound ∧ (s.stride : Int) ∣ x - s.lowerBound :=
  (plain_iff hs hb (Int.not_lt.mpr h)).symm

/-- An interval that wraps, with the distance from its last integer before zero to the largest integer, and its first
integer after that. -/
structure Turn (s : StridedInterval bits) (rest start : Int) : Prop where
  wraps : s.upperBound < s.lowerBound
  bottom : s.isBottom = false
  stride : s.stride ≠ 0
  rest_lt : 0 ≤ rest ∧ rest < s.stride
  start_eq : start = s.stride - 1 - rest
  last : s.lowerBound ≤ 2 ^ bits - 1 - rest
  dvd : (s.stride : Int) ∣ 2 ^ bits - 1 - rest - s.lowerBound

theorem turn (hs : s.WellFormed) (h : s.upperBound < s.lowerBound) :
    Turn s ((2 ^ bits - 1 - s.lowerBound) % s.stride) (s.stride - 1 - (2 ^ bits - 1 - s.lowerBound) % s.stride) := by
  have hb := not_bottom_of_wraps hs h
  have hlb := hs.lower
  unfold On at hlb
  have hstride : s.stride ≠ 0 := by
    intro hzero
    have := (hs.stride hb).mp hzero
    omega
  obtain ⟨hrest0, hrestlt, hrestle, hdvd⟩ := @rest_spec s.stride (2 ^ bits - 1 - s.lowerBound) (by omega) (by omega)
  refine ⟨h, hb, hstride, ⟨hrest0, hrestlt⟩, rfl, by omega, ?_⟩
  rwa [sub_right_comm]

variable {rest start : Int}

theorem mem_of_turn (hs : s.WellFormed) (h : Turn s rest start) : x ∈ s.gamma ↔
    s.lowerBound ≤ x ∧ x ≤ 2 ^ bits - 1 - rest ∧ (s.stride : Int) ∣ x - s.lowerBound ∨
      start ≤ x ∧ x ≤ s.upperBound ∧ (s.stride : Int) ∣ x - start := by
  obtain ⟨hwraps, hb, hstride, ⟨hrest0, hrestlt⟩, hstart, hlast, hdvd⟩ := h
  have hlb := hs.lower
  have hub := hs.upper
  have hround : ∀ x, x - s.lowerBound + 2 ^ bits = x - start + (2 ^ bits - 1 - rest - s.lowerBound) + s.stride := by
    intro x
    omega
  unfold On at hlb hub
  constructor
  · intro hx
    obtain ⟨hon, ⟨hle, hxdvd, -⟩ | ⟨hlt, hxdvd, -, hup⟩⟩ := mem_cases hs hx
    · unfold On at hon
      have hrem := Int.dvd_sub hdvd hxdvd
      have := multiple_pos (by omega) hrem
      exact .inl ⟨hle, by omega, hxdvd⟩
    unfold On at hon
    rw [hround, Int.dvd_add_left (Int.dvd_refl _), Int.dvd_add_left hdvd] at hxdvd
    have := multiple_pos (by omega) hxdvd
    exact .inr ⟨by omega, hup, hxdvd⟩
  · intro hx
    have hon : On (2 ^ bits) x := by
      unfold On
      omega
    rw [mem_gamma hs hb, off_cases hs.lower hon, off_cases hs.lower hs.upper, if_neg (Int.not_le.mpr hwraps)]
    rcases hx with ⟨hle, hup, hxdvd⟩ | ⟨hle, hup, hxdvd⟩
    · rw [if_pos hle]
      exact ⟨hon, by omega, hxdvd⟩
    · rw [if_neg (by omega), hround, Int.dvd_add_left (Int.dvd_refl _), Int.dvd_add_left hdvd]
      exact ⟨hon, by omega, hxdvd⟩

theorem unsignedBounds_of_not_wraps (h : s.lowerBound ≤ s.upperBound) :
    s.unsignedBounds = some [(s.lowerBound, s.upperBound)] := by
  unfold unsignedBounds
  rw [ssplit_of_not_wraps (Int.not_lt.mpr h)]
  rfl

/-- A piece of an interval between two bounds. -/
structure PieceOf (s : StridedInterval bits) (lb ub : Int) (p : StridedInterval bits) : Prop where
  wellFormed : p.WellFormed
  lower : p.lowerBound = lb
  upper : p.upperBound = ub
  stride : p.stride = if lb = ub then 0 else s.stride
  bottom : p.isBottom = false

/-- A piece has the bounds that it is made with, unless they meet at a stride of one. -/
theorem pieceOf_new {l u : Int} {uninit : Bool} (hstride : s.stride ≠ 0) (hl : l % 2 ^ bits = lb) (hu : u % 2 ^ bits = ub)
    (hmeet : ¬ (lb = (ub + 1) % 2 ^ bits ∧ s.stride = 1)) : PieceOf s lb ub (new s.stride l u uninit) := by
  have hwf : (new s.stride l u uninit : StridedInterval bits).WellFormed := new_wellFormed fun h => absurd h hstride
  subst hl hu
  obtain ⟨heq, hnew⟩ | ⟨_, hmeets, _⟩ | ⟨hne, _, hnew⟩ := @new_cases bits s.stride l u uninit
  · exact ⟨hwf, by rw [hnew], by rw [hnew], by rw [hnew, if_pos heq], new_isBottom⟩
  · exact absurd hmeets hmeet
  · exact ⟨hwf, by rw [hnew], by rw [hnew], by rw [hnew, if_neg hne], new_isBottom⟩

theorem PieceOf.plain_iff {p : StridedInterval bits} (h : PieceOf s lb ub p) :
    Plain p x ↔ lb ≤ x ∧ x ≤ ub ∧ (s.stride : Int) ∣ x - lb := by
  unfold Plain
  rw [h.lower, h.upper, h.stride]
  split
  · refine and_congr_right fun hlow => and_congr_right fun hup => ?_
    rw [show x - lb = 0 by omega]
    exact iff_of_true (Int.dvd_zero _) (Int.dvd_zero _)
  · exact Iff.rfl

/-- The two pieces of an interval that wraps. -/
theorem ssplit_of_turn (hs : s.WellFormed) (h : Turn s rest start)
    (hrest : rest = (2 ^ bits - 1 - s.lowerBound) % s.stride) :
    ∃ hi lo, s.ssplit = some [hi, lo] ∧ PieceOf s s.lowerBound (2 ^ bits - 1 - rest) hi ∧
      PieceOf s (start % 2 ^ bits) s.upperBound lo := by
  obtain ⟨hwraps, hb, hstride, ⟨hrest0, hrestlt⟩, hstart, hlast, hdvd⟩ := h
  have hlb := hs.lower
  have hub := hs.upper
  have hmod : (2 ^ bits - 1 - rest + s.stride) % 2 ^ bits = start % 2 ^ bits := by
    rw [show (2 ^ bits - 1 - rest + s.stride : Int) = start + 2 ^ bits by omega, Int.add_emod_right]
  have hsplit : s.ssplit = some
      [new s.stride s.lowerBound (2 ^ bits - 1 - rest) s.uninitialized,
        new s.stride ((2 ^ bits - 1 - rest + s.stride) % 2 ^ bits) s.upperBound s.uninitialized] := by
    unfold ssplit strideMod
    dsimp only
    rw [if_pos hwraps, if_neg hstride, hrest]
    rfl
  have hupper : On (2 ^ bits) (2 ^ bits - 1 - rest) := by
    unfold On at hlb ⊢
    omega
  unfold On at hlb hub
  refine ⟨_, _, hsplit, pieceOf_new hstride (emod_of_on hs.lower) (emod_of_on hupper) ?_,
    pieceOf_new hstride (by rw [hmod, Int.emod_emod_of_dvd _ (Int.dvd_refl _)]) (emod_of_on hs.upper) ?_⟩
  · rintro ⟨hmeet, hone⟩
    rw [show 2 ^ bits - 1 - rest + 1 = (2 : Int) ^ bits by omega, Int.emod_self] at hmeet
    omega
  · rintro ⟨hmeet, hone⟩
    rw [Int.emod_eq_of_lt (by omega) (by omega), Int.emod_eq_of_lt (by omega) (by omega)] at hmeet
    omega

theorem unsignedBounds_of_turn (hs : s.WellFormed) (h : Turn s rest start)
    (hrest : rest = (2 ^ bits - 1 - s.lowerBound) % s.stride) :
    s.unsignedBounds = some [(s.lowerBound, 2 ^ bits - 1 - rest), (start % 2 ^ bits, s.upperBound)] := by
  obtain ⟨hi, lo, hsplit, hhi, hlo⟩ := ssplit_of_turn hs h hrest
  unfold unsignedBounds
  rw [hsplit]
  show some [(hi.lowerBound, hi.upperBound), (lo.lowerBound, lo.upperBound)] = _
  rw [hhi.lower, hhi.upper, hlo.lower, hlo.upper]

/-! ## All integers -/

/-- Evaluation lists integers of the interval, as many as it is asked for and no integer twice. -/
structure Lists (s : StridedInterval bits) (total : Nat) (n : Int) (results : List Int) : Prop where
  eval : s.eval n false = some results
  length : results.length = min n.toNat total
  nodup : results.Nodup
  sound : ∀ x ∈ results, x ∈ s.gamma
  complete : total ≤ n.toNat → ∀ x ∈ s.gamma, x ∈ results

theorem evalLoop_of_lt (h : ub < lb) : evalLoop stride room lb ub = [] := by
  cases room with
  | zero => rfl
  | succ room => exact if_neg (Int.not_le.mpr h)

theorem lists_of_bottom (hb : s.isBottom = true) (n : Int) : Lists s 0 n [] := by
  refine ⟨if_pos hb, (Nat.min_zero _).symm, List.nodup_nil, nofun, fun _ x hx => ?_⟩
  rw [gamma_bottom hb] at hx
  exact hx.elim

/-- A stride of zero, for which the loop is not run. -/
theorem lists_of_integer (hs : s.WellFormed) (hb : s.isBottom = false) (hint : s.isInteger = true) (n : Int) :
    ∃ results, Lists s 1 n results := by
  have hstride := (hs.stride hb).mpr (isInteger_iff.mp hint)
  have hnot : ¬ s.isEmpty = true := by rw [isEmpty, hb]; exact Bool.false_ne_true
  by_cases hn : 0 < n
  · refine ⟨[s.lowerBound], ?_, ?_, List.nodup_singleton _, ?_, fun _ x hx => ?_⟩
    · unfold eval
      rw [if_neg hnot, if_pos ⟨hstride, hn⟩]
    · rw [List.length_singleton]
      omega
    · intro x hx
      rw [List.mem_singleton.mp hx]
      exact lowerBound_mem hs hb
    · exact List.mem_singleton.mpr (mem_integer hs hint hx)
  · refine ⟨[], ?_, ?_, List.nodup_nil, nofun, fun hle => ?_⟩
    · unfold eval bounds
      rw [if_neg hnot, if_neg fun h => hn h.2, if_neg Bool.false_ne_true,
        unsignedBounds_of_not_wraps (Int.le_of_eq (isInteger_iff.mp hint))]
      simp only [Option.bind_eq_bind, Option.bind_some, List.foldl_cons, List.foldl_nil, List.length_nil, List.nil_append]
      rw [show (n - ((0 : Nat) : Int)).toNat = 0 by omega]
      rfl
    · rw [List.length_nil]
      omega
    · omega

theorem lists_of_not_wraps (hs : s.WellFormed) (hb : s.isBottom = false) (hstride : s.stride ≠ 0)
    (h : s.lowerBound ≤ s.upperBound) (n : Int) :
    Lists s (count s.stride s.lowerBound s.upperBound) n (evalLoop s.stride n.toNat s.lowerBound s.upperBound) := by
  have hnot : ¬ s.isEmpty = true := by rw [isEmpty, hb]; exact Bool.false_ne_true
  refine ⟨?_, evalLoop_length hstride, evalLoop_nodup hstride, fun x hx => ?_, fun hle x hx => ?_⟩
  · unfold eval bounds
    rw [if_neg hnot, if_neg fun h => hstride h.1, if_neg Bool.false_ne_true, unsignedBounds_of_not_wraps h]
    simp only [Option.bind_eq_bind, Option.bind_some, List.foldl_cons, List.foldl_nil, List.length_nil, List.nil_append,
      Nat.cast_zero, Int.sub_zero]
    rfl
  · exact (mem_of_not_wraps hs hb h).mpr (evalLoop_mem hx)
  · exact evalLoop_complete hstride hle ((mem_of_not_wraps hs hb h).mp hx)

theorem lists_of_turn (hs : s.WellFormed) (h : Turn s rest start)
    (hrest : rest = (2 ^ bits - 1 - s.lowerBound) % s.stride)
    (hexact : start ≤ s.upperBound ∨ s.lowerBound ≤ start % 2 ^ bits) (n : Int) :
    ∃ results, Lists s (count s.stride s.lowerBound (2 ^ bits - 1 - rest) + count s.stride start s.upperBound) n
      results := by
  have hnot : ¬ s.isEmpty = true := by rw [isEmpty, h.bottom]; exact Bool.false_ne_true
  have hwraps := h.wraps
  have hstart := h.start_eq
  have hlast := h.last
  have hstride := h.stride
  have ⟨hrest0, hrestlt⟩ := h.rest_lt
  have hub := hs.upper
  unfold On at hub
  have hsecond : ∀ room, evalLoop s.stride room (start % 2 ^ bits) s.upperBound =
      evalLoop s.stride room start s.upperBound := by
    intro room
    rcases Int.lt_or_le s.upperBound start with hlt | hle
    · rw [evalLoop_of_lt hlt, evalLoop_of_lt (by omega)]
    · rw [Int.emod_eq_of_lt (by omega) (by omega)]
  let first := evalLoop s.stride n.toNat s.lowerBound (2 ^ bits - 1 - rest)
  have hlength : first.length = min n.toNat _ := evalLoop_length hstride
  refine ⟨first ++ evalLoop s.stride (n - first.length).toNat start s.upperBound, ?_, ?_, ?_, ?_, ?_⟩
  · unfold eval bounds
    rw [if_neg hnot, if_neg fun h => hstride h.1, if_neg Bool.false_ne_true, unsignedBounds_of_turn hs h hrest]
    simp only [Option.bind_eq_bind, Option.bind_some, List.foldl_cons, List.foldl_nil, List.length_nil, List.nil_append,
      Nat.cast_zero, Int.sub_zero, hsecond]
    rfl
  · rw [List.length_append, hlength, evalLoop_length hstride]
    omega
  · refine List.Nodup.append (evalLoop_nodup hstride) (evalLoop_nodup hstride) fun x hx hx' => ?_
    have hlow := (evalLoop_mem hx).1
    have hup := (evalLoop_mem hx').2.1
    omega
  · intro x hx
    refine (mem_of_turn hs h).mpr ?_
    rcases List.mem_append.mp hx with hx | hx
    · exact .inl (evalLoop_mem hx)
    · exact .inr (evalLoop_mem hx)
  intro hle x hx
  rcases (mem_of_turn hs h).mp hx with hx | hx
  · exact List.mem_append_left _ (evalLoop_complete hstride (by omega) hx)
  · exact List.mem_append_right _ (evalLoop_complete hstride (by omega) hx)

/-- The cardinality of an interval that wraps, piece by piece. -/
theorem cardinality_of_turn (hs : s.WellFormed) (h : Turn s rest start) :
    (s.upperBound - s.lowerBound + 2 ^ bits + s.stride) / s.stride =
      (count s.stride s.lowerBound (2 ^ bits - 1 - rest) + count s.stride start s.upperBound : Nat) := by
  obtain ⟨hwraps, hb, hstride, ⟨hrest0, hrestlt⟩, hstart, hlast, hdvd⟩ := h
  have hub := hs.upper
  unfold On at hub
  obtain ⟨q, hq⟩ := hdvd
  have hpos : (0 : Int) < s.stride := by omega
  have hq0 : 0 ≤ q := Int.nonneg_of_mul_nonneg_right (by omega) hpos
  have hfirst : (2 ^ bits - 1 - rest - s.lowerBound) / (s.stride : Int) = q := by
    rw [hq]
    exact Int.mul_ediv_cancel_left _ (by omega)
  have htotal : (s.upperBound - s.lowerBound + 2 ^ bits + s.stride) / (s.stride : Int) =
      (s.upperBound - start) / s.stride + (q + 2) := by
    rw [← Int.add_mul_ediv_right _ _ (by omega)]
    refine congrArg (· / (s.stride : Int)) ?_
    rw [Int.add_mul, Int.mul_comm q, ← hq]
    omega
  unfold count
  rw [if_pos (by omega), hfirst, htotal]
  split
  · have := Int.ediv_nonneg (show 0 ≤ s.upperBound - start by omega) hpos.le
    omega
  · have : (s.upperBound - start) / (s.stride : Int) = -1 :=
      Int.ediv_eq_neg_one_of_neg_of_le (by omega) (by omega)
    omega

/-- An exact interval is listed completely, by its cardinality. -/
theorem exists_lists (hs : s.WellFormed) (hexact : Exact s) :
    ∃ total : Nat, s.cardinality = some (total : Int) ∧ ∀ n, ∃ results, Lists s total n results := by
  cases hb : s.isBottom with
  | true => exact ⟨0, if_pos hb, fun n => ⟨[], lists_of_bottom hb n⟩⟩
  | false =>
    have hnot : ¬ s.isEmpty = true := by rw [isEmpty, hb]; exact Bool.false_ne_true
    cases hint : s.isInteger with
    | true => exact ⟨1, (if_neg hnot).trans (if_pos hint), lists_of_integer hs hb hint⟩
    | false =>
      have hne : s.lowerBound ≠ s.upperBound := of_decide_eq_false hint
      have hstride : s.stride ≠ 0 := fun hzero => hne ((hs.stride hb).mp hzero)
      have hcard : s.cardinality =
          some ((off (2 ^ bits) s.lowerBound s.upperBound + s.stride) / s.stride) := by
        unfold cardinality
        rw [if_neg hnot, hint, if_neg Bool.false_ne_true, if_neg hstride]
        rfl
      unfold Exact at hexact
      split at hexact
      · next hle =>
          refine ⟨_, ?_, fun n => ⟨_, lists_of_not_wraps hs hb hstride hle n⟩⟩
          have hdiv := Int.add_mul_ediv_right (s.upperBound - s.lowerBound) 1
            (show (s.stride : Int) ≠ 0 by omega)
          have := Int.ediv_nonneg (show 0 ≤ s.upperBound - s.lowerBound by omega)
            (show (0 : Int) ≤ s.stride by omega)
          rw [Int.one_mul] at hdiv
          rw [hcard, off_cases hs.lower hs.upper, if_pos hle, hdiv, count, if_pos hle]
          refine congrArg some ?_
          omega
      · next hlt =>
          have hturn := turn hs (Int.not_le.mp hlt)
          refine ⟨_, ?_, lists_of_turn hs hturn rfl hexact⟩
          rw [hcard, off_cases hs.lower hs.upper, if_neg hlt, cardinality_of_turn hs hturn]

/-! ## The least and the greatest integer -/

theorem min_max_of_bounds {l : List (Int × Int)} (hb : s.isBottom = false) (hbounds : s.unsignedBounds = some l) :
    s.min false = (do return some (← (l.map Prod.fst).min?)) ∧
      s.max false = (do return some (← (l.map Prod.snd).max?)) := by
  have hnot : ¬ s.isEmpty = true := by rw [isEmpty, hb]; exact Bool.false_ne_true
  unfold StridedInterval.min StridedInterval.max bounds
  rw [if_neg hnot, if_neg hnot, if_neg Bool.false_ne_true, hbounds]
  exact ⟨rfl, rfl⟩

theorem extrema_of_not_wraps (hb : s.isBottom = false) (h : s.lowerBound ≤ s.upperBound) :
    s.min false = some (some s.lowerBound) ∧ s.max false = some (some s.upperBound) :=
  min_max_of_bounds hb (unsignedBounds_of_not_wraps h)

theorem extrema_of_turn (hs : s.WellFormed) (h : Turn s rest start)
    (hrest : rest = (2 ^ bits - 1 - s.lowerBound) % s.stride) :
    s.min false = some (some (min s.lowerBound (start % 2 ^ bits))) ∧
      s.max false = some (some (2 ^ bits - 1 - rest)) := by
  obtain ⟨hmin, hmax⟩ := min_max_of_bounds h.bottom (unsignedBounds_of_turn hs h hrest)
  have hwraps := h.wraps
  have hlast := h.last
  refine ⟨hmin, hmax.trans ?_⟩
  show some (some (max (2 ^ bits - 1 - rest) s.upperBound)) = _
  rw [max_eq_left (by omega)]

/-- What the enumeration of an interval promises. -/
structure Enumerates (s : StridedInterval bits) : Prop where
  cardinality : s.cardinality = some (s.gamma.ncard : Int)
  eval : ∀ n, ∃ results, s.eval n false = some results ∧ results.length = min n.toNat s.gamma.ncard ∧
    results.Nodup ∧ ∀ x ∈ results, x ∈ s.gamma
  all : ∃ results, s.eval s.gamma.ncard false = some results ∧ ∀ x ∈ s.gamma, x ∈ results
  least : s.gamma.Nonempty → ∃ m, s.min false = some (some m) ∧ IsLeast s.gamma m
  greatest : s.gamma.Nonempty → ∃ m, s.max false = some (some m) ∧ IsGreatest s.gamma m

theorem Lists.ncard {total : Nat} {results : List Int} (h : Lists s total total results) :
    s.gamma.ncard = total := by
  have hset : s.gamma = ↑results.toFinset := by
    ext x
    rw [List.coe_toFinset]
    exact ⟨h.complete (by omega) x, h.sound x⟩
  rw [hset, Set.ncard_coe_finset, List.toFinset_card_of_nodup h.nodup, h.length]
  omega

theorem least_of_exact (hs : s.WellFormed) (hb : s.isBottom = false) (hexact : Exact s) :
    ∃ m, s.min false = some (some m) ∧ IsLeast s.gamma m := by
  unfold Exact at hexact
  split at hexact
  · next hle =>
      exact ⟨_, (extrema_of_not_wraps hb hle).1, lowerBound_mem hs hb,
        fun x hx => ((mem_of_not_wraps hs hb hle).mp hx).1⟩
  next hlt =>
    have hturn := turn hs (Int.not_le.mp hlt)
    refine ⟨_, (extrema_of_turn hs hturn rfl).1, ?_⟩
    generalize s.stride - 1 - (2 ^ bits - 1 - s.lowerBound) % (s.stride : Int) = start at hturn hexact ⊢
    have hwraps := hturn.wraps
    have hub := hs.upper
    have hstart := hturn.start_eq
    have hrest := hturn.rest_lt
    unfold On at hub
    by_cases hfirst : start ≤ s.upperBound
    · rw [Int.emod_eq_of_lt (by omega) (by omega), min_eq_right (by omega)]
      refine ⟨(mem_of_turn hs hturn).mpr (.inr ⟨Int.le_refl _, hfirst, ?_⟩), fun x hx => ?_⟩
      · rw [Int.sub_self]
        exact Int.dvd_zero _
      · rcases (mem_of_turn hs hturn).mp hx with hx | hx <;> omega
    · rw [min_eq_left (hexact.resolve_left hfirst)]
      refine ⟨lowerBound_mem hs hb, fun x hx => ?_⟩
      rcases (mem_of_turn hs hturn).mp hx with hx | hx <;> omega

theorem greatest_of_exact (hs : s.WellFormed) (hb : s.isBottom = false) (hexact : Exact s) :
    ∃ m, s.max false = some (some m) ∧ IsGreatest s.gamma m := by
  unfold Exact at hexact
  split at hexact
  · next hle =>
      refine ⟨_, (extrema_of_not_wraps hb hle).2, ?_, fun x hx => ((mem_of_not_wraps hs hb hle).mp hx).2.1⟩
      exact (mem_of_not_wraps hs hb hle).mpr ⟨hle, Int.le_refl _, hexact⟩
  next hlt =>
    have hturn := turn hs (Int.not_le.mp hlt)
    have hwraps := hturn.wraps
    have hlast := hturn.last
    refine ⟨_, (extrema_of_turn hs hturn rfl).2, ?_, fun x hx => ?_⟩
    · exact (mem_of_turn hs hturn).mpr (.inl ⟨hlast, Int.le_refl _, hturn.dvd⟩)
    · rcases (mem_of_turn hs hturn).mp hx with hx | hx <;> omega

/-- An interval is enumerated exactly if its bounds are exact. -/
theorem enumerates_iff_exact (hs : s.WellFormed) : Enumerates s ↔ Exact s := by
  constructor
  · intro henum
    unfold Exact
    split
    · next hle =>
        cases hb : s.isBottom with
        | true =>
          rw [hs.bottom hb]
          exact Int.one_dvd _
        | false =>
          obtain ⟨m, hmax, hgreatest⟩ := henum.greatest ⟨_, lowerBound_mem hs hb⟩
          rw [(extrema_of_not_wraps hb hle).2] at hmax
          obtain rfl : s.upperBound = m := Option.some.inj (Option.some.inj hmax)
          exact ((mem_of_not_wraps hs hb hle).mp hgreatest.1).2.2
    · next hlt =>
        have hturn := turn hs (Int.not_le.mp hlt)
        obtain ⟨m, hmin, hleast⟩ := henum.least ⟨_, lowerBound_mem hs hturn.bottom⟩
        rw [(extrema_of_turn hs hturn rfl).1] at hmin
        obtain rfl := Option.some.inj (Option.some.inj hmin)
        rcases (mem_of_turn hs hturn).mp hleast.1 with hm | hm <;> dsimp only <;> omega
  · intro hexact
    obtain ⟨total, hcard, hlists⟩ := exists_lists hs hexact
    obtain ⟨all, hall⟩ := hlists total
    have hncard := hall.ncard
    refine ⟨by rw [hcard, hncard], fun n => ?_, ⟨all, ?_, hall.complete (by omega)⟩, ?_, ?_⟩
    · obtain ⟨results, hresults⟩ := hlists n
      rw [hncard]
      exact ⟨results, hresults.eval, hresults.length, hresults.nodup, hresults.sound⟩
    · rw [hncard]
      exact hall.eval
    · rintro ⟨x, hx⟩
      exact least_of_exact hs hx.1 hexact
    · rintro ⟨x, hx⟩
      exact greatest_of_exact hs hx.1 hexact

/-- An interval that wraps, with the integers 10, 13, 0, 3 and 6. -/
theorem enumerates_five_integers : Enumerates (new 3 10 7 false : StridedInterval 4) ↔
    Exact (new 3 10 7 false : StridedInterval 4) :=
  enumerates_iff_exact (new_wellFormed nofun)

/-- The integers are 0 and 2, and the greatest one is said to be 3. -/
theorem max_of_unaligned_interval :
    let s : StridedInterval 4 := new 2 0 3 false
    s.WellFormed ∧ s.max false = some (some 3) ∧ (3 : Int) ∉ s.gamma ∧ ¬ Enumerates s := by
  intro s
  have hs : s.WellFormed := new_wellFormed nofun
  refine ⟨hs, by decide, fun hmem => ?_, fun henum => ?_⟩
  · have hdvd := ((mem_gamma hs rfl).mp hmem).2.2
    exact absurd hdvd (by decide)
  · obtain ⟨m, hmax, hgreatest⟩ := henum.greatest ⟨_, lowerBound_mem hs rfl⟩
    obtain rfl : (3 : Int) = m := Option.some.inj (Option.some.inj hmax)
    exact absurd ((mem_gamma hs rfl).mp hgreatest.1).2.2 (by decide)

end Claripy.Vsa.StridedInterval
