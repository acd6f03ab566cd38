import Vibr.Claripy.Vsa.Join
import Vibr.Claripy.Vsa.MinimalCommon

/-!
# Intersections

The first common integer is looked for, and from there on everything at the common stride up to where the two
intervals part is kept. A single integer is tested by its difference to the lower bound of the
other interval. That is not its distance when it lies past the largest integer.
-/

namespace Claripy.Vsa

inductive BoolResult where
  | TrueResult
  | FalseResult
  | MaybeResult
  deriving DecidableEq

namespace StridedInterval

open Arc

variable {bits : Nat} {a b s r x y : StridedInterval bits} {z v p q : Int} {newStride : Nat}

/-- From the first common integer to the last one before `upper`. -/
def cut (lb : Option Int) (upper : Int) (newStride : Nat) : Option (StridedInterval bits) :=
  match lb with
  | none => some empty
  | some lb =>
    if newStride = 0 then none
    else some (new newStride lb (modularAdd (modularSub upper lb bits / newStride * newStride) lb bits) false)

/-- A single integer, if it lies in the interval. -/
def integerIn (integer distance : Int) (si : StridedInterval bits) : Option (StridedInterval bits) := do
  let rest ← strideMod distance si.stride
  return if rest = 0 && si.surroundsMember integer then new 0 integer integer false else empty

/-- The intersection of two intervals of which neither is an integer. -/
def overlap (s b : StridedInterval bits) : Option (List (StridedInterval bits)) :=
  let newStride := Nat.lcm s.stride b.stride
  if s.isSurrounded b then do
    return [← cut (← minimalCommonInteger s b) s.upperBound newStride]
  else if b.isSurrounded s then do
    return [← cut (← minimalCommonInteger s b) b.upperBound newStride]
  else if s.surroundsMember b.lowerBound && s.surroundsMember b.upperBound && b.surroundsMember s.lowerBound &&
      b.surroundsMember s.upperBound then do
    let s0 := new s.stride s.lowerBound b.upperBound false
    let s1 := new b.stride b.lowerBound s.upperBound false
    let lb0 ← minimalCommonInteger s0 b
    let lb1 ← minimalCommonInteger s1 s
    return [← cut lb0 b.upperBound newStride, ← cut lb1 s.upperBound newStride]
  else if s.surroundsMember b.lowerBound then do
    return [← cut (← minimalCommonInteger b s) s.upperBound newStride]
  else if s.surroundsMember b.upperBound then do
    return [← cut (← minimalCommonInteger b s) b.upperBound newStride]
  else if b.surroundsMember s.lowerBound then do
    return [← cut (← minimalCommonInteger s b) b.upperBound newStride]
  else if b.surroundsMember s.upperBound then do
    return [← cut (← minimalCommonInteger s b) s.upperBound newStride]
  else some [empty]

def multiValuedIntersection (s b : StridedInterval bits) : Option (List (StridedInterval bits)) :=
  if s.isEmpty || b.isEmpty then some [empty]
  else
    let ret :=
      if s.isInteger && b.isInteger then
        some [if s.lowerBound = b.lowerBound then new 0 s.lowerBound s.lowerBound false else empty]
      else if s.isInteger then
        let integer := s.lowerBound
        (integerIn integer (b.lowerBound - integer) b).map ([·])
      else if b.isInteger then
        let integer := b.lowerBound
        (integerIn integer (integer - s.lowerBound) s).map ([·])
      else overlap s b
    ret.map (·.map normalize)

def intersection (s b : StridedInterval bits) : Option (StridedInterval bits) := do
  let v ← match ← multiValuedIntersection s b with
    | [v, w] => pseudoJoin v w true
    | v :: _ => some v
    | [] => none
  return normalizeTypes s b v

/-- `eq`. Intervals have names, and those of one name are the same. -/
def eq (sameName : Bool) (s o : StridedInterval bits) : Option BoolResult :=
  if s.isInteger && o.isInteger then
    some (if s.lowerBound = o.lowerBound then .TrueResult else .FalseResult)
  else if sameName then some .TrueResult
  else do
    let siIntersection ← intersection s o
    return if siIntersection.isEmpty then .FalseResult else .MaybeResult

/-! ## A common arc -/

/-- The arc from `p` to `q` lies on an interval. -/
def Within (s : StridedInterval bits) (p q : Int) : Prop :=
  off (2 ^ bits) s.lowerBound p + off (2 ^ bits) p q ≤ s.length

theorem Within.off_eq (h : s.Within p q) (hv : off (2 ^ bits) p v ≤ off (2 ^ bits) p q) :
    off (2 ^ bits) s.lowerBound v = off (2 ^ bits) s.lowerBound p + off (2 ^ bits) p v := by
  have hub := (off_on (size_pos bits) s.lowerBound s.upperBound).2
  unfold Within length at h
  exact off_trans_of_lt (size_pos bits) (by omega)

/-- On a common arc, the order of an interval is that of the arc. -/
theorem Within.notAfter_iff (h : s.Within p q) (hv : off (2 ^ bits) p v ≤ off (2 ^ bits) p q)
    (hz : off (2 ^ bits) p z ≤ off (2 ^ bits) p q) :
    NotAfter s v z ↔ off (2 ^ bits) p v ≤ off (2 ^ bits) p z := by
  unfold NotAfter
  rw [h.off_eq hv, h.off_eq hz]
  exact Int.add_le_add_iff_left _

/-- Two integers of an interval are apart by a multiple of the stride, in the order of the interval. -/
theorem stride_dvd_off (hs : s.WellFormed) (hv : v ∈ s.gamma) (hz : z ∈ s.gamma) (h : NotAfter s v z) :
    (s.stride : Int) ∣ off (2 ^ bits) v z := by
  unfold NotAfter at h
  have hvdvd := ((mem_gamma hs hv.1).mp hv).2.2
  have hzdvd := ((mem_gamma hs hz.1).mp hz).2.2
  rw [off_from (size_pos bits) s.lowerBound v z, if_pos h]
  exact Int.dvd_sub hzdvd hvdvd

/-- What is cut off contains every integer up to `q` at the stride. -/
theorem cut_some (hstride : newStride ≠ 0) :
    ∃ r : StridedInterval bits, cut (some v) q newStride = some r ∧ r.WellFormed ∧ ∀ z, On (2 ^ bits) z →
      off (2 ^ bits) v z ≤ off (2 ^ bits) v q → (newStride : Int) ∣ off (2 ^ bits) v z → z ∈ r.gamma := by
  have hpos := size_pos bits
  have hstride' : (0 : Int) < newStride := by omega
  have hq := off_on hpos v q
  refine ⟨_, if_neg hstride, new_wellFormed (fun h => absurd h hstride), fun z hz hle hdvd => ?_⟩
  refine (mem_gamma_new (fun h => absurd h hstride)).mpr ⟨hz, ?_, hdvd⟩
  obtain ⟨k, hk⟩ := hdvd
  have hlast : off (2 ^ bits) v (modularAdd (modularSub q v bits / newStride * newStride) v bits) =
      off (2 ^ bits) v q / newStride * newStride := by
    unfold modularAdd
    rw [off_emod_right]
    have hle := Int.ediv_mul_le (off (2 ^ bits) v q) (Int.ne_of_gt hstride')
    have hnonneg := Int.mul_nonneg (Int.ediv_nonneg hq.1 (Int.le_of_lt hstride')) (Int.le_of_lt hstride')
    show (off (2 ^ bits) v q / newStride * newStride + v - v) % 2 ^ bits = _
    rw [Int.add_sub_cancel]
    exact Int.emod_eq_of_lt hnonneg (by have := hq.2; omega)
  rw [hlast, hk, Int.mul_comm]
  refine Int.mul_le_mul_of_nonneg_right ?_ (Int.le_of_lt hstride')
  rw [Int.le_ediv_iff_mul_le hstride', Int.mul_comm, ← hk]
  exact hle

/-! ## The common integers of a common arc -/

/-- Two intervals and an arc of both that has all that they have in common. A whole circle that does not wrap
need not have the arc on it in one piece, if the order of the other one is followed. -/
structure Meets (x y : StridedInterval bits) (p q : Int) : Prop where
  left : x.stride = 1 ∧ ¬ Wraps x ∨ x.Within p q
  right : y.stride = 1 ∧ ¬ Wraps y ∧ Wraps x ∨ y.Within p q
  all : ∀ z, off (2 ^ bits) x.lowerBound z ≤ x.length → off (2 ^ bits) y.lowerBound z ≤ y.length →
    off (2 ^ bits) p z ≤ off (2 ^ bits) p q

theorem Meets.of_mem (h : Meets x y p q) (hx : x.WellFormed) (hy : y.WellFormed) (hzx : z ∈ x.gamma)
    (hzy : z ∈ y.gamma) : off (2 ^ bits) p z ≤ off (2 ^ bits) p q :=
  h.all z ((mem_gamma hx hzx.1).mp hzx).2.1 ((mem_gamma hy hzy.1).mp hzy).2.1

theorem max_on (bits : Nat) : On (2 ^ bits) (2 ^ bits - 1) := ⟨by have := size_pos bits; omega, by omega⟩

/-- The largest integer lies on every interval that wraps, after all that is not below the lower bound. -/
theorem off_max (hs : s.WellFormed) (h : Wraps s) :
    off (2 ^ bits) s.lowerBound (2 ^ bits - 1) = 2 ^ bits - 1 - s.lowerBound ∧
      off (2 ^ bits) s.lowerBound (2 ^ bits - 1) ≤ s.length := by
  have hlb := hs.lower
  have hub := hs.upper
  unfold Wraps at h
  unfold length
  rw [off_cases hs.lower (max_on bits), off_cases hs.lower hs.upper, if_neg (Int.not_le.mpr h)]
  unfold On at hlb hub
  rw [if_pos (by omega)]
  exact ⟨rfl, by omega⟩

theorem notAfter_max_iff (hs : s.WellFormed) (h : Wraps s) (hz : On (2 ^ bits) z) :
    NotAfter s z (2 ^ bits - 1) ↔ s.lowerBound ≤ z := by
  have hlb := hs.lower
  unfold NotAfter
  rw [(off_max hs h).1, off_cases hs.lower hz]
  unfold On at hlb hz
  split <;> omega

/-- Both orders agree on the arc, and it goes past the largest integer. -/
theorem Meets.no_cross (h : Meets x y p q) (hx : x.WellFormed) (hy : y.WellFormed) (hxw : Wraps x)
    (hyw : Wraps y) (hzx : z ∈ x.gamma) (hzy : z ∈ y.gamma) : x.lowerBound ≤ z ↔ y.lowerBound ≤ z := by
  have hxp := h.left.resolve_left (fun h => h.2 hxw)
  have hyp := h.right.resolve_left (fun h => h.2.1 hyw)
  have hz := h.of_mem hx hy hzx hzy
  have hmax := h.all _ (off_max hx hxw).2 (off_max hy hyw).2
  have hon := gamma_on hx hzx
  rw [← notAfter_max_iff hx hxw hon, ← notAfter_max_iff hy hyw hon, hxp.notAfter_iff hz hmax, hyp.notAfter_iff hz hmax]

/-- The first common integer is the first one on the arc. -/
theorem FirstCommon.on_arc (hfirst : FirstCommon x y v z) (h : Meets x y p q)
    (hv : off (2 ^ bits) p v ≤ off (2 ^ bits) p q) (hz : off (2 ^ bits) p z ≤ off (2 ^ bits) p q) :
    off (2 ^ bits) p v ≤ off (2 ^ bits) p z := by
  obtain ⟨_, hxw⟩ | hxp := h.left
  · have hyp : y.Within p q := h.right.resolve_left (fun h => hxw h.2.2)
    exact (hyp.notAfter_iff hv hz).mp (hfirst.before_right (.inr hxw))
  obtain ⟨_, _, hxw⟩ | hyp := h.right
  · exact (hxp.notAfter_iff hv hz).mp (hfirst.before_left (.inl hxw))
  · by_cases hxw : Wraps x
    · exact (hxp.notAfter_iff hv hz).mp (hfirst.before_left (.inl hxw))
    · exact (hyp.notAfter_iff hv hz).mp (hfirst.before_right (.inr hxw))

theorem stride_dvd_of_meets (hs : s.WellFormed) (hv : v ∈ s.gamma) (hz : z ∈ s.gamma)
    (hvq : off (2 ^ bits) p v ≤ off (2 ^ bits) p q) (hzq : off (2 ^ bits) p z ≤ off (2 ^ bits) p q)
    (hle : off (2 ^ bits) p v ≤ off (2 ^ bits) p z) (h : s.stride = 1 ∨ s.Within p q) :
    (s.stride : Int) ∣ off (2 ^ bits) v z := by
  obtain hone | hwithin := h
  · rw [hone]
    exact Int.one_dvd _
  · exact stride_dvd_off hs hv hz ((hwithin.notAfter_iff hvq hzq).mpr hle)

/-- What is cut off from the first common integer on contains every common integer. -/
theorem Meets.cut_sound (h : Meets x y p q) (hx : x.WellFormed) (hxb : x.isBottom = false) (hy : y.WellFormed)
    (hyb : y.isBottom = false) (hstride : newStride ≠ 0)
    (hdvd : ∀ d, (x.stride : Int) ∣ d → (y.stride : Int) ∣ d → (newStride : Int) ∣ d) :
    ∃ (o : Option Int) (r : StridedInterval bits), minimalCommonInteger x y = some o ∧ cut o q newStride = some r ∧
      r.WellFormed ∧ ∀ z ∈ x.gamma, z ∈ y.gamma → z ∈ r.gamma := by
  obtain ⟨o, ho, hfirst⟩ := minimalCommonInteger_spec hx hxb hy hyb
    (fun hxw hyw z hzx hzy => h.no_cross hx hy hxw hyw hzx hzy)
  cases o with
  | none =>
    refine ⟨none, empty, ho, rfl, empty_wellFormed, fun z hzx hzy => ?_⟩
    obtain ⟨v, hv, _⟩ := hfirst z hzx hzy
    exact nomatch hv
  | some v =>
    obtain ⟨r, hr, hwf, hmem⟩ := @cut_some bits v q newStride hstride
    refine ⟨some v, r, ho, hr, hwf, fun z hzx hzy => ?_⟩
    obtain ⟨_, ⟨⟩, hcommon⟩ := hfirst z hzx hzy
    have hvq := h.of_mem hx hy hcommon.left hcommon.right
    have hzq := h.of_mem hx hy hzx hzy
    have hle := hcommon.on_arc h hvq hzq
    refine hmem z (gamma_on hx hzx) ?_ (hdvd _ ?_ ?_)
    · rw [off_from (size_pos bits) p v z, off_from (size_pos bits) p v q, if_pos hle, if_pos hvq]
      omega
    · exact stride_dvd_of_meets hx hcommon.left hzx hvq hzq hle (h.left.imp_left (·.1))
    · exact stride_dvd_of_meets hy hcommon.right hzy hvq hzq hle (h.right.imp_left (·.1))

/-! ## How two intervals overlap -/

theorem within_self (s : StridedInterval bits) : s.Within s.lowerBound s.upperBound := by
  unfold Within length
  rw [off_self, Int.zero_add]

theorem WellFormed.not_wraps_of_isTop (h : s.WellFormed) (htop : s.isTop = true) : s.stride = 1 ∧ ¬ Wraps s := by
  obtain ⟨hone, hlb, hub⟩ := h.of_isTop htop
  refine ⟨hone, ?_⟩
  unfold Wraps
  have := size_pos bits
  omega

theorem meets_contained (hs : s.WellFormed) (hb : b.WellFormed) (hsb : s.isBottom = false)
    (h : s.isSurrounded b = true) : Meets s b s.lowerBound s.upperBound where
  left := .inr (within_self s)
  right := by
    obtain htop | hwithin := within_of_isSurrounded hsb h
    · obtain ⟨hone, hlb, hub⟩ := hb.of_isTop htop
      by_cases hw : Wraps s
      · exact .inl ⟨hone, (hb.not_wraps_of_isTop htop).2, hw⟩
      refine .inr ?_
      have hmax := max_on bits
      have hzero : On (2 ^ bits) 0 := ⟨Int.le_refl 0, size_pos bits⟩
      have hslb := hs.lower
      have hsub := hs.upper
      unfold Within length
      unfold Wraps at hw
      rw [hlb, hub, off_cases hzero hs.lower, off_cases hs.lower hs.upper, off_cases hzero hmax]
      unfold On at hmax hslb hsub
      rw [if_pos hslb.1, if_pos (Int.not_lt.mp hw), if_pos hmax.1]
      omega
    · exact .inr hwithin
  all := fun _ hz _ => hz

theorem meets_contains (hs : s.WellFormed) (hbb : b.isBottom = false) (h : b.isSurrounded s = true) :
    Meets s b b.lowerBound b.upperBound where
  left := (within_of_isSurrounded hbb h).imp_left (fun htop => hs.not_wraps_of_isTop htop)
  right := .inr (within_self b)
  all := fun _ _ hz => hz

/-- An arc of both that has all that they have in common. -/
structure Shares (x y : StridedInterval bits) (p q : Int) : Prop where
  left : x.Within p q
  right : y.Within p q
  all : ∀ z, off (2 ^ bits) x.lowerBound z ≤ x.length → off (2 ^ bits) y.lowerBound z ≤ y.length →
    off (2 ^ bits) p z ≤ off (2 ^ bits) p q

theorem Shares.meets (h : Shares x y p q) : Meets x y p q := ⟨.inr h.left, .inr h.right, h.all⟩

theorem Shares.symm (h : Shares x y p q) : Shares y x p q := ⟨h.right, h.left, fun z hy hx => h.all z hx hy⟩

/-- `b` starts on `s` and ends after it. -/
theorem shares_after (hstart : s.surroundsMember b.lowerBound = true) (hend : ¬ s.surroundsMember b.upperBound = true) :
    Shares b s b.lowerBound s.upperBound := by
  have hpos := size_pos bits
  rw [surroundsMember_iff] at hstart
  have hlt := lt_of_not_surrounds hend
  have hjoin := arc_join hpos hstart hlt
  have hrest := off_rest hpos hstart
  unfold length at hlt
  refine ⟨?_, ?_, fun z hzb hzs => ?_⟩
  · unfold Within length
    rw [off_self]
    omega
  · unfold Within length
    omega
  have hd := (off_on hpos s.lowerBound b.upperBound).2
  unfold length at hzb hzs
  rw [off_from hpos s.lowerBound b.lowerBound z] at hzb ⊢
  have hz := (off_on hpos s.lowerBound z).1
  split
  · omega
  · rw [if_neg ‹_›] at hzb
    omega

/-- `b` ends on `s` and starts outside. -/
theorem surrounds_start (hend : s.surroundsMember b.upperBound = true)
    (hstart : ¬ s.surroundsMember b.lowerBound = true) : b.surroundsMember s.lowerBound = true := by
  have hpos := size_pos bits
  have hlt := lt_of_not_surrounds hstart
  rw [surroundsMember_iff] at hend ⊢
  unfold length at hlt
  have hd := (off_on hpos s.lowerBound b.upperBound).1
  rw [off_from hpos s.lowerBound b.lowerBound s.lowerBound, off_from hpos s.lowerBound b.lowerBound b.upperBound,
    off_self, if_neg (by omega), if_neg (by omega)]
  omega

/-- `s` starts on `b` and ends after it. -/
theorem surrounds_end (hstart : b.surroundsMember s.lowerBound = true) (hend : ¬ b.surroundsMember s.upperBound = true) :
    s.surroundsMember b.upperBound = true := by
  have hpos := size_pos bits
  have hlt := lt_of_not_surrounds hend
  rw [surroundsMember_iff] at hstart ⊢
  have hjoin := arc_join hpos hstart hlt
  have hrest := off_rest hpos hstart
  unfold length at hlt
  omega

/-- Two intervals that meet at both ends, and neither lies in the other one. -/
theorem meet_twice (hs : s.WellFormed) (hb : b.WellFormed) (hbb : b.isBottom = false)
    (hin : s.isSurrounded b = false) (hin' : b.isSurrounded s = false)
    (hlb : s.surroundsMember b.lowerBound = true) (hub : s.surroundsMember b.upperBound = true)
    (hlb' : b.surroundsMember s.lowerBound = true) (hub' : b.surroundsMember s.upperBound = true) :
    off (2 ^ bits) s.lowerBound b.upperBound < off (2 ^ bits) s.lowerBound b.lowerBound := by
  have hpos := size_pos bits
  by_contra hle
  have hle := Int.not_lt.mp hle
  rw [surroundsMember_iff] at hlb' hub'
  have hrest := off_rest hpos hle
  have hd := (off_on hpos s.lowerBound b.upperBound).2
  have hc := (off_on hpos s.lowerBound b.lowerBound).1
  have hlb'' := surroundsMember_iff.mp hlb
  have hub'' := surroundsMember_iff.mp hub
  -- the bounds are the same
  have hlb_eq : off (2 ^ bits) s.lowerBound b.lowerBound = 0 := by
    rw [hrest, off_from hpos s.lowerBound b.lowerBound s.lowerBound, off_self] at hlb'
    split at hlb' <;> omega
  have hlb_eq' := (off_eq_zero_iff hs.lower hb.lower).mp hlb_eq
  have hub_eq : off (2 ^ bits) s.lowerBound b.upperBound = off (2 ^ bits) s.lowerBound s.upperBound := by
    rw [hlb_eq'] at hub'
    omega
  have hub_eq' : b.upperBound = s.upperBound := by
    rw [← add_off (a := s.lowerBound) hb.upper, hub_eq, add_off hs.upper]
  have hstop : s.isTop = false := by
    by_contra h
    rw [isSurrounded_of_isTop (Bool.not_eq_false _ ▸ h)] at hin'
    exact nomatch hin'
  have hbtop : b.isTop = false := by
    by_contra h
    rw [isSurrounded_of_isTop (Bool.not_eq_false _ ▸ h)] at hin
    exact nomatch hin
  have hsurrounded : b.isSurrounded s = true := by
    unfold isSurrounded isEmpty
    rw [hbb, hbtop, hstop, hlb, hub, hlb_eq', hub_eq']
    simp
  rw [hin'] at hsurrounded
  exact nomatch hsurrounded

theorem new_bounds {stride : Nat} {l u : Int} {uninit : Bool} (hl : On (2 ^ bits) l) (hu : On (2 ^ bits) u)
    (hnot : off (2 ^ bits) l u ≠ 2 ^ bits - 1) :
    ∃ step, (new stride l u uninit : StridedInterval bits) = ⟨step, l, u, false, uninit⟩ ∧ stride ∣ step := by
  have hl' := emod_of_on hl
  have hu' := emod_of_on hu
  obtain ⟨_, h⟩ | ⟨_, ⟨hmeet, _⟩, _⟩ | ⟨_, _, h⟩ := @new_cases bits stride l u uninit
  · exact ⟨0, by rw [h, hl', hu'], Nat.dvd_zero stride⟩
  · rw [hl', hu'] at hmeet
    exact absurd (off_of_meet hl hu hmeet) hnot
  · exact ⟨stride, by rw [h, hl', hu'], Nat.dvd_refl stride⟩

/-- The piece where `b` ends on `s`. -/
theorem cross_piece (hs : s.WellFormed) (hb : b.WellFormed) (hbb : b.isBottom = false)
    (hss : s.stride ≠ 0) (hstride : newStride ≠ 0)
    (hdvd : ∀ d, (s.stride : Int) ∣ d → (b.stride : Int) ∣ d → (newStride : Int) ∣ d)
    (h : off (2 ^ bits) s.lowerBound b.upperBound < off (2 ^ bits) s.lowerBound b.lowerBound) :
    ∃ (o : Option Int) (r : StridedInterval bits),
      minimalCommonInteger (new s.stride s.lowerBound b.upperBound false) b = some o ∧
      cut o b.upperBound newStride = some r ∧ r.WellFormed ∧ ∀ z ∈ s.gamma, z ∈ b.gamma →
        off (2 ^ bits) s.lowerBound z ≤ off (2 ^ bits) s.lowerBound b.upperBound → z ∈ r.gamma := by
  have hpos := size_pos bits
  have hc := (off_on hpos s.lowerBound b.lowerBound).2
  have hd := (off_on hpos s.lowerBound b.upperBound).1
  have hzero : s.stride = 0 → s.lowerBound % 2 ^ bits = b.upperBound % 2 ^ bits := fun h0 => absurd h0 hss
  obtain ⟨step, hnew, hstep⟩ := @new_bounds bits s.stride _ _ false hs.lower hb.upper (by omega)
  have hmeets : Meets (new s.stride s.lowerBound b.upperBound false : StridedInterval bits) b s.lowerBound
      b.upperBound := by
    rw [hnew]
    refine ⟨.inr (within_self (⟨step, s.lowerBound, b.upperBound, false, false⟩ : StridedInterval bits)), .inr ?_,
      fun z hz _ => hz⟩
    unfold Within length
    rw [off_from hpos s.lowerBound b.lowerBound s.lowerBound, off_from hpos s.lowerBound b.lowerBound b.upperBound,
      off_self, if_neg (by omega), if_neg (by omega)]
    omega
  obtain ⟨o, r, ho, hr, hwf, hmem⟩ := hmeets.cut_sound (new_wellFormed hzero) new_isBottom hb hbb hstride (by
    intro d hxd hbd
    rw [hnew] at hxd
    exact hdvd d (Int.dvd_trans (Int.natCast_dvd_natCast.mpr hstep) hxd) hbd)
  refine ⟨o, r, ho, hr, hwf, fun z hzs hzb hle => hmem z ?_ hzb⟩
  obtain ⟨hz, _, hzdvd⟩ := (mem_gamma hs hzs.1).mp hzs
  exact (mem_gamma_new hzero).mpr ⟨hz, hle, hzdvd⟩

/-- Two intervals of which neither starts on the other one. -/
theorem apart (hs : s.WellFormed) (hb : b.WellFormed) (hlb : ¬ s.surroundsMember b.lowerBound = true)
    (hlb' : ¬ b.surroundsMember s.lowerBound = true) (hzs : z ∈ s.gamma) (hzb : z ∈ b.gamma) : False := by
  have hpos := size_pos bits
  have hzs := ((mem_gamma hs hzs.1).mp hzs).2.1
  have hzb := ((mem_gamma hb hzb.1).mp hzb).2.1
  have hlt := lt_of_not_surrounds hlb
  have hlt' := lt_of_not_surrounds hlb'
  have hz := (off_on hpos s.lowerBound z).1
  unfold length at hlt hlt'
  rw [off_from hpos s.lowerBound b.lowerBound s.lowerBound, off_self, if_neg (by omega)] at hlt'
  rw [off_from hpos s.lowerBound b.lowerBound z, if_neg (by omega)] at hzb
  omega

/-- A common integer is on one of the two pieces. -/
theorem cross_cases (hs : s.WellFormed) (hb : b.WellFormed) (hlb : s.surroundsMember b.lowerBound = true)
    (h : off (2 ^ bits) s.lowerBound b.upperBound < off (2 ^ bits) s.lowerBound b.lowerBound)
    (hzs : z ∈ s.gamma) (hzb : z ∈ b.gamma) :
    off (2 ^ bits) s.lowerBound z ≤ off (2 ^ bits) s.lowerBound b.upperBound ∨
      off (2 ^ bits) b.lowerBound z ≤ off (2 ^ bits) b.lowerBound s.upperBound := by
  have hpos := size_pos bits
  have hzs := ((mem_gamma hs hzs.1).mp hzs).2.1
  have hzb := ((mem_gamma hb hzb.1).mp hzb).2.1
  rw [surroundsMember_iff] at hlb
  rw [off_from hpos s.lowerBound b.lowerBound z, off_from hpos s.lowerBound b.lowerBound b.upperBound,
    if_neg (Int.not_le.mpr h)] at hzb
  rw [off_from hpos s.lowerBound b.lowerBound z, off_from hpos s.lowerBound b.lowerBound s.upperBound, if_pos hlb]
  split
  · exact .inr (by omega)
  · rw [if_neg ‹_›] at hzb
    exact .inl (by omega)

/-! ## The intersection -/

/-- One or two intervals that contain every common integer. -/
structure Covers (s b : StridedInterval bits) (rs : List (StridedInterval bits)) : Prop where
  count : rs.length = 1 ∨ rs.length = 2
  wellFormed : ∀ r ∈ rs, r.WellFormed
  covered : ∀ z ∈ s.gamma, z ∈ b.gamma → ∃ r ∈ rs, z ∈ r.gamma

theorem Covers.single (hr : r.WellFormed) (h : ∀ z ∈ s.gamma, z ∈ b.gamma → z ∈ r.gamma) : Covers s b [r] where
  count := .inl rfl
  wellFormed := by
    intro r' hr'
    rwa [List.mem_singleton.mp hr']
  covered := fun z hs hb => ⟨r, List.mem_singleton_self r, h z hs hb⟩

theorem Meets.covers (h : Meets x y p q) (hx : x.WellFormed) (hxb : x.isBottom = false) (hy : y.WellFormed)
    (hyb : y.isBottom = false) (hstride : newStride ≠ 0)
    (hdvd : ∀ d, (x.stride : Int) ∣ d → (y.stride : Int) ∣ d → (newStride : Int) ∣ d) :
    ∃ rs, (do return [← cut (← minimalCommonInteger x y) q newStride] : Option (List (StridedInterval bits))) =
      some rs ∧ Covers x y rs := by
  obtain ⟨o, r, ho, hr, hwf, hmem⟩ := h.cut_sound hx hxb hy hyb hstride hdvd
  refine ⟨[r], ?_, .single hwf hmem⟩
  simp only [ho, hr, Option.bind_eq_bind, Option.bind_some, Option.pure_def]

variable {rs : List (StridedInterval bits)}

theorem Covers.symm (h : Covers b s rs) : Covers s b rs :=
  ⟨h.count, h.wellFormed, fun z hs hb => h.covered z hb hs⟩

theorem overlap_spec (hs : s.WellFormed) (hsb : s.isBottom = false) (hb : b.WellFormed) (hbb : b.isBottom = false)
    (hsi : s.stride ≠ 0) (hbi : b.stride ≠ 0) : ∃ rs, overlap s b = some rs ∧ Covers s b rs := by
  have hlcm : Nat.lcm s.stride b.stride ≠ 0 := Nat.lcm_ne_zero hsi hbi
  have hdvd : ∀ d, (s.stride : Int) ∣ d → (b.stride : Int) ∣ d → (Nat.lcm s.stride b.stride : Int) ∣ d := by
    intro d hsd hbd
    rw [Int.natCast_dvd] at hsd hbd ⊢
    exact Nat.lcm_dvd hsd hbd
  have hdvd' : ∀ d, (b.stride : Int) ∣ d → (s.stride : Int) ∣ d → (Nat.lcm s.stride b.stride : Int) ∣ d :=
    fun d hbd hsd => hdvd d hsd hbd
  unfold overlap
  dsimp only
  split
  · next hin => exact (meets_contained hs hb hsb hin).covers hs hsb hb hbb hlcm hdvd
  next hin =>
  split
  · next hin' => exact (meets_contains hs hbb hin').covers hs hsb hb hbb hlcm hdvd
  next hin' =>
  rw [Bool.not_eq_true] at hin hin'
  split
  · next hcross =>
      simp only [Bool.and_eq_true] at hcross
      obtain ⟨⟨⟨hlb, hub⟩, hlb'⟩, hub'⟩ := hcross
      have hlt := meet_twice hs hb hbb hin hin' hlb hub hlb' hub'
      have hlt' := meet_twice hb hs hsb hin' hin hlb' hub' hlb hub
      obtain ⟨o₀, r₀, ho₀, hr₀, hwf₀, hmem₀⟩ := cross_piece hs hb hbb hsi hlcm hdvd hlt
      obtain ⟨o₁, r₁, ho₁, hr₁, hwf₁, hmem₁⟩ := cross_piece hb hs hsb hbi hlcm hdvd' hlt'
      refine ⟨[r₀, r₁], ?_, .inr rfl, ?_, fun z hzs hzb => ?_⟩
      · simp only [ho₀, ho₁, hr₀, hr₁, Option.bind_eq_bind, Option.bind_some, Option.pure_def]
      · simp only [List.mem_cons, List.not_mem_nil, or_false]
        rintro r (rfl | rfl)
        · exact hwf₀
        · exact hwf₁
      · obtain hle | hle := cross_cases hs hb hlb hlt hzs hzb
        · exact ⟨r₀, by simp, hmem₀ z hzs hzb hle⟩
        · exact ⟨r₁, by simp, hmem₁ z hzb hzs hle⟩
  next hcross =>
  simp only [Bool.and_eq_true, not_and] at hcross
  split
  · next hlb =>
      have hub : ¬ s.surroundsMember b.upperBound = true := by
        intro hub
        obtain ⟨h1, h2⟩ := not_within hbb hin hin' hlb hub
        exact hcross ⟨⟨hlb, hub⟩, h1⟩ h2
      obtain ⟨rs, hrs, hcovers⟩ := (shares_after hlb hub).meets.covers hb hbb hs hsb hlcm hdvd'
      exact ⟨rs, hrs, hcovers.symm⟩
  next hlb =>
  split
  · next hub =>
      have hlb' := surrounds_start hub hlb
      have hub' : ¬ b.surroundsMember s.upperBound = true := fun hub' => hlb (not_within hsb hin' hin hlb' hub').1
      obtain ⟨rs, hrs, hcovers⟩ := (shares_after hlb' hub').symm.meets.covers hb hbb hs hsb hlcm hdvd'
      exact ⟨rs, hrs, hcovers.symm⟩
  next hub =>
  -- an interval that starts or ends on another one that does neither lies in it
  have hlb' : ¬ b.surroundsMember s.lowerBound = true := by
    intro hlb'
    by_cases hub' : b.surroundsMember s.upperBound = true
    · exact hlb (not_within hsb hin' hin hlb' hub').1
    · exact hub (surrounds_end hlb' hub')
  have hub' : ¬ b.surroundsMember s.upperBound = true := fun hub' => hlb (surrounds_start hub' hlb')
  rw [if_neg hlb', if_neg hub']
  exact ⟨[empty], rfl, .single empty_wellFormed fun z hzs hzb => (apart hs hb hlb hlb' hzs hzb).elim⟩

/-! ## Integers -/

theorem mem_integer (hs : s.WellFormed) (hint : s.isInteger = true) (hz : z ∈ s.gamma) : z = s.lowerBound := by
  obtain ⟨hon, hle, _⟩ := (mem_gamma hs hz.1).mp hz
  rw [← isInteger_iff.mp hint, off_self] at hle
  have h0 := (off_on (size_pos bits) s.lowerBound z).1
  exact (off_eq_zero_iff hs.lower hon).mp (by omega)

theorem mem_new_integer (hz : On (2 ^ bits) z) : z ∈ (new 0 z z false : StridedInterval bits).gamma := by
  refine (mem_gamma_new (fun _ => rfl)).mpr ⟨hz, Int.le_refl _, ?_⟩
  rw [off_self]
  exact Int.dvd_zero _

/-- A single integer of an interval that lies past the largest integer, where the stride does not go on from
zero as it began. -/
def LostInteger (s b : StridedInterval bits) : Prop :=
  s.isBottom = false ∧ s.isInteger = true ∧ b.isInteger = false ∧ s.lowerBound ∈ b.gamma ∧
    s.lowerBound < b.lowerBound ∧ ¬ (b.stride : Int) ∣ 2 ^ bits

/-- The difference of an integer to the lower bound is a multiple of the stride, unless the integer is past the
largest one. -/
theorem difference_dvd_iff (hb : b.WellFormed) (hmem : v ∈ b.gamma) :
    (b.stride : Int) ∣ v - b.lowerBound ↔ ¬ (v < b.lowerBound ∧ ¬ (b.stride : Int) ∣ 2 ^ bits) := by
  obtain ⟨hon, _, hdvd⟩ := (mem_gamma hb hmem.1).mp hmem
  rw [off_cases hb.lower hon] at hdvd
  split at hdvd
  · next hle => exact iff_of_true hdvd (fun h => Int.not_lt.mpr hle h.1)
  next hlt =>
    have hlt := Int.not_le.mp hlt
    rw [not_and, not_not]
    constructor
    · intro hdiff _
      have := Int.dvd_sub hdvd hdiff
      rwa [Int.add_comm, Int.add_sub_cancel] at this
    · intro hsize
      have := Int.dvd_sub hdvd (hsize hlt)
      rwa [Int.add_sub_cancel] at this

/-- The test of an integer finds it unless it is lost. -/
theorem integerIn_spec {distance : Int} (hs : s.WellFormed) (hsb : s.isBottom = false) (hint : s.isInteger = true)
    (hb : b.WellFormed) (hbi : b.isInteger = false) (hstride : b.stride ≠ 0)
    (hdist : (b.stride : Int) ∣ distance ↔ (b.stride : Int) ∣ s.lowerBound - b.lowerBound) :
    ∃ r, integerIn s.lowerBound distance b = some r ∧ (¬ LostInteger s b → Covers s b [r]) ∧
      (LostInteger s b → r = empty) := by
  unfold integerIn strideMod
  rw [if_neg hstride]
  refine ⟨_, rfl, fun hlost => ?_, fun hlost => ?_⟩
  · split
    · refine .single (new_wellFormed (fun _ => rfl)) fun z hzs _ => ?_
      rw [mem_integer hs hint hzs]
      exact mem_new_integer hs.lower
    next htest =>
      refine .single empty_wellFormed fun z hzs hzb => (htest ?_).elim
      rw [mem_integer hs hint hzs] at hzb
      have hdiff : (b.stride : Int) ∣ s.lowerBound - b.lowerBound :=
        (difference_dvd_iff hb hzb).mpr (fun h => hlost ⟨hsb, hint, hbi, hzb, h.1, h.2⟩)
      rw [Bool.and_eq_true, decide_eq_true_eq, surroundsMember_iff]
      exact ⟨Int.emod_eq_zero_of_dvd (hdist.mpr hdiff), ((mem_gamma hb hzb.1).mp hzb).2.1⟩
  · obtain ⟨_, _, _, hmem, hlt, hndvd⟩ := hlost
    refine if_neg fun htest => ?_
    rw [Bool.and_eq_true, decide_eq_true_eq] at htest
    have hdiff := hdist.mp (Int.dvd_of_emod_eq_zero htest.1)
    exact (difference_dvd_iff hb hmem).mp hdiff ⟨hlt, hndvd⟩

theorem stride_ne_zero (hb : b.WellFormed) (hbb : b.isBottom = false) (hbi : b.isInteger = false) : b.stride ≠ 0 := by
  intro h0
  rw [isInteger_iff.mpr ((hb.stride hbb).mp h0)] at hbi
  exact nomatch hbi

theorem map_normalize (h : ∀ r ∈ rs, r.WellFormed) : rs.map normalize = rs := by
  conv => rhs; rw [← List.map_id rs]
  exact List.map_congr_left fun r hr => normalize_eq (h r hr)

theorem Covers.normalize {o : Option (List (StridedInterval bits))} (h : ∃ rs, o = some rs ∧ Covers s b rs) :
    ∃ rs, o.map (·.map StridedInterval.normalize) = some rs ∧ Covers s b rs := by
  obtain ⟨rs, rfl, hcovers⟩ := h
  refine ⟨rs.map StridedInterval.normalize, rfl, ?_⟩
  rwa [map_normalize hcovers.wellFormed]

/-- No common integer is lost, unless it is one that the test does not find. -/
theorem multiValuedIntersection_spec (hs : s.WellFormed) (hb : b.WellFormed) (hlost : ¬ LostInteger s b)
    (hlost' : ¬ LostInteger b s) : ∃ rs, multiValuedIntersection s b = some rs ∧ Covers s b rs := by
  unfold multiValuedIntersection isEmpty
  split
  · next hbottom =>
      refine ⟨_, rfl, .single empty_wellFormed fun z hzs hzb => ?_⟩
      rw [hzs.1, hzb.1] at hbottom
      exact nomatch hbottom
  next hbottom =>
  simp only [Bool.or_eq_true, not_or, Bool.not_eq_true] at hbottom
  obtain ⟨hsb, hbb⟩ := hbottom
  refine Covers.normalize ?_
  cases hsi : s.isInteger with
  | true =>
    cases hbi : b.isInteger with
    | true =>
      refine ⟨_, rfl, ?_⟩
      split
      · refine .single (new_wellFormed (fun _ => rfl)) fun z hzs _ => ?_
        rw [mem_integer hs hsi hzs]
        exact mem_new_integer hs.lower
      · next hne =>
          refine .single empty_wellFormed fun z hzs hzb => (hne ?_).elim
          rw [← mem_integer hs hsi hzs, ← mem_integer hb hbi hzb]
    | false =>
      obtain ⟨r, hr, hcovers, _⟩ := @integerIn_spec bits b s (b.lowerBound - s.lowerBound) hs hsb hsi hb hbi
        (stride_ne_zero hb hbb hbi) (by rw [← Int.dvd_neg, Int.neg_sub])
      exact ⟨[r], by simp [hr], hcovers hlost⟩
  | false =>
    cases hbi : b.isInteger with
    | true =>
      obtain ⟨r, hr, hcovers, _⟩ := @integerIn_spec bits s b (b.lowerBound - s.lowerBound) hb hbb hbi hs hsi
        (stride_ne_zero hs hsb hsi) Iff.rfl
      exact ⟨[r], by simp [hr], (hcovers hlost').symm⟩
    | false =>
      exact overlap_spec hs hsb hb hbb (stride_ne_zero hs hsb hsi) (stride_ne_zero hb hbb hbi)

theorem intersection_of_covers (hrs : multiValuedIntersection s b = some rs) (h : Covers s b rs) :
    ∃ r, intersection s b = some r ∧ s.gamma ∩ b.gamma ⊆ r.gamma := by
  unfold intersection
  rw [hrs]
  match rs, h with
  | [v], h =>
    refine ⟨normalizeTypes s b v, rfl, ?_⟩
    rintro z ⟨hzs, hzb⟩
    obtain ⟨r, hr, hz⟩ := h.covered z hzs hzb
    rwa [gamma_normalizeTypes, ← List.mem_singleton.mp hr]
  | [v, w], h =>
    obtain ⟨r, hr, hjoin⟩ :=
      @pseudoJoin_spec _ w v (h.wellFormed v (by simp)) (h.wellFormed w (by simp)) true (fun h => nomatch h.1)
    refine ⟨normalizeTypes s b r, ?_, ?_⟩
    · simp only [Option.bind_eq_bind, Option.bind_some, hr, Option.pure_def]
    rintro z ⟨hzs, hzb⟩
    rw [gamma_normalizeTypes]
    obtain ⟨r', hr', hz⟩ := h.covered z hzs hzb
    simp only [List.mem_cons, List.not_mem_nil, or_false] at hr'
    obtain rfl | rfl := hr'
    · exact hjoin.left hz
    · exact hjoin.right hz
  | [], h => exact absurd h.count (by simp)
  | _ :: _ :: _ :: _, h => exact absurd h.count (by simp)

theorem intersection_sound (hs : s.WellFormed) (hb : b.WellFormed) (hlost : ¬ LostInteger s b)
    (hlost' : ¬ LostInteger b s) : ∃ r, intersection s b = some r ∧ s.gamma ∩ b.gamma ⊆ r.gamma := by
  obtain ⟨rs, hrs, hcovers⟩ := multiValuedIntersection_spec hs hb hlost hlost'
  exact intersection_of_covers hrs hcovers

/-- A lost integer is in both intervals, and their intersection is empty. -/
theorem LostInteger.intersection_isBottom (h : LostInteger s b) (hs : s.WellFormed) (hb : b.WellFormed) :
    (∀ r, intersection s b = some r → r.isBottom = true) ∧ (∀ r, intersection b s = some r → r.isBottom = true) := by
  have hlost := h
  obtain ⟨hsb, hsi, hbi, ⟨hbb, _⟩, _, _⟩ := hlost
  have hstride := stride_ne_zero hb hbb hbi
  obtain ⟨r₀, hr₀, _, hempty₀⟩ := @integerIn_spec bits b s (b.lowerBound - s.lowerBound) hs hsb hsi hb hbi hstride
    (by rw [← Int.dvd_neg, Int.neg_sub])
  obtain ⟨r₁, hr₁, _, hempty₁⟩ := @integerIn_spec bits b s (s.lowerBound - b.lowerBound) hs hsb hsi hb hbi hstride
    Iff.rfl
  have hbottom : ∀ u v : StridedInterval bits, (normalizeTypes u v (normalize empty)).isBottom = true := by
    intro u v
    unfold normalizeTypes
    split <;> rfl
  constructor
  · intro r hr
    unfold intersection multiValuedIntersection isEmpty at hr
    simp only [hsb, hbb, hsi, hbi, hr₀, hempty₀ h, Bool.or_self, Bool.and_false, Bool.false_eq_true, if_false,
      if_true, Option.map_some, List.map_cons, List.map_nil, Option.bind_eq_bind, Option.bind_some, Option.pure_def,
      Option.some.injEq] at hr
    rw [← hr]
    exact hbottom s b
  intro r hr
  unfold intersection multiValuedIntersection isEmpty at hr
  simp only [hsb, hbb, hsi, hbi, hr₁, hempty₁ h, Bool.or_self, Bool.false_and, Bool.false_eq_true, if_false,
    if_true, Option.map_some, List.map_cons, List.map_nil, Option.bind_eq_bind, Option.bind_some, Option.pure_def,
    Option.some.injEq] at hr
  rw [← hr]
  exact hbottom b s

/-- Different integers, or an empty intersection. -/
theorem eq_false_disjoint {sameName : Bool} (hs : s.WellFormed) (hb : b.WellFormed)
    (hsound : ∃ r, intersection s b = some r ∧ s.gamma ∩ b.gamma ⊆ r.gamma)
    (h : eq sameName s b = some .FalseResult) : s.gamma ∩ b.gamma = ∅ := by
  unfold eq at h
  split at h
  · next hints =>
      rw [Bool.and_eq_true] at hints
      split at h
      · exact nomatch h
      next hne =>
        refine Set.eq_empty_of_forall_notMem ?_
        rintro z ⟨hzs, hzb⟩
        exact hne (by rw [← mem_integer hs hints.1 hzs, ← mem_integer hb hints.2 hzb])
  split at h
  · exact nomatch h
  obtain ⟨r, hr, hsubset⟩ := hsound
  rw [hr] at h
  simp only [Option.bind_eq_bind, Option.bind_some, Option.pure_def, Option.some.injEq] at h
  split at h
  · next hempty => exact Set.subset_empty_iff.mp (gamma_bottom hempty ▸ hsubset)
  · exact nomatch h

/-- An intersection loses nothing, and intervals that are told apart are disjoint, unless one of them is an
integer of the other one that is looked for at the wrong distance. -/
theorem intersection_sound_iff (ha : a.WellFormed) (hb : b.WellFormed) :
    ((∃ r, intersection a b = some r ∧ a.gamma ∩ b.gamma ⊆ r.gamma) ∧
      ∀ sameName, eq sameName a b = some .FalseResult → a.gamma ∩ b.gamma = ∅) ↔
      ¬ LostInteger a b ∧ ¬ LostInteger b a := by
  constructor
  · rintro ⟨⟨r, hr, hsubset⟩, _⟩
    constructor
    · intro hlost
      have hbottom := (hlost.intersection_isBottom ha hb).1 r hr
      obtain ⟨hab, hai, _, hmem, _, _⟩ := hlost
      have := hsubset ⟨lowerBound_mem ha hab, hmem⟩
      rw [gamma_bottom hbottom] at this
      exact this
    · intro hlost
      have hbottom := (hlost.intersection_isBottom hb ha).2 r hr
      obtain ⟨hbb, hbi, _, hmem, _, _⟩ := hlost
      have := hsubset ⟨hmem, lowerBound_mem hb hbb⟩
      rw [gamma_bottom hbottom] at this
      exact this
  · rintro ⟨hlost, hlost'⟩
    have hsound := intersection_sound ha hb hlost hlost'
    exact ⟨hsound, fun _ h => eq_false_disjoint ha hb hsound h⟩

theorem intersection_of_wrapping_intervals :
    (∃ r, intersection (new 3 9 2 false : StridedInterval 4) (new 2 12 6 false) = some r ∧
      (new 3 9 2 false : StridedInterval 4).gamma ∩ (new 2 12 6 false : StridedInterval 4).gamma ⊆ r.gamma) ∧
    ∀ sameName, eq sameName (new 3 9 2 false : StridedInterval 4) (new 2 12 6 false) = some .FalseResult →
      (new 3 9 2 false : StridedInterval 4).gamma ∩ (new 2 12 6 false : StridedInterval 4).gamma = ∅ := by
  refine (intersection_sound_iff (new_wellFormed (by decide)) (new_wellFormed (by decide))).mpr ⟨?_, ?_⟩
  · rintro ⟨_, hint, _⟩
    revert hint
    decide
  · rintro ⟨_, hint, _⟩
    revert hint
    decide

/-- 1 is in 3[14, 1], three after 14, but the difference 13 is not a multiple of 3. -/
theorem intersection_loses_one : ¬ ∀ (bits : Nat) (a b : StridedInterval bits), a.WellFormed → b.WellFormed →
    (∃ r, intersection a b = some r ∧ a.gamma ∩ b.gamma ⊆ r.gamma) ∧
      ∀ sameName, eq sameName a b = some .FalseResult → a.gamma ∩ b.gamma = ∅ := by
  intro h
  obtain ⟨_, hdisjoint⟩ := h 4 (new 0 1 1 false) (new 3 14 1 false) (new_wellFormed (by decide))
    (new_wellFormed (by decide))
  have hempty := hdisjoint false (by decide +kernel)
  have hleft : (1 : Int) ∈ (new 0 1 1 false : StridedInterval 4).gamma :=
    (mem_gamma_new (by decide)).mpr ⟨by decide, by decide, by decide⟩
  have hright : (1 : Int) ∈ (new 3 14 1 false : StridedInterval 4).gamma :=
    (mem_gamma_new (by decide)).mpr ⟨by decide, by decide, by decide⟩
  exact Set.notMem_empty (1 : Int) (hempty ▸ ⟨hleft, hright⟩)

end StridedInterval

end Claripy.Vsa
