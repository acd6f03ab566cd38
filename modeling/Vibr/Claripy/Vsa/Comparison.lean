import Vibr.Claripy.Vsa.Intersection

/-!
# Unsigned comparisons

An interval has the bounds of its pieces on the two sides of the south pole. Two intervals are compared by all pairs
of bounds, and the answer is definite if it is the same one for every pair.
-/

namespace Claripy.Vsa

namespace StridedInterval

open Arc

variable {bits : Nat} {a b s : StridedInterval bits} {x y : Int}

def unsignedBounds (si : StridedInterval bits) : Option (List (Int × Int)) := do
  match ← si.ssplit with
  | [piece] => return [(piece.lowerBound, piece.upperBound)]
  | [hi, lo] => return [(hi.lowerBound, hi.upperBound), (lo.lowerBound, lo.upperBound)]
  | _ => none

/-- The answer for two pairs of bounds, by the test for `True` and the one for `False`. -/
def compareBounds (definitely never : Int × Int → Int × Int → Bool) (p q : Int × Int) : BoolResult :=
  if definitely p q then .TrueResult else if never p q then .FalseResult else .MaybeResult

def compareUnsigned (definitely never : Int × Int → Int × Int → Bool) (self o : StridedInterval bits) :
    Option BoolResult := do
  let unsignedBounds1 ← self.unsignedBounds
  let unsignedBounds2 ← o.unsignedBounds
  let ret := unsignedBounds1.flatMap fun p => unsignedBounds2.map fun q => compareBounds definitely never p q
  if ret.all (· = .TrueResult) then return .TrueResult
  else if ret.all (· = .FalseResult) then return .FalseResult
  else return .MaybeResult

def ULT (self o : StridedInterval bits) : Option BoolResult :=
  compareUnsigned (fun (_, ub1) (lb2, _) => ub1 < lb2) (fun (lb1, _) (_, ub2) => lb1 ≥ ub2) self o

def ULE (self o : StridedInterval bits) : Option BoolResult :=
  compareUnsigned (fun (_, ub1) (lb2, _) => ub1 ≤ lb2) (fun (lb1, _) (_, ub2) => lb1 > ub2) self o

def UGT (self o : StridedInterval bits) : Option BoolResult :=
  compareUnsigned (fun (lb1, _) (_, ub2) => lb1 > ub2) (fun (_, ub1) (lb2, _) => ub1 ≤ lb2) self o

def UGE (self o : StridedInterval bits) : Option BoolResult :=
  compareUnsigned (fun (lb1, _) (_, ub2) => lb1 ≥ ub2) (fun (_, ub1) (lb2, _) => ub1 < lb2) self o

/-! ## Bounds -/

/-- Every integer of an interval is between the bounds of a piece. -/
theorem unsignedBounds_spec (hs : s.WellFormed) :
    ∃ bounds, s.unsignedBounds = some bounds ∧ ∀ x ∈ s.gamma, ∃ p ∈ bounds, p.1 ≤ x ∧ x ≤ p.2 := by
  by_cases hwraps : Wraps s
  · have hb : s.isBottom = false := by
      cases hb : s.isBottom with
      | false => rfl
      | true =>
        have hpos := size_pos bits
        rw [hs.bottom hb] at hwraps
        change (2 ^ bits - 1 : Int) < 0 at hwraps
        omega
    obtain ⟨hi, lo, hsplit, _, _, hupper, hlower⟩ := ssplit_of_wraps hs hb hwraps
    refine ⟨[(hi.lowerBound, hi.upperBound), (lo.lowerBound, lo.upperBound)], ?_, fun x hx => ?_⟩
    · unfold unsignedBounds
      rw [hsplit]
      rfl
    rcases Int.lt_or_le x s.lowerBound with hlow | hhigh
    · have hplain := (hlower x hx hlow).1
      exact ⟨_, List.mem_cons_of_mem _ List.mem_cons_self, hplain.1, hplain.2.1⟩
    · have hplain := (hupper x).mpr ⟨hx, hhigh⟩
      exact ⟨_, List.mem_cons_self, hplain.1, hplain.2.1⟩
  · refine ⟨[(s.lowerBound, s.upperBound)], ?_, fun x hx => ?_⟩
    · unfold unsignedBounds
      rw [ssplit_of_not_wraps hwraps]
      rfl
    · have hplain := (plain_iff hs hx.1 hwraps).mpr hx
      exact ⟨_, List.mem_cons_self, hplain.1, hplain.2.1⟩

/-! ## Comparisons -/

/-- A definite answer about a relation holds for all integers of the two intervals. -/
structure Sound (a b : StridedInterval bits) (rel : Int → Int → Prop) (r : BoolResult) : Prop where
  definitely : r = .TrueResult → ∀ x ∈ a.gamma, ∀ y ∈ b.gamma, rel x y
  never : r = .FalseResult → ∀ x ∈ a.gamma, ∀ y ∈ b.gamma, ¬ rel x y

theorem compareBounds_true {definitely never : Int × Int → Int × Int → Bool} {p q : Int × Int}
    (h : compareBounds definitely never p q = .TrueResult) : definitely p q = true := by
  unfold compareBounds at h
  split at h
  · assumption
  · split at h <;> cases h

theorem compareBounds_false {definitely never : Int × Int → Int × Int → Bool} {p q : Int × Int}
    (h : compareBounds definitely never p q = .FalseResult) : never p q = true := by
  unfold compareBounds at h
  split at h
  · cases h
  · split at h
    · assumption
    · cases h

/-- Some lower bound is below an integer, and some upper bound is above it. -/
structure Enclosed (bounds : List (Int × Int)) (x : Int) : Prop where
  lower : ∃ p ∈ bounds, p.1 ≤ x
  upper : ∃ p ∈ bounds, x ≤ p.2

section Bounds

variable {definitely never : Int × Int → Int × Int → Bool} {rel : Int → Int → Prop}
  {bounds bounds' : List (Int × Int)}

/-- A test that relates integers to the bounds on both sides of them holds for them if it holds for all bounds. -/
theorem Enclosed.of_all (rel : Int → Int → Prop) {p : Int × Int → Int × Int → Prop} (hx : Enclosed bounds x) (hy : Enclosed bounds' y)
    (hall : ∀ b ∈ bounds, ∀ b' ∈ bounds', p b b')
    (hrel : ∀ l u l' u', l.1 ≤ x → x ≤ u.2 → l'.1 ≤ y → y ≤ u'.2 → p l u' → p u l' → rel x y) : rel x y := by
  obtain ⟨⟨l, hl, hlow⟩, ⟨u, hu, hup⟩⟩ := hx
  obtain ⟨⟨l', hl', hlow'⟩, ⟨u', hu', hup'⟩⟩ := hy
  exact hrel l u l' u' hlow hup hlow' hup' (hall l hl u' hu') (hall u hu l' hl')

/-- The answer for all pairs of bounds is right for integers that the bounds enclose. -/
theorem compareAll_sound (value : Int → Int) (ha : ∀ x ∈ a.gamma, Enclosed bounds (value x))
    (hb : ∀ y ∈ b.gamma, Enclosed bounds' (value y))
    (hdefinitely : ∀ x y (l u l' u' : Int × Int), l.1 ≤ x → x ≤ u.2 → l'.1 ≤ y → y ≤ u'.2 →
      definitely l u' = true → definitely u l' = true → rel x y)
    (hnever : ∀ x y (l u l' u' : Int × Int), l.1 ≤ x → x ≤ u.2 → l'.1 ≤ y → y ≤ u'.2 →
      never l u' = true → never u l' = true → ¬ rel x y) :
    ∃ r, (let ret := bounds.flatMap fun p => bounds'.map fun q => compareBounds definitely never p q
      if ret.all (· = .TrueResult) then some BoolResult.TrueResult
      else if ret.all (· = .FalseResult) then some BoolResult.FalseResult
      else some BoolResult.MaybeResult) = some r ∧ Sound a b (fun x y => rel (value x) (value y)) r := by
  simp only [List.all_flatMap, List.all_map, List.all_eq_true, Function.comp_apply, decide_eq_true_eq]
  split
  · next hall =>
      refine ⟨_, rfl, fun _ x hx y hy => ?_, nofun⟩
      exact (ha x hx).of_all rel (hb y hy) (fun p hp q hq => compareBounds_true (hall p hp q hq)) (hdefinitely _ _)
  split
  · next hall =>
      refine ⟨_, rfl, nofun, fun _ x hx y hy => ?_⟩
      exact (ha x hx).of_all (fun x y => ¬ rel x y) (hb y hy)
        (fun p hp q hq => compareBounds_false (hall p hp q hq)) (hnever _ _)
  · exact ⟨_, rfl, nofun, nofun⟩

theorem compareUnsigned_sound (ha : a.WellFormed) (hb : b.WellFormed)
    (hdefinitely : ∀ x y (l u l' u' : Int × Int), l.1 ≤ x → x ≤ u.2 → l'.1 ≤ y → y ≤ u'.2 →
      definitely l u' = true → definitely u l' = true → rel x y)
    (hnever : ∀ x y (l u l' u' : Int × Int), l.1 ≤ x → x ≤ u.2 → l'.1 ≤ y → y ≤ u'.2 →
      never l u' = true → never u l' = true → ¬ rel x y) :
    ∃ r, compareUnsigned definitely never a b = some r ∧ Sound a b rel r := by
  obtain ⟨bounds, hbounds, hcover⟩ := unsignedBounds_spec ha
  obtain ⟨bounds', hbounds', hcover'⟩ := unsignedBounds_spec hb
  have henclosed : ∀ {s : StridedInterval bits} {bounds : List (Int × Int)},
      (∀ x ∈ s.gamma, ∃ p ∈ bounds, p.1 ≤ x ∧ x ≤ p.2) → ∀ x ∈ s.gamma, Enclosed bounds x := by
    intro s bounds hcover x hx
    obtain ⟨p, hp, hlow, hup⟩ := hcover x hx
    exact ⟨⟨p, hp, hlow⟩, ⟨p, hp, hup⟩⟩
  obtain ⟨r, hr, hsound⟩ := compareAll_sound id (henclosed hcover) (henclosed hcover') hdefinitely hnever
  refine ⟨r, ?_, hsound⟩
  unfold compareUnsigned
  rw [hbounds, hbounds']
  exact hr

end Bounds

theorem ULT_sound (ha : a.WellFormed) (hb : b.WellFormed) : ∃ r, ULT a b = some r ∧ Sound a b (· < ·) r := by
  refine compareUnsigned_sound ha hb ?_ ?_ <;> intro x y l u l' u' _ _ _ _ h h' <;> have := of_decide_eq_true h <;>
    have := of_decide_eq_true h' <;> omega

theorem ULE_sound (ha : a.WellFormed) (hb : b.WellFormed) : ∃ r, ULE a b = some r ∧ Sound a b (· ≤ ·) r := by
  refine compareUnsigned_sound ha hb ?_ ?_ <;> intro x y l u l' u' _ _ _ _ h h' <;> have := of_decide_eq_true h <;>
    have := of_decide_eq_true h' <;> omega

theorem UGT_sound (ha : a.WellFormed) (hb : b.WellFormed) : ∃ r, UGT a b = some r ∧ Sound a b (· > ·) r := by
  refine compareUnsigned_sound ha hb ?_ ?_ <;> intro x y l u l' u' _ _ _ _ h h' <;> have := of_decide_eq_true h <;>
    have := of_decide_eq_true h' <;> omega

theorem UGE_sound (ha : a.WellFormed) (hb : b.WellFormed) : ∃ r, UGE a b = some r ∧ Sound a b (· ≥ ·) r := by
  refine compareUnsigned_sound ha hb ?_ ?_ <;> intro x y l u l' u' _ _ _ _ h h' <;> have := of_decide_eq_true h <;>
    have := of_decide_eq_true h' <;> omega

/-- The unsigned comparisons answer, and their definite answers hold for all integers of the two intervals. -/
theorem unsigned_comparisons_sound (ha : a.WellFormed) (hb : b.WellFormed) :
    (∃ r, ULT a b = some r ∧ Sound a b (· < ·) r) ∧ (∃ r, ULE a b = some r ∧ Sound a b (· ≤ ·) r) ∧
      (∃ r, UGT a b = some r ∧ Sound a b (· > ·) r) ∧ ∃ r, UGE a b = some r ∧ Sound a b (· ≥ ·) r :=
  ⟨ULT_sound ha hb, ULE_sound ha hb, UGT_sound ha hb, UGE_sound ha hb⟩

/-- An interval that wraps, with members 250 and 254, against a single integer. -/
theorem unsigned_comparisons_of_wrapping_interval :
    let a : StridedInterval 8 := new 4 250 1 false
    let b : StridedInterval 8 := new 0 3 3 false
    (∃ r, ULT a b = some r ∧ Sound a b (· < ·) r) ∧ (∃ r, ULE a b = some r ∧ Sound a b (· ≤ ·) r) ∧
      (∃ r, UGT a b = some r ∧ Sound a b (· > ·) r) ∧ ∃ r, UGE a b = some r ∧ Sound a b (· ≥ ·) r :=
  unsigned_comparisons_sound (new_wellFormed nofun) (new_wellFormed fun _ => rfl)

end StridedInterval

end Claripy.Vsa
