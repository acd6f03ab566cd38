import Mathlib

/-!
# Range maps

A range map is a list of segments, none empty, in ascending order and apart from each
other. `Spec` is what an implementation promises: every number has the value of the last
range inserted over it, unless a range over it has been removed since.
-/

namespace RangeMap

variable {V : Type}

structure Segment (V : Type) where
  start : Nat
  stop : Nat
  value : V
deriving DecidableEq

/-- A number lies in a segment. -/
def Segment.Has (s : Segment V) (a : Nat) : Prop := s.start ≤ a ∧ a < s.stop

instance (s : Segment V) (a : Nat) : Decidable (s.Has a) := inferInstanceAs (Decidable (_ ∧ _))

structure Apart (segs : List (Segment V)) : Prop where
  nonempty : ∀ s ∈ segs, s.start < s.stop
  ordered : segs.Pairwise fun s t => s.stop ≤ t.start

variable {segs : List (Segment V)}

theorem Apart.tail {s : Segment V} (h : Apart (s :: segs)) : Apart segs :=
  ⟨fun t ht => h.nonempty t (List.mem_cons_of_mem _ ht), h.ordered.of_cons⟩

/-- The value at a number. -/
def lookup (segs : List (Segment V)) (a : Nat) : Option V :=
  (segs.find? fun s => s.Has a).map Segment.value

@[simp] theorem lookup_nil (a : Nat) : lookup ([] : List (Segment V)) a = none := rfl

theorem lookup_cons (s : Segment V) (segs : List (Segment V)) (a : Nat) :
    lookup (s :: segs) a = if s.Has a then some s.value else lookup segs a := by
  unfold lookup
  rw [List.find?_cons]
  by_cases h : s.Has a <;> simp [h]

theorem lookup_append (segs segs' : List (Segment V)) (a : Nat) :
    lookup (segs ++ segs') a = (lookup segs a).or (lookup segs' a) := by
  unfold lookup
  rw [List.find?_append]
  cases segs.find? fun s => s.Has a <;> rfl

/-! ## Counting -/

def covered : List (Segment V) → Finset Nat
  | [] => ∅
  | s :: segs => Finset.Ico s.start s.stop ∪ covered segs

theorem mem_covered {a : Nat} : a ∈ covered segs ↔ (lookup segs a).isSome := by
  induction segs with
  | nil => simp [covered]
  | cons s segs ih =>
    rw [covered, Finset.mem_union, Finset.mem_Ico, ih, lookup_cons]
    by_cases h : s.Has a
    · simp [h, show s.start ≤ a ∧ a < s.stop from h]
    · simp [h, show ¬ (s.start ≤ a ∧ a < s.stop) from h]

/-- The numbers of a segment that lie in a range. -/
def Segment.within (start stop : Nat) (s : Segment V) : Nat := min s.stop stop - max s.start start

/-- What a list of segments covers of a range, counted segment by segment. -/
theorem Apart.card_inter (h : Apart segs) (start stop : Nat) :
    (covered segs ∩ Finset.Ico start stop).card = (segs.map (Segment.within start stop)).sum := by
  induction segs with
  | nil => simp [covered]
  | cons s segs ih =>
    have hdisjoint : Disjoint (Finset.Ico s.start s.stop ∩ Finset.Ico start stop)
        (covered segs ∩ Finset.Ico start stop) := by
      rw [Finset.disjoint_left]
      intro a ha ha'
      have hin := Finset.mem_Ico.mp (Finset.mem_inter.mp ha).1
      obtain ⟨v, hv⟩ := Option.isSome_iff_exists.mp (mem_covered.mp (Finset.mem_inter.mp ha').1)
      obtain ⟨t, ht, -⟩ := Option.map_eq_some_iff.mp hv
      have hhas : t.Has a := by simpa using List.find?_some ht
      have := List.rel_of_pairwise_cons h.ordered (List.mem_of_find?_eq_some ht)
      have := hhas.1
      omega
    rw [covered, Finset.union_inter_distrib_right, Finset.card_union_of_disjoint hdisjoint, ih h.tail,
      Finset.Ico_inter_Ico, Nat.card_Ico, List.map_cons, List.sum_cons, Segment.within]

/-- The segments that have a number in common with a range. -/
def overlapping (segs : List (Segment V)) (start stop : Nat) : List (Segment V) :=
  segs.filter fun s => s.start < stop ∧ start < s.stop

theorem sum_overlapping (segs : List (Segment V)) (start stop : Nat) :
    ((overlapping segs start stop).map (Segment.within start stop)).sum =
      (segs.map (Segment.within start stop)).sum := by
  induction segs with
  | nil => rfl
  | cons s segs ih =>
    unfold overlapping at ih ⊢
    rw [List.filter_cons]
    split
    · rw [List.map_cons, List.sum_cons, List.map_cons, List.sum_cons, ih]
    rename_i hnot
    have hzero : s.within start stop = 0 := by
      unfold Segment.within
      simp only [decide_eq_true_eq, not_and_or, not_lt] at hnot
      omega
    rw [ih, List.map_cons, List.sum_cons, hzero, Nat.zero_add]

/-! ## Specification -/

/-- A map from ranges, by what its operations promise. Ranges given to `insert` and
`remove` are not empty. -/
structure Spec (V : Type) where
  Map : Type
  empty : Map
  iter : Map → List (Segment V)
  insert : Map → (start stop : Nat) → V → Map
  remove : Map → (start stop : Nat) → Map
  apart : ∀ m, Apart (iter m)
  iter_empty : iter empty = []
  lookup_insert : ∀ m start stop v a, start < stop →
    lookup (iter (insert m start stop v)) a =
      if start ≤ a ∧ a < stop then some v else lookup (iter m) a
  lookup_remove : ∀ m start stop a, start < stop →
    lookup (iter (remove m start stop)) a =
      if start ≤ a ∧ a < stop then none else lookup (iter m) a

variable {start stop : Nat}

namespace Spec

variable (R : Spec V)

theorem covered_insert {m : R.Map} {v : V} (h : start < stop) :
    covered (R.iter (R.insert m start stop v)) = covered (R.iter m) ∪ Finset.Ico start stop := by
  ext a
  rw [mem_covered, R.lookup_insert m start stop v a h, Finset.mem_union, mem_covered, Finset.mem_Ico]
  split <;> simp_all

theorem covered_remove {m : R.Map} (h : start < stop) :
    covered (R.iter (R.remove m start stop)) = covered (R.iter m) \ Finset.Ico start stop := by
  ext a
  rw [mem_covered, R.lookup_remove m start stop a h, Finset.mem_sdiff, mem_covered, Finset.mem_Ico]
  split <;> simp_all

end Spec

/-! ## Lists of segments as range maps -/

/-- What is left of a segment below a number. -/
def Segment.below (start : Nat) (s : Segment V) : Option (Segment V) :=
  if s.start < start then some { s with stop := min s.stop start } else none

/-- What is left of a segment from a number on. -/
def Segment.above (stop : Nat) (s : Segment V) : Option (Segment V) :=
  if stop < s.stop then some { s with start := max s.start stop } else none

theorem lookup_below (segs : List (Segment V)) (start a : Nat) :
    lookup (segs.filterMap (Segment.below start)) a = if a < start then lookup segs a else none := by
  induction segs with
  | nil => simp
  | cons s segs ih =>
    rw [List.filterMap_cons, lookup_cons]
    by_cases hs : s.start < start
    · simp only [Segment.below, if_pos hs, lookup_cons] at ih ⊢
      rw [ih]
      unfold Segment.Has
      dsimp only
      grind
    simp only [Segment.below, if_neg hs] at ih ⊢
    rw [ih]
    unfold Segment.Has
    grind

theorem lookup_above (segs : List (Segment V)) (stop a : Nat) :
    lookup (segs.filterMap (Segment.above stop)) a = if stop ≤ a then lookup segs a else none := by
  induction segs with
  | nil => simp
  | cons s segs ih =>
    rw [List.filterMap_cons, lookup_cons]
    by_cases hs : stop < s.stop
    · simp only [Segment.above, if_pos hs, lookup_cons] at ih ⊢
      rw [ih]
      unfold Segment.Has
      dsimp only
      grind
    simp only [Segment.above, if_neg hs] at ih ⊢
    rw [ih]
    unfold Segment.Has
    grind

theorem mem_below {start : Nat} {t : Segment V} (h : t ∈ segs.filterMap (Segment.below start)) :
    ∃ s ∈ segs, s.start < start ∧ t = { s with stop := min s.stop start } := by
  obtain ⟨s, hs, ht⟩ := List.mem_filterMap.mp h
  unfold Segment.below at ht
  split at ht
  · cases ht
    exact ⟨s, hs, ‹_›, rfl⟩
  · cases ht

theorem mem_above {stop : Nat} {t : Segment V} (h : t ∈ segs.filterMap (Segment.above stop)) :
    ∃ s ∈ segs, stop < s.stop ∧ t = { s with start := max s.start stop } := by
  obtain ⟨s, hs, ht⟩ := List.mem_filterMap.mp h
  unfold Segment.above at ht
  split at ht
  · cases ht
    exact ⟨s, hs, ‹_›, rfl⟩
  · cases ht

/-- The segments with a range cut out, around what is put in its place. -/
theorem Apart.replace (h : Apart segs) (hlt : start < stop) {new : List (Segment V)}
    (hnew : ∀ s ∈ new, start ≤ s.start ∧ s.stop ≤ stop) (hapart : Apart new) :
    Apart (segs.filterMap (Segment.below start) ++ (new ++ segs.filterMap (Segment.above stop))) := by
  have hbelow : (segs.filterMap (Segment.below start)).Pairwise fun s t => s.stop ≤ t.start := by
    refine List.Pairwise.filterMap _ (fun s s' hs t ht t' ht' => ?_) h.ordered
    unfold Segment.below at ht ht'
    split at ht <;> cases ht
    split at ht' <;> cases ht'
    dsimp only
    omega
  have habove : (segs.filterMap (Segment.above stop)).Pairwise fun s t => s.stop ≤ t.start := by
    refine List.Pairwise.filterMap _ (fun s s' hs t ht t' ht' => ?_) h.ordered
    unfold Segment.above at ht ht'
    split at ht <;> cases ht
    split at ht' <;> cases ht'
    dsimp only
    omega
  refine ⟨fun s hs => ?_, List.pairwise_append.mpr ⟨hbelow, List.pairwise_append.mpr
    ⟨hapart.ordered, habove, fun s hs t ht => ?_⟩, fun s hs t ht => ?_⟩⟩
  · rcases List.mem_append.mp hs with hs | hs
    · obtain ⟨r, hr, hlt', rfl⟩ := mem_below hs
      have := h.nonempty r hr
      dsimp only
      omega
    rcases List.mem_append.mp hs with hs | hs
    · exact hapart.nonempty s hs
    obtain ⟨r, hr, hlt', rfl⟩ := mem_above hs
    have := h.nonempty r hr
    dsimp only
    omega
  · obtain ⟨r, -, -, rfl⟩ := mem_above ht
    have := (hnew s hs).2
    dsimp only
    omega
  · obtain ⟨r, -, -, rfl⟩ := mem_below hs
    rcases List.mem_append.mp ht with ht | ht
    · have := (hnew t ht).1
      dsimp only
      omega
    · obtain ⟨r', -, -, rfl⟩ := mem_above ht
      dsimp only
      omega

def replace (segs : { segs : List (Segment V) // Apart segs }) (start stop : Nat) (v : Option V) :
    { segs : List (Segment V) // Apart segs } :=
  if h : start < stop then
    ⟨segs.1.filterMap (Segment.below start) ++
        ((v.map fun v => ⟨start, stop, v⟩).toList ++ segs.1.filterMap (Segment.above stop)),
      segs.2.replace h (by cases v <;> simp) (by
        cases v with
        | none => exact ⟨by simp, by simp⟩
        | some v => exact ⟨by simpa using h, by simp⟩)⟩
  else segs

theorem lookup_replace (segs : { segs : List (Segment V) // Apart segs }) (v : Option V) (a : Nat)
    (h : start < stop) :
    lookup (replace segs start stop v).1 a = if start ≤ a ∧ a < stop then v else lookup segs.1 a := by
  unfold replace
  rw [dif_pos h]
  dsimp only
  rw [lookup_append, lookup_append, lookup_below, lookup_above]
  cases v with
  | none =>
    simp only [Option.map_none, Option.toList_none, lookup_nil]
    grind
  | some v =>
    simp only [Option.map_some, Option.toList_some, lookup_cons, lookup_nil, Segment.Has]
    grind

/-- Ordered lists of segments, without joining neighbours of the same value. -/
def ofLists (V : Type) : Spec V where
  Map := { segs : List (Segment V) // Apart segs }
  empty := ⟨[], by simp, by simp⟩
  iter := Subtype.val
  insert m start stop v := replace m start stop (some v)
  remove m start stop := replace m start stop none
  apart := Subtype.property
  iter_empty := rfl
  lookup_insert m _ _ v a h := lookup_replace m (some v) a h
  lookup_remove m _ _ a h := lookup_replace m none a h

end RangeMap
