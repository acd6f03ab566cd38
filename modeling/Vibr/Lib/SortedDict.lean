import Mathlib.Data.List.Sort

/-!
# Sorted dictionaries

A dictionary whose entries are in strictly ascending order of the keys. What an operation
does with the entries is said by the entries below a key and those from it on.
-/

structure SortedDict (K V : Type) [LinearOrder K] where
  entries : List (K × V) := []
  sorted : entries.Pairwise fun p q => p.1 < q.1 := by exact .nil

namespace SortedDict

variable {K V : Type} [LinearOrder K] {l : List (K × V)} {k : K}

/-- A sorted list is what is below a key and what is not. -/
theorem split_lt (h : l.Pairwise fun p q => p.1 < q.1) (k : K) :
    l = (l.filter fun p => p.1 < k) ++ l.filter fun p => k ≤ p.1 := by
  induction l with
  | nil => rfl
  | cons p l ih =>
    obtain ⟨hp, hl⟩ := List.pairwise_cons.mp h
    by_cases hk : p.1 < k
    · have hk' : ¬ k ≤ p.1 := not_le.mpr hk
      simp only [List.filter_cons, hk, hk', decide_true, decide_false, if_true, List.cons_append, List.cons.injEq,
        true_and, Bool.false_eq_true, if_false]
      exact ih hl
    have hall : ∀ q ∈ l, ¬ q.1 < k := fun q hq => not_lt.mpr ((not_lt.mp hk).trans (hp q hq).le)
    have hnone : ((p :: l).filter fun p => p.1 < k) = [] := by
      rw [List.filter_eq_nil_iff]
      intro q hq
      rcases List.mem_cons.mp hq with rfl | hq
      · simpa using hk
      · simpa using hall q hq
    rw [hnone, List.nil_append, List.filter_eq_self.mpr]
    intro q hq
    rcases List.mem_cons.mp hq with rfl | hq
    · simpa using hk
    · simpa using hall q hq

theorem split_le (h : l.Pairwise fun p q => p.1 < q.1) (k : K) :
    l = (l.filter fun p => p.1 ≤ k) ++ l.filter fun p => k < p.1 := by
  induction l with
  | nil => rfl
  | cons p l ih =>
    obtain ⟨hp, hl⟩ := List.pairwise_cons.mp h
    by_cases hk : p.1 ≤ k
    · have hk' : ¬ k < p.1 := not_lt.mpr hk
      simp only [List.filter_cons, hk, hk', decide_true, decide_false, if_true, List.cons_append, List.cons.injEq,
        true_and, Bool.false_eq_true, if_false]
      exact ih hl
    have hall : ∀ q ∈ p :: l, k < q.1 := by
      intro q hq
      rcases List.mem_cons.mp hq with rfl | hq
      · exact not_le.mp hk
      · exact (not_le.mp hk).trans (hp q hq)
    have hnone : ((p :: l).filter fun p => p.1 ≤ k) = [] := by
      rw [List.filter_eq_nil_iff]
      intro q hq
      simpa using hall q hq
    rw [hnone, List.nil_append, List.filter_eq_self.mpr]
    intro q hq
    simpa using hall q hq

/-- A sorted list around one of its entries. -/
theorem split_mem {v : V} (h : l.Pairwise fun p q => p.1 < q.1) (hmem : (k, v) ∈ l) :
    l = (l.filter fun p => p.1 < k) ++ (k, v) :: l.filter fun p => k < p.1 := by
  obtain ⟨s, t, rfl⟩ := List.append_of_mem hmem
  obtain ⟨-, hright, hleft⟩ := List.pairwise_append.mp h
  have hs : ∀ p ∈ s, p.1 < k := fun p hp => hleft p hp _ List.mem_cons_self
  have ht : ∀ p ∈ t, k < p.1 := (List.pairwise_cons.mp hright).1
  have hs' : (s.filter fun p => k < p.1) = [] := List.filter_eq_nil_iff.mpr fun p hp => by simpa using (hs p hp).le
  have ht' : (t.filter fun p => p.1 < k) = [] := List.filter_eq_nil_iff.mpr fun p hp => by simpa using (ht p hp).le
  rw [List.filter_append, List.filter_append, List.filter_cons_of_neg (by simp), List.filter_cons_of_neg (by simp), hs',
    ht', List.filter_eq_self.mpr, List.filter_eq_self.mpr, List.append_nil, List.nil_append]
  · simpa using ht
  · simpa using hs

variable (d : SortedDict K V)

def keys : List K := d.entries.map Prod.fst

def get? (k : K) : Option V := (d.entries.find? fun p => p.1 = k).map Prod.snd

/-- `d[k] = v` -/
def set (k : K) (v : V) : SortedDict K V where
  entries := (d.entries.filter fun p => p.1 < k) ++ (k, v) :: d.entries.filter fun p => k < p.1
  sorted := by
    refine List.pairwise_append.mpr ⟨d.sorted.filter _, List.pairwise_cons.mpr ⟨fun q hq => ?_, d.sorted.filter _⟩,
      fun p hp q hq => ?_⟩
    · simpa using (List.mem_filter.mp hq).2
    have hp : p.1 < k := by simpa using (List.mem_filter.mp hp).2
    rcases List.mem_cons.mp hq with rfl | hq
    · exact hp
    · exact hp.trans (by simpa using (List.mem_filter.mp hq).2)

/-- `del d[k]` for several keys. -/
def eraseAll (ks : List K) : SortedDict K V where
  entries := d.entries.filter fun p => p.1 ∉ ks
  sorted := d.sorted.filter _

/-- The same keys with other values. -/
def mapWithKey (f : K → V → V) : SortedDict K V where
  entries := d.entries.map fun p => (p.1, f p.1 p.2)
  sorted := List.pairwise_map.mpr d.sorted

/-- The number of keys below a key, where it would be inserted. -/
def bisectLeft (k : K) : Nat := (d.entries.filter fun p => p.1 < k).length

/-- The number of keys that are not above a key. -/
def bisect (k : K) : Nat := (d.entries.filter fun p => p.1 ≤ k).length

/-- The last entry whose key is not above a key. -/
def floor? (k : K) : Option (K × V) := (d.entries.filter fun p => p.1 ≤ k).getLast?

/-! ## Entries -/

variable {d : SortedDict K V} {v : V} {p q : K × V}

theorem eq_of_key (hp : p ∈ d.entries) (hq : q ∈ d.entries) (h : p.1 = q.1) : p = q := by
  obtain ⟨s, t, hsplit⟩ := List.append_of_mem hp
  have hsorted := d.sorted
  rw [hsplit] at hsorted hq
  obtain ⟨-, hright, hleft⟩ := List.pairwise_append.mp hsorted
  rcases List.mem_append.mp hq with hq | hq
  · exact absurd h (hleft q hq p List.mem_cons_self).ne'
  rcases List.mem_cons.mp hq with rfl | hq
  · rfl
  · exact absurd h ((List.pairwise_cons.mp hright).1 q hq).ne

theorem mem_set : p ∈ (d.set k v).entries ↔ p = (k, v) ∨ p.1 ≠ k ∧ p ∈ d.entries := by
  rw [set, List.mem_append, List.mem_cons, List.mem_filter, List.mem_filter, decide_eq_true_eq, decide_eq_true_eq,
    ne_iff_lt_or_gt]
  constructor
  · rintro (⟨hmem, hlt⟩ | rfl | ⟨hmem, hlt⟩)
    · exact .inr ⟨.inl hlt, hmem⟩
    · exact .inl rfl
    · exact .inr ⟨.inr hlt, hmem⟩
  rintro (rfl | ⟨hlt | hlt, hmem⟩)
  · exact .inr (.inl rfl)
  · exact .inl ⟨hmem, hlt⟩
  · exact .inr (.inr ⟨hmem, hlt⟩)

/-- Several entries set one after the other. -/
theorem mem_foldl_set {ps : List (K × V)} (h : (ps.map Prod.fst).Nodup) :
    p ∈ (ps.foldl (fun d p => d.set p.1 p.2) d).entries ↔ p ∈ ps ∨ p.1 ∉ ps.map Prod.fst ∧ p ∈ d.entries := by
  induction ps generalizing d with
  | nil => simp
  | cons q ps ih =>
    rw [List.map_cons, List.nodup_cons] at h
    rw [List.foldl_cons, ih h.2, mem_set, List.map_cons, List.mem_cons, List.mem_cons, not_or]
    constructor
    · rintro (hp | ⟨hnot, rfl | ⟨hne, hp⟩⟩)
      · exact .inl (.inr hp)
      · exact .inl (.inl rfl)
      · exact .inr ⟨⟨hne, hnot⟩, hp⟩
    rintro ((rfl | hp) | ⟨⟨hne, hnot⟩, hp⟩)
    · exact .inr ⟨h.1, .inl rfl⟩
    · exact .inl hp
    · exact .inr ⟨hnot, .inr ⟨hne, hp⟩⟩

theorem get?_eq_some : d.get? k = some v ↔ (k, v) ∈ d.entries := by
  rw [get?, Option.map_eq_some_iff]
  constructor
  · rintro ⟨p, hp, rfl⟩
    have hkey : p.1 = k := by simpa using List.find?_some hp
    rw [← hkey]
    exact List.mem_of_find?_eq_some hp
  intro hmem
  have hsome : (d.entries.find? fun p => p.1 = k).isSome := List.find?_isSome.mpr ⟨_, hmem, by simp⟩
  obtain ⟨p, hp⟩ := Option.isSome_iff_exists.mp hsome
  have hkey : p.1 = k := by simpa using List.find?_some hp
  exact ⟨p, hp, by rw [eq_of_key (List.mem_of_find?_eq_some hp) hmem hkey]⟩

theorem floor?_eq_some :
    d.floor? k = some p ↔ p ∈ d.entries ∧ p.1 ≤ k ∧ ∀ q ∈ d.entries, q.1 ≤ k → q.1 ≤ p.1 := by
  have hmem : ∀ q, q ∈ (d.entries.filter fun p => p.1 ≤ k) ↔ q ∈ d.entries ∧ q.1 ≤ k := fun q => by simp
  have hsorted := d.sorted.filter fun p => decide (p.1 ≤ k)
  have hlast : ∀ p, d.floor? k = some p → p ∈ d.entries ∧ p.1 ≤ k ∧ ∀ q ∈ d.entries, q.1 ≤ k → q.1 ≤ p.1 := by
    intro p hp
    obtain ⟨init, hinit⟩ := List.getLast?_eq_some_iff.mp hp
    have hin := (hmem p).mp (by rw [hinit]; exact List.mem_append_right _ List.mem_cons_self)
    refine ⟨hin.1, hin.2, fun q hq hle => ?_⟩
    have hq' := (hmem q).mpr ⟨hq, hle⟩
    rw [hinit] at hq' hsorted
    rcases List.mem_append.mp hq' with hq' | hq'
    · exact ((List.pairwise_append.mp hsorted).2.2 q hq' p List.mem_cons_self).le
    · rw [List.mem_singleton.mp hq']
  refine ⟨hlast p, ?_⟩
  rintro ⟨hp, hle, hmax⟩
  cases hfloor : d.floor? k with
  | none =>
    have hnil := List.getLast?_eq_none_iff.mp hfloor
    have hin := (hmem p).mpr ⟨hp, hle⟩
    rw [hnil] at hin
    cases hin
  | some q =>
    obtain ⟨hq, hqle, hqmax⟩ := hlast q hfloor
    rw [eq_of_key hq hp (le_antisymm (hmax q hq hqle) (hqmax p hp hle))]

end SortedDict
