import Mathlib.Data.List.Chain
import Vibr.Lib.SortedDict

/-!
# Step functions

A list of stops in ascending order gives a function: from a stop to the next one it has the
value of the stop, and before the first stop a default. It is canonical if no stop
has the value in front of it.
-/

namespace StepFunction

variable {K V : Type} [LinearOrder K]

abbrev Ascending (l : List (K × V)) : Prop := l.Pairwise fun p q => p.1 < q.1

def valueAt (default : V) : List (K × V) → K → V
  | [], _ => default
  | (k, v) :: l, a => if a < k then default else valueAt v l a

/-- The value after the last stop. -/
def lastValue (default : V) (l : List (K × V)) : V := l.getLast?.elim default Prod.snd

def Canonical (default : V) : List (K × V) → Prop
  | [] => True
  | (_, v) :: l => default ≠ v ∧ Canonical v l

variable {default : V} {l r r' : List (K × V)} {a k : K} {v : V}

theorem valueAt_of_lt (h : ∀ p ∈ l, a < p.1) : valueAt default l a = default := by
  cases l with
  | nil => rfl
  | cons p l =>
    obtain ⟨k, v⟩ := p
    rw [valueAt, if_pos (h _ List.mem_cons_self)]

omit [LinearOrder K] in
@[simp] theorem lastValue_nil : lastValue default ([] : List (K × V)) = default := rfl

omit [LinearOrder K] in
theorem lastValue_cons (p : K × V) (l : List (K × V)) : lastValue default (p :: l) = lastValue p.2 l := by
  unfold lastValue
  rw [List.getLast?_cons]
  cases l.getLast? <;> rfl

omit [LinearOrder K] in
theorem lastValue_concat (l : List (K × V)) (p : K × V) : lastValue default (l ++ [p]) = p.2 := by
  simp [lastValue]

omit [LinearOrder K] in
theorem lastValue_append (l r : List (K × V)) : lastValue default (l ++ r) = lastValue (lastValue default l) r := by
  induction l generalizing default with
  | nil => rfl
  | cons p l ih => rw [List.cons_append, lastValue_cons, lastValue_cons, ih]

omit [LinearOrder K] in
theorem canonical_append : Canonical default (l ++ r) ↔ Canonical default l ∧ Canonical (lastValue default l) r := by
  induction l generalizing default with
  | nil => simp [Canonical]
  | cons p l ih => rw [List.cons_append, Canonical, Canonical, lastValue_cons, ih, and_assoc]

/-- What comes after some stops may be replaced by stops that give the same values there. -/
theorem valueAt_append_congr (h : valueAt (lastValue default l) r a = valueAt (lastValue default l) r' a) :
    valueAt default (l ++ r) a = valueAt default (l ++ r') a := by
  induction l generalizing default with
  | nil => exact h
  | cons p l ih =>
    obtain ⟨k, v⟩ := p
    rw [lastValue_cons] at h
    rw [List.cons_append, List.cons_append, valueAt, valueAt, ih h]

/-- In front of a key, only the stops that are there matter. -/
theorem valueAt_append_of_lt (h : ∀ p ∈ r, a < p.1) : valueAt default (l ++ r) a = valueAt default l a := by
  induction l generalizing default with
  | nil => exact valueAt_of_lt h
  | cons p l ih =>
    obtain ⟨k, v⟩ := p
    rw [List.cons_append, valueAt, valueAt, ih]

/-- Past some stops, only the last of them matters. -/
theorem valueAt_append_of_le (h : ∀ p ∈ l, p.1 ≤ a) :
    valueAt default (l ++ r) a = valueAt (lastValue default l) r a := by
  induction l generalizing default with
  | nil => rfl
  | cons p l ih =>
    obtain ⟨k, v⟩ := p
    rw [List.cons_append, valueAt, if_neg (not_lt.mpr (h _ List.mem_cons_self)), lastValue_cons]
    exact ih fun q hq => h q (List.mem_cons_of_mem _ hq)

/-- The value is that of the last stop up to a number. -/
theorem valueAt_eq_lastValue (h : Ascending l) : valueAt default l a = lastValue default (l.filter fun p => p.1 ≤ a) := by
  conv_lhs => rw [SortedDict.split_le h a]
  rw [valueAt_append_of_lt fun p hp => by simpa using (List.mem_filter.mp hp).2]
  have hle : ∀ p ∈ l.filter fun p => p.1 ≤ a, p.1 ≤ a := fun p hp => by simpa using (List.mem_filter.mp hp).2
  have hall := @valueAt_append_of_le _ _ _ default _ [] _ hle
  rwa [List.append_nil] at hall

theorem valueAt_self (hl : ∀ p ∈ l, p.1 < k) (hr : ∀ p ∈ r, k < p.1) : valueAt default (l ++ (k, v) :: r) k = v := by
  rw [valueAt_append_of_le fun p hp => (hl p hp).le, valueAt, if_neg (lt_irrefl k)]
  exact valueAt_of_lt hr

/-! ## New stops -/

/-- A stop with the value that is there already. -/
theorem valueAt_insert (hl : ∀ p ∈ l, p.1 < k) (hr : ∀ p ∈ r, k < p.1) :
    valueAt default (l ++ (k, lastValue default l) :: r) a = valueAt default (l ++ r) a := by
  rcases lt_or_ge a k with hlt | hge
  · rw [valueAt_append_of_lt, valueAt_append_of_lt fun p hp => hlt.trans (hr p hp)]
    intro p hp
    rcases List.mem_cons.mp hp with rfl | hp
    · exact hlt
    · exact hlt.trans (hr p hp)
  · have hle : ∀ p ∈ l, p.1 ≤ a := fun p hp => (hl p hp).le.trans hge
    rw [valueAt_append_of_le hle, valueAt_append_of_le hle, valueAt, if_neg (not_lt.mpr hge)]

/-- Other values on a range that starts and ends with stops. -/
theorem valueAt_map {m : List (K × V)} {stop : K} (f : V → V) (hl : ∀ p ∈ l, p.1 < k)
    (hm : ∀ p ∈ (k, v) :: m, k ≤ p.1 ∧ p.1 < stop) (hr : ∀ p ∈ r, stop ≤ p.1) (hstop : ∃ w r', r = (stop, w) :: r') :
    valueAt default (l ++ ((k, v) :: m).map (fun p => (p.1, f p.2)) ++ r) a =
      if k ≤ a ∧ a < stop then f (valueAt default (l ++ (k, v) :: m ++ r) a)
      else valueAt default (l ++ (k, v) :: m ++ r) a := by
  have hmap : ∀ (m : List (K × V)) (d : V), valueAt (f d) (m.map fun p => (p.1, f p.2)) a = f (valueAt d m a) := by
    intro m
    induction m with
    | nil => exact fun d => rfl
    | cons p m ih =>
      intro d
      obtain ⟨k, v⟩ := p
      rw [List.map_cons, valueAt, valueAt, ih]
      split <;> rfl
  obtain ⟨w, r', rfl⟩ := hstop
  rcases lt_or_ge a k with hlt | hge
  · have hright : ∀ p ∈ (k, v) :: m ++ (stop, w) :: r', a < p.1 := by
      intro p hp
      rcases List.mem_append.mp hp with hp | hp
      · exact hlt.trans_le (hm p hp).1
      · exact (hlt.trans_le (hm _ List.mem_cons_self).1).trans ((hm _ List.mem_cons_self).2.trans_le (hr p hp))
    have hright' : ∀ p ∈ ((k, v) :: m).map (fun p => (p.1, f p.2)) ++ (stop, w) :: r', a < p.1 := by
      intro p hp
      rcases List.mem_append.mp hp with hp | hp
      · obtain ⟨q, hq, rfl⟩ := List.mem_map.mp hp
        exact hright q (List.mem_append_left _ hq)
      · exact hright p (List.mem_append_right _ hp)
    rw [if_neg fun h => not_lt.mpr h.1 hlt, List.append_assoc, List.append_assoc, valueAt_append_of_lt hright',
      valueAt_append_of_lt hright]
  · have hle : ∀ p ∈ l, p.1 ≤ a := fun p hp => (hl p hp).le.trans hge
    rcases lt_or_ge a stop with hin | hout
    · have hafter : ∀ p ∈ (stop, w) :: r', a < p.1 := fun p hp => hin.trans_le (hr p hp)
      rw [if_pos ⟨hge, hin⟩, valueAt_append_of_lt hafter, valueAt_append_of_lt hafter, valueAt_append_of_le hle,
        valueAt_append_of_le hle, List.map_cons, valueAt, valueAt, if_neg (not_lt.mpr hge), if_neg (not_lt.mpr hge)]
      exact hmap m v
    have hbefore : ∀ p ∈ l ++ (k, v) :: m, p.1 ≤ a := by
      intro p hp
      rcases List.mem_append.mp hp with hp | hp
      · exact hle p hp
      · exact (hm p hp).2.le.trans hout
    have hbefore' : ∀ p ∈ l ++ ((k, v) :: m).map (fun p => (p.1, f p.2)), p.1 ≤ a := by
      intro p hp
      rcases List.mem_append.mp hp with hp | hp
      · exact hle p hp
      · obtain ⟨q, hq, rfl⟩ := List.mem_map.mp hp
        exact (hm q hq).2.le.trans hout
    rw [if_neg fun h => not_lt.mpr hout h.2, valueAt_append_of_le hbefore, valueAt_append_of_le hbefore', valueAt,
      valueAt, if_neg (not_lt.mpr hout), if_neg (not_lt.mpr hout)]

/-! ## Stops that do nothing -/

variable [DecidableEq V]

/-- The stops whose value is that of the stop before them, where `prev` is the value before the first. -/
def repeats (prev : Option V) : List (K × V) → List K
  | [] => []
  | (k, v) :: l => if some v = prev then k :: repeats prev l else repeats (some v) l

/-- The stops that are left without them. -/
def prune (prev : Option V) : List (K × V) → List (K × V)
  | [] => []
  | (k, v) :: l => if some v = prev then prune prev l else (k, v) :: prune (some v) l

variable {prev : Option V}

omit [LinearOrder K] in
theorem mem_of_mem_repeats (h : k ∈ repeats prev l) : k ∈ l.map Prod.fst := by
  induction l generalizing prev with
  | nil => cases h
  | cons p l ih =>
    obtain ⟨k', v⟩ := p
    rw [repeats] at h
    rw [List.map_cons]
    split at h
    · rcases List.mem_cons.mp h with rfl | h
      · exact List.mem_cons_self
      · exact List.mem_cons_of_mem _ (ih h)
    · exact List.mem_cons_of_mem _ (ih h)

theorem filter_repeats (h : (l.map Prod.fst).Nodup) :
    (l.filter fun p => p.1 ∉ repeats prev l) = prune prev l := by
  induction l generalizing prev with
  | nil => rfl
  | cons p l ih =>
    obtain ⟨k, v⟩ := p
    obtain ⟨hk, hl⟩ := List.nodup_cons.mp h
    rw [repeats, prune]
    split
    · rw [List.filter_cons_of_neg (by simp), ← ih hl]
      refine List.filter_congr fun p hp => ?_
      have hne : p.1 ≠ k := fun heq => hk (List.mem_map.mpr ⟨p, hp, heq⟩)
      simp [hne]
    · rw [List.filter_cons_of_pos, ih hl]
      simpa using fun hmem => hk (mem_of_mem_repeats hmem)

theorem valueAt_prune (hprev : prev = none ∨ prev = some default) (h : Ascending (l ++ r)) :
    valueAt default (prune prev l ++ r) a = valueAt default (l ++ r) a := by
  induction l generalizing prev default with
  | nil => rfl
  | cons p l ih =>
    obtain ⟨k, v⟩ := p
    obtain ⟨hk, hl⟩ := List.pairwise_cons.mp h
    rw [prune, List.cons_append, valueAt]
    split
    · rename_i heq
      have hv : v = default := by
        rcases hprev with hnone | hsome
        · rw [hnone] at heq
          cases heq
        · exact Option.some.inj (heq.trans hsome)
      rw [ih hprev hl, hv]
      split
      · rename_i hlt
        exact valueAt_of_lt fun p hp => hlt.trans (hk p hp)
      · rfl
    · rw [List.cons_append, valueAt, ih (.inr rfl) hl]

omit [LinearOrder K] in
theorem prune_none_cons (p : K × V) (l : List (K × V)) : prune none (p :: l) = p :: prune (some p.2) l := rfl

omit [LinearOrder K] in
/-- What is left is canonical. -/
theorem canonical_prune (default : V) (l : List (K × V)) : Canonical default (prune (some default) l) := by
  induction l generalizing default with
  | nil => trivial
  | cons p l ih =>
    obtain ⟨k, v⟩ := p
    rw [prune]
    split
    · exact ih default
    · rename_i hne
      exact ⟨fun heq => hne (congrArg some heq.symm), ih v⟩

omit [LinearOrder K] in
/-- The value at the end is still the same. -/
theorem lastValue_prune (default : V) (l : List (K × V)) :
    lastValue default (prune (some default) l) = lastValue default l := by
  induction l generalizing default with
  | nil => rfl
  | cons p l ih =>
    obtain ⟨k, v⟩ := p
    rw [prune]
    split
    · rename_i heq
      rw [ih, lastValue_cons, Option.some.inj heq]
    · rw [lastValue_cons, lastValue_cons, ih]

/-- Without the stops in the middle that do nothing. -/
theorem filter_repeats_append {m : List (K × V)} (h : Ascending (l ++ m ++ r)) :
    ((l ++ m ++ r).filter fun p => p.1 ∉ repeats prev m) = l ++ prune prev m ++ r := by
  have hkeys : ((l ++ m ++ r).map Prod.fst).Nodup := (List.pairwise_map.mpr (h.imp fun hlt => hlt)).imp fun hlt => ne_of_lt hlt
  simp only [List.map_append, List.nodup_append] at hkeys
  obtain ⟨⟨-, hm, hlm⟩, -, hlr⟩ := hkeys
  have hl : ∀ p ∈ l, p.1 ∉ repeats prev m := fun p hp hmem =>
    hlm p.1 (List.mem_map.mpr ⟨p, hp, rfl⟩) p.1 (mem_of_mem_repeats hmem) rfl
  have hr : ∀ p ∈ r, p.1 ∉ repeats prev m := fun p hp hmem =>
    hlr p.1 (List.mem_append_right _ (mem_of_mem_repeats hmem)) p.1 (List.mem_map.mpr ⟨p, hp, rfl⟩) rfl
  rw [List.filter_append, List.filter_append, filter_repeats hm, List.filter_eq_self.mpr, List.filter_eq_self.mpr]
  · simpa using hr
  · simpa using hl

/-- Going through stops in the middle from the one in front of them. -/
theorem filter_repeats_from {m : List (K × V)} (h : Ascending (l ++ m ++ r))
    (hfirst : l = [] → ∀ p ∈ m.head?, p.2 ≠ default) :
    ((l ++ m ++ r).filter fun p => p.1 ∉ repeats none (l.getLast?.toList ++ m)) =
      l ++ prune (some (lastValue default l)) m ++ r := by
  rcases List.eq_nil_or_concat l with rfl | ⟨l', p, rfl⟩
  · have hprune := @filter_repeats_append _ _ _ [] r _ none m h
    rw [List.nil_append] at hprune
    rw [List.getLast?_nil, Option.toList_none, List.nil_append, lastValue_nil, hprune]
    cases m with
    | nil => rfl
    | cons p m =>
      obtain ⟨k, v⟩ := p
      have hne : v ≠ default := hfirst rfl (k, v) rfl
      rw [prune_none_cons, prune, if_neg (by simpa using hne)]
  · have hpiece : l'.concat p ++ m = l' ++ ([p] ++ m) := by simp
    rw [hpiece] at h ⊢
    rw [List.concat_eq_append, List.getLast?_concat, Option.toList_some, filter_repeats_append h, List.singleton_append, prune_none_cons,
      lastValue_concat]
    simp

end StepFunction
