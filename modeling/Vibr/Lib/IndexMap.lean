import Mathlib.Data.List.Sort
import Mathlib.Data.List.Perm.Subperm

/-!
# Index maps

A map from keys to values that is read in the order in which the keys were inserted. No key occurs twice. As the
keys are an index of the type, a map can hold values of a type that is defined along with it.
-/

inductive IndexMap (K V : Type) : List K → Type where
  | nil : IndexMap K V []
  | cons {ks : List K} (k : K) (v : V) (rest : IndexMap K V ks) (fresh : k ∉ ks) : IndexMap K V (k :: ks)

namespace IndexMap

variable {K V : Type} {ks ks' : List K} {m : IndexMap K V ks} {m' : IndexMap K V ks'} {k : K} {v : V}

/-- The bindings in the order of insertion. -/
def iter {ks : List K} : IndexMap K V ks → List (K × V)
  | .nil => []
  | .cons k v rest _ => (k, v) :: rest.iter

def len (_ : IndexMap K V ks) : Nat := ks.length

theorem iter_keys (m : IndexMap K V ks) : m.iter.map Prod.fst = ks := by
  induction m with
  | nil => rfl
  | cons k v rest fresh ih => exact congrArg (k :: ·) ih

theorem iter_length (m : IndexMap K V ks) : m.iter.length = m.len := by
  have h := congrArg List.length m.iter_keys
  rwa [List.length_map] at h

theorem nodup (m : IndexMap K V ks) : ks.Nodup := by
  induction m with
  | nil => exact List.nodup_nil
  | cons k v rest fresh ih => exact List.nodup_cons.mpr ⟨fresh, ih⟩

section Lookup

variable [DecidableEq K]

def get {ks : List K} (k : K) : IndexMap K V ks → Option V
  | .nil => none
  | .cons k' v rest _ => if k = k' then some v else rest.get k

theorem get_eq_some_iff (m : IndexMap K V ks) : m.get k = some v ↔ (k, v) ∈ m.iter := by
  induction m with
  | nil => exact iff_of_false nofun nofun
  | @cons ks k' v' rest fresh ih =>
    unfold get iter
    rw [List.mem_cons, Prod.mk.injEq]
    split
    · next heq =>
        have hrest : (k, v) ∉ rest.iter := fun h =>
          fresh (heq ▸ rest.iter_keys ▸ List.mem_map_of_mem (f := Prod.fst) h)
        simp only [Option.some.injEq, heq, true_and]
        exact ⟨fun h => .inl h.symm, fun h => (h.resolve_right (heq ▸ hrest)).symm⟩
    · next hne => simp only [ih, hne, false_and, false_or]

/-- `==`: as many bindings, and those of the first map are bindings of the second one. -/
def beq [DecidableEq V] (m : IndexMap K V ks) (m' : IndexMap K V ks') : Bool :=
  m.len = m'.len && m.iter.all fun p => m'.get p.1 = some p.2

end Lookup

/-! ## Maps in the order of their keys -/

section Sorted

variable [LinearOrder K]

/-- The bindings in the order of the keys. -/
def sorted (m : IndexMap K V ks) : List (K × V) := m.iter.insertionSort fun p q => p.1 ≤ q.1

theorem mem_sorted {p : K × V} : p ∈ m.sorted ↔ p ∈ m.iter := List.mem_insertionSort _

theorem sorted_keys (m : IndexMap K V ks) : m.sorted.map Prod.fst = ks.insertionSort (· ≤ ·) := by
  unfold sorted
  rw [List.map_insertionSort _ (· ≤ ·) Prod.fst _ (fun _ _ _ _ => Iff.rfl), iter_keys]

theorem sorted_nodup (m : IndexMap K V ks) : (m.sorted.map Prod.fst).Nodup := by
  rw [sorted_keys]
  exact (List.perm_insertionSort _ ks).nodup_iff.mpr m.nodup

theorem insertionSort_eq_of_perm (h : ks.Perm ks') : ks.insertionSort (· ≤ ·) = ks'.insertionSort (· ≤ ·) :=
  List.Perm.eq_of_pairwise' (List.pairwise_insertionSort _ _) (List.pairwise_insertionSort _ _)
    (((List.perm_insertionSort _ ks).trans h).trans (List.perm_insertionSort _ ks').symm)

variable {r : V → V → Prop}

omit [LinearOrder K] in
/-- Bindings with the same keys in the same order, those of the one related to those of the other. -/
theorem forall₂_of_keys :
    ∀ {l l' : List (K × V)}, l.map Prod.fst = l'.map Prod.fst → (l'.map Prod.fst).Nodup →
      (∀ p ∈ l, ∃ v, (p.1, v) ∈ l' ∧ r p.2 v) → List.Forall₂ r (l.map Prod.snd) (l'.map Prod.snd)
  | [], [], _, _, _ => .nil
  | p :: l, q :: l', hkeys, hnodup, h => by
    obtain ⟨hkey, hkeys⟩ := List.cons_eq_cons.mp hkeys
    obtain ⟨hfresh, hnodup⟩ := List.nodup_cons.mp hnodup
    obtain ⟨v, hv, hr⟩ := h p List.mem_cons_self
    have hq : (p.1, v) = q := by
      refine (List.mem_cons.mp hv).resolve_right fun hmem => hfresh ?_
      have hfst := List.mem_map_of_mem (f := Prod.fst) hmem
      rwa [hkey] at hfst
    refine .cons (hq ▸ hr) (forall₂_of_keys hkeys hnodup fun p' hp' => ?_)
    obtain ⟨v', hv', hr'⟩ := h p' (List.mem_cons_of_mem p hp')
    refine ⟨v', (List.mem_cons.mp hv').resolve_left fun heq => hfresh ?_, hr'⟩
    have hfst : p'.1 ∈ l'.map Prod.fst := hkeys ▸ List.mem_map_of_mem hp'
    rwa [← congrArg Prod.fst heq]

omit [LinearOrder K] in
theorem keys_of_forall₂ :
    ∀ {l l' : List (K × V)}, l.map Prod.fst = l'.map Prod.fst → List.Forall₂ r (l.map Prod.snd) (l'.map Prod.snd) →
      ∀ p ∈ l, ∃ v, (p.1, v) ∈ l' ∧ r p.2 v
  | [], [], _, _, _, hp => nomatch hp
  | p :: l, q :: l', hkeys, h, p', hp' => by
    obtain ⟨hkey, hkeys⟩ := List.cons_eq_cons.mp hkeys
    obtain ⟨hr, h⟩ := List.forall₂_cons.mp h
    obtain rfl | hmem := List.mem_cons.mp hp'
    · exact ⟨q.2, hkey ▸ List.mem_cons_self, hr⟩
    · obtain ⟨v, hv, hr'⟩ := keys_of_forall₂ hkeys h p' hmem
      exact ⟨v, List.mem_cons_of_mem q hv, hr'⟩

/-- As many bindings, and one in the other map for each one of this map: the bindings in the order of their
keys go together. -/
theorem all_get_iff : (m.len = m'.len ∧ ∀ p ∈ m.iter, ∃ v, m'.get p.1 = some v ∧ r p.2 v) ↔
    m.sorted.map Prod.fst = m'.sorted.map Prod.fst ∧ List.Forall₂ r (m.sorted.map Prod.snd) (m'.sorted.map Prod.snd) := by
  simp only [get_eq_some_iff, ← mem_sorted]
  constructor
  · rintro ⟨hlen, h⟩
    have hsubset : ks ⊆ ks' := by
      intro k hk
      rw [← m.iter_keys] at hk
      obtain ⟨p, hp, rfl⟩ := List.mem_map.mp hk
      obtain ⟨v, hv, _⟩ := h p (mem_sorted.mpr hp)
      have := List.mem_map_of_mem (f := Prod.fst) (mem_sorted.mp hv)
      rwa [iter_keys] at this
    have hperm := (m.nodup.subperm hsubset).perm_of_length_le (Nat.le_of_eq hlen.symm)
    have hkeys : m.sorted.map Prod.fst = m'.sorted.map Prod.fst := by
      rw [sorted_keys, sorted_keys, insertionSort_eq_of_perm hperm]
    exact ⟨hkeys, forall₂_of_keys hkeys m'.sorted_nodup h⟩
  · rintro ⟨hkeys, h⟩
    refine ⟨?_, keys_of_forall₂ hkeys h⟩
    have hlength := congrArg List.length hkeys
    rwa [sorted_keys, sorted_keys, List.length_insertionSort, List.length_insertionSort] at hlength

theorem beq_iff [DecidableEq V] : m.beq m' = true ↔ m.sorted = m'.sorted := by
  have h := @all_get_iff _ _ _ _ m m' _ (· = ·)
  unfold beq
  simp only [Bool.and_eq_true, decide_eq_true_eq, List.all_eq_true]
  simp only [exists_eq_right', List.forall₂_eq_eq_eq] at h
  rw [h]
  constructor
  · rintro ⟨hkeys, hvalues⟩
    rw [← List.zip_unzip m.sorted, ← List.zip_unzip m'.sorted, List.unzip_fst, List.unzip_snd, List.unzip_fst,
      List.unzip_snd, hkeys, hvalues]
  · rintro heq
    rw [heq]
    exact ⟨rfl, rfl⟩

/-- Where the keys are in the same order, it does not matter in which order the bindings are compared. -/
theorem forall₂_sorted_iff {m m' : IndexMap K V ks} :
    List.Forall₂ r (m.iter.map Prod.snd) (m'.iter.map Prod.snd) ↔
      List.Forall₂ r (m.sorted.map Prod.snd) (m'.sorted.map Prod.snd) := by
  have hkeys : m.iter.map Prod.fst = m'.iter.map Prod.fst := by rw [iter_keys, iter_keys]
  have hsorted : m.sorted.map Prod.fst = m'.sorted.map Prod.fst := by rw [sorted_keys, sorted_keys]
  constructor
  · intro h
    refine forall₂_of_keys hsorted m'.sorted_nodup fun p hp => ?_
    obtain ⟨v, hv, hr⟩ := keys_of_forall₂ hkeys h p (mem_sorted.mp hp)
    exact ⟨v, mem_sorted.mpr hv, hr⟩
  intro h
  refine forall₂_of_keys hkeys (m'.iter_keys.symm ▸ m'.nodup) fun p hp => ?_
  obtain ⟨v, hv, hr⟩ := keys_of_forall₂ hsorted h p (mem_sorted.mpr hp)
  exact ⟨v, mem_sorted.mp hv, hr⟩

end Sorted

end IndexMap
