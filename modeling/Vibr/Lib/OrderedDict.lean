import Mathlib.Data.Finset.Card
import Vibr.Lib.Dict

/-!
# Insertion-ordered dictionaries

A dictionary that keeps the order in which its keys were put in: a new value for a key
takes the place of the old one.
-/

@[ext] structure OrderedDict (α β : Type*) where
  entries : Dict α β
  nodup : (entries.map Prod.fst).Nodup

namespace OrderedDict

variable {α β : Type*} [DecidableEq α] {d : OrderedDict α β} {k a : α} {v b : β}

def empty : OrderedDict α β := ⟨[], List.nodup_nil⟩

def get? (d : OrderedDict α β) (k : α) : Option β := d.entries.get? k

def keys (d : OrderedDict α β) : Finset α := d.entries.keys

def len (d : OrderedDict α β) : Nat := d.entries.length

/-- The bindings with `v` for `k`. -/
def putEntries (entries : Dict α β) (k : α) (v : β) : Dict α β :=
  if k ∈ entries.map Prod.fst then entries.map fun p => if p.1 = k then (k, v) else p else entries ++ [(k, v)]

theorem map_fst_putEntries (entries : Dict α β) (k : α) (v : β) : (putEntries entries k v).map Prod.fst =
    if k ∈ entries.map Prod.fst then entries.map Prod.fst else entries.map Prod.fst ++ [k] := by
  unfold putEntries
  split
  · rw [List.map_map]
    refine List.map_congr_left fun p _ => ?_
    dsimp only [Function.comp_apply]
    split
    · rename_i h
      exact h.symm
    · rfl
  · simp

theorem nodup_putEntries {entries : Dict α β} (h : (entries.map Prod.fst).Nodup) (k : α) (v : β) :
    ((putEntries entries k v).map Prod.fst).Nodup := by
  rw [map_fst_putEntries]
  split
  · exact h
  · rename_i hk
    exact List.nodup_append.mpr ⟨h, List.nodup_singleton k, fun a ha b hb hab =>
      hk (List.mem_singleton.mp hb ▸ hab ▸ ha)⟩

/-- `d[k] = v`. -/
def put (d : OrderedDict α β) (k : α) (v : β) : OrderedDict α β :=
  ⟨putEntries d.entries k v, nodup_putEntries d.nodup k v⟩

omit [DecidableEq α] in
theorem nodup_restrict (d : OrderedDict α β) (p : α → Bool) : ((d.entries.restrict p).map Prod.fst).Nodup :=
  d.nodup.sublist (List.filter_sublist.map Prod.fst)

/-- `d.pop(k, None)`. -/
def erase (d : OrderedDict α β) (k : α) : OrderedDict α β :=
  ⟨d.entries.restrict (· ≠ k), d.nodup_restrict _⟩

/-- The same keys with other values. -/
def mapValues {γ : Type*} (f : β → γ) (d : OrderedDict α β) : OrderedDict α γ :=
  ⟨d.entries.map fun p => (p.1, f p.2), by
    rw [List.map_map]
    exact d.nodup⟩

@[simp] theorem get?_empty : (empty : OrderedDict α β).get? k = none := rfl

theorem get?_isSome : (d.get? k).isSome ↔ k ∈ d.keys := Dict.get?_isSome

theorem get?_eq_none : d.get? k = none ↔ k ∉ d.keys := Dict.get?_eq_none

theorem mem_keys_of_get? (h : d.get? k = some v) : k ∈ d.keys := by
  rw [← get?_isSome, h]
  rfl

theorem get?_replace (entries : Dict α β) :
    Dict.get? (entries.map fun p => if p.1 = k then (k, v) else p) a =
      if k = a then (Dict.get? entries a).map fun _ => v else Dict.get? entries a := by
  induction entries with
  | nil => simp
  | cons p entries ih =>
    obtain ⟨x, y⟩ := p
    by_cases hx : x = k
    · by_cases ha : k = a
      · simp [hx, ha]
      · rw [if_neg ha] at ih
        simp [hx, ha, ih]
    by_cases ha : k = a
    · subst ha
      rw [if_pos rfl] at ih
      simp [hx, ih]
    · rw [if_neg ha] at ih
      simp [hx, ha, ih]

@[simp] theorem get?_put : (d.put k v).get? a = if k = a then some v else d.get? a := by
  change Dict.get? (putEntries d.entries k v) a = if k = a then some v else Dict.get? d.entries a
  unfold putEntries
  split
  · rename_i hk
    rw [get?_replace]
    by_cases ha : k = a
    · subst ha
      have hsome : (Dict.get? d.entries k).isSome := by
        rw [Dict.get?_isSome, Dict.keys, List.mem_toFinset]
        exact hk
      obtain ⟨w, hw⟩ := Option.isSome_iff_exists.mp hsome
      simp [hw]
    · rw [if_neg ha, if_neg ha]
  · rename_i hk
    have hnone : Dict.get? d.entries k = none := by
      rw [Dict.get?_eq_none, Dict.keys, List.mem_toFinset]
      exact hk
    rw [Dict.get?_append]
    by_cases ha : k = a
    · subst ha
      simp [hnone]
    · simp [ha]

@[simp] theorem get?_erase : (d.erase k).get? a = if a = k then none else d.get? a := by
  change Dict.get? (d.entries.restrict (· ≠ k)) a = _
  rw [Dict.get?_restrict]
  by_cases ha : a = k
  · simp [ha]
  · simp [ha, get?]

theorem get?_mapValues {γ : Type*} (f : β → γ) : (d.mapValues f).get? k = (d.get? k).map f := by
  change Dict.get? (d.entries.map fun p => (p.1, f p.2)) k = (Dict.get? d.entries k).map f
  induction d.entries with
  | nil => rfl
  | cons p entries ih =>
    obtain ⟨x, y⟩ := p
    rw [List.map_cons, Dict.get?_cons, Dict.get?_cons, ih]
    split <;> rfl

@[simp] theorem keys_mapValues {γ : Type*} (f : β → γ) : (d.mapValues f).keys = d.keys := by
  ext k
  rw [← get?_isSome, ← get?_isSome, get?_mapValues, Option.isSome_map]

theorem keys_card : d.keys.card = d.len := by
  rw [keys, Dict.keys, List.toFinset_card_of_nodup d.nodup, List.length_map, len]

theorem mem_keys_put : a ∈ (d.put k v).keys ↔ a = k ∨ a ∈ d.keys := by
  rw [← get?_isSome, ← get?_isSome, get?_put]
  by_cases ha : k = a
  · simp [ha]
  · simp [ha, Ne.symm ha]

theorem mem_keys_erase : a ∈ (d.erase k).keys ↔ a ≠ k ∧ a ∈ d.keys := by
  rw [← get?_isSome, ← get?_isSome, get?_erase]
  by_cases ha : a = k
  · simp [ha]
  · simp [ha]

theorem len_erase (h : k ∈ d.keys) : (d.erase k).len = d.len - 1 := by
  have hkeys : (d.erase k).keys = d.keys.erase k := by
    ext a
    rw [mem_keys_erase, Finset.mem_erase]
  rw [← keys_card, hkeys, Finset.card_erase_of_mem h, keys_card]

theorem len_pos (h : k ∈ d.keys) : 0 < d.len := by
  rw [← keys_card]
  exact Finset.card_pos.mpr ⟨k, h⟩

theorem len_erase_le : (d.erase k).len ≤ d.len := List.length_filter_le _ _

/-- A dictionary that is put together again in its order. -/
theorem foldl_put : d.entries.foldl (fun (e : OrderedDict α β) p => e.put p.1 p.2) empty = d := by
  have hfold : ∀ (rest : Dict α β) (e : OrderedDict α β), ((e.entries ++ rest).map Prod.fst).Nodup →
      (rest.foldl (fun (e : OrderedDict α β) p => e.put p.1 p.2) e).entries = e.entries ++ rest := by
    intro rest
    induction rest with
    | nil => simp
    | cons p rest ih =>
      intro e hnodup
      have hnew : p.1 ∉ e.entries.map Prod.fst := by
        rw [List.map_append, List.nodup_append] at hnodup
        exact fun hmem => hnodup.2.2 p.1 hmem p.1 List.mem_cons_self rfl
      have hput : (e.put p.1 p.2).entries = e.entries ++ [p] := if_neg hnew
      rw [List.foldl_cons, ih, hput, List.append_assoc]
      · rfl
      · rw [hput, List.append_assoc]
        exact hnodup
  refine OrderedDict.ext ?_
  rw [hfold d.entries empty (by simpa [empty] using d.nodup)]
  rfl

end OrderedDict
