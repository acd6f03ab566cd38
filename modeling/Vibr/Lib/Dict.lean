import Mathlib.Data.Finset.Basic

/-!
# Dictionaries

A dictionary is a list of key/value pairs, read from the front: a later binding
of a key hides the earlier ones behind it.
-/

abbrev Dict (α β : Type*) := List (α × β)

namespace Dict

variable {α β : Type*} [DecidableEq α]

def get? (d : Dict α β) (k : α) : Option β :=
  (d.find? (fun p => p.1 = k)).map Prod.snd

def keys (d : Dict α β) : Finset α :=
  (d.map Prod.fst).toFinset

/-- Keep the bindings whose key satisfies `p`. -/
def restrict (d : Dict α β) (p : α → Bool) : Dict α β :=
  d.filter (fun b => p b.1)

def set (d : Dict α β) (k : α) (v : β) : Dict α β :=
  (k, v) :: restrict d (fun x => x ≠ k)

/-- Overriding union: the bindings of `e` win over those of `d`. -/
def update (d e : Dict α β) : Dict α β :=
  e ++ restrict d (fun k => k ∉ keys e)

variable {d : Dict α β}

@[simp] theorem get?_nil (k : α) : get? ([] : Dict α β) k = none := rfl

@[simp] theorem get?_cons (a : α) (b : β) (d : Dict α β) (k : α) :
    get? ((a, b) :: d) k = if a = k then some b else get? d k := by
  by_cases h : a = k <;> simp [get?, h]

theorem mem_keys {k : α} : k ∈ keys d ↔ ∃ v, (k, v) ∈ d := by
  simp [keys]

theorem get?_isSome {k : α} : (get? d k).isSome ↔ k ∈ keys d := by
  induction d with
  | nil => simp [keys]
  | cons p d ih =>
    obtain ⟨a, b⟩ := p
    by_cases h : a = k
    · simp [h, keys]
    · simp only [get?_cons, h, if_false, ih]
      simp [keys, Ne.symm h]

theorem get?_eq_none {k : α} : get? d k = none ↔ k ∉ keys d := by
  rw [← get?_isSome, Option.not_isSome_iff_eq_none]

theorem mem_of_get?_eq_some {k : α} {v : β} (h : get? d k = some v) : (k, v) ∈ d := by
  induction d with
  | nil => simp at h
  | cons p d ih =>
    obtain ⟨a, b⟩ := p
    rw [get?_cons] at h
    split at h
    · rename_i hk; cases h; simp [hk]
    · exact List.mem_cons_of_mem _ (ih h)

theorem get?_restrict (d : Dict α β) (p : α → Bool) (k : α) :
    get? (restrict d p) k = if p k then get? d k else none := by
  induction d with
  | nil => simp [restrict]
  | cons q d ih =>
    obtain ⟨a, b⟩ := q
    unfold restrict at ih ⊢
    by_cases hp : p a
    · rw [List.filter_cons_of_pos (by simpa using hp), get?_cons, get?_cons, ih]
      by_cases h : a = k
      · subst h; simp [hp]
      · simp [h]
    rw [List.filter_cons_of_neg (by simpa using hp), get?_cons, ih]
    by_cases h : a = k
    · subst h; simp [hp]
    · simp [h]

theorem keys_restrict (d : Dict α β) (p : α → Bool) :
    keys (restrict d p) = (keys d).filter (fun k => p k) := by
  ext k
  simp only [mem_keys, restrict, List.mem_filter, Finset.mem_filter]
  exact ⟨fun ⟨v, hv, hp⟩ => ⟨⟨v, hv⟩, hp⟩, fun ⟨⟨v, hv⟩, hp⟩ => ⟨v, hv, hp⟩⟩

@[simp] theorem get?_set (d : Dict α β) (a : α) (b : β) (k : α) :
    get? (set d a b) k = if a = k then some b else get? d k := by
  rw [set, get?_cons, get?_restrict]
  by_cases h : a = k
  · simp [h]
  · simp [h, Ne.symm h]

theorem set_set (d : Dict α β) (a : α) (b b' : β) : set (set d a b) a b' = set d a b' := by
  simp [set, restrict, List.filter_filter]

theorem keys_set (d : Dict α β) (k : α) (v : β) : keys (set d k v) = insert k (keys d) := by
  ext a
  rw [← get?_isSome, get?_set, Finset.mem_insert, ← get?_isSome]
  split
  · rename_i heq
    simp [heq]
  · rename_i hne
    simp [Ne.symm hne]

theorem mem_set {k : α} {v : β} {p : α × β} (h : p ∈ set d k v) : p = (k, v) ∨ p ∈ d :=
  (List.mem_cons.mp h).imp_right fun h => (List.mem_filter.mp h).1

theorem get?_map_mk (f : α → β) (l : List α) (k : α) :
    get? (l.map fun a => (a, f a)) k = if k ∈ l then some (f k) else none := by
  induction l with
  | nil => rfl
  | cons a l ih =>
    rw [List.map_cons, get?_cons, ih]
    by_cases hk : a = k
    · simp [hk]
    · simp [hk, Ne.symm hk]

/-- No binding hides another one. -/
def Faithful (d : Dict α β) : Prop := ∀ b ∈ d, get? d b.1 = some b.2

theorem faithful_nil : Faithful ([] : Dict α β) := by simp [Faithful]

theorem Faithful.set (h : Faithful d) (k : α) (v : β) : Faithful (set d k v) := by
  intro b hb
  rw [get?_set]
  rcases List.mem_cons.mp hb with rfl | hb
  · simp
  · obtain ⟨hmem, hne⟩ := List.mem_filter.mp hb
    rw [if_neg (by simpa using Ne.symm (of_decide_eq_true hne))]
    exact h b hmem

theorem get?_append (e d : Dict α β) (k : α) :
    get? (e ++ d) k = (get? e k).or (get? d k) := by
  induction e with
  | nil => simp
  | cons p e ih =>
    obtain ⟨a, b⟩ := p
    rw [List.cons_append, get?_cons, get?_cons, ih]
    split <;> simp

theorem get?_update (d e : Dict α β) (k : α) :
    get? (update d e) k = (get? e k).or (get? d k) := by
  rw [update, get?_append, get?_restrict]
  cases he : get? e k with
  | some v => simp
  | none =>
    have hk : k ∉ keys e := get?_eq_none.mp he
    simp [hk]

end Dict
