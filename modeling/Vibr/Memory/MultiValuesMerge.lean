import Vibr.Memory.MultiValuesRuns

/-!
# Merging

`merge` joins the sets of values that are at the same offset. Every byte gets the values that
it has in one of the two. The ranges stay apart if the two are cut at the same offsets,
wherever they overlap.
-/

namespace Angr

open Claripy

namespace MultiValues

/-- The dictionary that `items`, `keys` and `__getitem__` show. -/
def entries (mv : MultiValues) : Table :=
  match mv.singleValue with
  | some single => ⟨[(0, {single})], mv.varCounter⟩
  | none => ⟨mv.values.getD [], mv.varCounter⟩

/-- `items`. The order in which the offsets were inserted is a parameter. -/
def items (O : Enumeration Nat) (mv : MultiValues) : List (Nat × Finset Val) :=
  (O.list mv.entries.values.keys).map fun k => (k, mv.entries.get k)

/-- `MultiValues(offset_to_values=values)`: one value at offset zero is kept as such. -/
def ofValues (E : Enumeration Val) (t : Table) : MultiValues :=
  match E.list (t.get 0) with
  | [single] =>
    if t.values.keys = {0} then ⟨some single, none, t.varCounter⟩
    else ⟨none, some t.values, t.varCounter⟩
  | _ => ⟨none, some t.values, t.varCounter⟩

/-- The loop of `merge`. -/
def mergeInto (newValues : Table) (items : List (Nat × Finset Val)) : Table :=
  items.foldl (fun newValues item =>
    if item.1 ∉ newValues.values.keys then newValues.set item.1 item.2
    else newValues.set item.1 (newValues.get item.1 ∪ item.2)) newValues

def merge (E : Enumeration Val) (O O' : Enumeration Nat) (self mv : MultiValues) : MultiValues :=
  ofValues E (mergeInto ⟨self.items O, max self.varCounter mv.varCounter⟩ (mv.items O'))

/-- The values of a nonempty set have `n` bytes each, or none. -/
structure OneSize (vs : Finset Val) (n : Nat) : Prop where
  nonempty : vs.Nonempty
  ofBytes : ∀ v ∈ vs, v.OfBytes n

theorem OneSize.unique {vs : Finset Val} {n m : Nat} (h : OneSize vs n) {v : Val} (hv : v ∈ vs)
    (h' : v.OfBytes m) : n = m :=
  (h.ofBytes v hv).unique h'

theorem OneSize.union {vs ws : Finset Val} {n : Nat} (h : OneSize vs n) (h' : OneSize ws n) :
    OneSize (vs ∪ ws) n where
  nonempty := h.nonempty.mono Finset.subset_union_left
  ofBytes v hv := (Finset.mem_union.mp hv).elim (h.ofBytes v) (h'.ofBytes v)

/-- The values at an offset have one size, and no range reaches the next offset. -/
structure Apart (t : Table) : Prop where
  sized : ∀ k ∈ t.values.keys, ∃ n, OneSize (t.get k) n
  apart : ∀ k n k', OneSize (t.get k) n → k' ∈ t.values.keys → k < k' → k + n ≤ k'

/-- At an offset of both, the values have one size, and no range of one reaches over an
offset of the other. -/
def SameCuts (t t' : Table) : Prop :=
  ∀ k n k' m, OneSize (t.get k) n → OneSize (t'.get k') m →
    (k = k' → n = m) ∧ (k < k' → k + n ≤ k') ∧ (k' < k → k' + m ≤ k)

variable {E : Enumeration Val} {O O' : Enumeration Nat} {self mv : MultiValues} {t t' u : Table} {k n : Nat}
  {v : Val} {ρ : Assignment} {p : Nat}

/-! ## Dictionaries -/

theorem WF.toApart (h : WF t) : Apart t where
  sized k hk := by
    obtain ⟨n, hn⟩ := h.sized k hk
    exact ⟨n, hn.nonempty, hn.ofBytes⟩
  apart k n k' hn hk' hlt := by
    obtain ⟨m, hm⟩ := h.sized k (Table.mem_keys_of_nonempty hn.nonempty)
    obtain ⟨v, hv⟩ := hn.nonempty
    have hsame := hn.unique hv (hm.ofBytes v hv)
    exact h.apart k n k' (hsame ▸ hm) hk' hlt

/-- The range that a value belongs to. -/
theorem Apart.sized_of_mem (h : Apart t) (hv : v ∈ t.get k) (hn : v.OfBytes n) :
    OneSize (t.get k) n ∧ k ∈ t.values.keys := by
  have hk := Table.mem_keys_of_nonempty ⟨v, hv⟩
  obtain ⟨m, hm⟩ := h.sized k hk
  have hsame := hm.unique hv hn
  exact ⟨hsame ▸ hm, hk⟩

/-- Same offsets, same values. -/
def Same (t t' : Table) : Prop := (∀ k, t.get k = t'.get k) ∧ t.values.keys = t'.values.keys

theorem items_same (O : Enumeration Nat) (c : Nat) (mv : MultiValues) :
    Same ⟨mv.items O, c⟩ mv.entries := by
  have hget : ∀ k, Table.get ⟨mv.items O, c⟩ k = mv.entries.get k := by
    intro k
    rw [Table.get, items, Dict.get?_map_mk]
    simp only [O.mem_list]
    split
    · rfl
    · rename_i hk
      rw [Table.get_of_not_mem hk]
      rfl
  refine ⟨hget, ?_⟩
  ext k
  rw [Dict.mem_keys]
  simp [items, O.mem_list]

theorem ofValues_same (E : Enumeration Val) (t : Table) : Same (ofValues E t).entries t := by
  unfold ofValues
  split
  · rename_i single hlist
    split
    · rename_i hkeys
      have hzero : t.get 0 = {single} := by
        ext v
        rw [← E.mem_list, hlist, List.mem_singleton, Finset.mem_singleton]
      refine ⟨fun k => ?_, hkeys.symm⟩
      rw [Table.get, entries, Dict.get?_cons]
      split
      · rename_i hk
        rw [← hk, hzero]
        rfl
      · rename_i hk
        rw [Table.get_of_not_mem (by rw [hkeys, Finset.mem_singleton]; exact Ne.symm hk)]
        rfl
    · exact ⟨fun _ => rfl, rfl⟩
  · exact ⟨fun _ => rfl, rfl⟩

/-! ## The merged dictionary -/

/-- The loop adds to every offset the values that are there in the items. -/
theorem mergeInto_spec (items : List (Nat × Finset Val)) (t : Table) :
    (∀ k v, v ∈ (mergeInto t items).get k ↔ v ∈ t.get k ∨ ∃ vs, (k, vs) ∈ items ∧ v ∈ vs) ∧
      ∀ k, k ∈ (mergeInto t items).values.keys ↔ k ∈ t.values.keys ∨ ∃ vs, (k, vs) ∈ items := by
  induction items generalizing t with
  | nil => simp [mergeInto]
  | cons item items ih =>
    have hstep : (if item.1 ∉ t.values.keys then t.set item.1 item.2
        else t.set item.1 (t.get item.1 ∪ item.2)) = t.set item.1 (t.get item.1 ∪ item.2) := by
      split
      · rename_i hnew
        rw [Table.get_of_not_mem hnew, Finset.empty_union]
      · rfl
    have hcons : mergeInto t (item :: items) = mergeInto (t.set item.1 (t.get item.1 ∪ item.2)) items := by
      rw [mergeInto, List.foldl_cons, hstep]
      rfl
    obtain ⟨hmem, hkeys⟩ := ih (t.set item.1 (t.get item.1 ∪ item.2))
    obtain ⟨off, vs⟩ := item
    rw [hcons]
    refine ⟨fun k v => ?_, fun k => ?_⟩
    · rw [hmem, Table.get_set]
      by_cases hk : k = off
      · subst hk
        simp [or_assoc, or_and_right, exists_or]
      · simp [hk]
    rw [hkeys, Table.mem_keys_set]
    simp only [List.mem_cons, Prod.mk.injEq, exists_or, exists_and_left, exists_eq, and_true]
    exact ⟨fun h => h.elim (fun h => h.elim (fun h => .inr (.inl h)) .inl) fun h => .inr (.inr h),
      fun h => h.elim (fun h => .inl (.inr h)) fun h => h.elim (fun h => .inl (.inl h)) .inr⟩

/-- Every offset has the values that it has in one of the two. -/
theorem merge_entries (E : Enumeration Val) (O O' : Enumeration Nat) (self mv : MultiValues) :
    (∀ k, (merge E O O' self mv).entries.get k = self.entries.get k ∪ mv.entries.get k) ∧
      (merge E O O' self mv).entries.values.keys = self.entries.values.keys ∪ mv.entries.values.keys := by
  obtain ⟨hget, hkeys⟩ := ofValues_same E
    (mergeInto ⟨self.items O, max self.varCounter mv.varCounter⟩ (mv.items O'))
  obtain ⟨hmem, hmemkeys⟩ := mergeInto_spec (mv.items O') ⟨self.items O, max self.varCounter mv.varCounter⟩
  obtain ⟨hself, hselfkeys⟩ := items_same O (max self.varCounter mv.varCounter) self
  have hitem : ∀ k vs, (k, vs) ∈ mv.items O' ↔ k ∈ mv.entries.values.keys ∧ mv.entries.get k = vs := by
    intro k vs
    simp only [items, List.mem_map, O'.mem_list, Prod.mk.injEq]
    constructor
    · rintro ⟨a, ha, rfl, rfl⟩
      exact ⟨ha, rfl⟩
    · rintro ⟨hk, rfl⟩
      exact ⟨k, hk, rfl, rfl⟩
  constructor
  · intro k
    ext v
    rw [merge, hget, hmem, hself, Finset.mem_union]
    refine or_congr_right ?_
    constructor
    · rintro ⟨vs, hvs, hv⟩
      rw [((hitem k vs).mp hvs).2]
      exact hv
    · intro hv
      exact ⟨_, (hitem k _).mpr ⟨Table.mem_keys_of_nonempty ⟨v, hv⟩, rfl⟩, hv⟩
  · ext k
    rw [merge, hkeys, hmemkeys, hselfkeys, Finset.mem_union]
    refine or_congr_right ?_
    constructor
    · rintro ⟨vs, hvs⟩
      exact ((hitem k vs).mp hvs).1
    · intro hk
      exact ⟨_, (hitem k _).mpr ⟨hk, rfl⟩⟩

/-- The values of a byte are those from both. -/
theorem possible_union (h : ∀ k, u.get k = t.get k ∪ t'.get k) :
    possible u ρ p = possible t ρ p ∪ possible t' ρ p := by
  ext x
  constructor
  · rintro ⟨k, v, hv, hx⟩
    rw [h, Finset.mem_union] at hv
    exact hv.imp (fun hv => ⟨k, v, hv, hx⟩) fun hv => ⟨k, v, hv, hx⟩
  · rintro (⟨k, v, hv, hx⟩ | ⟨k, v, hv, hx⟩)
    · exact ⟨k, v, by rw [h]; exact Finset.mem_union_left _ hv, hx⟩
    · exact ⟨k, v, by rw [h]; exact Finset.mem_union_right _ hv, hx⟩

/-- The ranges of the union are apart if and only if the two have the same cuts. -/
theorem apart_union_iff (ht : Apart t) (ht' : Apart t') (hget : ∀ k, u.get k = t.get k ∪ t'.get k)
    (hkeys : u.values.keys = t.values.keys ∪ t'.values.keys) : Apart u ↔ SameCuts t t' := by
  have hleft : ∀ k v, v ∈ t.get k → v ∈ u.get k := fun k v hv => by rw [hget]; exact Finset.mem_union_left _ hv
  have hright : ∀ k v, v ∈ t'.get k → v ∈ u.get k := fun k v hv => by rw [hget]; exact Finset.mem_union_right _ hv
  have hkey : ∀ k, k ∈ u.values.keys ↔ k ∈ t.values.keys ∨ k ∈ t'.values.keys := by
    intro k
    rw [hkeys, Finset.mem_union]
  constructor
  · intro h k n k' m hn hm
    obtain ⟨v, hv⟩ := hn.nonempty
    obtain ⟨w, hw⟩ := hm.nonempty
    obtain ⟨hk, hkmem⟩ := h.sized_of_mem (hleft k v hv) (hn.ofBytes v hv)
    obtain ⟨hk', hkmem'⟩ := h.sized_of_mem (hright k' w hw) (hm.ofBytes w hw)
    refine ⟨?_, h.apart k n k' hk hkmem', h.apart k' m k hk' hkmem⟩
    rintro rfl
    exact hk.unique (hright k w hw) (hm.ofBytes w hw)
  intro h
  refine ⟨fun k hk => ?_, fun k n k' hn hk' hlt => ?_⟩
  · rw [hget]
    by_cases hmem : k ∈ t.values.keys
    · obtain ⟨n, hn⟩ := ht.sized k hmem
      by_cases hmem' : k ∈ t'.values.keys
      · obtain ⟨m, hm⟩ := ht'.sized k hmem'
        obtain rfl := (h k n k m hn hm).1 rfl
        exact ⟨n, hn.union hm⟩
      · rw [Table.get_of_not_mem hmem', Finset.union_empty]
        exact ⟨n, hn⟩
    · rw [Table.get_of_not_mem hmem, Finset.empty_union]
      exact ht'.sized k (((hkey k).mp hk).resolve_left hmem)
  · obtain ⟨v, hv⟩ := hn.nonempty
    have hof := hn.ofBytes v hv
    rw [hget, Finset.mem_union] at hv
    rcases hv with hv | hv
    · obtain ⟨hsized, -⟩ := ht.sized_of_mem hv hof
      rcases (hkey k').mp hk' with hmem | hmem
      · exact ht.apart k n k' hsized hmem hlt
      · obtain ⟨m, hm⟩ := ht'.sized k' hmem
        exact (h k n k' m hsized hm).2.1 hlt
    obtain ⟨hsized, -⟩ := ht'.sized_of_mem hv hof
    rcases (hkey k').mp hk' with hmem | hmem
    · obtain ⟨m, hm⟩ := ht.sized k' hmem
      exact (h k' m k n hm hsized).2.2 hlt
    · exact ht'.apart k n k' hsized hmem hlt

/-- `merge` gives every byte the values of both. The ranges are apart, with values of one size,
if and only if the two have the same cuts. -/
theorem merge_unions_iff (E : Enumeration Val) (O O' : Enumeration Nat) (hself : Apart self.entries)
    (hmv : Apart mv.entries) :
    (Apart (merge E O O' self mv).entries ∧ ∀ ρ p,
      possible (merge E O O' self mv).entries ρ p = possible self.entries ρ p ∪ possible mv.entries ρ p) ↔
      SameCuts self.entries mv.entries := by
  obtain ⟨hget, hkeys⟩ := merge_entries E O O' self mv
  rw [apart_union_iff hself hmv hget hkeys, and_iff_left]
  exact fun ρ p => possible_union hget

/-- A dictionary with one offset. -/
theorem apart_one {vs : Finset Val} (o c : Nat) (h : OneSize vs n) : Apart ⟨[(o, vs)], c⟩ where
  sized k hk := by
    obtain rfl : k = o := Finset.mem_singleton.mp hk
    exact ⟨n, by simpa [Table.get] using h⟩
  apart k m k' hm hk' hlt := by
    have hk : k = o := Finset.mem_singleton.mp (Table.mem_keys_of_nonempty hm.nonempty)
    have hk' : k' = o := Finset.mem_singleton.mp hk'
    omega

theorem oneSize_singleton (hv : v.OfBytes n) : OneSize {v} n :=
  ⟨Finset.singleton_nonempty v, fun u hu => by rwa [Finset.mem_singleton.mp hu]⟩

/-- Where a dictionary with one offset has values. -/
theorem eq_of_oneSize_get {o c : Nat} (h : OneSize (Table.get ⟨[(o, {v})], c⟩ k) n) : k = o ∧ v.OfBytes n := by
  have hk : k = o := Finset.mem_singleton.mp (Table.mem_keys_of_nonempty h.nonempty)
  subst hk
  exact ⟨rfl, h.ofBytes v (by simp [Table.get])⟩

theorem two_words_merge :
    Apart (merge someOrder .ascending .ascending { singleValue := some ⟨.BVV 1 32, false⟩ }
        { singleValue := some ⟨.BVV 2 32, false⟩ }).entries ∧
      ∀ ρ p, possible (merge someOrder .ascending .ascending { singleValue := some ⟨.BVV 1 32, false⟩ }
          { singleValue := some ⟨.BVV 2 32, false⟩ }).entries ρ p =
        possible (entries { singleValue := some ⟨.BVV 1 32, false⟩ }) ρ p ∪
          possible (entries { singleValue := some ⟨.BVV 2 32, false⟩ }) ρ p := by
  have hword : ∀ x, (⟨.BVV x 32, false⟩ : Val).OfBytes 4 := fun x => Ast.ofBytes_BVV x 4
  have happart : ∀ x, Apart (entries { singleValue := some ⟨.BVV x 32, false⟩ }) :=
    fun x => apart_one 0 0 (oneSize_singleton (hword x))
  refine (merge_unions_iff someOrder .ascending .ascending (happart 1) (happart 2)).mpr fun k n k' m hn hm => ?_
  obtain ⟨hk, hn⟩ := eq_of_oneSize_get hn
  obtain ⟨hk', hm⟩ := eq_of_oneSize_get hm
  have hfour := hn.unique (hword 1)
  have hfour' := hm.unique (hword 2)
  omega

/-- A word at offset two overlaps a word at offset zero, and both stay as they are. -/
theorem overlapping_words_merge :
    Apart (entries { singleValue := some ⟨.BVV 1 32, false⟩ }) ∧
      Apart (entries { values := some [(2, {⟨.BVV 2 32, false⟩})] }) ∧
      ∀ (E : Enumeration Val) (O O' : Enumeration Nat),
        ¬ Apart (merge E O O' { singleValue := some ⟨.BVV 1 32, false⟩ }
          { values := some [(2, {⟨.BVV 2 32, false⟩})] }).entries := by
  have hword : ∀ x, (⟨.BVV x 32, false⟩ : Val).OfBytes 4 := fun x => Ast.ofBytes_BVV x 4
  have hself : Apart (entries { singleValue := some ⟨.BVV 1 32, false⟩ }) :=
    apart_one 0 0 (oneSize_singleton (hword 1))
  have hmv : Apart (entries { values := some [(2, {⟨.BVV 2 32, false⟩})] }) :=
    apart_one 2 0 (oneSize_singleton (hword 2))
  refine ⟨hself, hmv, fun E O O' h => ?_⟩
  obtain ⟨hget, hkeys⟩ := merge_entries E O O' { singleValue := some ⟨.BVV 1 32, false⟩ }
    { values := some [(2, {⟨.BVV 2 32, false⟩})] }
  have hcuts := (apart_union_iff hself hmv hget hkeys).mp h
  have hle := (hcuts 0 4 2 4 (oneSize_singleton (hword 1)) (oneSize_singleton (hword 2))).2.1 (by decide)
  omega

end MultiValues
end Angr
