import Vibr.Memory.MultiValues

/-!
# Adding values

`WF` says that the ranges of the offsets are apart and that the values at an offset have
one size, and `possible` is the set of values of each byte. A call at an offset that is
there is followed by induction on the size of the value; a call at a new offset is not
recursive, unless it starts inside a range, and then it calls the first kind.
-/

namespace Angr

open Claripy Fuel

namespace Val

def OfBytes (v : Val) (n : Nat) : Prop := v.ast.OfBytes n

/-- The values that byte `p` can have under an assignment, from `v` at offset `k`. -/
def byteAt (v : Val) (k : Nat) (ρ : Assignment) (p : Nat) : Set Nat :=
  {x | k ≤ p ∧ (v.ast.bytes ρ)[p - k]? = some x}

variable {v : Val} {n j : Nat}

theorem OfBytes.size_eq (h : v.OfBytes n) : v.size = 8 * n := h.length

theorem OfBytes.size_div (h : v.OfBytes n) : v.size / 8 = n := by
  rw [h.size_eq, Nat.mul_div_cancel_left n (by decide)]

theorem OfBytes.unique {m : Nat} (h : v.OfBytes n) (h' : v.OfBytes m) : n = m := by
  rw [← h.size_div, h'.size_div]

@[simp] theorem isFP_head (v : Val) (bits : Nat) : (v.head bits).isFP = false := rfl

@[simp] theorem isFP_tail (v : Val) (bits : Nat) : (v.tail bits).isFP = false := rfl

theorem OfBytes.head (h : v.OfBytes n) (hj : 0 < j) (hjn : j < n) :
    (v.head (j * 8)).OfBytes j ∧ ∀ ρ, (v.head (j * 8)).ast.bytes ρ = (v.ast.bytes ρ).take j := by
  have hslice := fun ρ => Ast.OfBytes.extract (ρ := ρ) (o := 0) h hj (show 0 + j ≤ n by omega)
  have hhigh : 8 * (n - 0) - 1 = v.size - 1 := by rw [h.size_eq, Nat.sub_zero]
  have hlow : 8 * (n - 0 - j) = v.size - j * 8 := by rw [h.size_eq]; omega
  rw [hhigh, hlow] at hslice
  exact ⟨(hslice ⟨fun _ => 0, fun _ => false⟩).1, fun ρ => (hslice ρ).2⟩

theorem OfBytes.tail (h : v.OfBytes n) (hjn : j < n) :
    (v.tail (j * 8)).OfBytes (n - j) ∧ ∀ ρ, (v.tail (j * 8)).ast.bytes ρ = (v.ast.bytes ρ).drop j := by
  have hslice := fun ρ => Ast.OfBytes.extract (ρ := ρ) h (show 0 < n - j by omega) (show j + (n - j) ≤ n by omega)
  have hhigh : 8 * (n - j) - 1 = v.size - j * 8 - 1 := by rw [h.size_eq]; omega
  have hlow : 8 * (n - j - (n - j)) = 0 := by omega
  rw [hhigh, hlow] at hslice
  refine ⟨(hslice ⟨fun _ => 0, fun _ => false⟩).1, fun ρ => (hslice ρ).2.trans ?_⟩
  refine List.take_of_length_le ?_
  rw [List.length_drop, Ast.OfBytes.length_bytes h]

/-- A value and its two parts, at their offsets, give every byte the same values. -/
theorem OfBytes.byteAt_split (h : v.OfBytes n) (hj : 0 < j) (hjn : j < n) (k : Nat) (ρ : Assignment) (p : Nat) :
    (v.head (j * 8)).byteAt k ρ p ∪ (v.tail (j * 8)).byteAt (k + j) ρ p = v.byteAt k ρ p := by
  ext x
  simp only [byteAt, Set.mem_union, Set.mem_ofPred_eq, (h.head hj hjn).2 ρ, (h.tail hjn).2 ρ,
    List.getElem?_take, List.getElem?_drop]
  by_cases hp : p - k < j
  · rw [if_pos hp]
    constructor
    · rintro (hx | ⟨hk, hx⟩)
      · exact hx
      · omega
    · exact .inl
  rw [if_neg hp]
  constructor
  · rintro (⟨_, hx⟩ | ⟨hk, hx⟩)
    · cases hx
    · have hindex : j + (p - (k + j)) = p - k := by omega
      exact ⟨by omega, by rwa [hindex] at hx⟩
  · rintro ⟨hk, hx⟩
    have hindex : j + (p - (k + j)) = p - k := by omega
    exact .inr ⟨by omega, by rwa [hindex]⟩

end Val

namespace MultiValues

/-- The values of a nonempty set have `n` bytes each. -/
structure Sized (vs : Finset Val) (n : Nat) : Prop where
  nonempty : vs.Nonempty
  pos : 0 < n
  ofBytes : ∀ v ∈ vs, v.OfBytes n

variable {vs : Finset Val}

theorem Sized.unique {n m : Nat} (h : Sized vs n) (h' : Sized vs m) : n = m := by
  obtain ⟨v, hv⟩ := h.nonempty
  exact (h.ofBytes v hv).unique (h'.ofBytes v hv)

theorem Sized.insert {n : Nat} {v : Val} (h : Sized vs n) (hv : v.OfBytes n) :
    Sized (insert v vs) n where
  nonempty := Finset.insert_nonempty v vs
  pos := h.pos
  ofBytes u hu := by
    rcases Finset.mem_insert.mp hu with rfl | hu
    · exact hv
    · exact h.ofBytes u hu

theorem Sized.singleton {n : Nat} {v : Val} (hv : v.OfBytes n) (hn : 0 < n) : Sized {v} n :=
  ⟨Finset.singleton_nonempty v, hn, fun u hu => by rwa [Finset.mem_singleton.mp hu]⟩

theorem Sized.image {n m : Nat} {f : Val → Val} (h : Sized vs n) (hm : 0 < m)
    (hf : ∀ v, v.OfBytes n → (f v).OfBytes m) : Sized (vs.image f) m where
  nonempty := h.nonempty.image f
  pos := hm
  ofBytes u hu := by
    obtain ⟨v, hv, rfl⟩ := Finset.mem_image.mp hu
    exact hf v (h.ofBytes v hv)

namespace Table

variable (t : Table) (o k : Nat) (vs ws : Finset Val)

theorem get_set : (t.set o vs).get k = if k = o then vs else t.get k := by
  simp only [get, set, Dict.get?_set]
  by_cases h : o = k
  · simp [h]
  · simp [h, Ne.symm h]

@[simp] theorem get_set_self : (t.set o vs).get o = vs := by rw [get_set, if_pos rfl]

theorem get_set_ne {o k : Nat} (h : k ≠ o) : (t.set o vs).get k = t.get k := by rw [get_set, if_neg h]

theorem mem_keys_set {o k : Nat} : k ∈ (t.set o vs).values.keys ↔ k = o ∨ k ∈ t.values.keys := by
  rw [set, Dict.keys_set, Finset.mem_insert]

theorem set_set : (t.set o vs).set o ws = t.set o ws := by
  simp only [set, Dict.set_set]

variable {t k}

theorem get_of_not_mem (h : k ∉ t.values.keys) : t.get k = ∅ := by
  rw [get, Dict.get?_eq_none.mpr h]
  rfl

theorem mem_keys_of_nonempty (h : (t.get k).Nonempty) : k ∈ t.values.keys := by
  by_contra hk
  rw [get_of_not_mem hk] at h
  exact Finset.not_nonempty_empty h

end Table

/-- Every offset has values, of one size, and no range reaches the next offset. -/
structure WF (t : Table) : Prop where
  sized : ∀ k ∈ t.values.keys, ∃ n, Sized (t.get k) n
  apart : ∀ k n k', Sized (t.get k) n → k' ∈ t.values.keys → k < k' → k + n ≤ k'

/-- The values that byte `p` can have. -/
def possible (t : Table) (ρ : Assignment) (p : Nat) : Set Nat := {x | ∃ k, ∃ v ∈ t.get k, x ∈ v.byteAt k ρ p}

/-- The values that byte `p` can have from a set of values at offset `k`. -/
def setAt (vs : Finset Val) (k : Nat) (ρ : Assignment) (p : Nat) : Set Nat := {x | ∃ v ∈ vs, x ∈ v.byteAt k ρ p}

variable {t : Table} {o n m : Nat} {v : Val} {vs : Finset Val} {ρ : Assignment} {p : Nat}

theorem WF.set (h : WF t) (hvs : Sized vs n) (hnext : ∀ k ∈ t.values.keys, o < k → o + n ≤ k)
    (hprev : ∀ k m, Sized (t.get k) m → k < o → k + m ≤ o) : WF (t.set o vs) where
  sized k hk := by
    rw [Table.get_set]
    by_cases hko : k = o
    · exact ⟨n, by rwa [if_pos hko]⟩
    · rw [if_neg hko]
      exact h.sized k (((Table.mem_keys_set t vs).mp hk).resolve_left hko)
  apart k m k' hm hk' hlt := by
    rw [Table.get_set] at hm
    rw [Table.mem_keys_set] at hk'
    by_cases hko : k = o
    · rw [if_pos hko] at hm
      rw [hm.unique hvs, hko]
      rcases hk' with rfl | hk'
      · omega
      · exact hnext k' hk' (hko ▸ hlt)
    rw [if_neg hko] at hm
    rcases hk' with rfl | hk'
    · exact hprev k m hm hlt
    · exact h.apart k m k' hm hk' hlt

theorem setAt_singleton : setAt {v} o ρ p = v.byteAt o ρ p := by
  simp [setAt]

theorem setAt_insert : setAt (insert v vs) o ρ p = setAt vs o ρ p ∪ v.byteAt o ρ p := by
  ext x
  simp only [setAt, Finset.mem_insert, Set.mem_ofPred_eq, Set.mem_union]
  constructor
  · rintro ⟨u, rfl | hu, hx⟩
    · exact .inr hx
    · exact .inl ⟨u, hu, hx⟩
  · rintro (⟨u, hu, hx⟩ | hx)
    · exact ⟨u, .inr hu, hx⟩
    · exact ⟨v, .inl rfl, hx⟩

theorem setAt_subset_possible (t : Table) (o : Nat) : setAt (t.get o) o ρ p ⊆ possible t ρ p :=
  fun _ ⟨v, hv, hx⟩ => ⟨o, v, hv, hx⟩

/-- Replacing the values at an offset: what the bytes lose is what the old values gave. -/
theorem possible_set (t : Table) (o : Nat) (vs : Finset Val) :
    possible (t.set o vs) ρ p ∪ setAt (t.get o) o ρ p = possible t ρ p ∪ setAt vs o ρ p := by
  ext x
  constructor
  · rintro (⟨k, v, hv, hx⟩ | hx)
    · by_cases hko : k = o
      · subst hko
        rw [Table.get_set_self] at hv
        exact .inr ⟨v, hv, hx⟩
      · rw [Table.get_set_ne t vs hko] at hv
        exact .inl ⟨k, v, hv, hx⟩
    · exact .inl (setAt_subset_possible t o hx)
  rintro (⟨k, v, hv, hx⟩ | ⟨v, hv, hx⟩)
  · by_cases hko : k = o
    · subst hko
      exact .inr ⟨v, hv, hx⟩
    · exact .inl ⟨k, v, by rwa [Table.get_set_ne t vs hko], hx⟩
  · exact .inl ⟨o, v, by rwa [Table.get_set_self], hx⟩

/-- Adding values at an offset. -/
theorem possible_set_of_subset {ws : Finset Val} (hsub : t.get o ⊆ ws) :
    possible (t.set o ws) ρ p = possible t ρ p ∪ setAt ws o ρ p := by
  rw [← possible_set, eq_comm, Set.union_eq_left]
  rintro x ⟨v, hv, hx⟩
  exact ⟨o, v, by rw [Table.get_set_self]; exact hsub hv, hx⟩

theorem possible_insert : possible (t.set o (insert v (t.get o))) ρ p = possible t ρ p ∪ v.byteAt o ρ p := by
  rw [possible_set_of_subset (Finset.subset_insert _ _), setAt_insert, ← Set.union_assoc,
    Set.union_eq_left.mpr (setAt_subset_possible t o)]

/-- Splitting all values at an offset changes nothing for the bytes. -/
theorem possible_split {j : Nat} (hvs : Sized (t.get o) n) (hj : 0 < j) (hjn : j < n)
    (hnew : t.get (o + j) = ∅) :
    possible (t.set o ((t.get o).image (·.head (j * 8)))) ρ p ∪
        setAt ((t.get o).image (·.tail (j * 8))) (o + j) ρ p = possible t ρ p := by
  have hset : setAt ((t.get o).image (·.head (j * 8))) o ρ p ∪
      setAt ((t.get o).image (·.tail (j * 8))) (o + j) ρ p = setAt (t.get o) o ρ p := by
    ext x
    constructor
    · rintro (⟨u, hu, hx⟩ | ⟨u, hu, hx⟩) <;> obtain ⟨v, hv, rfl⟩ := Finset.mem_image.mp hu
      · exact ⟨v, hv, (hvs.ofBytes v hv).byteAt_split hj hjn o ρ p ▸ .inl hx⟩
      · exact ⟨v, hv, (hvs.ofBytes v hv).byteAt_split hj hjn o ρ p ▸ .inr hx⟩
    rintro ⟨v, hv, hx⟩
    rw [← (hvs.ofBytes v hv).byteAt_split hj hjn o ρ p] at hx
    rcases hx with hx | hx
    · exact .inl ⟨_, Finset.mem_image_of_mem _ hv, hx⟩
    · exact .inr ⟨_, Finset.mem_image_of_mem _ hv, hx⟩
  ext x
  constructor
  · rintro (⟨k, v, hv, hx⟩ | hx)
    · by_cases hko : k = o
      · subst hko
        rw [Table.get_set_self] at hv
        exact setAt_subset_possible t k (hset ▸ .inl ⟨v, hv, hx⟩)
      · rw [Table.get_set_ne _ _ hko] at hv
        exact ⟨k, v, hv, hx⟩
    · exact setAt_subset_possible t o (hset ▸ .inr hx)
  rintro ⟨k, v, hv, hx⟩
  by_cases hko : k = o
  · subst hko
    have hmem : x ∈ setAt (t.get k) k ρ p := ⟨v, hv, hx⟩
    rw [← hset] at hmem
    rcases hmem with ⟨u, hu, hx⟩ | hx
    · exact .inl ⟨k, u, by rwa [Table.get_set_self], hx⟩
    · exact .inr hx
  · exact .inl ⟨k, v, by rwa [Table.get_set_ne _ _ hko], hx⟩

/-! ## Adjacent offsets -/

theorem adjacentLoop_after {offset : Nat} {last : Option Nat} {offs : List Nat}
    (hsorted : offs.Pairwise (· < ·)) (hmem : offset ∈ offs) :
    (adjacentLoop offset false last offs = none ∧ ∀ k ∈ offs, k ≤ offset) ∨
      ∃ k ∈ offs, adjacentLoop offset false last offs = some k ∧ offset < k ∧ ∀ j ∈ offs, offset < j → k ≤ j := by
  induction offs generalizing last with
  | nil => cases hmem
  | cons off offs ih =>
    obtain ⟨hhead, htail⟩ := List.pairwise_cons.mp hsorted
    rw [adjacentLoop]
    by_cases heq : off = offset
    · subst heq
      rw [if_pos rfl, if_neg Bool.false_ne_true]
      cases offs with
      | nil => exact .inl ⟨rfl, fun k hk => by simp at hk; omega⟩
      | cons next offs =>
        have hnext := (List.pairwise_cons.mp htail).1
        refine .inr ⟨next, by simp, rfl, hhead next (by simp), fun j hj hlt => ?_⟩
        rcases List.mem_cons.mp hj with rfl | hj
        · omega
        · rcases List.mem_cons.mp hj with rfl | hj
          · exact le_rfl
          · exact (hnext j hj).le
    · have hmem' := (List.mem_cons.mp hmem).resolve_left (Ne.symm heq)
      have hlt := hhead offset hmem'
      rw [if_neg heq, if_neg (by omega)]
      rcases ih htail hmem' with ⟨hnone, hall⟩ | ⟨k, hk, hsome, hgt, hleast⟩
      · refine .inl ⟨hnone, fun j hj => ?_⟩
        rcases List.mem_cons.mp hj with rfl | hj
        · exact hlt.le
        · exact hall j hj
      refine .inr ⟨k, List.mem_cons_of_mem _ hk, hsome, hgt, fun j hj hlt' => ?_⟩
      rcases List.mem_cons.mp hj with rfl | hj
      · omega
      · exact hleast j hj hlt'

theorem adjacentLoop_before {offset : Nat} {last : Option Nat} {offs : List Nat}
    (hsorted : offs.Pairwise (· < ·)) (hmem : offset ∈ offs) :
    (adjacentLoop offset true last offs = last ∧ ∀ k ∈ offs, offset ≤ k) ∨
      ∃ k ∈ offs, adjacentLoop offset true last offs = some k ∧ k < offset ∧ ∀ j ∈ offs, j < offset → j ≤ k := by
  induction offs generalizing last with
  | nil => cases hmem
  | cons off offs ih =>
    obtain ⟨hhead, htail⟩ := List.pairwise_cons.mp hsorted
    rw [adjacentLoop]
    by_cases heq : off = offset
    · subst heq
      refine .inl ⟨by rw [if_pos rfl, if_pos rfl], fun k hk => ?_⟩
      rcases List.mem_cons.mp hk with rfl | hk
      · exact le_rfl
      · exact (hhead k hk).le
    have hmem' := (List.mem_cons.mp hmem).resolve_left (Ne.symm heq)
    have hlt := hhead offset hmem'
    rw [if_neg heq, if_neg (by omega)]
    refine .inr ?_
    rcases @ih (some off) htail hmem' with ⟨hlast, hall⟩ | ⟨k, hk, hsome, hless, hgreatest⟩
    · refine ⟨off, List.mem_cons_self, hlast, hlt, fun j hj hlt' => ?_⟩
      rcases List.mem_cons.mp hj with rfl | hj
      · exact le_rfl
      · exact absurd (hall j hj) (by omega)
    refine ⟨k, List.mem_cons_of_mem _ hk, hsome, hless, fun j hj hlt' => ?_⟩
    rcases List.mem_cons.mp hj with rfl | hj
    · exact (hhead k hk).le
    · exact hgreatest j hj hlt'

theorem adjacent_after (h : o ∈ t.values.keys) :
    (adjacentOffset t o false = none ∧ ∀ k ∈ t.values.keys, k ≤ o) ∨
      ∃ k ∈ t.values.keys, adjacentOffset t o false = some k ∧ o < k ∧
        ∀ j ∈ t.values.keys, o < j → k ≤ j := by
  have hloop := @adjacentLoop_after o none _ (Finset.sortedLT_sort t.values.keys).pairwise
    ((Finset.mem_sort (· ≤ ·)).mpr h)
  simp only [Finset.mem_sort] at hloop
  exact hloop

theorem adjacent_before (h : o ∈ t.values.keys) :
    (adjacentOffset t o true = none ∧ ∀ k ∈ t.values.keys, o ≤ k) ∨
      ∃ k ∈ t.values.keys, adjacentOffset t o true = some k ∧ k < o ∧
        ∀ j ∈ t.values.keys, j < o → j ≤ k := by
  have hloop := @adjacentLoop_before o none _ (Finset.sortedLT_sort t.values.keys).pairwise
    ((Finset.mem_sort (· ≤ ·)).mpr h)
  simp only [Finset.mem_sort] at hloop
  exact hloop

/-! ## Breaking -/

variable {E : Enumeration Val} {add : Table → Nat → Val → Except Error Table}

theorem toFinset_list (E : Enumeration Val) (vs : Finset Val) : (E.list vs).toFinset = vs := by
  ext v
  rw [List.mem_toFinset, E.mem_list]

theorem list_eq_cons (E : Enumeration Val) (h : vs.Nonempty) :
    ∃ first rest, E.list vs = first :: rest ∧ first ∈ vs := by
  obtain ⟨v, hv⟩ := h
  obtain ⟨first, rest, hcons⟩ := List.exists_cons_of_ne_nil (List.ne_nil_of_mem ((E.mem_list vs v).mpr hv))
  exact ⟨first, rest, hcons, (E.mem_list vs first).mp (hcons ▸ List.mem_cons_self)⟩

theorem list_empty (E : Enumeration Val) : E.list ∅ = [] := by
  refine List.eq_nil_iff_forall_not_mem.mpr fun v hv => ?_
  exact absurd ((E.mem_list ∅ v).mp hv) (by simp)

theorem toBV_of_bv {c : Nat} (hv : v.isFP = false) : Table.toBV c v = (c, v) := by
  rw [Table.toBV, if_neg (by simp [hv])]

/-- Bitvectors are broken into their parts. -/
theorem breakAll_eq (hbv : ∀ v ∈ t.get o, v.isFP = false) (bits : Nat) :
    breakAll E t o bits = (t.set o ((t.get o).image (·.head bits)), (t.get o).image (·.tail bits)) := by
  have hloop : ∀ (l : List Val) (c : Nat) (heads tails : Finset Val), (∀ v ∈ l, v.isFP = false) →
      l.foldl (fun (p : Nat × Finset Val × Finset Val) v =>
          let r := Table.toBV p.1 v
          (r.1, insert (r.2.head bits) p.2.1, insert (r.2.tail bits) p.2.2)) (c, heads, tails) =
        (c, heads ∪ l.toFinset.image (·.head bits), tails ∪ l.toFinset.image (·.tail bits)) := by
    intro l
    induction l with
    | nil => intro c heads tails _; simp
    | cons v l ih =>
      intro c heads tails hl
      rw [List.foldl_cons, toBV_of_bv (hl v List.mem_cons_self)]
      refine (ih c _ _ fun u hu => hl u (List.mem_cons_of_mem _ hu)).trans ?_
      simp only [List.toFinset_cons, Finset.image_insert, Finset.union_insert, Finset.insert_union]
  have hall := hloop (E.list (t.get o)) t.varCounter ∅ ∅ fun v hv => hbv v ((E.mem_list _ v).mp hv)
  rw [toFinset_list, Finset.empty_union, Finset.empty_union] at hall
  unfold breakAll
  exact congrArg (fun p : Nat × Finset Val × Finset Val => (Table.mk (t.values.set o p.2.1) p.1, p.2.2)) hall

/-- Where the value has no range to the right of it to reach into. -/
theorem breakNext_eq (ho : o ∈ t.values.keys) (hv : v.OfBytes n)
    (hnext : ∀ k ∈ t.values.keys, o < k → o + n ≤ k) : breakNext add t o v = .ok (t, v) := by
  rw [breakNext]
  rcases adjacent_after ho with ⟨hnone, -⟩ | ⟨k, hk, hsome, hlt, -⟩
  · rw [hnone]
  · have hle := hnext k hk hlt
    rw [hsome, hv.size_div]
    exact if_neg (by omega)

/-- Where no range to the left reaches the offset. -/
theorem breakPrevious_eq (h : ∀ k ∈ t.values.keys, k < o → (t.get k).Nonempty)
    (ho : o ∈ t.values.keys) (hprev : ∀ k, k < o → ∀ u ∈ t.get k, k + u.size / 8 ≤ o) :
    breakPrevious E add t o = .ok t := by
  rw [breakPrevious]
  rcases adjacent_before ho with ⟨hnone, -⟩ | ⟨k, hk, hsome, hlt, -⟩
  · rw [hnone]
  obtain ⟨first, rest, hlist, hfirst⟩ := list_eq_cons E (h k hk hlt)
  have hle := hprev k hlt first hfirst
  rw [hsome]
  simp only [hlist]
  exact if_neg (by omega)

theorem WF.nonempty (h : WF t) {k : Nat} (hk : k ∈ t.values.keys) : (t.get k).Nonempty := by
  obtain ⟨n, hn⟩ := h.sized k hk
  exact hn.nonempty

/-- In a table that is in order, the ranges before an offset end there. -/
theorem WF.breakPrevious (h : WF t) (ho : o ∈ t.values.keys) : breakPrevious E add t o = .ok t := by
  refine breakPrevious_eq (fun k hk _ => h.nonempty hk) ho fun k hk u hu => ?_
  obtain ⟨m, hm⟩ := h.sized k (Table.mem_keys_of_nonempty ⟨u, hu⟩)
  rw [(hm.ofBytes u hu).size_div]
  exact h.apart k m o hm ho hk

/-- A value of the size that the values at its offset have is one more of them. -/
theorem addStep_same (h : WF t) (hvs : Sized (t.get o) n) (hv : v.OfBytes n) :
    addStep E add t o v = .ok (t.set o (insert v (t.get o))) := by
  have ho := Table.mem_keys_of_nonempty hvs.nonempty
  have hwf : WF (t.set o (insert v (t.get o))) := h.set (hvs.insert hv)
    (fun k hk hlt => h.apart o n k hvs hk hlt) fun k m hm hlt => h.apart k m o hm ho hlt
  obtain ⟨first, rest, hlist, hfirst⟩ := list_eq_cons E hvs.nonempty
  have hpos := hvs.pos
  have hcurrent : breakCurrent E add t o v = .ok (t, v) := by
    rw [breakCurrent, hlist]
    simp only [hv.size_div, (hvs.ofBytes first hfirst).size_div]
    rw [if_neg (by omega), if_neg (by omega)]
  rw [addStep, if_neg (by rw [hv.size_eq]; omega), if_pos ho]
  simp only [breakNext_eq ho hv fun k hk hlt => h.apart o n k hvs hk hlt]
  change (breakCurrent E add t o v >>= _) = _
  rw [hcurrent]
  exact hwf.breakPrevious (by rw [Table.mem_keys_set]; exact .inl rfl)

/-- The first half of a call at a new offset from which the value reaches no other. -/
theorem addStep_new (hnew : o ∉ t.values.keys) (hv : v.OfBytes n) (hn : 0 < n)
    (hnext : ∀ k ∈ t.values.keys, o < k → o + n ≤ k) :
    addStep E add t o v = breakPrevious E add (t.set o {v}) o := by
  have ho : o ∈ (t.set o ∅).values.keys := by rw [Table.mem_keys_set]; exact .inl rfl
  have hcurrent : breakCurrent E add (t.set o ∅) o v = .ok (t.set o ∅, v) := by
    rw [breakCurrent, Table.get_set_self, list_empty]
  rw [addStep, if_neg (by rw [hv.size_eq]; omega), if_neg hnew]
  have hbreak : breakNext add (t.set o ∅) o v = .ok (t.set o ∅, v) := by
    refine breakNext_eq ho hv fun k hk hlt => ?_
    rw [Table.mem_keys_set] at hk
    exact hnext k (hk.resolve_left (by omega)) hlt
  simp only [hbreak]
  change (breakCurrent E add (t.set o ∅) o v >>= _) = _
  rw [hcurrent]
  change breakPrevious E add ((t.set o ∅).set o (insert v ((t.set o ∅).get o))) o = _
  rw [Table.get_set_self, Table.set_set, insert_empty_eq]

theorem WF.set_new (h : WF t) (hv : v.OfBytes n) (hn : 0 < n) (hnext : ∀ k ∈ t.values.keys, o < k → o + n ≤ k)
    (hprev : ∀ k m, Sized (t.get k) m → k < o → k + m ≤ o) : WF (t.set o {v}) :=
  h.set (.singleton hv hn) hnext hprev

/-- A value in a gap between ranges. -/
theorem addStep_gap (h : WF t) (hnew : o ∉ t.values.keys) (hv : v.OfBytes n) (hn : 0 < n)
    (hnext : ∀ k ∈ t.values.keys, o < k → o + n ≤ k) (hprev : ∀ k m, Sized (t.get k) m → k < o → k + m ≤ o) :
    addStep E add t o v = .ok (t.set o {v}) := by
  rw [addStep_new hnew hv hn hnext]
  exact (h.set_new hv hn hnext hprev).breakPrevious (by rw [Table.mem_keys_set]; exact .inl rfl)

/-! ## Calls at an offset that is there -/

/-- A value for a gap, or for an offset with values of its size. -/
theorem addStep_apart (h : WF t) (hv : v.OfBytes n) (hn : 0 < n) (hsame : o ∈ t.values.keys → Sized (t.get o) n)
    (hnext : ∀ k ∈ t.values.keys, o < k → o + n ≤ k) (hprev : ∀ k m, Sized (t.get k) m → k < o → k + m ≤ o) :
    addStep E add t o v = .ok (t.set o (insert v (t.get o))) ∧ Sized (insert v (t.get o)) n := by
  by_cases hmem : o ∈ t.values.keys
  · exact ⟨addStep_same h (hsame hmem) hv, (hsame hmem).insert hv⟩
  · rw [Table.get_of_not_mem hmem, insert_empty_eq]
    exact ⟨addStep_gap h hmem hv hn hnext hprev, .singleton hv hn⟩

/-- Values of one size for a gap, or for an offset with values of this size. -/
theorem addAll_gap {c j : Nat} {l : List Val} (h : WF t) (hj : 0 < j) (hl : ∀ v ∈ l, v.OfBytes j)
    (hne : l ≠ []) (hc : c ∈ t.values.keys → Sized (t.get c) j)
    (hnext : ∀ k ∈ t.values.keys, c < k → c + j ≤ k) (hprev : ∀ k m, Sized (t.get k) m → k < c → k + m ≤ c)
    (fuel : Nat) :
    addAll (addTable E (fuel + 1)) t c l = .ok (t.set c (l.toFinset ∪ t.get c)) := by
  induction l generalizing t with
  | nil => exact absurd rfl hne
  | cons r l ih =>
    have hr := hl r List.mem_cons_self
    obtain ⟨hstep, hsized⟩ : addStep E (addTable E fuel) t c r = .ok (t.set c (insert r (t.get c))) ∧
        Sized (insert r (t.get c)) j := addStep_apart h hr hj hc hnext hprev
    rw [addAll, List.foldlM_cons, addTable, hstep]
    change addAll (addTable E (fuel + 1)) (t.set c (insert r (t.get c))) c l = _
    by_cases hempty : l = []
    · subst hempty
      exact congrArg Except.ok (by simp)
    rw [ih (h.set hsized hnext hprev) (fun v hv => hl v (List.mem_cons_of_mem _ hv)) hempty
      (fun _ => by rwa [Table.get_set_self])]
    · rw [Table.set_set, Table.get_set_self, List.toFinset_cons, Finset.union_insert, Finset.insert_union]
    · intro k hk hlt
      rw [Table.mem_keys_set] at hk
      exact hnext k (hk.resolve_left (by omega)) hlt
    · intro k m hm hlt
      rw [Table.get_set_ne _ _ hlt.ne] at hm
      exact hprev k m hm hlt

/-- What splitting leaves: the value that is left, and the same values for every byte. -/
structure Split (t : Table) (o : Nat) (v : Val) (t' : Table) (v' : Val) : Prop where
  wf : WF t'
  possible : ∀ ρ p, possible t' ρ p ∪ v'.byteAt o ρ p = possible t ρ p ∪ v.byteAt o ρ p
  below : ∀ k < o, t'.get k = t.get k
  fp : ∀ k u, u ∈ t'.get k → u.isFP = true → u ∈ t.get k
  value : v'.isFP = true → v' = v

theorem Split.trans {t₁ t₂ t₃ : Table} {v₁ v₂ v₃ : Val} (h₁ : Split t₁ o v₁ t₂ v₂) (h₂ : Split t₂ o v₂ t₃ v₃) :
    Split t₁ o v₁ t₃ v₃ where
  wf := h₂.wf
  possible ρ p := (h₂.possible ρ p).trans (h₁.possible ρ p)
  below k hk := (h₂.below k hk).trans (h₁.below k hk)
  fp k u hu hfp := h₁.fp k u (h₂.fp k u hu hfp) hfp
  value hfp := by
    have heq := h₂.value hfp
    rw [heq]
    exact h₁.value (heq ▸ hfp)

theorem breakCurrent_eq (E : Enumeration Val) (hvs : Sized (t.get o) m) (hv : v.OfBytes n) :
    breakCurrent E add t o v =
      if n < m then
        let p := breakAll E t o v.size
        (addAll add p.1 (o + n) (E.list p.2)).map fun t => (t, v)
      else if m < n then
        let p := Table.toBV t.varCounter v
        (add { t with varCounter := p.1 } (o + m) (p.2.tail (m * 8))).map fun t => (t, p.2.head (m * 8))
      else .ok (t, v) := by
  obtain ⟨first, rest, hlist, hfirst⟩ := list_eq_cons E hvs.nonempty
  rw [breakCurrent, hlist]
  simp only [hv.size_div, (hvs.ofBytes first hfirst).size_div]
  rfl

/-- A shorter value: the values at the offset are broken, and their rest goes into a gap. -/
theorem breakCurrent_shorter (E : Enumeration Val) (h : WF t) (hvs : Sized (t.get o) m) (hv : v.OfBytes n)
    (hn : 0 < n) (hlt : n < m) (hbv : ∀ u ∈ t.get o, u.isFP = false) :
    ∃ t', Returns (fun fuel => breakCurrent E (addTable E fuel) t o v) (t', v) ∧ Split t o v t' v ∧
      Sized (t'.get o) n := by
  have ho := Table.mem_keys_of_nonempty hvs.nonempty
  have hbits : v.size = n * 8 := by rw [hv.size_eq, Nat.mul_comm]
  have hnew : o + n ∉ t.values.keys := fun hmem => by
    have hle := h.apart o m (o + n) hvs hmem (by omega)
    omega
  have hheads : Sized ((t.get o).image (·.head (n * 8))) n := hvs.image hn fun u hu => (hu.head hn hlt).1
  have htails : Sized ((t.get o).image (·.tail (n * 8))) (m - n) :=
    hvs.image (by omega) fun u hu => (hu.tail hlt).1
  have hwf : WF (t.set o ((t.get o).image (·.head (n * 8)))) := by
    refine h.set hheads (fun k hk hgt => ?_) fun k j hj hk => h.apart k j o hj ho hk
    have hle := h.apart o m k hvs hk hgt
    omega
  have hgap : ∀ k ∈ (t.set o ((t.get o).image (·.head (n * 8)))).values.keys, o + n < k →
      o + n + (m - n) ≤ k := by
    intro k hk hgt
    rw [Table.mem_keys_set] at hk
    have hle := h.apart o m k hvs (hk.resolve_left (by omega)) (by omega)
    omega
  have hbefore : ∀ k j, Sized ((t.set o ((t.get o).image (·.head (n * 8)))).get k) j → k < o + n →
      k + j ≤ o + n := by
    intro k j hj hk
    rw [Table.get_set] at hj
    by_cases hko : k = o
    · rw [if_pos hko] at hj
      have heq := hj.unique hheads
      omega
    rw [if_neg hko] at hj
    rcases Nat.lt_or_ge k o with hless | hge
    · have hle := h.apart k j o hj ho hless
      omega
    · have hle := h.apart o m k hvs (Table.mem_keys_of_nonempty hj.nonempty) (by omega)
      omega
  have hempty : (t.set o ((t.get o).image (·.head (n * 8)))).get (o + n) = ∅ := by
    rw [Table.get_set_ne _ _ (by omega), Table.get_of_not_mem hnew]
  have hgone : o + n ∉ (t.set o ((t.get o).image (·.head (n * 8)))).values.keys := by
    rw [Table.mem_keys_set]
    exact fun hmem => hmem.elim (by omega) hnew
  have hne : E.list ((t.get o).image (·.tail (n * 8))) ≠ [] := by
    obtain ⟨r, rs, hr, -⟩ := list_eq_cons E htails.nonempty
    rw [hr]
    simp
  refine ⟨(t.set o ((t.get o).image (·.head (n * 8)))).set (o + n) ((t.get o).image (·.tail (n * 8))),
    .succ (.of_forall fun fuel => ?_), ⟨hwf.set htails hgap hbefore, fun ρ p => ?_, fun k hk => ?_,
      fun k u hu hfp => ?_, fun _ => rfl⟩, ?_⟩
  · rw [breakCurrent_eq E hvs hv, if_pos hlt, hbits]
    simp only [breakAll_eq hbv]
    rw [addAll_gap hwf (by omega) (fun r hr => htails.ofBytes r ((E.mem_list _ r).mp hr)) hne
      (fun hmem => absurd hmem hgone) hgap hbefore, hempty, Finset.union_empty, toFinset_list]
    rfl
  · rw [possible_set_of_subset (by rw [hempty]; exact Finset.empty_subset _),
      possible_split hvs hn hlt (Table.get_of_not_mem hnew)]
  · rw [Table.get_set_ne _ _ (by omega), Table.get_set_ne _ _ (by omega)]
  · rw [Table.get_set] at hu
    split at hu
    · obtain ⟨w, -, rfl⟩ := Finset.mem_image.mp hu
      cases hfp
    rw [Table.get_set] at hu
    split at hu
    · obtain ⟨w, -, rfl⟩ := Finset.mem_image.mp hu
      cases hfp
    · exact hu
  · rwa [Table.get_set_ne _ _ (by omega), Table.get_set_self]

/-- A longer value is broken, and its rest goes into a gap. -/
theorem breakCurrent_longer (E : Enumeration Val) (h : WF t) (hvs : Sized (t.get o) m) (hv : v.OfBytes n)
    (hgt : m < n) (hnext : ∀ k ∈ t.values.keys, o < k → o + n ≤ k) (hbv : v.isFP = false) :
    ∃ t', Returns (fun fuel => breakCurrent E (addTable E fuel) t o v) (t', v.head (m * 8)) ∧
      Split t o v t' (v.head (m * 8)) ∧ Sized (t'.get o) m := by
  have ho := Table.mem_keys_of_nonempty hvs.nonempty
  have hpos := hvs.pos
  have hnew : o + m ∉ t.values.keys := fun hmem => by
    have hle := hnext (o + m) hmem (by omega)
    omega
  have htail := (hv.tail hgt).1
  have hgap : ∀ k ∈ t.values.keys, o + m < k → o + m + (n - m) ≤ k := by
    intro k hk hlt
    have hle := hnext k hk (by omega)
    omega
  have hbefore : ∀ k j, Sized (t.get k) j → k < o + m → k + j ≤ o + m := by
    intro k j hj hk
    rcases Nat.lt_trichotomy k o with hless | rfl | hmore
    · have hle := h.apart k j o hj ho hless
      omega
    · have heq := hj.unique hvs
      omega
    · have hle := h.apart o m k hvs (Table.mem_keys_of_nonempty hj.nonempty) hmore
      omega
  refine ⟨t.set (o + m) {v.tail (m * 8)}, .succ (.of_forall fun fuel => ?_),
    ⟨h.set_new htail (by omega) hgap hbefore, fun ρ p => ?_, fun k hk => ?_, fun k u hu hfp => ?_,
      fun hfp => absurd hfp (by simp)⟩, ?_⟩
  · rw [breakCurrent_eq E hvs hv, if_neg (by omega), if_pos hgt, toBV_of_bv hbv]
    simp only [addTable]
    rw [addStep_gap h hnew htail (by omega) hgap hbefore]
    rfl
  · rw [possible_set_of_subset (by rw [Table.get_of_not_mem hnew]; exact Finset.empty_subset _),
      setAt_singleton, Set.union_assoc, Set.union_comm (Val.byteAt _ _ _ _), hv.byteAt_split hpos hgt]
  · rw [Table.get_set_ne _ _ (by omega)]
  · rw [Table.get_set] at hu
    split at hu
    · rw [Finset.mem_singleton.mp hu] at hfp
      cases hfp
    · exact hu
  · rwa [Table.get_set_ne _ _ (by omega)]

theorem breakCurrent_spec (E : Enumeration Val) (h : WF t) (hvs : Sized (t.get o) m) (hv : v.OfBytes n)
    (hn : 0 < n) (hnext : ∀ k ∈ t.values.keys, o < k → o + n ≤ k)
    (hcut : n < m → ∀ u ∈ t.get o, u.isFP = false) (hcut' : m < n → v.isFP = false) :
    ∃ t' v' n', Returns (fun fuel => breakCurrent E (addTable E fuel) t o v) (t', v') ∧ Split t o v t' v' ∧
      v'.OfBytes n' ∧ Sized (t'.get o) n' := by
  rcases Nat.lt_trichotomy n m with hlt | rfl | hgt
  · obtain ⟨t', hrun, hsplit, hsized⟩ := breakCurrent_shorter E h hvs hv hn hlt (hcut hlt)
    exact ⟨t', v, n, hrun, hsplit, hv, hsized⟩
  · refine ⟨t, v, n, .of_forall fun fuel => ?_, ⟨h, fun _ _ => rfl, fun _ _ => rfl, fun _ _ hu _ => hu,
      fun _ => rfl⟩, hv, hvs⟩
    rw [breakCurrent_eq E hvs hv, if_neg (lt_irrefl n), if_neg (lt_irrefl n)]
  · obtain ⟨t', hrun, hsplit, hsized⟩ := breakCurrent_longer E h hvs hv hgt hnext (hcut' hgt)
    exact ⟨t', v.head (m * 8), m, hrun, hsplit, (hv.head hvs.pos hgt).1, hsized⟩

end MultiValues
end Angr
