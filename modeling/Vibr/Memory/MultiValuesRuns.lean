import Vibr.Memory.MultiValuesAdd

/-!
# Calls of add_value

A call returns, keeps the table in order and adds the bytes of the value, unless the value
starts at a new offset and reaches the next one, or a floating-point value has to be split.
-/

namespace Angr

open Claripy Fuel

namespace MultiValues

variable {E : Enumeration Val} {add : Table → Nat → Val → Except Error Table} {t t' : Table} {o e n m : Nat} {v : Val}
  {vs : Finset Val} {ρ : Assignment} {p : Nat}

/-- No floating-point value goes over the end of a range. -/
def Uncut (t : Table) (e : Nat) : Prop :=
  ∀ k, ∀ u ∈ t.get k, u.isFP = true → ¬(k < e ∧ e < k + u.size / 8)

/-- What a call at an offset does with the table. -/
structure Added (t : Table) (o : Nat) (v : Val) (t' : Table) : Prop where
  wf : WF t'
  key : o ∈ t'.values.keys
  possible : ∀ ρ p, possible t' ρ p = possible t ρ p ∪ v.byteAt o ρ p
  fp : ∀ k, ∀ u ∈ t'.get k, u.isFP = true → u ∈ t.get k ∨ k = o ∧ u = v

/-- A floating-point value at an offset that is there fits if none of its parts has to go elsewhere. -/
def Whole (t : Table) (o : Nat) (v : Val) (n : Nat) : Prop :=
  v.isFP = true → (∀ k ∈ t.values.keys, o < k → o + n ≤ k) ∧ ∀ m, Sized (t.get o) m → n ≤ m

theorem Whole.of_bv (h : v.isFP = false) : Whole t o v n :=
  fun hfp => absurd (h.symm.trans hfp) Bool.false_ne_true

/-- The value up to the next offset, with the rest of it added there. -/
theorem breakNext_spec (h : WF t) (ho : o ∈ t.values.keys) (hv : v.OfBytes n) (hn : 0 < n) (hwhole : Whole t o v n)
    (hrest : ∀ k ∈ t.values.keys, o < k → k < o + n →
      ∃ t', Returns (fun fuel => addTable E fuel t k (v.tail ((k - o) * 8))) t' ∧
        Added t k (v.tail ((k - o) * 8)) t' ∧ ∀ j < k, t'.get j = t.get j) :
    ∃ t₁ v₁ n₁, Returns (fun fuel => breakNext (addTable E fuel) t o v) (t₁, v₁) ∧ Split t o v t₁ v₁ ∧
      v₁.OfBytes n₁ ∧ 0 < n₁ ∧ (∀ k ∈ t₁.values.keys, o < k → o + n₁ ≤ k) ∧ t₁.get o = t.get o ∧
      (v₁ = v ∧ n₁ = n ∨ v₁.isFP = false ∧ ∀ m, Sized (t.get o) m → m ≤ n₁) := by
  have hunbroken (hnext : ∀ k ∈ t.values.keys, o < k → o + n ≤ k) :
      ∃ t₁ v₁ n₁, Returns (fun fuel => breakNext (addTable E fuel) t o v) (t₁, v₁) ∧ Split t o v t₁ v₁ ∧
        v₁.OfBytes n₁ ∧ 0 < n₁ ∧ (∀ k ∈ t₁.values.keys, o < k → o + n₁ ≤ k) ∧ t₁.get o = t.get o ∧
        (v₁ = v ∧ n₁ = n ∨ v₁.isFP = false ∧ ∀ m, Sized (t.get o) m → m ≤ n₁) :=
    ⟨t, v, n, .of_forall fun fuel => breakNext_eq ho hv hnext,
      ⟨h, fun _ _ => rfl, fun _ _ => rfl, fun _ _ hu _ => hu, fun _ => rfl⟩, hv, hn, hnext, rfl, .inl ⟨rfl, rfl⟩⟩
  rcases adjacent_after ho with ⟨-, hlast⟩ | ⟨k, hk, hsome, hlt, hleast⟩
  · refine hunbroken fun k hk hgt => ?_
    have hle := hlast k hk
    omega
  rcases Nat.lt_or_ge k (o + n) with hreach | hshort
  · have hbv : v.isFP = false := by
      by_contra hfp
      have hle := (hwhole (Bool.eq_true_of_not_eq_false hfp)).1 k hk hlt
      omega
    obtain ⟨t₁, hrun, hadd, hbelow⟩ := hrest k hk hlt hreach
    have hhead := hv.head (show 0 < k - o by omega) (show k - o < n by omega)
    refine ⟨t₁, v.head ((k - o) * 8), k - o, ?_, ⟨hadd.wf, fun ρ p => ?_, fun j hj => hbelow j (by omega),
      fun j u hu hfp => ?_, fun hfp => absurd hfp (by simp)⟩, hhead.1, by omega, fun j hj hgt => ?_,
      hbelow o hlt, .inr ⟨rfl, fun m hm => ?_⟩⟩
    · have heq : (fun fuel => breakNext (addTable E fuel) t o v) = fun fuel =>
          addTable E fuel t k (v.tail ((k - o) * 8)) >>= fun t => pure (t, v.head ((k - o) * 8)) := by
        funext fuel
        rw [breakNext, hsome, hv.size_div]
        simp only [if_pos hreach, toBV_of_bv hbv]
      rw [heq]
      exact hrun.bind (.of_forall fun _ => rfl)
    · have hparts := hv.byteAt_split (show 0 < k - o by omega) (show k - o < n by omega) o ρ p
      have hkey : o + (k - o) = k := by omega
      rw [hadd.possible, ← hparts, hkey, Set.union_assoc, Set.union_comm (Val.byteAt _ k _ _)]
    · rcases hadd.fp j u hu hfp with hold | ⟨-, rfl⟩
      · exact hold
      · cases hfp
    · by_contra hless
      have hgot := hadd.wf.sized j hj
      obtain ⟨i, hi⟩ := hgot
      rw [hbelow j (by omega)] at hi
      have hle := hleast j (Table.mem_keys_of_nonempty hi.nonempty) hgt
      omega
    · have hle := h.apart o m k hm hk hlt
      omega
  · exact hunbroken fun j hj hgt => hshort.trans (hleast j hj hgt)

theorem addStep_existing (ho : o ∈ t.values.keys) (hv : v.OfBytes n) (hn : 0 < n) :
    addStep E add t o v = breakNext add t o v >>= fun r => breakCurrent E add r.1 o r.2 >>= fun r =>
      breakPrevious E add (r.1.set o (insert r.2 (r.1.get o))) o := by
  rw [addStep, if_neg (by rw [hv.size_eq]; omega), if_pos ho]

/-- A call at an offset that is there. The rest of the value, behind the next offset, is shorter. -/
theorem addTable_existing (E : Enumeration Val) (n : Nat) : ∀ (t : Table) (o : Nat) (v : Val), WF t →
    o ∈ t.values.keys → v.OfBytes n → 0 < n → Uncut t (o + n) → Whole t o v n →
    ∃ t', Returns (fun fuel => addTable E fuel t o v) t' ∧ Added t o v t' ∧ ∀ k < o, t'.get k = t.get k := by
  induction n using Nat.strong_induction_on with
  | _ n ih =>
    intro t o v h ho hv hn huncut hwhole
    have hrest (k : Nat) (hk : k ∈ t.values.keys) (hlt : o < k) (hreach : k < o + n) :
        ∃ t', Returns (fun fuel => addTable E fuel t k (v.tail ((k - o) * 8))) t' ∧
          Added t k (v.tail ((k - o) * 8)) t' ∧ ∀ j < k, t'.get j = t.get j := by
      have htail := (hv.tail (show k - o < n by omega)).1
      have hend : k + (n - (k - o)) = o + n := by omega
      exact ih (n - (k - o)) (by omega) t k _ h hk htail (by omega) (by rwa [hend]) (.of_bv rfl)
    obtain ⟨t₁, v₁, n₁, hrun₁, hsplit₁, hv₁, hn₁, hnext, hsame, hshape⟩ := breakNext_spec h ho hv hn hwhole hrest
    obtain ⟨m, hm⟩ := h.sized o ho
    have hm₁ : Sized (t₁.get o) m := by rwa [hsame]
    have hcut (hlt : n₁ < m) : ∀ u ∈ t₁.get o, u.isFP = false := by
      intro u hu
      rw [hsame] at hu
      rcases hshape with ⟨-, rfl⟩ | ⟨-, hle⟩
      · by_contra hfp
        refine huncut o u hu (Bool.eq_true_of_not_eq_false hfp) ⟨by omega, ?_⟩
        rw [(hm.ofBytes u hu).size_div]
        omega
      · have hle := hle m hm
        omega
    have hcut' (hgt : m < n₁) : v₁.isFP = false := by
      rcases hshape with ⟨rfl, rfl⟩ | ⟨hbv, -⟩
      · by_contra hfp
        have hle := (hwhole (Bool.eq_true_of_not_eq_false hfp)).2 m hm
        omega
      · exact hbv
    obtain ⟨t₂, v₂, n₂, hrun₂, hsplit₂, hv₂, hsized⟩ := breakCurrent_spec E hsplit₁.wf hm₁ hv₁ hn₁ hnext hcut hcut'
    have hsplit := hsplit₁.trans hsplit₂
    have ho₂ := Table.mem_keys_of_nonempty hsized.nonempty
    have hwf : WF (t₂.set o (insert v₂ (t₂.get o))) := hsplit.wf.set (hsized.insert hv₂)
      (fun k hk hlt => hsplit.wf.apart o n₂ k hsized hk hlt) fun k j hj hlt => hsplit.wf.apart k j o hj ho₂ hlt
    have hkey : o ∈ (t₂.set o (insert v₂ (t₂.get o))).values.keys := by
      rw [Table.mem_keys_set]
      exact .inl rfl
    refine ⟨t₂.set o (insert v₂ (t₂.get o)), .succ ?_, ⟨hwf, hkey, fun ρ p => ?_, fun k u hu hfp => ?_⟩,
      fun k hk => ?_⟩
    · simp only [addTable, addStep_existing ho hv hn]
      exact hrun₁.bind (hrun₂.bind (.of_forall fun _ => hwf.breakPrevious hkey))
    · rw [possible_insert, hsplit.possible]
    · rw [Table.get_set] at hu
      split at hu
      · subst k
        rcases Finset.mem_insert.mp hu with rfl | hu
        · exact .inr ⟨rfl, hsplit.value hfp⟩
        · exact .inl (hsplit.fp o u hu hfp)
      · exact .inl (hsplit.fp k u hu hfp)
    · rw [Table.get_set_ne _ _ hk.ne]
      exact hsplit.below k hk

/-! ## Calls at a new offset -/

theorem WF.congr (h : WF t) (hget : ∀ k, t'.get k = t.get k) (hkeys : t'.values.keys = t.values.keys) : WF t' where
  sized k hk := by
    rw [hget]
    exact h.sized k (hkeys ▸ hk)
  apart k i k' hi hk' hlt := by
    rw [hget] at hi
    exact h.apart k i k' hi (hkeys ▸ hk') hlt

theorem possible_congr (hget : ∀ k, t'.get k = t.get k) : possible t' ρ p = possible t ρ p := by
  simp only [possible, hget]

theorem get_set_comm {j k : Nat} (h : j ≠ k) (ws : Finset Val) (i : Nat) :
    ((t.set j vs).set k ws).get i = ((t.set k ws).set j vs).get i := by
  simp only [Table.get_set]
  by_cases hj : i = j
  · rw [if_neg (by rw [hj]; exact h), if_pos hj, if_pos hj]
  · rw [if_neg hj, if_neg hj]

theorem keys_set_comm (t : Table) (j k : Nat) (vs ws : Finset Val) :
    ((t.set j vs).set k ws).values.keys = ((t.set k ws).set j vs).values.keys := by
  simp only [Table.set, Dict.keys_set]
  exact Finset.insert_comm k j _

/-- Values of one size for an offset that is there. -/
theorem addAll_existing (E : Enumeration Val) {l : List Val} {j : Nat} (h : WF t) (ho : o ∈ t.values.keys) (hj : 0 < j)
    (hl : ∀ v ∈ l, v.OfBytes j ∧ v.isFP = false) (huncut : Uncut t (o + j)) :
    ∃ t', Returns (fun fuel => addAll (addTable E fuel) t o l) t' ∧ WF t' ∧ o ∈ t'.values.keys ∧
      (∀ k, ∀ u ∈ t'.get k, u.isFP = true → u ∈ t.get k) ∧
      ∀ ρ p, possible t' ρ p = possible t ρ p ∪ {x | ∃ v ∈ l, x ∈ v.byteAt o ρ p} := by
  have hloop := @Returns.foldlM _ _ _ (fun fuel t v => addTable E fuel t o v)
    (fun done a => WF a ∧ o ∈ a.values.keys ∧ (∀ k, ∀ u ∈ a.get k, u.isFP = true → u ∈ t.get k) ∧
      ∀ ρ p, possible a ρ p = possible t ρ p ∪ {x | ∃ v ∈ done, x ∈ v.byteAt o ρ p}) l [] t
    ⟨h, ho, fun _ _ hu _ => hu, fun ρ p => by simp⟩ ?_
  · exact hloop
  rintro done v a hv ⟨hwf, hkey, hfp, hposs⟩
  obtain ⟨hbytes, hbv⟩ := hl v hv
  obtain ⟨a', hrun, hadd, -⟩ := addTable_existing E j a o v hwf hkey hbytes hj
    (fun k u hu hf => huncut k u (hfp k u hu hf) hf) (.of_bv hbv)
  refine ⟨a', hrun, hadd.wf, hadd.key, fun k u hu hf => ?_, fun ρ p => ?_⟩
  · rcases hadd.fp k u hu hf with hold | ⟨-, rfl⟩
    · exact hfp k u hold hf
    · cases hbv.symm.trans hf
  · rw [hadd.possible, hposs]
    ext x
    simp [or_assoc, or_and_right, exists_or]

/-- A value that starts inside the range before it. -/
theorem addTable_inside (E : Enumeration Val) {k : Nat} (h : WF t) (hnew : o ∉ t.values.keys) (hv : v.OfBytes n)
    (hn : 0 < n) (hnext : ∀ k ∈ t.values.keys, o < k → o + n ≤ k) (hvs : Sized (t.get k) m) (hk : k < o)
    (hover : o < k + m) (hbv : ∀ u ∈ t.get k, u.isFP = false)
    (hcut : v.isFP = true → ¬(o < k + m ∧ k + m < o + n)) :
    ∃ t', Returns (fun fuel => addTable E fuel t o v) t' ∧ Added t o v t' := by
  have hkey := Table.mem_keys_of_nonempty hvs.nonempty
  have hsplit : k + (o - k) = o := by omega
  have hheads : Sized ((t.get k).image (·.head ((o - k) * 8))) (o - k) :=
    hvs.image (by omega) fun u hu => (hu.head (by omega) (by omega)).1
  have hwf : WF (t.set k ((t.get k).image (·.head ((o - k) * 8)))) := by
    refine h.set hheads (fun j hj hlt => ?_) fun j i hi hlt => h.apart j i k hi hkey hlt
    have hle := h.apart k m j hvs hj hlt
    omega
  have hgone : o ∉ (t.set k ((t.get k).image (·.head ((o - k) * 8)))).values.keys := by
    rw [Table.mem_keys_set]
    exact fun hmem => hmem.elim (by omega) hnew
  have hwf₀ : WF ((t.set k ((t.get k).image (·.head ((o - k) * 8)))).set o {v}) := by
    refine hwf.set_new hv hn (fun j hj hlt => ?_) fun j i hi hlt => ?_
    · rw [Table.mem_keys_set] at hj
      exact hnext j (hj.resolve_left (by omega)) hlt
    rw [Table.get_set] at hi
    split at hi
    · have heq := hi.unique hheads
      omega
    have hj := Table.mem_keys_of_nonempty hi.nonempty
    rcases Nat.lt_or_ge j k with hless | hge
    · have hle := h.apart j i k hi hkey hless
      omega
    · have hle := h.apart k m j hvs hj (by omega)
      omega
  obtain ⟨t₀, ht₀⟩ : ∃ t₀, t₀ = (t.set o {v}).set k ((t.get k).image (·.head ((o - k) * 8))) := ⟨_, rfl⟩
  have hget₀ : ∀ j, t₀.get j = ((t.set k ((t.get k).image (·.head ((o - k) * 8)))).set o {v}).get j := by
    rw [ht₀]
    exact get_set_comm (by omega) _
  have hwf₁ : WF t₀ := hwf₀.congr hget₀ (by rw [ht₀]; exact keys_set_comm t o k _ _)
  have ho : o ∈ t₀.values.keys := by
    rw [ht₀, Table.mem_keys_set, Table.mem_keys_set]
    exact .inr (.inl rfl)
  have hfp₀ : ∀ j, ∀ u ∈ t₀.get j, u.isFP = true → u ∈ t.get j ∨ j = o ∧ u = v := by
    intro j u hu hf
    rw [hget₀, Table.get_set] at hu
    split at hu
    · exact .inr ⟨‹_›, Finset.mem_singleton.mp hu⟩
    rw [Table.get_set] at hu
    split at hu
    · obtain ⟨w, -, rfl⟩ := Finset.mem_image.mp hu
      cases hf
    · exact .inl hu
  have huncut : Uncut t₀ (o + (m - (o - k))) := by
    have hend : o + (m - (o - k)) = k + m := by omega
    rw [hend]
    rintro j u hu hf ⟨hlt, hgt⟩
    rcases hfp₀ j u hu hf with hold | ⟨rfl, rfl⟩
    · obtain ⟨i, hi⟩ := h.sized j (Table.mem_keys_of_nonempty ⟨u, hold⟩)
      rw [(hi.ofBytes u hold).size_div] at hgt
      rcases Nat.lt_trichotomy j k with hless | rfl | hmore
      · have hle := h.apart j i k hi hkey hless
        omega
      · have heq := hi.unique hvs
        omega
      · have hle := h.apart k m j hvs (Table.mem_keys_of_nonempty hi.nonempty) hmore
        omega
    · rw [hv.size_div] at hgt
      exact hcut hf ⟨hover, hgt⟩
  obtain ⟨t', hrun, hwf', hkey', hfp', hposs⟩ := addAll_existing E
    (l := E.list ((t.get k).image (·.tail ((o - k) * 8)))) (j := m - (o - k)) hwf₁ ho (by omega)
    (fun u hu => by
      obtain ⟨w, hw, rfl⟩ := Finset.mem_image.mp ((E.mem_list _ u).mp hu)
      exact ⟨((hvs.ofBytes w hw).tail (by omega)).1, rfl⟩) huncut
  refine ⟨t', .succ ?_, hwf', hkey', fun ρ p => ?_, fun j u hu hf => hfp₀ j u (hfp' j u hu hf) hf⟩
  · have hstep : ∀ fuel, addTable E (fuel + 1) t o v =
        addAll (addTable E fuel) t₀ o (E.list ((t.get k).image (·.tail ((o - k) * 8)))) := by
      intro fuel
      rw [addTable, addStep_new hnew hv hn hnext, breakPrevious]
      have hmem : o ∈ (t.set o {v}).values.keys := by rw [Table.mem_keys_set]; exact .inl rfl
      have hsame : (t.set o {v}).get k = t.get k := Table.get_set_ne t _ hk.ne
      rcases adjacent_before hmem with ⟨-, hfirst⟩ | ⟨j, hj, hsome, hlt, hgreatest⟩
      · have hle := hfirst k (by rw [Table.mem_keys_set]; exact .inr hkey)
        omega
      rw [Table.mem_keys_set] at hj
      have hj := hj.resolve_left (by omega)
      have hge := hgreatest k (by rw [Table.mem_keys_set]; exact .inr hkey) hk
      have heq : j = k := by
        by_contra hne
        have hle := h.apart k m j hvs hj (by omega)
        omega
      subst heq
      obtain ⟨first, rest, hlist, hfirst⟩ := list_eq_cons E hvs.nonempty
      rw [hsome, ht₀]
      simp only [hsame, hlist, (hvs.ofBytes first hfirst).size_div]
      rw [if_pos hover, breakAll_eq (by rw [hsame]; exact hbv), hsame]
    simp only [hstep]
    exact hrun
  · have hempty : (t.set k ((t.get k).image (·.head ((o - k) * 8)))).get o = ∅ := Table.get_of_not_mem hgone
    have hset : {x | ∃ u ∈ E.list ((t.get k).image (·.tail ((o - k) * 8))), x ∈ u.byteAt o ρ p} =
        setAt ((t.get k).image (·.tail ((o - k) * 8))) o ρ p := by
      simp only [setAt, E.mem_list]
    have hold := possible_split (ρ := ρ) (p := p) hvs (show 0 < o - k by omega) (by omega)
      (Table.get_of_not_mem (hsplit.symm ▸ hnew))
    rw [hsplit] at hold
    rw [hposs, possible_congr hget₀, possible_set_of_subset (by rw [hempty]; exact Finset.empty_subset _),
      setAt_singleton, hset, Set.union_right_comm, hold]

/-! ## Runs -/

/-- The call neither reaches the next offset from a new one nor splits a floating-point value. -/
structure Fits (t : Table) (o : Nat) (v : Val) : Prop where
  reach : o ∈ t.values.keys ∨ ∀ k ∈ t.values.keys, o < k → o + v.size / 8 ≤ k
  value : v.isFP = true → (∀ k ∈ t.values.keys, o < k → o + v.size / 8 ≤ k) ∧
    ∀ k, ∀ u ∈ t.get k, ¬(o < k + u.size / 8 ∧ k + u.size / 8 < o + v.size / 8)
  start : Uncut t o
  stop : Uncut t (o + v.size / 8)

theorem addTable_spec (E : Enumeration Val) (h : WF t) (hv : v.OfBytes n) (hn : 0 < n) (hfits : Fits t o v) :
    ∃ t', Returns (fun fuel => addTable E fuel t o v) t' ∧ Added t o v t' := by
  obtain ⟨hreach, hvalue, hstart, hstop⟩ := hfits
  rw [hv.size_div] at hreach hvalue hstop
  by_cases ho : o ∈ t.values.keys
  · have hwhole : Whole t o v n := by
      refine fun hfp => ⟨(hvalue hfp).1, fun m hm => ?_⟩
      obtain ⟨u, hu⟩ := hm.nonempty
      have hin := (hvalue hfp).2 o u hu
      rw [(hm.ofBytes u hu).size_div] at hin
      have hpos := hm.pos
      omega
    obtain ⟨t', hrun, hadd, -⟩ := addTable_existing E n t o v h ho hv hn hstop hwhole
    exact ⟨t', hrun, hadd⟩
  · have hnext := hreach.resolve_left ho
    by_cases hover : ∃ k m, Sized (t.get k) m ∧ k < o ∧ o < k + m
    · obtain ⟨k, m, hvs, hk, hlt⟩ := hover
      refine addTable_inside E h ho hv hn hnext hvs hk hlt (fun u hu => ?_) fun hfp => ?_
      · by_contra hfp
        refine hstart k u hu (Bool.eq_true_of_not_eq_false hfp) ⟨hk, ?_⟩
        rwa [(hvs.ofBytes u hu).size_div]
      · obtain ⟨u, hu⟩ := hvs.nonempty
        have hin := (hvalue hfp).2 k u hu
        rwa [(hvs.ofBytes u hu).size_div] at hin
    have hprev : ∀ k m, Sized (t.get k) m → k < o → k + m ≤ o := by
      intro k m hm hk
      by_contra hlt
      exact hover ⟨k, m, hm, hk, by omega⟩
    refine ⟨t.set o {v}, .succ (.of_forall fun fuel => addStep_gap h ho hv hn hnext hprev),
      h.set_new hv hn hnext hprev, ?_, fun ρ p => ?_, fun k u hu hfp => ?_⟩
    · rw [Table.mem_keys_set]
      exact .inl rfl
    · rw [possible_set_of_subset (by rw [Table.get_of_not_mem ho]; exact Finset.empty_subset _), setAt_singleton]
    rw [Table.get_set] at hu
    split at hu
    · exact .inr ⟨‹_›, Finset.mem_singleton.mp hu⟩
    · exact .inl hu

/-- The dictionary of an object: `_values`, or the one value that stands for it. -/
def table (mv : MultiValues) : Table :=
  match mv.singleValue with
  | some single => if single.size = 0 then ⟨[], mv.varCounter⟩ else ⟨[(0, {single})], mv.varCounter⟩
  | none => ⟨mv.values.getD [], mv.varCounter⟩

/-- Calls, one after the other. -/
def addValues (E : Enumeration Val) (fuel : Nat) (mv : MultiValues) (calls : List (Nat × Val)) :
    Except Error MultiValues :=
  calls.foldlM (fun mv c => addValue E fuel mv c.1 c.2) mv

/-- Every call fits the object that the calls before it leave. -/
def FitsAlong (E : Enumeration Val) : MultiValues → List (Nat × Val) → Prop
  | _, [] => True
  | mv, c :: calls =>
    (c.2.size = 0 ∨ Fits mv.table c.1 c.2) ∧
      ∀ mv', Returns (fun fuel => addValue E fuel mv c.1 c.2) mv' → FitsAlong E mv' calls

variable {E : Enumeration Val} {mv : MultiValues} {t : Table} {o n : Nat} {v : Val}

/-- The call is the one on the dictionary. -/
theorem addValue_table (h : WF mv.table) (hv : v.OfBytes n) (hn : 0 < n)
    (hrun : Returns (fun fuel => addTable E fuel mv.table o v) t) :
    ∃ mv', Returns (fun fuel => addValue E fuel mv o v) mv' ∧ mv'.table = t := by
  obtain ⟨single, values, c⟩ := mv
  have hsize : v.size ≠ 0 := by rw [hv.size_eq]; omega
  have hadded (values : Dict Nat (Finset Val)) (hrun : Returns (fun fuel => addTable E fuel ⟨values, c⟩ o v) t) :
      Returns (fun fuel => (addTable E fuel ⟨values, c⟩ o v).map fun t =>
        (⟨none, some t.values, t.varCounter⟩ : MultiValues)) ⟨none, some t.values, t.varCounter⟩ := by
    obtain ⟨N, hN⟩ := hrun
    exact ⟨N, fun fuel hfuel => congrArg (Except.map _) (hN fuel hfuel)⟩
  cases single with
  | none =>
    refine ⟨⟨none, some t.values, t.varCounter⟩, ?_, rfl⟩
    simp only [addValue, if_neg hsize]
    exact hadded _ hrun
  | some s =>
    by_cases hs : s.size = 0
    · have htable : table ⟨some s, values, c⟩ = ⟨[], c⟩ := by simp only [table, if_pos hs]
      rw [htable] at hrun h
      have hempty : Returns (fun fuel => addTable E fuel ⟨[], c⟩ o v) ⟨[(o, {v})], c⟩ :=
        .succ (.of_forall fun fuel => addStep_gap h (Finset.notMem_empty o) hv hn
          (fun k hk => absurd hk (Finset.notMem_empty k))
          fun k m hm => absurd (Table.mem_keys_of_nonempty hm.nonempty) (Finset.notMem_empty k))
      rw [hrun.unique hempty]
      by_cases ho : o = 0
      · subst ho
        refine ⟨⟨some v, values, c⟩, .of_forall fun fuel => ?_, ?_⟩
        · simp only [addValue, if_neg hsize, if_pos hs, if_true]
        · simp only [table, if_neg hsize]
      · refine ⟨⟨none, some [(o, {v})], c⟩, .of_forall fun fuel => ?_, rfl⟩
        simp only [addValue, if_neg hsize, if_pos hs, if_neg ho]
    · have htable : table ⟨some s, values, c⟩ = ⟨[(0, {s})], c⟩ := by simp only [table, if_neg hs]
      rw [htable] at hrun
      refine ⟨⟨none, some t.values, t.varCounter⟩, ?_, rfl⟩
      simp only [addValue, if_neg hsize, if_neg hs]
      exact hadded _ hrun

/-- A call that fits returns, keeps the ranges apart and adds the bytes of the value. -/
theorem addValue_spec (h : WF mv.table) (hv : v.OfBytes n) (hfits : v.size = 0 ∨ Fits mv.table o v) :
    ∃ mv', Returns (fun fuel => addValue E fuel mv o v) mv' ∧ WF mv'.table ∧
      ∀ ρ p, possible mv'.table ρ p = possible mv.table ρ p ∪ v.byteAt o ρ p := by
  by_cases hn : n = 0
  · have hsize : v.size = 0 := by rw [hv.size_eq, hn]
    refine ⟨mv, .of_forall fun fuel => ?_, h, fun ρ p => ?_⟩
    · simp only [addValue, if_pos hsize]
    · have hnone : v.ast.bytes ρ = [] := List.eq_nil_of_length_eq_zero ((Ast.OfBytes.length_bytes hv).trans hn)
      simp [Val.byteAt, hnone]
  have hfits := hfits.resolve_left (by rw [hv.size_eq]; omega)
  obtain ⟨t, hrun, hadd⟩ := addTable_spec E h hv (by omega) hfits
  obtain ⟨mv', hrun', rfl⟩ := addValue_table h hv (by omega) hrun
  exact ⟨mv', hrun', hadd.wf, hadd.possible⟩

/-- The values of a set in some order. -/
noncomputable def someOrder : Enumeration Val := ⟨Finset.toList, Finset.nodup_toList, fun _ _ => Finset.mem_toList⟩

/-- An object with one value of `n` bytes. -/
theorem WF.single {values : Option (Dict Nat (Finset Val))} {c : Nat} (hv : v.OfBytes n) (hn : 0 < n) :
    WF (table ⟨some v, values, c⟩) := by
  have hsize : v.size ≠ 0 := by rw [hv.size_eq]; omega
  have hget : ∀ k, (table ⟨some v, values, c⟩).get k = if k = 0 then {v} else ∅ := by
    intro k
    simp only [table, if_neg hsize, Table.get, Dict.get?_cons, Dict.get?_nil, eq_comm (a := 0)]
    split <;> rfl
  have hkeys : (table ⟨some v, values, c⟩).values.keys = {0} := by
    simp only [table, if_neg hsize]
    rfl
  constructor
  · intro k hk
    rw [hkeys, Finset.mem_singleton] at hk
    rw [hget, if_pos hk]
    exact ⟨n, .singleton hv hn⟩
  · intro k i k' _ hk' hlt
    rw [hkeys, Finset.mem_singleton] at hk'
    omega

/-- A value at a new offset that reaches the next one: the set for its offset is still empty
when the rest of it is added, and the offset before that one is asked for a value. -/
theorem addTable_over_gap (E : Enumeration Val) {k : Nat} (hnew : o ∉ t.values.keys) (hbv : v.isFP = false)
    (hv : v.OfBytes n) (hvs : Sized (t.get k) (n - (k - o))) (hk : o < k) (hreach : k < o + n)
    (honly : ∀ j ∈ t.values.keys, j = k) (fuel : Nat) :
    addTable E (fuel + 2) t o v = .error .StopIteration := by
  have hkey : k ∈ (t.set o ∅).values.keys := by
    rw [Table.mem_keys_set]
    exact .inr (Table.mem_keys_of_nonempty hvs.nonempty)
  have ho : o ∈ (t.set o ∅).values.keys := by
    rw [Table.mem_keys_set]
    exact .inl rfl
  have hkeys : ∀ j ∈ (t.set o ∅).values.keys, j = o ∨ j = k := by
    intro j hj
    rw [Table.mem_keys_set] at hj
    exact hj.imp_right (honly j)
  have hnext : adjacentOffset (t.set o ∅) o false = some k := by
    rcases adjacent_after ho with ⟨-, hall⟩ | ⟨j, hj, hsome, hlt, -⟩
    · have hle := hall k hkey
      omega
    · rwa [(hkeys j hj).resolve_left hlt.ne'] at hsome
  have htail := (hv.tail (show k - o < n by omega)).1
  have hget : (t.set o ∅).get k = t.get k := Table.get_set_ne t ∅ hk.ne'
  have hsame : Sized ((t.set o ∅).get k) (n - (k - o)) := by rwa [hget]
  have hcurrent : breakCurrent E (addTable E fuel) (t.set o ∅) k (v.tail ((k - o) * 8)) =
      .ok (t.set o ∅, v.tail ((k - o) * 8)) := by
    rw [breakCurrent_eq E hsame htail, if_neg (lt_irrefl _), if_neg (lt_irrefl _)]
  have hlast : ∀ j ∈ (t.set o ∅).values.keys, k < j → k + (n - (k - o)) ≤ j := by
    intro j hj hlt
    rcases hkeys j hj with rfl | rfl <;> omega
  have hbefore : breakPrevious E (addTable E fuel)
      ((t.set o ∅).set k (insert (v.tail ((k - o) * 8)) ((t.set o ∅).get k))) k = .error .StopIteration := by
    have hmem : k ∈ ((t.set o ∅).set k (insert (v.tail ((k - o) * 8)) ((t.set o ∅).get k))).values.keys := by
      rw [Table.mem_keys_set]
      exact .inl rfl
    rw [breakPrevious]
    rcases adjacent_before hmem with ⟨-, hall⟩ | ⟨j, hj, hsome, hlt, -⟩
    · have hle := hall o (by rw [Table.mem_keys_set]; exact .inr ho)
      omega
    rw [Table.mem_keys_set] at hj
    have heq := (hkeys j (hj.resolve_left hlt.ne)).resolve_right hlt.ne
    rw [hsome, heq]
    simp only [Table.get_set_ne _ _ hk.ne, Table.get_set_self, list_empty]
  have hrest : addTable E (fuel + 1) (t.set o ∅) k (v.tail ((k - o) * 8)) = .error .StopIteration := by
    rw [addTable, addStep_existing hkey htail hsame.pos, breakNext_eq hkey htail hlast]
    change breakCurrent E (addTable E fuel) (t.set o ∅) k (v.tail ((k - o) * 8)) >>= _ = _
    rw [hcurrent]
    exact hbefore
  rw [addTable, addStep, if_neg (by rw [hv.size_eq]; omega), if_neg hnew]
  simp only [breakNext, hnext, hv.size_div, if_pos hreach, toBV_of_bv hbv]
  change (addTable E (fuel + 1) (t.set o ∅) k (v.tail ((k - o) * 8)) >>= _) >>= _ = _
  rw [hrest]
  rfl

end MultiValues
end Angr
