import Vibr.Cle.Access

/-!
# Agreement of access paths

Backers that end in the order they start are enough for all access paths to agree. If two
neighbours end in the other order, bisecting never stops between them, and a load from
the second one raises `KeyError`.
-/

namespace Cle

open Bisect

variable {m : Clemory}

/-- The access paths of a memory agree: a load returns what indexing reads, and raises only
where indexing does; membership is that indexing succeeds; and a store to mapped addresses
is read back and changes no other address. -/
structure Agrees (m : Clemory) : Prop where
  load : ∀ a n, m.load a n = if (m.getItem a).isSome then some (read m.getItem a n) else none
  contains : ∀ a, m.contains a = (m.getItem a).isSome
  store : ∀ a data, (m.getItem a).isSome → (∀ i < data.length, (m.getItem (a + (i : Nat))).isSome) →
    (m.store a data).2 = true ∧ (m.store a data).1.load a data.length = some data ∧
      ∀ k, ¬ (a ≤ k ∧ k < a + data.length) → (m.store a data).1.getItem k = m.getItem k

variable {a : Int}

theorem Every.store_spec (h : Every Regular m) {data : List UInt8} (hmapped : (m.getItem a).isSome)
    (hall : ∀ i < data.length, (m.getItem (a + (i : Nat))).isSome) :
    (m.store a data).2 = true ∧ Every Regular (m.store a data).1 ∧
      ∀ k, (m.store a data).1.getItem k =
        if a ≤ k ∧ k < a + data.length then data[(k - a).toNat]? else m.getItem k := by
  have hget := h.shape.getItem_eq
  rw [hget] at hmapped
  have hall' : ∀ i < data.length, (lookup (a + (i : Nat)) m.leaves).isSome := by
    intro i hi
    rw [← hget]
    exact hall i hi
  obtain ⟨hdone, hlookup⟩ := storeLeaves_spec h.sorted_leaves le_rfl (fun _ _ hlt => hlt) hmapped hall'
  obtain ⟨hleaves, hprogress, hregular⟩ := h.storeIn_spec 0 a (.running a data) (by
    intro a' data' heq l _ hlt
    cases heq
    omega)
  rw [hdone] at hprogress
  unfold Clemory.storeIn at hleaves hprogress hregular
  simp only [Clemory.store, hprogress]
  refine ⟨trivial, hregular, fun k => ?_⟩
  rw [hregular.shape.getItem_eq, hget]
  change lookup k (leavesIn _) = _
  rw [hleaves]
  exact hlookup k

theorem Every.agrees (h : Every Regular m) : Agrees m where
  load := h.load_eq
  contains := h.shape.contains_eq
  store a data hmapped hall := by
    obtain ⟨hdone, hregular, hget⟩ := h.store_spec hmapped hall
    refine ⟨hdone, ?_, fun k hk => by rw [hget, if_neg hk]⟩
    have hsome : ((m.store a data).1.getItem a).isSome := by
      rw [hget]
      split
      · rw [List.getElem?_eq_getElem (by omega)]
        rfl
      · exact hmapped
    rw [hregular.load_eq, if_pos hsome]
    have hbytes : ∀ i < data.length, (m.store a data).1.getItem (a + (i : Nat)) = data[i]? := by
      intro i hi
      rw [hget, if_pos (by omega)]
      congr 1
      omega
    have hread := read_add hbytes 0
    rw [Nat.add_zero] at hread
    rw [hread, read, List.append_nil]

/-! ## Backers out of order -/

/-- No child is empty. -/
def NoEmptyChild (m : Clemory) : Prop := ∀ b ∈ m.backers, ∀ c, b.child? = some c → c.backers ≠ []

theorem Every.minAddr_le_maxAddr (h : Every Shape m) : m.minAddr ≤ m.maxAddr := by
  induction h with
  | mk m hm hrest ih =>
    cases hbs : m.backers with
    | nil =>
      have hmin := hm.derived.2.1
      have hmax := hm.derived.2.2
      rw [hbs] at hmin hmax
      rw [hmin, hmax]
      exact le_rfl
    | cons b bs =>
      have hb : b ∈ m.backers := hbs ▸ List.mem_cons_self
      have hend := hm.derived.calculateEnd_le hb
      rw [hm.derived.minAddr_eq hbs]
      refine le_trans ?_ hend
      cases b with
      | bytes start data =>
        simp only [Backer.start, Backer.calculateEnd]
        omega
      | clemory start consecutive minAddr maxAddr backers =>
        have hle : minAddr ≤ maxAddr := ih _ hb _ rfl
        have hnonneg : 0 ≤ minAddr := (hrest _ hb _ rfl).here.minAddr_nonneg
        simp only [Backer.start, Backer.calculateEnd]
        omega

variable {b : Backer}

theorem Every.low_le_calculateEnd (h : Every Shape m) (hb : b ∈ m.backers) : b.low ≤ b.calculateEnd := by
  cases b with
  | bytes start data =>
    simp only [Backer.low, Backer.calculateEnd]
    omega
  | clemory start consecutive minAddr maxAddr backers =>
    have hle : minAddr ≤ maxAddr := (h.inside hb rfl).minAddr_le_maxAddr
    simp only [Backer.low, Backer.calculateEnd]
    omega

/-- What is yielded are arrays of the memory. -/
theorem Every.mem_leaves_of_backersFrom (h : Every Shape m) {addr : Int} {l : Leaf}
    (hl : l ∈ m.backersFrom addr) : l ∈ m.leaves := by
  induction h generalizing addr l with
  | mk m hm hrest ih =>
    unfold Clemory.backersFrom at hl
    split at hl
    · cases hl
    rw [iterFromIndex_eq, List.mem_flatMap] at hl
    obtain ⟨b, hb, hl⟩ := hl
    have hb := List.mem_of_mem_drop hb
    refine Clemory.mem_leaves.mpr ⟨b, hb, ?_⟩
    cases hc : b.child? with
    | none =>
      cases b with
      | bytes start data => exact hl
      | clemory start consecutive minAddr maxAddr backers => cases hc
    | some c =>
      rw [Backer.iterFrom_child hc, List.mem_map] at hl
      obtain ⟨l', hl', rfl⟩ := hl
      rw [Backer.leaves_child hc]
      exact List.mem_map_of_mem (ih b hb c hc hl')

theorem Every.mem_leaves_of_iterFrom (h : Every Shape m) (hb : b ∈ m.backers) {addr : Int} {l : Leaf}
    (hl : l ∈ b.iterFrom addr) : l ∈ b.leaves := by
  cases hc : b.child? with
  | none =>
    cases b with
    | bytes start data => exact hl
    | clemory start consecutive minAddr maxAddr backers => cases hc
  | some c =>
    rw [Backer.iterFrom_child hc, List.mem_map] at hl
    obtain ⟨l', hl', rfl⟩ := hl
    rw [Backer.leaves_child hc]
    exact List.mem_map_of_mem ((h.inside hb hc).mem_leaves_of_backersFrom hl')

/-- From an address below all backers, an array is yielded. -/
theorem Every.backersFrom_ne_nil (h : Every (fun m => Shape m ∧ NoEmptyChild m) m) (hne : m.backers ≠ [])
    {addr : Int} (haddr : addr < m.minAddr) : m.backersFrom addr ≠ [] := by
  induction h generalizing addr with
  | mk m hm hrest ih =>
    have hshape : Every Shape m := (Every.mk m hm hrest).imp fun _ hm => hm.1
    have hends : ∀ b ∈ m.backers, addr < b.calculateEnd := by
      intro b hb
      have := hm.1.minAddr_le hb
      have := hshape.start_le_low hb
      have := hshape.low_le_calculateEnd hb
      omega
    have hzero : bisect (m.backers.map Backer.calculateEnd) addr = 0 := by
      by_contra hpos
      obtain ⟨j, hj⟩ := Nat.exists_eq_succ_of_ne_zero hpos
      obtain ⟨hle, hfront, -⟩ := bisect_spec (m.backers.map Backer.calculateEnd) addr
      rw [List.length_map] at hle
      have hkey := hfront j hj.symm
      rw [List.getD_eq_getElem _ _ (by rw [List.length_map]; omega), List.getElem_map] at hkey
      have := hends _ (List.getElem_mem (l := m.backers) (n := j) (by omega))
      omega
    obtain ⟨b, bs, hbs⟩ := List.exists_cons_of_ne_nil hne
    have hb : b ∈ m.backers := hbs ▸ List.mem_cons_self
    have hmax : ¬ m.maxAddr < addr := by
      have := hends b hb
      have := hm.1.derived.calculateEnd_le hb
      omega
    rw [Clemory.backersFrom, if_neg hmax, hzero, hbs, iterFromIndex]
    refine fun hnil => ?_
    have hnil := (List.append_eq_nil_iff.mp hnil).1
    rw [hm.1.derived.minAddr_eq hbs] at haddr
    cases hc : b.child? with
    | none =>
      cases b with
      | bytes start data => simp [Backer.iterFrom] at hnil
      | clemory start consecutive minAddr maxAddr backers => cases hc
    | some c =>
      rw [Backer.iterFrom_child hc, List.map_eq_nil_iff] at hnil
      have hnonneg := (hrest b hb c hc).here.1.minAddr_nonneg
      exact ih b hb c hc (hm.2 b hb c hc) (by omega) hnil

/-- An address that indexing finds, while everything that is yielded from it on lies after
it: a load raises. -/
def Missed (m : Clemory) : Prop :=
  ∃ a, (m.getItem a).isSome ∧ ∀ l ∈ (m.backersFrom a).head?, a < l.1

theorem Missed.not_agrees (h : Missed m) : ¬ Agrees m := by
  obtain ⟨a, hsome, hhead⟩ := h
  intro hagrees
  have hload := hagrees.load a 1
  rw [if_pos hsome, Clemory.load] at hload
  cases hl : m.backersFrom a with
  | nil =>
    rw [hl] at hload
    cases hload
  | cons l ls =>
    have hlt := hhead l (by rw [hl]; rfl)
    rw [hl, loadLoop, if_pos (by omega), if_pos rfl] at hload
    cases hload

abbrev Laid (m : Clemory) : Prop := (Shape m ∧ NoEmptyChild m) ∧ Disjoint m

theorem Every.shape_of_laid (h : Every Laid m) : Every Shape m := h.imp fun _ hm => hm.1.1

/-- Every backer has an array, and so a range. -/
theorem Every.exists_leaf (h : Every Laid m) (hb : b ∈ m.backers) : ∃ l, l ∈ b.leaves := by
  cases hc : b.child? with
  | none =>
    cases b with
    | bytes start data => exact ⟨(start, data), by simp [Backer.leaves]⟩
    | clemory start consecutive minAddr maxAddr backers => cases hc
  | some c =>
    have hchild : Every (fun m => Shape m ∧ NoEmptyChild m) c := (h.inside hb hc).imp fun _ hm => hm.1
    have hne := hchild.backersFrom_ne_nil (h.here.1.2 b hb c hc) (Int.sub_one_lt_of_le le_rfl)
    obtain ⟨l, ls, hl⟩ := List.exists_cons_of_ne_nil hne
    have hmem := (h.inside hb hc).shape_of_laid.mem_leaves_of_backersFrom (hl ▸ List.mem_cons_self)
    rw [Backer.leaves_child hc]
    exact ⟨_, List.mem_map_of_mem hmem⟩

/-- The first array that a backer yields for an address below its range comes after it. -/
theorem Every.iterFrom_above (h : Every Laid m) (hb : b ∈ m.backers) (ha : a < b.low) :
    ∃ l ls, b.iterFrom a = l :: ls ∧ a < l.1 := by
  have hne : b.iterFrom a ≠ [] := by
    cases hc : b.child? with
    | none =>
      cases b with
      | bytes start data => simp [Backer.iterFrom]
      | clemory start consecutive minAddr maxAddr backers => cases hc
    | some c =>
      have hchild : Every (fun m => Shape m ∧ NoEmptyChild m) c := (h.inside hb hc).imp fun _ hm => hm.1
      rw [Backer.iterFrom_child hc, ne_eq, List.map_eq_nil_iff]
      refine hchild.backersFrom_ne_nil (h.here.1.2 b hb c hc) ?_
      cases b with
      | bytes start data => cases hc
      | clemory start consecutive minAddr maxAddr backers =>
        cases hc
        simp only [Backer.low, Backer.start] at ha ⊢
        omega
  obtain ⟨l, ls, hl⟩ := List.exists_cons_of_ne_nil hne
  have hmem := h.shape_of_laid.mem_leaves_of_iterFrom hb (hl ▸ List.mem_cons_self)
  have := (h.shape_of_laid.leaf_range hb hmem).1
  exact ⟨l, ls, hl, by omega⟩

theorem Disjoint.apart (h : Disjoint m) {i j : Nat} (hi : i < m.backers.length) (hj : j < m.backers.length)
    (hne : i ≠ j) (hlo : m.backers[i].low ≤ a) (hhi : a < m.backers[i].calculateEnd)
    (hend : a < m.backers[j].calculateEnd) : a < m.backers[j].low := by
  rcases Nat.lt_or_gt_of_ne hne with hlt | hlt
  · have := List.pairwise_iff_getElem.mp h i j hi hj hlt a
    omega
  · have := List.pairwise_iff_getElem.mp h j i hj hi hlt a
    omega

/-- The yielded arrays start with those of the backer that the bisection stops at. -/
theorem Clemory.head?_backersFrom {l : Leaf} (h : l ∈ (m.backersFrom a).head?) :
    l ∈ (iterFromIndex a (bisect (m.backers.map Backer.calculateEnd) a) m.backers).head? := by
  unfold backersFrom at h
  split at h
  · cases h
  · exact h

theorem iterFromIndex_getElem {bs : List Backer} {i : Nat} (hi : i < bs.length) :
    iterFromIndex a i bs = bs[i].iterFrom a ++ iterFromIndex a (i + 1) bs := by
  rw [iterFromIndex_eq, iterFromIndex_eq, List.drop_eq_getElem_cons hi, List.flatMap_cons]

theorem getD_ends {i : Nat} (hi : i < m.backers.length) :
    (m.backers.map Backer.calculateEnd).getD i default = m.backers[i].calculateEnd := by
  rw [List.getD_eq_getElem _ _ (by rw [List.length_map]; exact hi), List.getElem_map]

/-- Two neighbours end in the wrong order: nothing of the second can be loaded. -/
theorem Every.missed_of_not_ordered (h : Every Laid m) (hnot : ¬ Ordered m) : Missed m := by
  unfold Ordered at hnot
  rw [← List.isChain_iff_pairwise, List.isChain_iff_getElem] at hnot
  simp only [not_forall, not_le] at hnot
  obtain ⟨i, hi, hlt⟩ := hnot
  rw [List.length_map] at hi
  rw [List.getElem_map, List.getElem_map] at hlt
  have hmem : m.backers[i + 1] ∈ m.backers := List.getElem_mem _
  obtain ⟨l, hl⟩ := h.exists_leaf hmem
  have hrange := h.shape_of_laid.leaf_range hmem hl
  refine ⟨l.1, ?_, fun l' hl' => ?_⟩
  · rw [h.shape_of_laid.getItem_eq, lookup_isSome]
    exact ⟨l, Clemory.mem_leaves.mpr ⟨_, hmem, hl⟩, le_rfl, hrange.2.1⟩
  have hl' := Clemory.head?_backersFrom hl'
  obtain ⟨hle, hfront, hback⟩ := bisect_spec (m.backers.map Backer.calculateEnd) l.1
  generalize bisect (m.backers.map Backer.calculateEnd) l.1 = j at hl' hle hfront hback
  rw [List.length_map] at hle hback
  have hj : j ≠ i + 1 := by
    rintro rfl
    have := hfront i rfl
    rw [getD_ends (by omega)] at this
    omega
  by_cases hlen : j < m.backers.length
  · have hend := hback hlen
    rw [getD_ends hlen] at hend
    have hlow := h.here.2.apart hi hlen (Ne.symm hj) hrange.1 (by omega) hend
    obtain ⟨l₀, ls, heq, hlt⟩ := h.iterFrom_above (List.getElem_mem hlen) hlow
    rw [iterFromIndex_getElem hlen, heq] at hl'
    cases hl'
    exact hlt
  · rw [iterFromIndex_eq, List.drop_eq_nil_of_le (by omega)] at hl'
    cases hl'

/-- What is missed in a child is missed in its parent. -/
theorem Every.missed_of_child (h : Every Laid m) (hordered : Ordered m) (hb : b ∈ m.backers) {c : Clemory}
    (hc : b.child? = some c) (hmissed : Missed c) : Missed m := by
  obtain ⟨a, hsome, hhead⟩ := hmissed
  rw [(h.inside hb hc).shape_of_laid.getItem_eq, lookup_isSome] at hsome
  obtain ⟨l, hl, hlo, hhi⟩ := hsome
  have hleaf : l.shift b.start ∈ b.leaves := by
    rw [Backer.leaves_child hc]
    exact List.mem_map_of_mem hl
  have hrange := h.shape_of_laid.leaf_range hb hleaf
  rw [Leaf.stop_shift] at hrange
  simp only [Leaf.shift] at hrange
  refine ⟨a + b.start, ?_, fun l' hl' => ?_⟩
  · rw [h.shape_of_laid.getItem_eq, lookup_isSome]
    refine ⟨_, Clemory.mem_leaves.mpr ⟨b, hb, hleaf⟩, ?_, ?_⟩
    · simp only [Leaf.shift]
      omega
    · rw [Leaf.stop_shift]
      omega
  have hl' := Clemory.head?_backersFrom hl'
  obtain ⟨i, hi, rfl⟩ := List.getElem_of_mem hb
  have hin : m.backers[i].low ≤ a + m.backers[i].start ∧ a + m.backers[i].start < m.backers[i].calculateEnd := by
    omega
  -- The bisection stops at the child.
  have hstop : bisect (m.backers.map Backer.calculateEnd) (a + m.backers[i].start) = i := by
    obtain ⟨hle, hfront, hback⟩ := bisect_spec (m.backers.map Backer.calculateEnd) (a + m.backers[i].start)
    generalize bisect (m.backers.map Backer.calculateEnd) (a + m.backers[i].start) = j at hle hfront hback
    rw [List.length_map] at hle hback
    rcases Nat.lt_trichotomy j i with hlt | heq | hgt
    · have hlen : j < m.backers.length := by omega
      have hend := hback hlen
      rw [getD_ends hlen] at hend
      have hlow := h.here.2.apart hi hlen (by omega) hin.1 hin.2 hend
      have hle := getD_le_of_sorted hordered (Nat.le_of_lt hlt) (by rw [List.length_map]; exact hi)
      rw [getD_ends hlen, getD_ends hi] at hle
      -- The range of the earlier backer is not empty, and inside the child's.
      obtain ⟨l₀, hl₀⟩ := h.exists_leaf (List.getElem_mem hlen)
      have hrange₀ := h.shape_of_laid.leaf_range (List.getElem_mem hlen) hl₀
      have := List.pairwise_iff_getElem.mp h.here.2 j i hlen hi hlt m.backers[j].low
      omega
    · exact heq
    · have hkey := hfront (j - 1) (by omega)
      have hle := getD_le_of_sorted hordered (show i ≤ j - 1 by omega) (by rw [List.length_map]; omega)
      rw [getD_ends hi] at hle
      omega
  rw [hstop, iterFromIndex_getElem hi, Backer.iterFrom_child hc, Int.add_sub_cancel] at hl'
  cases hfrom : c.backersFrom a with
  | cons l₀ ls =>
    rw [hfrom] at hl'
    cases hl'
    have := hhead l₀ (by rw [hfrom]; rfl)
    simp only [Leaf.shift]
    omega
  | nil =>
    -- Nothing is yielded for the child, and what comes next lies after it.
    rw [hfrom, List.map_nil, List.nil_append, iterFromIndex_eq] at hl'
    obtain ⟨b', hb', hl'⟩ := List.mem_flatMap.mp (List.mem_of_mem_head? hl')
    obtain ⟨n, hn, rfl⟩ := List.mem_drop_iff_getElem.mp hb'
    have hend := getD_le_of_sorted hordered (show i ≤ i + 1 + n by omega)
      (by rw [List.length_map]; omega)
    rw [getD_ends hi, getD_ends (by omega)] at hend
    have hlow := h.here.2.apart hi (show i + 1 + n < m.backers.length by omega) (by omega) hin.1 hin.2 (by omega)
    have hmem := h.shape_of_laid.mem_leaves_of_iterFrom (List.getElem_mem _) hl'
    have := (h.shape_of_laid.leaf_range (List.getElem_mem _) hmem).1
    omega

theorem Every.missed (h : Every Laid m) (hnot : ¬ Every Ordered m) : Missed m := by
  induction h with
  | mk m hm hrest ih =>
    have hlaid : Every Laid m := .mk m hm hrest
    by_cases hordered : Ordered m
    · by_contra hmissed
      refine hnot (.mk m hordered fun b hb c hc => ?_)
      by_contra hchild
      exact hmissed (hlaid.missed_of_child hordered hb hc (ih b hb c hc hchild))
    · exact hlaid.missed_of_not_ordered hordered

/-- In a tree of memories with disjoint ranges, all access paths agree if in every memory
the backers end in the order they start; and only then, where no child is empty. -/
theorem access_paths_agree (h : Built m) (hdisjoint : Every Disjoint m) :
    (Every Ordered m → Agrees m) ∧ (Every NoEmptyChild m → Agrees m → Every Ordered m) := by
  refine ⟨fun hordered => ?_, fun hchildren hagrees => ?_⟩
  · have hall := (h.shape.and hdisjoint).and hordered
    exact Every.agrees (hall.imp fun _ hm => ⟨hm.1.1, hm.1.2, hm.2⟩)
  · by_contra hnot
    exact Missed.not_agrees (Every.missed ((h.shape.and hchildren).and hdisjoint) hnot) hagrees

/-- Three bytes at address `100`. -/
def child : Clemory := { minAddr := 100, maxAddr := 103, backers := [.bytes 100 [1, 2, 3]] }

theorem built_child : Built child :=
  .bytes (.empty false) (by decide : (0 : Int) ≤ 100) (show Clemory.addBytes {} 100 [1, 2, 3] = .ok child from rfl)

/-- The child, at address `0`. -/
def parent : Clemory :=
  { consecutive := false, maxAddr := 103, backers := [.clemory 0 true 100 103 [.bytes 100 [1, 2, 3]]] }

theorem built_parent : Built parent :=
  .clemory (.empty false) built_child le_rfl (show Clemory.addClemory {} 0 child = .ok parent from rfl)

theorem disjoint_child : Every Disjoint child :=
  .mk _ (List.pairwise_singleton _ _) fun b hb c hc => by
    cases List.mem_singleton.mp hb
    cases hc

/-- Two bytes more, after those of the child. -/
def inOrder : Clemory :=
  { parent with maxAddr := 202, backers := parent.backers ++ [.bytes 200 [7, 8]] }

theorem built_inOrder : Built inOrder :=
  .bytes built_parent (by decide : (0 : Int) ≤ 200) (show parent.addBytes 200 [7, 8] = .ok inOrder from rfl)

theorem every_inOrder {P : Clemory → Prop} (h : P inOrder) (hchild : Every P child) : Every P inOrder := by
  refine .mk _ h fun b hb c hc => ?_
  rcases List.mem_cons.mp hb with rfl | hb
  · cases hc
    exact hchild
  · cases List.mem_singleton.mp hb
    cases hc

theorem disjoint_inOrder : Every Disjoint inOrder := by
  refine every_inOrder (List.pairwise_pair.mpr fun a ha => ?_) disjoint_child
  simp only [Backer.low, Backer.calculateEnd, List.length_cons, List.length_nil] at ha
  omega

theorem access_paths_agree_example :
    (Every Ordered inOrder → Agrees inOrder) ∧ (Every NoEmptyChild inOrder → Agrees inOrder → Every Ordered inOrder) :=
  access_paths_agree built_inOrder disjoint_inOrder

/-- Two bytes more, before those of the child: they start after it and end before it. -/
def outOfOrder : Clemory := { parent with backers := parent.backers ++ [.bytes 10 [7, 8]] }

theorem bytes_before_child_not_loaded :
    Built outOfOrder ∧ Every Disjoint outOfOrder ∧ outOfOrder.getItem 10 = some 7 ∧
      outOfOrder.load 10 1 = none ∧ ¬ Agrees outOfOrder := by
  have hbuilt : Built outOfOrder :=
    .bytes built_parent (by decide : (0 : Int) ≤ 10) (show parent.addBytes 10 [7, 8] = .ok outOfOrder from rfl)
  refine ⟨hbuilt, .mk _ ?_ fun b hb c hc => ?_, rfl, rfl, fun h => ?_⟩
  · refine List.pairwise_pair.mpr fun a ha => ?_
    simp only [Backer.low, Backer.calculateEnd, List.length_cons, List.length_nil] at ha
    omega
  · rcases List.mem_cons.mp hb with rfl | hb
    · cases hc
      exact disjoint_child
    · cases List.mem_singleton.mp hb
      cases hc
  · have hload : outOfOrder.load 10 1 = some [7] := h.load 10 1
    cases hload

end Cle
