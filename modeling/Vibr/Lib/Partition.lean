import Mathlib.Data.Fintype.Card

/-!
# Partition refinement

A partition of a finite set is a list of blocks, each known by its index. A block is split
by keeping one part in place and putting the other one at the end.

For a partial function `step`, two elements agree on a block if both or neither of them step
into it. The refinement is done when elements of one block agree on every block; until then
`Settled` says that they do if they agree on the blocks that wait in the worklist.
-/

namespace Partition

variable {α β : Type*}

def block (blocks : List (Finset α)) (i : Nat) : Finset α := blocks.getD i ∅

def Together (blocks : List (Finset α)) (x y : α) : Prop :=
  ∃ i, x ∈ block blocks i ∧ y ∈ block blocks i

structure IsPartition (R : Finset α) (blocks : List (Finset α)) : Prop where
  nonempty : ∀ i, i < blocks.length → (block blocks i).Nonempty
  unique : ∀ i j x, x ∈ block blocks i → x ∈ block blocks j → i = j
  cover : ∀ x, x ∈ R ↔ ∃ i, x ∈ block blocks i

variable {R : Finset α} {blocks : List (Finset α)} {i p : Nat} {x y : α}

theorem block_eq_empty (h : blocks.length ≤ i) : block blocks i = ∅ := by
  rw [block, List.getD_eq_getElem?_getD, List.getElem?_eq_none h]
  rfl

theorem lt_length_of_mem_block (h : x ∈ block blocks i) : i < blocks.length := by
  by_contra hge
  rw [block_eq_empty (not_lt.mp hge)] at h
  simp at h

/-- There are no more blocks than elements. -/
theorem IsPartition.length_le (h : IsPartition R blocks) : blocks.length ≤ R.card := by
  choose f hf using fun i : Fin blocks.length => h.nonempty i i.isLt
  have hinj : Function.Injective f := by
    intro i j hij
    exact Fin.ext (h.unique i j (f i) (hf i) (hij ▸ hf j))
  calc blocks.length = (Finset.univ : Finset (Fin blocks.length)).card := (Finset.card_fin _).symm
    _ ≤ R.card := Finset.card_le_card_of_injOn f (fun i _ => (h.cover (f i)).mpr ⟨i, hf i⟩)
        hinj.injOn

/-- The partition into the parts, as far as they have elements, of two sets. -/
theorem isPartition_pair [DecidableEq α] {A B : Finset α} (hAB : Disjoint A B) (hR : A ∪ B = R) :
    IsPartition R ([A, B].filter (· ≠ ∅)) ∧
      ∀ x y, Together ([A, B].filter (· ≠ ∅)) x y → x ∈ A ∧ y ∈ A ∨ x ∈ B ∧ y ∈ B := by
  have hone : ∀ C : Finset α, ∀ i x, x ∈ block [C] i → i = 0 ∧ x ∈ C := by
    intro C i x hx
    cases i with
    | zero => exact ⟨rfl, hx⟩
    | succ i => simp [block] at hx
  have hsingle : ∀ C : Finset α, C ≠ ∅ → IsPartition C [C] := by
    intro C hC
    refine ⟨fun i hi => ?_, fun i j x hx hy => ?_, fun x => ⟨fun hx => ⟨0, hx⟩, ?_⟩⟩
    · obtain rfl : i = 0 := by simpa using hi
      exact Finset.nonempty_iff_ne_empty.mpr hC
    · rw [(hone C i x hx).1, (hone C j x hy).1]
    · rintro ⟨i, hi⟩
      exact (hone C i x hi).2
  by_cases hA : A = ∅
  · by_cases hB : B = ∅
    · subst hA hB hR
      refine ⟨⟨by simp, by simp [block], by simp [block]⟩, by simp [Together, block]⟩
    · have hfilter : [A, B].filter (· ≠ ∅) = [B] := by simp [hA, hB]
      rw [hfilter, ← hR, hA, Finset.empty_union]
      refine ⟨hsingle B hB, fun x y ⟨i, hx, hy⟩ => .inr ⟨(hone B i x hx).2, (hone B i y hy).2⟩⟩
  by_cases hB : B = ∅
  · have hfilter : [A, B].filter (· ≠ ∅) = [A] := by simp [hA, hB]
    rw [hfilter, ← hR, hB, Finset.union_empty]
    refine ⟨hsingle A hA, fun x y ⟨i, hx, hy⟩ => .inl ⟨(hone A i x hx).2, (hone A i y hy).2⟩⟩
  have hfilter : [A, B].filter (· ≠ ∅) = [A, B] := by simp [hA, hB]
  have htwo : ∀ i x, x ∈ block [A, B] i → i = 0 ∧ x ∈ A ∨ i = 1 ∧ x ∈ B := by
    intro i x hx
    match i with
    | 0 => exact .inl ⟨rfl, hx⟩
    | 1 => exact .inr ⟨rfl, hx⟩
    | i + 2 => simp [block] at hx
  have hdisj := Finset.disjoint_left.mp hAB
  rw [hfilter]
  refine ⟨⟨fun i hi => ?_, fun i j x hx hy => ?_, fun x => ⟨fun hx => ?_, ?_⟩⟩, ?_⟩
  · match i with
    | 0 => exact Finset.nonempty_iff_ne_empty.mpr hA
    | 1 => exact Finset.nonempty_iff_ne_empty.mpr hB
    | i + 2 => exact absurd hi (by simp)
  · rcases htwo i x hx with ⟨rfl, hx⟩ | ⟨rfl, hx⟩ <;> rcases htwo j x hy with ⟨rfl, hy⟩ | ⟨rfl, hy⟩
    · rfl
    · exact absurd hy (hdisj hx)
    · exact absurd hx (hdisj hy)
    · rfl
  · rw [← hR, Finset.mem_union] at hx
    exact hx.elim (fun hx => ⟨0, hx⟩) fun hx => ⟨1, hx⟩
  · rintro ⟨i, hi⟩
    rw [← hR, Finset.mem_union]
    exact (htwo i x hi).imp And.right And.right
  rintro x y ⟨i, hx, hy⟩
  rcases htwo i x hx with ⟨rfl, hx⟩ | ⟨rfl, hx⟩
  · exact .inl ⟨hx, hy⟩
  · exact .inr ⟨hx, hy⟩

/-! ## Splits -/

variable {keep add : Finset α}

def split (blocks : List (Finset α)) (p : Nat) (keep add : Finset α) : List (Finset α) :=
  blocks.set p keep ++ [add]

theorem length_split : (split blocks p keep add).length = blocks.length + 1 := by simp [split]

theorem block_split (hp : p < blocks.length) :
    block (split blocks p keep add) i
      = if i = p then keep else if i = blocks.length then add else block blocks i := by
  unfold block split
  simp only [List.getD_eq_getElem?_getD]
  by_cases hip : i = p
  · subst hip
    rw [List.getElem?_append_left (by simpa using hp)]
    simp [hp]
  rw [if_neg hip]
  by_cases hlen : i = blocks.length
  · simp [hlen]
  rw [if_neg hlen]
  by_cases hlt : i < blocks.length
  · rw [List.getElem?_append_left (by simpa using hlt), List.getElem?_set_ne (Ne.symm hip)]
  · rw [List.getElem?_eq_none (by simp; omega), List.getElem?_eq_none (by omega)]

variable [DecidableEq α]

/-- The two parts of a block. -/
structure IsSplit (blocks : List (Finset α)) (p : Nat) (keep add : Finset α) : Prop where
  lt_length : p < blocks.length
  union : block blocks p = keep ∪ add
  disjoint : Disjoint keep add
  keep_nonempty : keep.Nonempty
  add_nonempty : add.Nonempty

/-- Where an element of a new block was before. -/
theorem IsSplit.mem_of_mem (h : IsSplit blocks p keep add)
    (hx : x ∈ block (split blocks p keep add) i) :
    x ∈ block blocks (if i = blocks.length then p else i) := by
  have hp := h.lt_length
  rw [block_split hp] at hx
  split at hx
  · rename_i hip
    rw [if_neg (by omega), hip, h.union]
    exact Finset.mem_union_left _ hx
  split at hx
  · rename_i hlen
    rw [if_pos hlen, h.union]
    exact Finset.mem_union_right _ hx
  · rename_i hlen
    rwa [if_neg hlen]

theorem IsSplit.together (h : IsSplit blocks p keep add)
    (hxy : Together (split blocks p keep add) x y) : Together blocks x y := by
  obtain ⟨i, hx, hy⟩ := hxy
  exact ⟨_, h.mem_of_mem hx, h.mem_of_mem hy⟩

theorem IsPartition.split (hR : IsPartition R blocks) (h : IsSplit blocks p keep add) :
    IsPartition R (split blocks p keep add) := by
  have hp := h.lt_length
  refine ⟨fun i hi => ?_, fun i j x hx hy => ?_, fun x => ⟨fun hx => ?_, ?_⟩⟩
  · rw [length_split] at hi
    rw [block_split hp]
    split
    · exact h.keep_nonempty
    · split
      · exact h.add_nonempty
      · exact hR.nonempty i (by omega)
  · have hij := hR.unique _ _ x (h.mem_of_mem hx) (h.mem_of_mem hy)
    have hdisj := Finset.disjoint_left.mp h.disjoint
    rw [block_split hp] at hx hy
    -- only the two parts come from one block
    split at hij <;> split at hij
    · omega
    · rw [if_neg (by omega), if_pos (by assumption)] at hx
      rw [if_pos hij.symm] at hy
      exact absurd hx (hdisj hy)
    · rw [if_pos hij] at hx
      rw [if_neg (by omega), if_pos (by assumption)] at hy
      exact absurd hy (hdisj hx)
    · exact hij
  · obtain ⟨i, hi⟩ := (hR.cover x).mp hx
    by_cases hip : i = p
    · subst hip
      rw [h.union] at hi
      rcases Finset.mem_union.mp hi with hi | hi
      · exact ⟨i, by rwa [block_split hp, if_pos rfl]⟩
      · exact ⟨blocks.length, by rwa [block_split hp, if_neg (by omega), if_pos rfl]⟩
    · have hlt := lt_length_of_mem_block hi
      exact ⟨i, by rwa [block_split hp, if_neg hip, if_neg (by omega)]⟩
  · rintro ⟨i, hi⟩
    exact (hR.cover x).mpr ⟨_, h.mem_of_mem hi⟩

/-- A split leaves the splits of the other blocks as they are. -/
theorem IsSplit.of_split {q : Nat} {keep' add' : Finset α} (h : IsSplit blocks p keep add)
    (h' : IsSplit blocks q keep' add') (hne : q ≠ p) :
    IsSplit (split blocks p keep add) q keep' add' where
  lt_length := by
    rw [length_split]
    exact h'.lt_length.trans (Nat.lt_succ_self _)
  union := by
    have := h'.lt_length
    rw [block_split h.lt_length, if_neg hne, if_neg (by omega), h'.union]
  disjoint := h'.disjoint
  keep_nonempty := h'.keep_nonempty
  add_nonempty := h'.add_nonempty

/-- Elements of different blocks are told apart by a relation. -/
def Separates (Q : α → α → Prop) (blocks : List (Finset α)) : Prop :=
  ∀ i j x y, x ∈ block blocks i → y ∈ block blocks j → i ≠ j → Q x y

theorem Separates.split {Q : α → α → Prop} (hQ : Separates Q blocks) (hsymm : ∀ x y, Q x y → Q y x)
    (h : IsSplit blocks p keep add) (hparts : ∀ x ∈ keep, ∀ y ∈ add, Q x y) :
    Separates Q (split blocks p keep add) := by
  intro i j x y hx hy hij
  by_cases hold : (if i = blocks.length then p else i) = (if j = blocks.length then p else j)
  · rw [block_split h.lt_length] at hx hy
    -- only the two parts come from one block
    split at hold <;> split at hold
    · omega
    · rename_i hi hj
      rw [if_neg (by have := h.lt_length; omega), if_pos hi] at hx
      rw [if_pos hold.symm] at hy
      exact hsymm y x (hparts y hy x hx)
    · rename_i hi hj
      rw [if_pos hold] at hx
      rw [if_neg (by have := h.lt_length; omega), if_pos hj] at hy
      exact hparts x hx y hy
    · exact absurd hold hij
  · exact hQ _ _ x y (h.mem_of_mem hx) (h.mem_of_mem hy) hold

/-! ## Refinement -/

variable (step : α → β → Option α) {symbols : List β} {worklist : List (Nat × β)}
  {extra : α → α → β → Prop}

def Hits (x : α) (b : β) (B : Finset α) : Prop := ∃ t ∈ B, step x b = some t

def Agree (x y : α) (b : β) (B : Finset α) : Prop := Hits step x b B ↔ Hits step y b B

/-- Elements of a block that agree on the blocks of the worklist, and on what is `extra`,
agree on all blocks. -/
def Settled (symbols : List β) (worklist : List (Nat × β)) (extra : α → α → β → Prop)
    (blocks : List (Finset α)) : Prop :=
  ∀ x y, Together blocks x y → ∀ b ∈ symbols,
    (∀ k, (k, b) ∈ worklist → Agree step x y b (block blocks k)) → extra x y b →
      ∀ j, Agree step x y b (block blocks j)

variable {step} {b : β} {B C : Finset α}

theorem hits_union : Hits step x b (B ∪ C) ↔ Hits step x b B ∨ Hits step x b C := by
  simp only [Hits, Finset.mem_union]
  grind

theorem Agree.union (hB : Agree step x y b B) (hC : Agree step x y b C) :
    Agree step x y b (B ∪ C) := by
  unfold Agree at *
  rw [hits_union, hits_union, hB, hC]

/-- A step has one target: it is in the first part if it is in the whole and not in the second. -/
theorem Agree.left (hdisj : Disjoint B C) (hU : Agree step x y b (B ∪ C))
    (hC : Agree step x y b C) : Agree step x y b B := by
  have hleft : ∀ z, Hits step z b B ↔ Hits step z b (B ∪ C) ∧ ¬ Hits step z b C := by
    intro z
    rw [hits_union]
    constructor
    · rintro ⟨t, ht, hst⟩
      refine ⟨.inl ⟨t, ht, hst⟩, ?_⟩
      rintro ⟨u, hu, hsu⟩
      obtain rfl : t = u := Option.some.inj (hst.symm.trans hsu)
      exact Finset.disjoint_left.mp hdisj ht hu
    · rintro ⟨h | h, hn⟩
      · exact h
      · exact absurd h hn
  unfold Agree at *
  rw [hleft, hleft, hU, hC]

/-- A split keeps the invariant if the part that is added waits for every symbol. -/
theorem Settled.split (hs : Settled step symbols worklist extra blocks)
    (h : IsSplit blocks p keep add) :
    Settled step symbols (worklist ++ symbols.map fun b => (blocks.length, b)) extra
      (split blocks p keep add) := by
  have hp := h.lt_length
  intro x y hxy b hb hagree hextra
  have hadd : Agree step x y b add := by
    have hnew := hagree blocks.length
      (List.mem_append_right _ (List.mem_map.mpr ⟨b, hb, rfl⟩))
    rwa [block_split hp, if_neg (by omega), if_pos rfl] at hnew
  have hold : ∀ j, Agree step x y b (block blocks j) := by
    refine hs x y (h.together hxy) b hb (fun k hk => ?_) hextra
    have hk' := hagree k (List.mem_append_left _ hk)
    rw [block_split hp] at hk'
    by_cases hkp : k = p
    · rw [if_pos hkp] at hk'
      rw [hkp, h.union]
      exact hk'.union hadd
    rw [if_neg hkp] at hk'
    by_cases hlen : k = blocks.length
    · rw [block_eq_empty (Nat.le_of_eq hlen.symm)]
      simp [Agree, Hits]
    · rwa [if_neg hlen] at hk'
  intro j
  rw [block_split hp]
  split
  · have := hold p
    rw [h.union] at this
    exact this.left h.disjoint hadd
  · split
    · exact hadd
    · exact hold j

end Partition
