import Vibr.Cle.AddBacker

/-!
# Trees of memories

A memory is a tree with byte arrays as leaves. `leaves` lists them at their addresses in
the memory; what is said of every memory of a tree is said with `Every`.
-/

namespace Cle

open Bisect

/-- The child memory of a backer. -/
def Backer.child? : Backer → Option Clemory
  | .bytes _ _ => none
  | .clemory _ consecutive minAddr maxAddr backers => some { consecutive, minAddr, maxAddr, backers }

/-- The first address of the range of a backer. -/
def Backer.low : Backer → Int
  | .bytes start _ => start
  | .clemory start _ minAddr _ _ => start + minAddr

/-- A memory and all memories below it have a property. -/
inductive Every (P : Clemory → Prop) : Clemory → Prop
  | mk (m : Clemory) : P m → (∀ b ∈ m.backers, ∀ c, b.child? = some c → Every P c) → Every P m

variable {P Q : Clemory → Prop} {m : Clemory}

theorem Every.here (h : Every P m) : P m := by
  cases h with
  | mk _ hm _ => exact hm

variable {b : Backer}

theorem Every.inside (h : Every P m) (hb : b ∈ m.backers) {c : Clemory} (hc : b.child? = some c) : Every P c := by
  cases h with
  | mk _ _ hrest => exact hrest b hb c hc

theorem Every.and (h : Every P m) (h' : Every Q m) : Every (fun m => P m ∧ Q m) m := by
  induction h with
  | mk m hm _ ih => exact .mk m ⟨hm, h'.here⟩ fun b hb c hc => ih b hb c hc (h'.inside hb hc)

theorem Every.imp (hPQ : ∀ m, P m → Q m) (h : Every P m) : Every Q m := by
  induction h with
  | mk m hm _ ih => exact .mk m (hPQ m hm) ih

/-! ## Byte arrays of a tree -/

/-- A byte array at the address where it starts. -/
abbrev Leaf := Int × List UInt8

namespace Leaf

def stop (l : Leaf) : Int := l.1 + l.2.length

def shift (start : Int) (l : Leaf) : Leaf := (l.1 + start, l.2)

@[simp] theorem stop_shift (start : Int) (l : Leaf) : (l.shift start).stop = l.stop + start := by
  simp only [shift, stop]
  omega

/-- The byte of an array at an address. -/
def get (k : Int) (l : Leaf) : Option UInt8 := (Backer.bytes l.1 l.2).getItem k

theorem get_eq (k : Int) (l : Leaf) :
    l.get k = if l.1 ≤ k ∧ k < l.stop then l.2[(k - l.1).toNat]? else none := by
  unfold get stop
  rw [Backer.getItem]
  exact if_congr (by omega) rfl rfl

theorem get_pair (k start : Int) (data : List UInt8) :
    Leaf.get k (start, data) =
      if start ≤ k ∧ k < start + data.length then data[(k - start).toNat]? else none := get_eq k (start, data)

theorem get_isSome (k : Int) (l : Leaf) : (l.get k).isSome ↔ l.1 ≤ k ∧ k < l.stop := by
  rw [get_eq]
  split
  · rename_i hin
    unfold stop at hin ⊢
    rw [List.getElem?_eq_getElem (by omega)]
    simp [hin]
  · rename_i hout
    simp [hout]

theorem get_shift (start k : Int) (l : Leaf) : (l.shift start).get k = l.get (k - start) := by
  rw [get_eq, get_eq, stop_shift]
  have hsub : k - (l.1 + start) = k - start - l.1 := by omega
  simp only [shift, hsub]
  exact if_congr (by omega) rfl rfl

end Leaf

mutual

def Backer.leaves : Backer → List Leaf
  | .bytes start data => [(start, data)]
  | .clemory start _ _ _ backers => (leavesIn backers).map (Leaf.shift start)

@[grind =] def leavesIn : List Backer → List Leaf
  | [] => []
  | backer :: rest => backer.leaves ++ leavesIn rest

end

def Clemory.leaves (m : Clemory) : List Leaf := leavesIn m.backers

theorem leavesIn_eq (bs : List Backer) : leavesIn bs = bs.flatMap Backer.leaves := by
  induction bs with
  | nil => simp [leavesIn]
  | cons b bs ih => rw [leavesIn, ih, List.flatMap_cons]

theorem Clemory.mem_leaves {l : Leaf} : l ∈ m.leaves ↔ ∃ b ∈ m.backers, l ∈ b.leaves := by
  rw [Clemory.leaves, leavesIn_eq, List.mem_flatMap]

/-- The leaves of a backer: the array itself, or those of the child, moved. -/
theorem Backer.leaves_child {c : Clemory} (hc : b.child? = some c) :
    b.leaves = c.leaves.map (Leaf.shift b.start) := by
  cases b with
  | bytes start data => cases hc
  | clemory start consecutive minAddr maxAddr backers =>
    cases hc
    rw [Backer.leaves]
    rfl

/-- The byte at an address, among some arrays. -/
def lookup (k : Int) (ls : List Leaf) : Option UInt8 := ls.findSome? (Leaf.get k)

theorem lookup_append (k : Int) (front back : List Leaf) :
    lookup k (front ++ back) = (lookup k front).or (lookup k back) := by
  simp [lookup, List.findSome?_append]

theorem lookup_isSome {k : Int} {ls : List Leaf} :
    (lookup k ls).isSome ↔ ∃ l ∈ ls, l.1 ≤ k ∧ k < l.stop := by
  simp only [lookup, List.isSome_findSome?, List.any_eq_true]
  exact exists_congr fun l => and_congr_right fun _ => Leaf.get_isSome k l

theorem lookup_shift (start k : Int) (ls : List Leaf) :
    lookup k (ls.map (Leaf.shift start)) = lookup (k - start) ls := by
  simp only [lookup, List.findSome?_map, Function.comp_def, Leaf.get_shift]

/-! ## Shape -/

/-- The attributes are those that `_update_min_max` derives from the backers. -/
def Derived (m : Clemory) : Prop :=
  let s := m.backers.foldl MinMax.visit {}
  m.consecutive = s.isConsecutive ∧ m.minAddr = s.minAddr.getD 0 ∧ m.maxAddr = s.maxAddr.getD 0

/-- How `add_backer` leaves a memory. -/
structure Shape (m : Clemory) : Prop where
  nonneg : ∀ b ∈ m.backers, 0 ≤ b.start
  arrays : ∀ start data, .bytes start data ∈ m.backers → data ≠ []
  sorted : (m.backers.map Backer.start).Pairwise (· ≤ ·)
  derived : Derived m

theorem Derived.minAddr_eq (h : Derived m) {bs : List Backer} (hbs : m.backers = b :: bs) :
    m.minAddr = b.start := by
  rw [h.2.1, foldl_minAddr, hbs]
  rfl

theorem Derived.calculateEnd_le (h : Derived m) (hb : b ∈ m.backers) : b.calculateEnd ≤ m.maxAddr := by
  obtain ⟨b₀, bs, hbs⟩ := List.exists_cons_of_ne_nil (List.ne_nil_of_mem hb)
  obtain ⟨e, he, hends, -⟩ := foldl_maxAddr bs {} b₀
  rw [h.2.2, hbs, he]
  exact hends b (hbs ▸ hb)

theorem Shape.minAddr_nonneg (h : Shape m) : 0 ≤ m.minAddr := by
  cases hbs : m.backers with
  | nil =>
    have := h.derived.2.1
    rw [hbs] at this
    rw [this]
    exact le_rfl
  | cons b bs =>
    rw [h.derived.minAddr_eq hbs]
    exact h.nonneg b (hbs ▸ List.mem_cons_self)

theorem Shape.minAddr_le (h : Shape m) (hb : b ∈ m.backers) : m.minAddr ≤ b.start := by
  obtain ⟨b₀, bs, hbs⟩ := List.exists_cons_of_ne_nil (List.ne_nil_of_mem hb)
  rw [h.derived.minAddr_eq hbs]
  rw [hbs] at hb
  have hsorted := h.sorted
  rw [hbs, List.map_cons, List.pairwise_cons] at hsorted
  rcases List.mem_cons.mp hb with rfl | hb
  · exact le_rfl
  · exact hsorted.1 _ (List.mem_map_of_mem hb)

/-- The lowest address of a backer's range is not below its start. -/
theorem Every.start_le_low (h : Every Shape m) (hb : b ∈ m.backers) : b.start ≤ b.low := by
  cases b with
  | bytes start data => exact le_rfl
  | clemory start consecutive minAddr maxAddr backers =>
    have hnonneg : 0 ≤ minAddr := (h.inside hb rfl).here.minAddr_nonneg
    simp only [Backer.start, Backer.low]
    omega

/-- Every array lies in the range that the attributes give, and is not empty. -/
theorem Every.leaf_bounds (h : Every Shape m) {l : Leaf} (hl : l ∈ m.leaves) :
    m.minAddr ≤ l.1 ∧ l.1 < l.stop ∧ l.stop ≤ m.maxAddr := by
  induction h generalizing l with
  | mk m hm hrest ih =>
    obtain ⟨b, hb, hlb⟩ := Clemory.mem_leaves.mp hl
    have hmin := hm.minAddr_le hb
    have hend := hm.derived.calculateEnd_le hb
    cases hc : b.child? with
    | none =>
      cases b with
      | clemory start consecutive minAddr maxAddr backers => cases hc
      | bytes start data =>
        rw [Backer.leaves, List.mem_singleton] at hlb
        subst hlb
        have := List.length_pos_iff.mpr (hm.arrays start data hb)
        simp only [Backer.start, Backer.calculateEnd] at hmin hend
        simp only [Leaf.stop]
        omega
    | some c =>
      rw [Backer.leaves_child hc, List.mem_map] at hlb
      obtain ⟨l', hl', rfl⟩ := hlb
      obtain ⟨hlo, hne, hhi⟩ := ih b hb c hc hl'
      have hnonneg := (hrest b hb c hc).here.minAddr_nonneg
      cases b with
      | bytes start data => cases hc
      | clemory start consecutive minAddr maxAddr backers =>
        cases hc
        rw [Leaf.stop_shift]
        simp only [Backer.start, Backer.calculateEnd, Leaf.shift] at *
        omega

/-- Every array of a backer lies in the backer's range. -/
theorem Every.leaf_range (h : Every Shape m) (hb : b ∈ m.backers) {l : Leaf} (hl : l ∈ b.leaves) :
    b.low ≤ l.1 ∧ l.1 < l.stop ∧ l.stop ≤ b.calculateEnd := by
  cases hc : b.child? with
  | none =>
    cases b with
    | clemory start consecutive minAddr maxAddr backers => cases hc
    | bytes start data =>
      rw [Backer.leaves, List.mem_singleton] at hl
      subst hl
      have := List.length_pos_iff.mpr (h.here.arrays start data hb)
      simp only [Backer.low, Backer.calculateEnd, Leaf.stop]
      omega
  | some c =>
    have hbounds := fun l' => (h.inside hb hc).leaf_bounds (l := l')
    rw [Backer.leaves_child hc, List.mem_map] at hl
    obtain ⟨l', hl', rfl⟩ := hl
    have := hbounds l' hl'
    cases b with
    | bytes start data => cases hc
    | clemory start consecutive minAddr maxAddr backers =>
      cases hc
      rw [Leaf.stop_shift]
      simp only [Backer.start, Backer.low, Backer.calculateEnd, Leaf.shift] at *
      omega

/-- Indexing a memory finds the byte of its arrays. -/
theorem Every.getItem_eq (h : Every Shape m) (k : Int) : m.getItem k = lookup k m.leaves := by
  induction h generalizing k with
  | mk m hm hrest ih =>
    have hbacker : ∀ b ∈ m.backers, b.getItem k = lookup k b.leaves := by
      intro b hb
      cases hc : b.child? with
      | none =>
        cases b with
        | clemory start consecutive minAddr maxAddr backers => cases hc
        | bytes start data =>
          rw [Backer.leaves, lookup, List.findSome?_cons]
          unfold Leaf.get
          cases (Backer.bytes start data).getItem k <;> rfl
      | some c =>
        rw [Backer.leaves_child hc, lookup_shift, ← ih b hb c hc]
        have hbounds := fun l => (hrest b hb c hc).leaf_bounds (l := l)
        have hget := ih b hb c hc (k - b.start)
        cases b with
        | bytes start data => cases hc
        | clemory start consecutive minAddr maxAddr backers =>
          cases hc
          rw [Backer.getItem]
          split
          · rfl
          -- An array with the address would lie in the range.
          rename_i hout
          rw [hget]
          cases hsome : lookup (k - start) (Clemory.leaves ⟨false, consecutive, minAddr, maxAddr, backers⟩) with
          | none => exact hsome.symm
          | some v =>
            obtain ⟨l, hl, hlo, hhi⟩ := lookup_isSome.mp (Option.isSome_of_eq_some hsome)
            have := hbounds l hl
            simp only at this
            omega
    have hlist : ∀ bs : List Backer, (∀ b ∈ bs, b ∈ m.backers) → getItemIn k bs = lookup k (leavesIn bs) := by
      intro bs
      induction bs with
      | nil => intro _; simp [getItemIn, leavesIn, lookup]
      | cons b bs ihbs =>
        intro hbs
        rw [getItemIn, leavesIn, lookup_append, hbacker b (hbs b List.mem_cons_self),
          ihbs fun b hb => hbs b (List.mem_cons_of_mem _ hb)]
    exact hlist m.backers fun _ hb => hb

/-! ## Building -/

/-- The memories that `add_backer` builds, from byte arrays and complete memories. -/
inductive Built : Clemory → Prop
  | empty (root : Bool) : Built { root }
  | bytes {m m' : Clemory} {start : Int} {data : List UInt8} :
      Built m → 0 ≤ start → m.addBytes start data = .ok m' → Built m'
  | clemory {m m' c : Clemory} {start : Int} :
      Built m → Built c → 0 ≤ start → m.addClemory start c = .ok m' → Built m'

theorem Clemory.addBacker_ok {m' : Clemory} (h : m.addBacker b = .ok m') : m.insort b = .ok m' := by
  unfold addBacker at h
  split at h
  · split at h
    · cases h
    · exact h
  · exact h

theorem Every.insort (h : Every Shape m) {m' : Clemory} (hb : 0 ≤ b.start)
    (hbytes : ∀ start data, b = .bytes start data → data ≠ []) (hchild : ∀ c, b.child? = some c → Every Shape c)
    (hm' : m.insort b = .ok m') : Every Shape m' := by
  unfold Clemory.insort Clemory.updateMinMax at hm'
  dsimp only at hm'
  generalize hi : bisect (m.backers.map Backer.start) b.start = i at hm'
  have hmem : ∀ b' ∈ m.backers.take i ++ b :: m.backers.drop i, b' = b ∨ b' ∈ m.backers := by
    intro b' hb'
    rcases List.mem_append.mp hb' with hb' | hb'
    · exact .inr (List.mem_of_mem_take hb')
    · exact (List.mem_cons.mp hb').imp_right List.mem_of_mem_drop
  split at hm'
  swap
  · cases hm'
  rename_i lo hi' hlo hhi
  cases hm'
  refine .mk _ ⟨fun b' hb' => ?_, fun start data hb' => ?_, ?_, rfl, ?_, ?_⟩ fun b' hb' c hc => ?_
  · rcases hmem b' hb' with rfl | hb'
    · exact hb
    · exact h.here.nonneg b' hb'
  · rcases hmem _ hb' with heq | hb'
    · exact hbytes start data heq.symm
    · exact h.here.arrays start data hb'
  · dsimp only
    rw [List.map_append, List.map_cons, List.map_take, List.map_drop]
    have hfront : ∀ k ∈ (m.backers.map Backer.start).take i, k ≤ b.start :=
      fun k hk => mem_take_bisect h.here.sorted (hi ▸ hk)
    have hback : ∀ k ∈ (m.backers.map Backer.start).drop i, b.start < k :=
      fun k hk => mem_drop_bisect h.here.sorted (hi ▸ hk)
    refine List.pairwise_append.mpr ⟨h.here.sorted.sublist (List.take_sublist _ _),
      List.pairwise_cons.mpr ⟨fun k hk => le_of_lt (hback k hk), h.here.sorted.sublist (List.drop_sublist _ _)⟩,
      fun k hk k' hk' => ?_⟩
    rcases List.mem_cons.mp hk' with rfl | hk'
    · exact hfront k hk
    · exact le_trans (hfront k hk) (le_of_lt (hback k' hk'))
  · rw [hlo]
    rfl
  · rw [hhi]
    rfl
  · rcases hmem b' hb' with rfl | hb'
    · exact hchild c hc
    · exact h.inside hb' hc

theorem Built.shape (h : Built m) : Every Shape m := by
  induction h with
  | empty root =>
    exact .mk _ ⟨by simp, by simp, by simp, rfl, rfl, rfl⟩ (by simp)
  | @bytes m m' start data _ hstart hadd ih =>
    unfold Clemory.addBytes at hadd
    split at hadd
    · cases hadd
    rename_i hne
    refine ih.insort (b := .bytes start data) hstart (fun s d heq => ?_) (fun c hc => by cases hc) (Clemory.addBacker_ok hadd)
    cases heq
    exact hne
  | @clemory m m' c start _ _ hstart hadd ih ihc =>
    unfold Clemory.addClemory at hadd
    split at hadd
    · cases hadd
    refine ih.insort (b := .clemory start c.consecutive c.minAddr c.maxAddr c.backers) hstart
      (fun s d heq => by cases heq) (fun c' hc' => ?_) (Clemory.addBacker_ok hadd)
    cases hc'
    exact .mk _ ⟨ihc.here.nonneg, ihc.here.arrays, ihc.here.sorted, ihc.here.derived⟩
      fun b hb c' hc' => ihc.inside hb hc'

end Cle
