import Vibr.Cle.Tree

/-!
# Access paths

Indexing goes through all backers; loading and storing bisect over their ends. The
backers are sorted by where they start, which is another order for children whose
addresses do not begin at zero, and then the bisection misses backers.
-/

namespace Cle

open Bisect

variable {m : Clemory}

/-! ## Membership -/

theorem isConsecutive_of_foldl {L : List Backer} {s : MinMax}
    (h : (L.foldl MinMax.visit s).isConsecutive = true) : s.isConsecutive = true := by
  induction L generalizing s with
  | nil => exact h
  | cons b L ih =>
    have := ih h
    simp only [MinMax.visit, Bool.and_eq_true] at this
    exact this.1.1

variable {bs : List Backer} {k : Int}

/-- Consecutive backers leave no gap from the start of the first to the end of any. -/
theorem covered_of_consecutive {b : Backer} {s : MinMax}
    (hcovers : ∀ b' ∈ b :: bs, (∀ c, b'.child? = some c → ¬ c.minAddr > 0 ∧ c.consecutive = true) → ∀ k, b'.start ≤ k → k < b'.calculateEnd → (lookup k b'.leaves).isSome)
    (h : ((b :: bs).foldl MinMax.visit s).isConsecutive = true) {b' : Backer} (hb' : b' ∈ b :: bs)
    (hlo : b.start ≤ k) (hhi : k < b'.calculateEnd) : (lookup k (leavesIn (b :: bs))).isSome := by
  induction bs generalizing b s with
  | nil =>
    obtain rfl := List.mem_singleton.mp hb'
    have hflags : (s.visit b').isConsecutive = true := h
    simp only [MinMax.visit, Bool.and_eq_true] at hflags
    rw [leavesIn, lookup_append, Option.isSome_or, Bool.or_eq_true]
    refine .inl (hcovers b' hb' (fun c hc => ?_) k hlo hhi)
    cases b' with
    | bytes start data => cases hc
    | clemory start consecutive minAddr maxAddr backers =>
      cases hc
      simpa using hflags.2
  | cons b₁ bs ih =>
    have hflags := isConsecutive_of_foldl (L := b₁ :: bs) h
    have hnext := isConsecutive_of_foldl (L := bs) h
    simp only [MinMax.visit, Bool.and_eq_true, decide_eq_true_eq] at hflags hnext
    have hstart : b₁.start = b.calculateEnd := by simpa [eq_comm] using hnext.1.2
    rw [leavesIn, lookup_append, Option.isSome_or, Bool.or_eq_true]
    by_cases hk : k < b.calculateEnd
    · refine .inl (hcovers b List.mem_cons_self (fun c hc => ?_) k hlo hk)
      cases b with
      | bytes start data => cases hc
      | clemory start consecutive minAddr maxAddr backers =>
        cases hc
        simpa using hflags.2
    · rcases List.mem_cons.mp hb' with rfl | hb'
      · exact absurd hhi hk
      · exact .inr (ih (fun b' hb' => hcovers b' (List.mem_cons_of_mem _ hb')) h hb' (by omega))

theorem Every.covered (h : Every Shape m) (hcons : m.consecutive = true) (hlo : m.minAddr ≤ k)
    (hhi : k < m.maxAddr) : (lookup k m.leaves).isSome := by
  induction h generalizing k with
  | mk m hm hrest ih =>
    have hcovers : ∀ b ∈ m.backers, (∀ c, b.child? = some c → ¬ c.minAddr > 0 ∧ c.consecutive = true) →
        ∀ k, b.start ≤ k → k < b.calculateEnd → (lookup k b.leaves).isSome := by
      intro b hb hflags k hlo hhi
      cases b with
      | bytes start data =>
        rw [Backer.leaves, lookup_isSome]
        exact ⟨_, List.mem_singleton_self _, hlo, hhi⟩
      | clemory start consecutive minAddr maxAddr backers =>
        obtain ⟨hmin, hcons⟩ := hflags _ rfl
        rw [Backer.leaves_child rfl, lookup_shift]
        refine ih _ hb _ rfl hcons ?_ ?_
        · simp only [Backer.start] at hlo ⊢
          dsimp only at hmin
          omega
        · simp only [Backer.start, Backer.calculateEnd] at hhi ⊢
          omega
    cases hbs : m.backers with
    | nil =>
      have hmin := hm.derived.2.1
      have hmax := hm.derived.2.2
      rw [hbs] at hmin hmax
      simp only [List.foldl_nil, Option.getD_none] at hmin hmax
      omega
    | cons b bs =>
      obtain ⟨e, he, -, hattained, -⟩ := foldl_maxAddr bs {} b
      obtain ⟨b', hb', rfl⟩ := hattained.resolve_right (by simp)
      have hmax := hm.derived.2.2
      have hflag := hm.derived.1
      rw [hbs] at hmax hflag
      rw [he] at hmax
      rw [hm.derived.minAddr_eq hbs] at hlo
      rw [Clemory.leaves, hbs]
      rw [Option.getD_some] at hmax
      exact covered_of_consecutive (hbs ▸ hcovers) (hflag.symm.trans hcons) hb' hlo (hmax ▸ hhi)

theorem Every.mem_range (h : Every Shape m) (hk : (lookup k m.leaves).isSome) :
    m.minAddr ≤ k ∧ k < m.maxAddr := by
  obtain ⟨l, hl, hlo, hhi⟩ := lookup_isSome.mp hk
  have := h.leaf_bounds hl
  omega

/-- Membership is that indexing succeeds. -/
theorem Every.contains_eq (h : Every Shape m) (k : Int) : m.contains k = (m.getItem k).isSome := by
  have hget := h.getItem_eq k
  unfold Clemory.contains
  split
  · rename_i hcons
    rw [hget, Bool.eq_iff_iff, decide_eq_true_eq]
    exact ⟨fun hk => h.covered hcons hk.1 hk.2, h.mem_range⟩
  split
  · rename_i hempty
    rw [hget, Clemory.leaves, List.isEmpty_iff.mp hempty]
    simp [leavesIn, lookup]
  split
  · rename_i hout
    rw [hget]
    by_contra hne
    have := h.mem_range (k := k) (by simpa [Option.isSome_iff_ne_none] using hne)
    omega
  · rfl

/-! ## Order -/

/-- The ranges of two backers have no address in common. -/
def Backer.Apart (b b' : Backer) : Prop :=
  ∀ a, ¬ (b.low ≤ a ∧ a < b.calculateEnd ∧ b'.low ≤ a ∧ a < b'.calculateEnd)

def Disjoint (m : Clemory) : Prop := m.backers.Pairwise Backer.Apart

/-- The backers end in the order in which they start. -/
def Ordered (m : Clemory) : Prop := (m.backers.map Backer.calculateEnd).Pairwise (· ≤ ·)

structure Regular (m : Clemory) : Prop where
  shape : Shape m
  disjoint : Disjoint m
  ordered : Ordered m

/-- Arrays in ascending order, none of them empty. -/
structure SortedLeaves (ls : List Leaf) : Prop where
  nonempty : ∀ l ∈ ls, l.1 < l.stop
  ordered : ls.Pairwise fun l l' => l.stop ≤ l'.1

variable {l : Leaf} {ls : List Leaf}

theorem SortedLeaves.tail (h : SortedLeaves (l :: ls)) : SortedLeaves ls :=
  ⟨fun l' hl' => h.nonempty l' (List.mem_cons_of_mem _ hl'), h.ordered.of_cons⟩

theorem SortedLeaves.head (h : SortedLeaves (l :: ls)) {l' : Leaf} (hl' : l' ∈ ls) :
    l.stop ≤ l'.1 := List.rel_of_pairwise_cons h.ordered hl'

theorem Every.shape (h : Every Regular m) : Every Shape m := h.imp fun _ hm => hm.shape

theorem Every.sorted_leaves (h : Every Regular m) : SortedLeaves m.leaves := by
  refine ⟨fun l hl => (h.shape.leaf_bounds hl).2.1, ?_⟩
  induction h with
  | mk m hm hrest ih =>
    have hshape : Every Shape m := (Every.mk m hm hrest).shape
    rw [Clemory.leaves, leavesIn_eq, List.pairwise_flatMap]
    refine ⟨fun b hb => ?_, ?_⟩
    · cases hc : b.child? with
      | none =>
        cases b with
        | bytes start data => simp [Backer.leaves]
        | clemory start consecutive minAddr maxAddr backers => cases hc
      | some c =>
        rw [Backer.leaves_child hc, List.pairwise_map]
        refine (ih b hb c hc).imp fun {l l'} hle => ?_
        rw [Leaf.stop_shift]
        simp only [Leaf.shift]
        omega
    · have hordered := hm.ordered
      rw [Ordered, List.pairwise_map] at hordered
      refine (hm.disjoint.and hordered).imp_of_mem fun {b b'} hb hb' hbb' l hl l' hl' => ?_
      have hl := hshape.leaf_range hb hl
      have hl' := hshape.leaf_range hb' hl'
      have hapart := hbb'.1 (max b.low b'.low)
      omega

/-! ## Loading -/

theorem iterFromIndex_eq (addr : Int) (i : Nat) (bs : List Backer) :
    iterFromIndex addr i bs = (bs.drop i).flatMap (Backer.iterFrom addr) := by
  induction bs generalizing i with
  | nil => cases i <;> simp [iterFromIndex]
  | cons b bs ih =>
    cases i with
    | zero =>
      have := ih 0
      rw [iterFromIndex, this]
      simp
    | succ i => rw [iterFromIndex, ih i, List.drop_succ_cons]

theorem Backer.iterFrom_child {b : Backer} {c : Clemory} (hc : b.child? = some c) (addr : Int) :
    b.iterFrom addr = (c.backersFrom (addr - b.start)).map (Leaf.shift b.start) := by
  cases b with
  | bytes start data => cases hc
  | clemory start consecutive minAddr maxAddr backers =>
    cases hc
    rw [Backer.iterFrom]
    unfold Clemory.backersFrom
    rw [apply_ite (List.map _)]
    rfl

/-- The arrays that are yielded from an address on are those that end after it. -/
theorem Every.backersFrom_eq (h : Every Regular m) (addr : Int) :
    m.backersFrom addr = m.leaves.filter fun l => addr < l.stop := by
  induction h generalizing addr with
  | mk m hm hrest ih =>
    have hshape : Every Shape m := (Every.mk m hm hrest).shape
    have hbacker : ∀ b ∈ m.backers, addr < b.calculateEnd →
        b.iterFrom addr = b.leaves.filter fun l => addr < l.stop := by
      intro b hb hend
      cases hc : b.child? with
      | none =>
        cases b with
        | clemory start consecutive minAddr maxAddr backers => cases hc
        | bytes start data =>
          have hin : addr < Leaf.stop (start, data) := hend
          rw [Backer.iterFrom, Backer.leaves]
          simp [hin]
      | some c =>
        rw [Backer.iterFrom_child hc, ih b hb c hc, Backer.leaves_child hc, List.filter_map]
        congr 1
        refine List.filter_congr fun l _ => ?_
        simp only [Function.comp_apply, Leaf.stop_shift, decide_eq_decide]
        omega
    have hnone : ∀ b ∈ m.backers, b.calculateEnd ≤ addr →
        (b.leaves.filter fun l => addr < l.stop) = [] := by
      intro b hb hend
      rw [List.filter_eq_nil_iff]
      intro l hl
      have := hshape.leaf_range hb hl
      simp only [decide_eq_true_eq]
      omega
    rw [Clemory.leaves, leavesIn_eq, List.filter_flatMap]
    unfold Clemory.backersFrom
    split
    · refine (List.flatMap_eq_nil_iff.mpr fun b hb => hnone b hb ?_).symm
      have := hm.shape.derived.calculateEnd_le hb
      omega
    rw [iterFromIndex_eq]
    generalize hi : bisect (m.backers.map Backer.calculateEnd) addr = i
    conv_rhs => rw [← List.take_append_drop i m.backers, List.flatMap_append]
    have hfront : ((m.backers.take i).flatMap fun b => b.leaves.filter fun l => addr < l.stop) = [] := by
      refine List.flatMap_eq_nil_iff.mpr fun b hb => hnone b (List.mem_of_mem_take hb) ?_
      refine mem_take_bisect hm.ordered ?_
      rw [hi, ← List.map_take]
      exact List.mem_map_of_mem hb
    rw [hfront, List.nil_append]
    refine List.flatMap_congr fun b hb => hbacker b (List.mem_of_mem_drop hb) ?_
    refine mem_drop_bisect hm.ordered ?_
    rw [hi, ← List.map_drop]
    exact List.mem_map_of_mem hb

/-- The bytes from an address on, up to `n` or the first address without one. -/
@[grind =] def read (get : Int → Option UInt8) (a : Int) : (n : Nat) → List UInt8
  | 0 => []
  | n + 1 =>
    match get a with
    | none => []
    | some v => v :: read get (a + 1) n

theorem read_of_none {get : Int → Option UInt8} {a : Int} (h : get a = none) (n : Nat) : read get a n = [] := by
  cases n with
  | zero => rfl
  | succ n => rw [read, h]

theorem read_congr {get get' : Int → Option UInt8} {a : Int} (h : ∀ k, a ≤ k → get k = get' k) (n : Nat) :
    read get a n = read get' a n := by
  induction n generalizing a with
  | zero => rfl
  | succ n ih =>
    rw [read, read, h a le_rfl]
    cases get' a with
    | none => rfl
    | some v => exact congrArg (v :: ·) (ih fun k hk => h k (by omega))

/-- A run of bytes that are there, and then the rest. -/
theorem read_add {get : Int → Option UInt8} {a : Int} {bytes : List UInt8}
    (h : ∀ i < bytes.length, get (a + i) = bytes[i]?) (n : Nat) :
    read get a (bytes.length + n) = bytes ++ read get (a + bytes.length) n := by
  induction bytes generalizing a with
  | nil => simp
  | cons v bytes ih =>
    have hv : get a = some v := by simpa using h 0 (by simp)
    have hrest : ∀ i < bytes.length, get (a + 1 + i) = bytes[i]? := by
      intro i hi
      have := h (i + 1) (by simpa using hi)
      rw [List.getElem?_cons_succ] at this
      rw [← this]
      congr 1
      push_cast
      omega
    rw [List.length_cons, Nat.add_right_comm, read, hv]
    dsimp only
    rw [ih hrest, List.cons_append]
    congr 3
    push_cast
    omega

theorem lookup_eq_none (h : ∀ l ∈ ls, ¬ (l.1 ≤ k ∧ k < l.stop)) : lookup k ls = none := by
  by_contra hne
  obtain ⟨l, hl, hin⟩ := lookup_isSome.mp (Option.isSome_iff_ne_none.mpr hne)
  exact h l hl hin

theorem lookup_cons (k : Int) (l : Leaf) (ls : List Leaf) :
    lookup k (l :: ls) = (l.get k).or (lookup k ls) := by
  rw [lookup, List.findSome?_cons]
  cases l.get k <;> rfl

theorem lookup_cons_of_lt (h : l.stop ≤ k) : lookup k (l :: ls) = lookup k ls := by
  rw [lookup_cons, Leaf.get_eq, if_neg (by omega), Option.none_or]

/-- Reading inside the first array, and past its end in the others. -/
theorem read_cons {a : Int} (hlo : l.1 ≤ a) (hhi : a < l.stop) (n : Nat) :
    read (fun k => lookup k (l :: ls)) a n =
      slice l.2 (a - l.1) n ++ read (fun k => lookup k ls) l.stop (n - (l.stop - a).toNat) := by
  have hget : ∀ i : Nat, a + i < l.stop → lookup (a + i) (l :: ls) = l.2[(a - l.1).toNat + i]? := by
    intro i hi
    have hindex : (a + i - l.1).toNat = (a - l.1).toNat + i := by omega
    unfold Leaf.stop at hi hhi
    rw [lookup_cons, Leaf.get_eq, if_pos ⟨by omega, by unfold Leaf.stop; omega⟩, hindex,
      List.getElem?_eq_getElem (by omega), Option.some_or]
  have hslice : (slice l.2 (a - l.1) n).length = min n (l.stop - a).toNat := by
    unfold slice Leaf.stop
    rw [List.length_take, List.length_drop]
    omega
  have hbytes : ∀ i < (slice l.2 (a - l.1) n).length,
      lookup (a + i) (l :: ls) = (slice l.2 (a - l.1) n)[i]? := by
    intro i hi
    rw [hslice] at hi
    rw [hget i (by omega), slice, List.getElem?_take_of_lt (by omega), List.getElem?_drop]
  have hn : n = (slice l.2 (a - l.1) n).length + (n - (l.stop - a).toNat) := by omega
  conv_lhs => rw [hn]
  rw [read_add hbytes]
  congr 1
  by_cases hlast : n ≤ (l.stop - a).toNat
  · rw [Nat.sub_eq_zero_of_le hlast]
    rfl
  · have hstop : a + ((slice l.2 (a - l.1) n).length : Int) = l.stop := by omega
    rw [hstop]
    exact read_congr (fun k hk => lookup_cons_of_lt hk) _

theorem loadLoop_next (hsorted : SortedLeaves ls) {addr : Int} (hends : ∀ l ∈ ls, addr < l.stop) {n : Nat}
    (hn : 0 < n) {views : List (List UInt8)} (hviews : views ≠ []) :
    loadLoop addr n views ls = some (views.flatten ++ read (fun k => lookup k ls) addr n) := by
  induction ls generalizing addr n views with
  | nil =>
    rw [loadLoop, if_neg hviews, read_of_none rfl, List.append_nil]
  | cons l ls ih =>
    obtain ⟨start, backer⟩ := l
    rw [loadLoop]
    by_cases hgt : start > addr
    · rw [if_pos hgt, if_neg hviews, read_of_none, List.append_nil]
      refine lookup_eq_none fun l hl => ?_
      rcases List.mem_cons.mp hl with rfl | hl
      · dsimp only
        omega
      · have := hsorted.head hl
        have := hends _ List.mem_cons_self
        omega
    have hstop := hends _ List.mem_cons_self
    rw [if_neg hgt]
    dsimp only
    rw [if_neg (fun h => hviews h.1), read_cons (by dsimp only; omega) hstop]
    have hsize : (Leaf.stop (start, backer) - addr).toNat = (backer.length - (addr - start)).toNat := by
      unfold Leaf.stop
      dsimp only
      omega
    have hnext : addr + (backer.length - (addr - start)) = Leaf.stop (start, backer) := by
      unfold Leaf.stop
      dsimp only
      omega
    split
    · rename_i hdone
      have hzero : n - (Leaf.stop (start, backer) - addr).toNat = 0 := by omega
      rw [hzero, read, List.append_nil, List.flatten_append, List.flatten_singleton]
    rename_i hmore
    have hleft : (n : Int) - (backer.length - (addr - start)) =
        ((n - (Leaf.stop (start, backer) - addr).toNat : Nat) : Int) := by
      have := hstop
      omega
    rw [hnext, hleft, ih hsorted.tail (fun l hl => ?_) (by omega) (by simp), List.flatten_append,
      List.flatten_singleton, List.append_assoc]
    have := hsorted.head hl
    have := hsorted.nonempty l (List.mem_cons_of_mem _ hl)
    omega

theorem loadLoop_eq (hsorted : SortedLeaves ls) {addr : Int} (hends : ∀ l ∈ ls, addr < l.stop) (n : Nat) :
    loadLoop addr n [] ls =
      if (lookup addr ls).isSome then some (read (fun k => lookup k ls) addr n) else none := by
  cases ls with
  | nil => rfl
  | cons l ls =>
    obtain ⟨start, backer⟩ := l
    have hstop := hends _ List.mem_cons_self
    rw [loadLoop]
    by_cases hgt : start > addr
    · have hnone : lookup addr ((start, backer) :: ls) = none := by
        refine lookup_eq_none fun l hl => ?_
        rcases List.mem_cons.mp hl with rfl | hl
        · dsimp only
          omega
        · have := hsorted.head hl
          omega
      rw [if_pos hgt, if_pos rfl, hnone, if_neg (by simp)]
    have hsome : (lookup addr ((start, backer) :: ls)).isSome :=
      lookup_isSome.mpr ⟨_, List.mem_cons_self, by dsimp only; omega, hstop⟩
    rw [if_neg hgt, if_pos hsome, read_cons (by dsimp only; omega) hstop]
    unfold Leaf.stop at hstop ⊢
    dsimp only at hstop ⊢
    by_cases hinside : addr - start + n < backer.length
    · have hzero : n - (start + backer.length - addr).toNat = 0 := by omega
      rw [if_pos ⟨rfl, hinside⟩, hzero, read, List.append_nil]
    rw [if_neg (fun h => hinside h.2)]
    split
    · have hzero : n - (start + backer.length - addr).toNat = 0 := by omega
      rw [hzero, read, List.append_nil, List.nil_append, List.flatten_singleton]
    have hnext : addr + (backer.length - (addr - start)) = start + backer.length := by omega
    have hleft : (n : Int) - (backer.length - (addr - start)) =
        ((n - (start + backer.length - addr).toNat : Nat) : Int) := by omega
    rw [hnext, hleft, loadLoop_next hsorted.tail (fun l hl => ?_) (by omega) (by simp),
      List.nil_append, List.flatten_singleton]
    have hhead := hsorted.head hl
    have := hsorted.nonempty l (List.mem_cons_of_mem _ hl)
    simp only [Leaf.stop] at hhead this ⊢
    omega

theorem SortedLeaves.filter (h : SortedLeaves ls) (p : Leaf → Bool) : SortedLeaves (ls.filter p) :=
  ⟨fun l hl => h.nonempty l (List.mem_of_mem_filter hl), h.ordered.filter p⟩

theorem lookup_filter {addr k : Int} (hk : addr ≤ k) (ls : List Leaf) :
    lookup k (ls.filter fun l => addr < l.stop) = lookup k ls := by
  induction ls with
  | nil => rfl
  | cons l ls ih =>
    rw [List.filter_cons]
    split
    · rw [lookup_cons, lookup_cons, ih]
    · rename_i hend
      simp only [decide_eq_true_eq] at hend
      rw [ih, lookup_cons_of_lt (by omega)]

/-- A load returns what indexing reads, or raises where indexing does. -/
theorem Every.load_eq (h : Every Regular m) (a : Int) (n : Nat) :
    m.load a n = if (m.getItem a).isSome then some (read m.getItem a n) else none := by
  have hget : m.getItem = fun k => lookup k m.leaves := funext h.shape.getItem_eq
  rw [Clemory.load, h.backersFrom_eq, loadLoop_eq (h.sorted_leaves.filter _), lookup_filter le_rfl, hget]
  · congr 2
    exact read_congr (fun k hk => lookup_filter hk m.leaves) n
  · intro l hl
    simpa using (List.mem_filter.mp hl).2

/-! ## Storing to a list of arrays -/

/-- A store to the arrays, in a memory at `base`, that end after an address. -/
@[grind =] def storeLeaves (base addr : Int) (progress : Progress) : List Leaf → List Leaf × Progress
  | [] => ([], progress)
  | l :: ls =>
    if addr < l.stop then
      let stored := storeBytes (base + l.1) l.2 progress
      let rest := storeLeaves base addr stored.2 ls
      ((l.1, stored.1) :: rest.1, rest.2)
    else
      let rest := storeLeaves base addr progress ls
      (l :: rest.1, rest.2)

variable {base addr : Int} {progress : Progress}

theorem storeLeaves_append (front back : List Leaf) :
    storeLeaves base addr progress (front ++ back) =
      ((storeLeaves base addr progress front).1 ++
          (storeLeaves base addr (storeLeaves base addr progress front).2 back).1,
        (storeLeaves base addr (storeLeaves base addr progress front).2 back).2) := by
  induction front generalizing progress with
  | nil => rfl
  | cons l front ih =>
    rw [List.cons_append, storeLeaves, storeLeaves]
    split <;> (dsimp only; rw [ih]; rfl)

theorem storeLeaves_shift (start : Int) (ls : List Leaf) :
    storeLeaves base addr progress (ls.map (Leaf.shift start)) =
      ((storeLeaves (base + start) (addr - start) progress ls).1.map (Leaf.shift start),
        (storeLeaves (base + start) (addr - start) progress ls).2) := by
  induction ls generalizing progress with
  | nil => rfl
  | cons l ls ih =>
    have hbase : base + (l.shift start).1 = base + start + l.1 := by
      simp only [Leaf.shift]
      omega
    rw [List.map_cons, storeLeaves, storeLeaves, Leaf.stop_shift, hbase]
    by_cases hend : addr < l.stop + start
    · rw [if_pos hend, if_pos (by omega)]
      dsimp only
      rw [ih]
      rfl
    rw [if_neg hend, if_neg (by omega)]
    dsimp only
    rw [ih]
    rfl

theorem storeLeaves_skip (h : ∀ l ∈ ls, l.stop ≤ addr) : storeLeaves base addr progress ls = (ls, progress) := by
  induction ls with
  | nil => rfl
  | cons l ls ih =>
    have := h l List.mem_cons_self
    rw [storeLeaves, if_neg (by omega), ih fun l hl => h l (List.mem_cons_of_mem _ hl)]

theorem storeLeaves_finished (ls : List Leaf) :
    storeLeaves base addr .finished ls = (ls, .finished) := by
  induction ls with
  | nil => rfl
  | cons l ls ih =>
    rw [storeLeaves]
    split
    · dsimp only [storeBytes]
      rw [ih]
    · rw [ih]

/-- A store that goes on has not passed the end of any of the arrays. -/
def Progress.Fits (base addr : Int) (progress : Progress) (ls : List Leaf) : Prop :=
  ∀ a data, progress = .running a data → ∀ l ∈ ls, addr < l.stop → a ≤ base + l.stop

theorem fits_storeBytes (hsorted : SortedLeaves (l :: ls)) :
    (storeBytes (base + l.1) l.2 progress).2.Fits base addr ls ∨ (storeBytes (base + l.1) l.2 progress).2 = progress := by
  cases progress with
  | finished => exact .inr rfl
  | failed => exact .inr rfl
  | running a data =>
    unfold storeBytes
    dsimp only
    split
    · refine .inl fun a' data' heq => ?_
      cases heq
    refine .inl fun a' data' heq l' hl' _ => ?_
    dsimp only at heq
    split at heq
    · cases heq
    cases heq
    have hhead := hsorted.head hl'
    have hne := hsorted.nonempty l' (List.mem_cons_of_mem _ hl')
    simp only [Leaf.stop] at hhead hne ⊢
    omega

theorem storeBytes_length (h : ∀ a data, progress = .running a data → a ≤ base + l.stop) :
    (storeBytes (base + l.1) l.2 progress).1.length = l.2.length := by
  cases progress with
  | finished => rfl
  | failed => rfl
  | running a data =>
    have hle := h a data rfl
    unfold storeBytes
    dsimp only
    split
    · rfl
    simp only [Leaf.stop] at hle
    simp only [setSlice, cut, List.length_append, List.length_take, List.length_drop]
    split
    · omega
    · rw [List.length_take]
      rw [if_pos (by omega)]
      omega

theorem fits_storeLeaves {front back : List Leaf} (hsorted : SortedLeaves (front ++ back))
    (h : progress.Fits base addr (front ++ back)) :
    (storeLeaves base addr progress front).2.Fits base addr back := by
  induction front generalizing progress with
  | nil => exact h
  | cons l front ih =>
    have hrest : progress.Fits base addr (front ++ back) :=
      fun a data heq l' hl' => h a data heq l' (List.mem_cons_of_mem _ hl')
    rw [storeLeaves]
    split
    · refine ih hsorted.tail ?_
      have hstep : (storeBytes (base + l.1) l.2 progress).2.Fits base addr (front ++ back) ∨
          (storeBytes (base + l.1) l.2 progress).2 = progress := fits_storeBytes hsorted
      rcases hstep with hfits | hsame
      · exact hfits
      · rw [hsame]
        exact hrest
    · exact ih hsorted.tail hrest

/-! ## Storing to a tree -/

/-- What a memory derives from a backer. -/
def Backer.signature : Backer → Int × Int × Int × Option Bool
  | .bytes start data => (start, start, start + data.length, none)
  | .clemory start consecutive minAddr maxAddr _ =>
    (start, start + minAddr, start + maxAddr, some (¬ minAddr > 0 && consecutive))

/-- The variables of `_update_min_max` change with the signature of a backer only. -/
theorem foldl_visit_congr {bs bs' : List Backer} (h : bs'.map Backer.signature = bs.map Backer.signature)
    (s : MinMax) : bs'.foldl MinMax.visit s = bs.foldl MinMax.visit s := by
  have hvisit : ∀ (s : MinMax) (b b' : Backer), b'.signature = b.signature → s.visit b' = s.visit b := by
    intro s b b' heq
    cases b with
    | bytes start data =>
      cases b' with
      | clemory start' consecutive minAddr maxAddr backers => simp [Backer.signature] at heq
      | bytes start' data' =>
        simp only [Backer.signature, Prod.mk.injEq] at heq
        obtain ⟨rfl, -, hend, -⟩ := heq
        simp only [MinMax.visit, Backer.start, Backer.calculateEnd, hend]
        rfl
    | clemory start consecutive minAddr maxAddr backers =>
      cases b' with
      | bytes start' data' => simp [Backer.signature] at heq
      | clemory start' consecutive' minAddr' maxAddr' backers' =>
        simp only [Backer.signature, Prod.mk.injEq, Option.some.injEq] at heq
        obtain ⟨rfl, -, hend, hflags⟩ := heq
        simp only [MinMax.visit, Backer.start, Backer.calculateEnd, hend, hflags]
        rfl
  induction bs generalizing bs' s with
  | nil => rw [List.map_eq_nil_iff.mp h]
  | cons b bs ih =>
    obtain ⟨b', bs', rfl⟩ := List.exists_cons_of_ne_nil (l := bs') (by rintro rfl; simp at h)
    obtain ⟨hb, hbs⟩ := List.cons.inj h
    rw [List.foldl_cons, List.foldl_cons, hvisit s b b' hb, ih hbs]

theorem Backer.start_eq (b : Backer) : b.start = b.signature.1 := by cases b <;> rfl

theorem Backer.low_eq (b : Backer) : b.low = b.signature.2.1 := by cases b <;> rfl

theorem Backer.calculateEnd_eq (b : Backer) : b.calculateEnd = b.signature.2.2.1 := by cases b <;> rfl

/-- So a memory whose backers keep their signatures stays regular. -/
theorem Regular.congr (h : Regular m) (hsig : bs.map Backer.signature = m.backers.map Backer.signature) :
    Regular { m with backers := bs } := by
  have hmap : ∀ {α : Type} (f : Int × Int × Int × Option Bool → α),
      bs.map (f ∘ Backer.signature) = m.backers.map (f ∘ Backer.signature) := by
    intro α f
    rw [← List.map_map, hsig, List.map_map]
  have hstart : bs.map Backer.start = m.backers.map Backer.start := by
    simpa only [funext Backer.start_eq, Function.comp_def] using hmap Prod.fst
  have hend : bs.map Backer.calculateEnd = m.backers.map Backer.calculateEnd := by
    simpa only [funext Backer.calculateEnd_eq, Function.comp_def] using hmap fun x => x.2.2.1
  have hmem : ∀ b ∈ bs, ∃ b' ∈ m.backers, b'.signature = b.signature := by
    intro b hb
    have := List.mem_map_of_mem (f := Backer.signature) hb
    rw [hsig] at this
    exact List.mem_map.mp this
  refine ⟨⟨fun b hb => ?_, fun start data hb => ?_, ?_, ?_⟩, ?_, ?_⟩
  · obtain ⟨b', hb', heq⟩ := hmem b hb
    rw [Backer.start_eq, ← heq, ← Backer.start_eq]
    exact h.shape.nonneg b' hb'
  · obtain ⟨b', hb', heq⟩ := hmem _ hb
    cases b' with
    | clemory start' consecutive minAddr maxAddr backers => simp [Backer.signature] at heq
    | bytes start' data' =>
      have hne := List.length_pos_iff.mpr (h.shape.arrays start' data' hb')
      simp only [Backer.signature, Prod.mk.injEq] at heq
      rintro rfl
      simp only [List.length_nil] at heq
      omega
  · dsimp only
    rw [hstart]
    exact h.shape.sorted
  · unfold Derived
    dsimp only
    rw [foldl_visit_congr hsig]
    exact h.shape.derived
  · have hranges : bs.map (fun b => (b.low, b.calculateEnd)) = m.backers.map fun b => (b.low, b.calculateEnd) := by
      simpa only [funext Backer.calculateEnd_eq, funext Backer.low_eq, Function.comp_def] using
        hmap fun x => (x.2.1, x.2.2.1)
    have hdisjoint := h.disjoint
    unfold Disjoint at hdisjoint ⊢
    have hfactor : ∀ l : List Backer, l.Pairwise Backer.Apart ↔
        (l.map fun b => (b.low, b.calculateEnd)).Pairwise fun r r' =>
          ∀ a, ¬ (r.1 ≤ a ∧ a < r.2 ∧ r'.1 ≤ a ∧ a < r'.2) := fun l => by
      rw [List.pairwise_map]
      rfl
    rw [hfactor] at hdisjoint ⊢
    dsimp only
    rwa [hranges]
  · unfold Ordered
    dsimp only
    rw [hend]
    exact h.ordered

/-- What a store does to one backer. -/
structure StoredBacker (base addr : Int) (p : Progress) (b : Backer) : Prop where
  leaves : (b.store base addr p).1.leaves = (storeLeaves base addr p b.leaves).1
  progress : (b.store base addr p).2 = (storeLeaves base addr p b.leaves).2
  signature : (b.store base addr p).1.signature = b.signature
  children : ∀ c, (b.store base addr p).1.child? = some c → Every Regular c

/-- What a store does to the backers of a memory, past the first `i`. -/
structure StoredBackers (base addr : Int) (p : Progress) (i : Nat) (bs : List Backer) : Prop where
  leaves : leavesIn (storeFromIndex base addr p i bs).1 = (storeLeaves base addr p (leavesIn bs)).1
  progress : (storeFromIndex base addr p i bs).2 = (storeLeaves base addr p (leavesIn bs)).2
  signatures : (storeFromIndex base addr p i bs).1.map Backer.signature = bs.map Backer.signature
  children : ∀ b ∈ (storeFromIndex base addr p i bs).1, ∀ c, b.child? = some c → Every Regular c

theorem storeFromIndex_spec {i : Nat} (hfront : ∀ b ∈ bs.take i, ∀ l ∈ b.leaves, l.stop ≤ addr)
    (hback : ∀ b ∈ bs.drop i, ∀ progress : Progress, progress.Fits base addr b.leaves → StoredBacker base addr progress b)
    (hchildren : ∀ b ∈ bs, ∀ c, b.child? = some c → Every Regular c) (hsorted : SortedLeaves (leavesIn bs))
    (hfits : progress.Fits base addr (leavesIn bs)) : StoredBackers base addr progress i bs := by
  induction bs generalizing i progress with
  | nil =>
    cases i <;> exact ⟨by simp [storeFromIndex, leavesIn, storeLeaves],
      by simp [storeFromIndex, leavesIn, storeLeaves], by simp [storeFromIndex], by simp [storeFromIndex]⟩
  | cons b bs ih =>
    have hchildren' : ∀ b ∈ bs, ∀ c, b.child? = some c → Every Regular c :=
      fun b hb => hchildren b (List.mem_cons_of_mem _ hb)
    rw [leavesIn] at hsorted hfits
    have hsorted' : SortedLeaves (leavesIn bs) :=
      ⟨fun l hl => hsorted.nonempty l (List.mem_append_right _ hl), (List.pairwise_append.mp hsorted.ordered).2.1⟩
    cases i with
    | succ i =>
      have hskip : storeLeaves base addr progress b.leaves = (b.leaves, progress) :=
        storeLeaves_skip (hfront b List.mem_cons_self)
      have hrest : StoredBackers base addr progress i bs :=
        ih (fun b hb => hfront b (List.mem_cons_of_mem _ hb)) hback hchildren' hsorted'
          fun a data heq l hl => hfits a data heq l (List.mem_append_right _ hl)
      refine ⟨?_, ?_, ?_, ?_⟩
      · rw [storeFromIndex, leavesIn, leavesIn, storeLeaves_append, hskip, hrest.leaves]
      · rw [storeFromIndex, leavesIn, storeLeaves_append, hskip, hrest.progress]
      · rw [storeFromIndex, List.map_cons, List.map_cons, hrest.signatures]
      intro b' hb'
      rw [storeFromIndex] at hb'
      rcases List.mem_cons.mp hb' with rfl | hb'
      · exact hchildren b' List.mem_cons_self
      · exact hrest.children b' hb'
    | zero =>
      have hfirst := hback b List.mem_cons_self progress
        fun a data heq l hl => hfits a data heq l (List.mem_append_left _ hl)
      have hfits' := fits_storeLeaves hsorted hfits
      rw [← hfirst.progress] at hfits'
      have hrest : StoredBackers base addr (b.store base addr progress).2 0 bs :=
        ih (by simp) (fun b hb => hback b (List.mem_cons_of_mem _ (by simpa using hb))) hchildren' hsorted' hfits'
      refine ⟨?_, ?_, ?_, ?_⟩
      · rw [storeFromIndex, leavesIn, leavesIn, storeLeaves_append, hrest.leaves, hfirst.leaves,
          hfirst.progress]
      · rw [storeFromIndex, leavesIn, storeLeaves_append, hrest.progress, hfirst.progress]
      · rw [storeFromIndex, List.map_cons, List.map_cons, hrest.signatures, hfirst.signature]
      intro b' hb'
      rw [storeFromIndex] at hb'
      rcases List.mem_cons.mp hb' with rfl | hb'
      · exact hfirst.children
      · exact hrest.children b' hb'

/-- A store to the backers of a memory at `base`. -/
def Clemory.storeIn (m : Clemory) (base addr : Int) (progress : Progress) : List Backer × Progress :=
  if m.maxAddr < addr then (m.backers, progress)
  else storeFromIndex base addr progress (bisect (m.backers.map Backer.calculateEnd) addr) m.backers

theorem Backer.store_child {start : Int} {consecutive : Bool} {minAddr maxAddr : Int} {backers : List Backer} :
    (Backer.clemory start consecutive minAddr maxAddr backers).store base addr progress =
      (.clemory start consecutive minAddr maxAddr
          (Clemory.storeIn ⟨false, consecutive, minAddr, maxAddr, backers⟩ (base + start) (addr - start) progress).1,
        (Clemory.storeIn ⟨false, consecutive, minAddr, maxAddr, backers⟩ (base + start) (addr - start) progress).2) := by
  rw [Backer.store]
  unfold Clemory.storeIn
  by_cases hend : maxAddr < addr - start
  · simp only [if_pos hend]
  · simp only [if_neg hend]

/-- A store to a regular memory stores to its arrays, and leaves it regular. -/
theorem Every.storeIn_spec (h : Every Regular m) (base addr : Int) (progress : Progress)
    (hfits : progress.Fits base addr m.leaves) :
    leavesIn (m.storeIn base addr progress).1 = (storeLeaves base addr progress m.leaves).1 ∧
      (m.storeIn base addr progress).2 = (storeLeaves base addr progress m.leaves).2 ∧
      Every Regular { m with backers := (m.storeIn base addr progress).1 } := by
  induction h generalizing base addr progress with
  | mk m hm hrest ih =>
    have hregular : Every Regular m := .mk m hm hrest
    have hfront : ∀ b ∈ m.backers, b.calculateEnd ≤ addr → ∀ l ∈ b.leaves, l.stop ≤ addr := by
      intro b hb hend l hl
      have := hregular.shape.leaf_range hb hl
      omega
    have hbacker : ∀ b ∈ m.backers, addr < b.calculateEnd → ∀ progress : Progress,
        progress.Fits base addr b.leaves → StoredBacker base addr progress b := by
      intro b hb hend progress hfits
      cases b with
      | bytes start data =>
        have hin : addr < Leaf.stop (start, data) := hend
        have hlen : (storeBytes (base + start) data progress).1.length = data.length :=
          storeBytes_length (l := (start, data)) fun a d heq => hfits a d heq _ (by simp [Backer.leaves]) hin
        refine ⟨?_, ?_, ?_, fun c hc => by cases hc⟩
        · rw [Backer.store, Backer.leaves, Backer.leaves, storeLeaves, if_pos hin]
          rfl
        · rw [Backer.store, Backer.leaves, storeLeaves, if_pos hin]
          rfl
        · rw [Backer.store, Backer.signature, Backer.signature, hlen]
      | clemory start consecutive minAddr maxAddr backers =>
        have hfits' : progress.Fits (base + start) (addr - start)
            (Clemory.leaves ⟨false, consecutive, minAddr, maxAddr, backers⟩) := by
          intro a data heq l hl hlt
          have := hfits a data heq (l.shift start) ?_ ?_
          · rw [Leaf.stop_shift] at this
            omega
          · rw [Backer.leaves_child rfl]
            exact List.mem_map_of_mem hl
          · rw [Leaf.stop_shift]
            omega
        obtain ⟨hleaves, hprogress, hevery⟩ := ih _ hb _ rfl (base + start) (addr - start) progress hfits'
        refine ⟨?_, ?_, ?_, fun c hc => ?_⟩
        · rw [Backer.store_child, Backer.leaves, hleaves, Backer.leaves_child rfl, storeLeaves_shift]
          rfl
        · rw [Backer.store_child, hprogress, Backer.leaves_child rfl, storeLeaves_shift]
          rfl
        · rw [Backer.store_child, Backer.signature, Backer.signature]
        · rw [Backer.store_child] at hc
          cases hc
          exact hevery
    unfold Clemory.storeIn
    by_cases hend : m.maxAddr < addr
    · rw [if_pos hend]
      have hskip : storeLeaves base addr progress m.leaves = (m.leaves, progress) := by
        refine storeLeaves_skip fun l hl => ?_
        have := hregular.shape.leaf_bounds hl
        omega
      rw [hskip]
      exact ⟨rfl, rfl, hregular⟩
    rw [if_neg hend]
    generalize hi : bisect (m.backers.map Backer.calculateEnd) addr = i
    have hstored : StoredBackers base addr progress i m.backers := by
      refine storeFromIndex_spec (fun b hb => ?_) (fun b hb => ?_) hrest hregular.sorted_leaves hfits
      · refine hfront b (List.mem_of_mem_take hb) (mem_take_bisect hm.ordered ?_)
        rw [hi, ← List.map_take]
        exact List.mem_map_of_mem hb
      · refine hbacker b (List.mem_of_mem_drop hb) (mem_drop_bisect hm.ordered ?_)
        rw [hi, ← List.map_drop]
        exact List.mem_map_of_mem hb
    exact ⟨hstored.leaves, hstored.progress, .mk _ (hm.congr hstored.signatures) hstored.children⟩

theorem getElem?_setSlice (backer new : List UInt8) {offset n : Nat} (hoffset : offset ≤ backer.length)
    (hnew : new.length = min n (backer.length - offset)) (j : Nat) (hj : j < backer.length) :
    (setSlice backer offset n new)[j]? = if offset ≤ j ∧ j < offset + n then new[j - offset]? else backer[j]? := by
  unfold setSlice
  rw [List.append_assoc]
  by_cases hlow : j < offset
  · rw [List.getElem?_append_left (by rw [List.length_take]; omega), List.getElem?_take_of_lt hlow,
      if_neg (by omega)]
  rw [List.getElem?_append_right (by rw [List.length_take]; omega), List.length_take, Nat.min_eq_left hoffset]
  by_cases hin : j < offset + n
  · rw [List.getElem?_append_left (by omega), if_pos ⟨by omega, hin⟩]
  · rw [List.getElem?_append_right (by omega), List.getElem?_drop, if_neg (by omega)]
    congr 1
    omega

/-- A store to mapped addresses succeeds and changes these addresses only. -/
theorem storeLeaves_spec (hsorted : SortedLeaves ls) {addr a : Int} {data : List UInt8} (haddr : addr ≤ a)
    (hends : ∀ l ∈ ls, addr < l.stop → a < l.stop) (hmapped : (lookup a ls).isSome)
    (hall : ∀ i < data.length, (lookup (a + i) ls).isSome) :
    (storeLeaves 0 addr (.running a data) ls).2 = .finished ∧
      ∀ k, lookup k (storeLeaves 0 addr (.running a data) ls).1 =
        if a ≤ k ∧ k < a + data.length then data[(k - a).toNat]? else lookup k ls := by
  induction ls generalizing a data with
  | nil => simp [lookup] at hmapped
  | cons l ls ih =>
    have hends' : ∀ l' ∈ ls, addr < l'.stop → a < l'.stop := fun l' hl' => hends l' (List.mem_cons_of_mem _ hl')
    rw [storeLeaves]
    by_cases hvisit : addr < l.stop
    swap
    · -- The array ends before the store begins.
      rw [if_neg hvisit]
      rw [lookup_cons_of_lt (by omega)] at hmapped
      have hall' : ∀ i < data.length, (lookup (a + i) ls).isSome := by
        intro i hi
        have := hall i hi
        rwa [lookup_cons_of_lt (by omega)] at this
      obtain ⟨hdone, hlookup⟩ := ih hsorted.tail haddr hends' hmapped hall'
      refine ⟨hdone, fun k => ?_⟩
      rw [lookup_cons, hlookup, lookup_cons]
      split
      · rw [Leaf.get_eq, if_neg (by omega), Option.none_or]
      · rfl
    have hstop := hends l List.mem_cons_self hvisit
    have hstart : l.1 ≤ a := by
      obtain ⟨l', hl', hlo, -⟩ := lookup_isSome.mp hmapped
      rcases List.mem_cons.mp hl' with rfl | hl'
      · exact hlo
      · have := hsorted.head hl'
        omega
    rw [if_pos hvisit]
    obtain ⟨start, backer⟩ := l
    simp only [Leaf.stop] at hvisit hstop
    dsimp only at hstart
    have hbase : ¬ (0 + start > a) := by omega
    have hsize : (backer.length : Int) - (a - (0 + start)) = (backer.length - (a - start).toNat : Nat) := by omega
    have hoff : (a - (0 + start)).toNat = (a - start).toNat := by omega
    have hcut : cut data (backer.length - (a - start).toNat : Nat) = backer.length - (a - start).toNat := by
      unfold cut
      rw [if_pos (by omega), Int.toNat_natCast]
    dsimp only [storeBytes]
    rw [if_neg hbase, hsize, hoff, hcut]
    dsimp only
    by_cases hshort : data.length ≤ backer.length - (a - start).toNat
    · -- The data ends in this array.
      have hrest : data.drop (backer.length - (a - start).toNat) = [] := List.drop_eq_nil_of_le hshort
      have hfits : (data.length : Int) ≤ (backer.length - (a - start).toNat : Nat) := by omega
      rw [if_pos hrest, if_pos hfits, storeLeaves_finished]
      refine ⟨rfl, fun k => ?_⟩
      have hget := getElem?_setSlice backer data (n := data.length)
        (show (a - start).toNat ≤ backer.length by omega) (by omega)
      have hlen : (setSlice backer (a - start).toNat data.length data).length = backer.length := by
        simp only [setSlice, List.length_append, List.length_take, List.length_drop]
        omega
      rw [lookup_cons, Leaf.get_pair, lookup_cons, Leaf.get_pair, hlen]
      by_cases hin : start ≤ k ∧ k < start + backer.length
      · rw [if_pos hin, if_pos hin, hget _ (by omega)]
        by_cases hk : a ≤ k ∧ k < a + data.length
        · have hindex : (k - start).toNat - (a - start).toNat = (k - a).toNat := by omega
          rw [if_pos (by omega), if_pos hk, hindex, List.getElem?_eq_getElem (by omega), Option.some_or]
        · rw [if_neg (by omega), if_neg hk]
      · rw [if_neg hin, if_neg hin, if_neg (by omega)]
    · -- The rest of the data goes on in the next array.
      have hlong : backer.length - (a - start).toNat < data.length := by omega
      have hrest : data.drop (backer.length - (a - start).toNat) ≠ [] := by
        intro hnil
        have := List.drop_eq_nil_iff.mp hnil
        omega
      have hnext : a + ((backer.length - (a - start).toNat : Nat) : Int) = start + backer.length := by omega
      have hfits : ¬ (data.length : Int) ≤ (backer.length - (a - start).toNat : Nat) := by omega
      rw [if_neg hrest, if_neg hfits, hnext]
      have hmapped' : ∀ i : Nat, backer.length - (a - start).toNat + i < data.length →
          (lookup (start + backer.length + i) ls).isSome := by
        intro i hi
        have := hall _ hi
        have hk : a + ((backer.length - (a - start).toNat + i : Nat) : Int) = start + backer.length + i := by omega
        rw [hk, lookup_cons_of_lt (by simp only [Leaf.stop]; omega)] at this
        exact this
      have hlast : ∀ i < (data.drop (backer.length - (a - start).toNat)).length,
          (lookup (start + backer.length + i) ls).isSome := by
        intro i hi
        rw [List.length_drop] at hi
        exact hmapped' i (by omega)
      obtain ⟨hdone, hlookup⟩ := ih hsorted.tail (a := start + backer.length) (by omega) (fun l' hl' _ => by
          have hhead := hsorted.head hl'
          have := hsorted.nonempty l' (List.mem_cons_of_mem _ hl')
          simp only [Leaf.stop] at hhead this ⊢
          omega) (by simpa using hmapped' 0 (by omega)) hlast
      refine ⟨hdone, fun k => ?_⟩
      have hget := getElem?_setSlice backer (data.take (backer.length - (a - start).toNat)) (n := data.length)
        (show (a - start).toNat ≤ backer.length by omega) (by rw [List.length_take]; omega)
      have hlen : (setSlice backer (a - start).toNat data.length
          (data.take (backer.length - (a - start).toNat))).length = backer.length := by
        simp only [setSlice, List.length_append, List.length_take, List.length_drop]
        omega
      rw [lookup_cons, hlookup, Leaf.get_pair, lookup_cons, Leaf.get_pair, hlen, List.length_drop]
      by_cases hin : start ≤ k ∧ k < start + backer.length
      · rw [if_pos hin, if_pos hin, hget _ (by omega)]
        by_cases hk : a ≤ k ∧ k < a + data.length
        · have hindex : (k - start).toNat - (a - start).toNat = (k - a).toNat := by omega
          have hoffset : (a - start).toNat ≤ (k - start).toNat ∧
              (k - start).toNat < (a - start).toNat + data.length := by omega
          rw [if_pos hoffset, if_pos hk, hindex, List.getElem?_take_of_lt (by omega),
            List.getElem?_eq_getElem (by omega), Option.some_or]
        · have hoffset : ¬ ((a - start).toNat ≤ (k - start).toNat ∧
              (k - start).toNat < (a - start).toNat + data.length) := by omega
          rw [if_neg hoffset, if_neg hk, List.getElem?_eq_getElem (by omega), Option.some_or, Option.some_or]
      · rw [if_neg hin, if_neg hin, Option.none_or, Option.none_or]
        by_cases hk : start + backer.length ≤ k ∧ k < a + data.length
        · have hindex : backer.length - (a - start).toNat + (k - (start + backer.length)).toNat = (k - a).toNat := by
            omega
          rw [if_pos (by omega), if_pos (by omega), List.getElem?_drop, hindex]
        · rw [if_neg (by omega), if_neg (by omega)]

end Cle
