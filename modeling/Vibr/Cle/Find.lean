import Vibr.Cle.Agreement

/-!
# Searching

`Clemory.find` searches the byte arrays one after another. It skips an array by comparing
bounds, and stops in one at the first match that reaches too close to the last address.
-/

namespace Cle

/-! ## The code -/

/-- `bytes.find`: the first place from a start on where the needle is. -/
def bytesFind (hay needle : List UInt8) (start : Nat) : Option Nat :=
  (List.range (hay.length + 1)).find? fun i => start ≤ i ∧ needle.isPrefixOf (hay.drop i)

/-- The loop of `find` in one byte array, up to a limit of the places behind a match. -/
def findLoop (data backer : List UInt8) (limit : Int) : (fuel : Nat) → (ptr : Int) → List Nat
  | 0, _ => []
  | fuel + 1, ptr =>
    match bytesFind backer data (max 0 (ptr + 1)).toNat with
    | none => []
    | some p => if p + data.length > limit then [] else p :: findLoop data backer limit fuel p

mutual

def Backer.find (data : List UInt8) (searchMin searchMax : Int) : Backer → List Int
  | .bytes start backer =>
    if searchMax < start ∨ searchMin > start + data.length then []
    else
      (findLoop data backer (searchMax - start - 1) (backer.length + 1) (searchMin - start - 1)).map fun p : Nat =>
        (p : Int) + start
  | .clemory start _ minAddr maxAddr backers =>
    if searchMax < minAddr + start ∨ searchMin > maxAddr + start then []
    else (findIn data (searchMin - start) (searchMax - start) backers).map fun addr => addr + start

def findIn (data : List UInt8) (searchMin searchMax : Int) : List Backer → List Int
  | [] => []
  | backer :: rest => backer.find data searchMin searchMax ++ findIn data searchMin searchMax rest

end

/-- `find` -/
def Clemory.find (self : Clemory) (data : List UInt8) (searchMin searchMax : Option Int) : List Int :=
  findIn data (searchMin.getD self.minAddr) (searchMax.getD self.maxAddr) self.backers

/-! ## One byte array -/

/-- The needle is at a place of a byte array. -/
def Occurs (data backer : List UInt8) (p : Nat) : Prop := p ≤ backer.length ∧ data <+: backer.drop p

section Array

variable {data backer : List UInt8} {start p : Nat} {limit ptr : Int} {fuel : Nat}

theorem Occurs.le (h : Occurs data backer p) : p + data.length ≤ backer.length := by
  have hlen := h.2.length_le
  have hp := h.1
  rw [List.length_drop] at hlen
  omega

theorem bytesFind_eq_some : bytesFind backer data start = some p ↔
    start ≤ p ∧ Occurs data backer p ∧ ∀ q, start ≤ q → q < p → ¬ Occurs data backer q := by
  rw [bytesFind, List.find?_range_eq_some]
  simp only [decide_eq_true_eq, List.isPrefixOf_iff_prefix, List.mem_range, Bool.not_eq_true', decide_eq_false_iff_not]
  constructor
  · rintro ⟨⟨hstart, hoccurs⟩, hlt, hfirst⟩
    exact ⟨hstart, ⟨by omega, hoccurs⟩, fun q hq hlt hocc => hfirst q hlt ⟨hq, hocc.2⟩⟩
  · rintro ⟨hstart, hoccurs, hfirst⟩
    have hle := Occurs.le hoccurs
    exact ⟨⟨hstart, hoccurs.2⟩, by omega, fun q hlt h => hfirst q h.1 hlt ⟨by omega, h.2⟩⟩

theorem bytesFind_eq_none (h : bytesFind backer data start = none) {q : Nat} (hq : start ≤ q) :
    ¬ Occurs data backer q := by
  intro hoccurs
  have hle := Occurs.le hoccurs
  have hnot := List.find?_eq_none.mp h q (List.mem_range.mpr (by omega))
  exact hnot (by simpa [List.isPrefixOf_iff_prefix, hq] using hoccurs.2)

/-- The loop finds every place behind its pointer where the needle is, up to the limit, in ascending order. -/
theorem findLoop_spec (hfuel : backer.length < fuel + (max 0 (ptr + 1)).toNat) :
    (∀ p, p ∈ findLoop data backer limit fuel ptr ↔ ptr < p ∧ Occurs data backer p ∧ p + data.length ≤ limit) ∧
      (findLoop data backer limit fuel ptr).Pairwise (· < ·) := by
  induction fuel generalizing ptr with
  | zero =>
    refine ⟨fun p => iff_of_false (by simp [findLoop]) fun h => ?_, .nil⟩
    have hle := Occurs.le h.2.1
    omega
  | succ fuel ih =>
    rw [findLoop]
    cases hfind : bytesFind backer data (max 0 (ptr + 1)).toNat with
    | none =>
      refine ⟨fun p => iff_of_false (by simp) fun h => ?_, .nil⟩
      exact bytesFind_eq_none hfind (by omega) h.2.1
    | some q =>
      obtain ⟨hstart, hoccurs, hfirst⟩ := bytesFind_eq_some.mp hfind
      have hlater : ∀ p : Nat, ptr < p → Occurs data backer p → q ≤ p := by
        intro p hp hocc
        by_contra hlt
        exact hfirst p (by omega) (not_le.mp hlt) hocc
      simp only
      split
      · rename_i hlimit
        refine ⟨fun p => iff_of_false (by simp) fun h => ?_, .nil⟩
        have hle := hlater p h.1 h.2.1
        omega
      rename_i hlimit
      obtain ⟨hmem, hsorted⟩ := @ih (q : Int) (by omega)
      refine ⟨fun p => ?_, List.pairwise_cons.mpr ⟨fun p hp => ?_, hsorted⟩⟩
      · rw [List.mem_cons, hmem]
        constructor
        · rintro (rfl | ⟨hlt, hocc, hle⟩)
          · exact ⟨by omega, hoccurs, by omega⟩
          · exact ⟨by omega, hocc, hle⟩
        rintro ⟨hlt, hocc, hle⟩
        rcases Nat.eq_or_lt_of_le (hlater p hlt hocc) with heq | hlt'
        · exact .inl heq.symm
        · exact .inr ⟨by omega, hocc, hle⟩
      · have hlt := ((hmem p).mp hp).1
        omega

end Array

/-! ## Trees -/

/-- A byte array of a memory holds the needle at an address. -/
def Leaf.Holds (data : List UInt8) (a : Int) (l : Leaf) : Prop := l.1 ≤ a ∧ Occurs data l.2 (a - l.1).toNat

/-- The bounds that the search in a byte array really has. -/
def Leaf.Reached (data : List UInt8) (searchMin searchMax a : Int) (l : Leaf) : Prop :=
  searchMin ≤ a ∧ a + data.length < searchMax ∧ searchMin ≤ l.1 + data.length

section Trees

variable {m : Clemory} {data : List UInt8} {searchMin searchMax a : Int}

theorem Leaf.holds_shift (start : Int) (l : Leaf) : (l.shift start).Holds data a ↔ l.Holds data (a - start) := by
  have hsub : a - (l.1 + start) = a - start - l.1 := by omega
  simp only [Leaf.Holds, Leaf.shift, hsub]
  exact and_congr (by omega) Iff.rfl

theorem Leaf.Holds.stop_le {l : Leaf} (h : l.Holds data a) : a + data.length ≤ l.stop := by
  have hle := Occurs.le h.2
  have hlo := h.1
  unfold Leaf.stop
  omega

theorem mem_findIn (bs : List Backer) :
    a ∈ findIn data searchMin searchMax bs ↔ ∃ b ∈ bs, a ∈ b.find data searchMin searchMax := by
  induction bs with
  | nil => simp [findIn]
  | cons b bs ih => simp only [findIn, List.mem_append, ih, List.mem_cons, exists_eq_or_imp]

theorem mem_find_bytes (start : Int) (backer : List UInt8) :
    a ∈ (Backer.bytes start backer).find data searchMin searchMax ↔
      Leaf.Holds data a (start, backer) ∧ Leaf.Reached data searchMin searchMax a (start, backer) := by
  rw [Backer.find]
  have hloop := (@findLoop_spec data backer (searchMax - start - 1) (searchMin - start - 1) (backer.length + 1)
    (by omega)).1
  split
  · rename_i hskip
    refine iff_of_false (by simp) fun h => ?_
    obtain ⟨⟨hlo, hocc⟩, hmin, hmax, hreach⟩ := h
    simp only at hlo hreach
    omega
  rename_i hskip
  simp only [List.mem_map, hloop, Leaf.Holds, Leaf.Reached]
  constructor
  · rintro ⟨p, ⟨hptr, hocc, hle⟩, rfl⟩
    have hback : (p + start - start : Int).toNat = p := by omega
    rw [hback]
    exact ⟨⟨by omega, hocc⟩, by omega, by omega, by omega⟩
  · rintro ⟨⟨hlo, hocc⟩, hmin, hmax, -⟩
    exact ⟨(a - start).toNat, ⟨by omega, hocc, by omega⟩, by omega⟩

/-- What is found in the byte arrays of a backer: children pass the bounds on, less their start. -/
theorem Every.mem_find (h : Every Shape m) {b : Backer} (hb : b ∈ m.backers) :
    a ∈ b.find data searchMin searchMax ↔
      ∃ l ∈ b.leaves, l.Holds data a ∧ l.Reached data searchMin searchMax a := by
  induction h generalizing b searchMin searchMax a with
  | mk m hm hrest ih =>
    cases hc : b.child? with
    | none =>
      cases b with
      | clemory start consecutive minAddr maxAddr backers => cases hc
      | bytes start backer =>
        rw [mem_find_bytes, Backer.leaves]
        simp only [List.mem_singleton, exists_eq_left]
    | some c =>
      have hchild : ∀ b' ∈ c.backers, ∀ a searchMin searchMax, a ∈ b'.find data searchMin searchMax ↔
          ∃ l ∈ b'.leaves, l.Holds data a ∧ l.Reached data searchMin searchMax a :=
        fun b' hb' a searchMin searchMax => ih b hb c hc hb'
      have hbounds := fun l => (hrest b hb c hc).leaf_bounds (l := l)
      have hleaves := @Clemory.mem_leaves c
      rw [Backer.leaves_child hc]
      cases b with
      | bytes start backer => cases hc
      | clemory start consecutive minAddr maxAddr backers =>
        cases hc
        simp only [Backer.start] at *
        have hshift : (∃ l ∈ (Clemory.leaves ⟨false, consecutive, minAddr, maxAddr, backers⟩).map (Leaf.shift start),
            l.Holds data a ∧ l.Reached data searchMin searchMax a) ↔
            ∃ l ∈ Clemory.leaves ⟨false, consecutive, minAddr, maxAddr, backers⟩,
              l.Holds data (a - start) ∧ l.Reached data (searchMin - start) (searchMax - start) (a - start) := by
          simp only [List.mem_map, exists_exists_and_eq_and, Leaf.holds_shift]
          refine exists_congr fun l => and_congr_right fun _ => and_congr_right fun _ => ?_
          simp only [Leaf.Reached, Leaf.shift]
          omega
        rw [hshift, Backer.find]
        split
        · -- nothing in the range of the child is within the bounds
          rename_i hskip
          refine iff_of_false (by simp) ?_
          rintro ⟨l, hl, hholds, hreached⟩
          have hrange := hbounds l hl
          have hstop := hholds.stop_le
          obtain ⟨hmin, hmax, -⟩ := hreached
          have hlo := hholds.1
          omega
        · have hmem : a ∈ (findIn data (searchMin - start) (searchMax - start) backers).map (fun addr => addr + start) ↔
              a - start ∈ findIn data (searchMin - start) (searchMax - start) backers := by
            rw [List.mem_map]
            constructor
            · rintro ⟨addr, haddr, rfl⟩
              rwa [Int.add_sub_cancel]
            · exact fun haddr => ⟨a - start, haddr, Int.sub_add_cancel a start⟩
          rw [hmem, mem_findIn]
          constructor
          · rintro ⟨b', hb', hfound⟩
            obtain ⟨l, hl, hl'⟩ := (hchild b' hb' _ _ _).mp hfound
            exact ⟨l, hleaves.mpr ⟨b', hb', hl⟩, hl'⟩
          · rintro ⟨l, hl, hl'⟩
            obtain ⟨b', hb', hlb⟩ := hleaves.mp hl
            exact ⟨b', hb', (hchild b' hb' _ _ _).mpr ⟨l, hlb, hl'⟩⟩

theorem Every.mem_findIn (h : Every Shape m) : a ∈ findIn data searchMin searchMax m.backers ↔
    ∃ l ∈ m.leaves, l.Holds data a ∧ l.Reached data searchMin searchMax a := by
  rw [Cle.mem_findIn]
  constructor
  · rintro ⟨b, hb, hfound⟩
    obtain ⟨l, hl, hl'⟩ := (h.mem_find hb).mp hfound
    exact ⟨l, Clemory.mem_leaves.mpr ⟨b, hb, hl⟩, hl'⟩
  · rintro ⟨l, hl, hl'⟩
    obtain ⟨b, hb, hlb⟩ := Clemory.mem_leaves.mp hl
    exact ⟨b, hb, (h.mem_find hb).mpr ⟨l, hlb, hl'⟩⟩

/-- What is found in a backer lies in its range. -/
theorem Every.find_range (h : Every Shape m) (hdata : data ≠ []) {b : Backer} (hb : b ∈ m.backers)
    (ha : a ∈ b.find data searchMin searchMax) : b.low ≤ a ∧ a < b.calculateEnd := by
  obtain ⟨l, hl, hholds, -⟩ := (h.mem_find hb).mp ha
  have hrange := h.leaf_range hb hl
  have hstop := hholds.stop_le
  have hpos := List.length_pos_iff.mpr hdata
  have hlo := hholds.1
  omega

/-- No address is found twice. -/
theorem Every.nodup_findIn (h : Every (fun m => Shape m ∧ Disjoint m) m) (hdata : data ≠ []) :
    (findIn data searchMin searchMax m.backers).Nodup := by
  induction h generalizing searchMin searchMax with
  | mk m hm hrest ih =>
    have hshape : Every Shape m := (Every.mk m hm hrest).imp fun _ hm => hm.1
    have hbacker : ∀ b ∈ m.backers, (b.find data searchMin searchMax).Nodup := by
      intro b hb
      cases b with
      | bytes start backer =>
        have hsorted := (@findLoop_spec data backer (searchMax - start - 1) (searchMin - start - 1) (backer.length + 1)
          (by omega)).2
        rw [Backer.find]
        split
        · exact .nil
        · refine List.Pairwise.map _ (fun p q hlt heq => ?_) hsorted
          omega
      | clemory start consecutive minAddr maxAddr backers =>
        have hchild := fun searchMin searchMax => @ih _ hb _ rfl searchMin searchMax
        rw [Backer.find]
        split
        · exact .nil
        · exact (hchild _ _).map fun p q heq => by simpa using heq
    have hall : ∀ bs : List Backer, (∀ b ∈ bs, b ∈ m.backers) → bs.Pairwise Backer.Apart →
        (findIn data searchMin searchMax bs).Nodup := by
      intro bs
      induction bs with
      | nil => exact fun _ _ => by simp [findIn]
      | cons b bs ihbs =>
        intro hbs hapart
        obtain ⟨hfirst, hlater⟩ := List.pairwise_cons.mp hapart
        have hb := hbs b List.mem_cons_self
        have hbs' : ∀ b ∈ bs, b ∈ m.backers := fun b hb => hbs b (List.mem_cons_of_mem _ hb)
        rw [findIn]
        refine List.nodup_append.mpr ⟨hbacker b hb, ihbs hbs' hlater, fun a ha a' ha' heq => ?_⟩
        subst heq
        obtain ⟨b', hb', hfound⟩ := (Cle.mem_findIn bs).mp ha'
        have hin := hshape.find_range hdata hb ha
        have hin' := hshape.find_range hdata (hbs' b' hb') hfound
        exact hfirst b' hb' a ⟨hin.1, hin.2, hin'.1, hin'.2⟩
    exact hall m.backers (fun _ hb => hb) hm.2

theorem Backer.Apart.symm {b b' : Backer} (h : b.Apart b') : b'.Apart b := fun a ha => h a ⟨ha.2.2.1, ha.2.2.2, ha.1, ha.2.1⟩

/-- An address is in one byte array. -/
theorem Every.leaf_unique (h : Every (fun m => Shape m ∧ Disjoint m) m) {l l' : Leaf} (hl : l ∈ m.leaves)
    (hl' : l' ∈ m.leaves) (ha : l.1 ≤ a ∧ a < l.stop) (ha' : l'.1 ≤ a ∧ a < l'.stop) : l = l' := by
  induction h generalizing l l' a with
  | mk m hm hrest ih =>
    have hshape : Every Shape m := (Every.mk m hm hrest).imp fun _ hm => hm.1
    obtain ⟨b, hb, hlb⟩ := Clemory.mem_leaves.mp hl
    obtain ⟨b', hb', hlb'⟩ := Clemory.mem_leaves.mp hl'
    by_cases hbb : b = b'
    · subst hbb
      cases hc : b.child? with
      | none =>
        cases b with
        | clemory start consecutive minAddr maxAddr backers => cases hc
        | bytes start backer =>
          rw [Backer.leaves, List.mem_singleton] at hlb hlb'
          rw [hlb, hlb']
      | some c =>
        rw [Backer.leaves_child hc, List.mem_map] at hlb hlb'
        obtain ⟨k, hk, rfl⟩ := hlb
        obtain ⟨k', hk', rfl⟩ := hlb'
        rw [Leaf.stop_shift] at ha ha'
        simp only [Leaf.shift] at ha ha'
        rw [ih b hb c hc hk hk' (a := a - b.start) (by omega) (by omega)]
    · have hrange := hshape.leaf_range hb hlb
      have hrange' := hshape.leaf_range hb' hlb'
      have : Std.Symm Backer.Apart := ⟨fun _ _ => Backer.Apart.symm⟩
      have hapart := hm.2.forall hb hb' hbb
      exact absurd ⟨by omega, by omega, by omega, by omega⟩ (hapart a)

end Trees

/-! ## Exact searches -/

variable {m : Clemory} {data : List UInt8}

/-- The addresses that are asked for: the needle is in one byte array, from the first address to the last. -/
def Clemory.Matches (m : Clemory) (data : List UInt8) (searchMin searchMax a : Int) : Prop :=
  searchMin ≤ a ∧ a + data.length - 1 ≤ searchMax ∧ ∃ l ∈ m.leaves, l.Holds data a

/-- A search finds exactly what is asked for, each address once. -/
structure Clemory.FindsExactly (m : Clemory) (data : List UInt8) (searchMin searchMax : Option Int) : Prop where
  nodup : (m.find data searchMin searchMax).Nodup
  found : ∀ a, a ∈ m.find data searchMin searchMax ↔
    m.Matches data (searchMin.getD m.minAddr) (searchMax.getD m.maxAddr) a

/-- A search is exact if no match ends at one of the last two addresses, and none lies in an array that starts more than
the length of the needle below the first address. -/
theorem findsExactly_iff (h : Built m) (hdisjoint : Every Disjoint m) (hdata : data ≠ [])
    (searchMin searchMax : Option Int) : m.FindsExactly data searchMin searchMax ↔
      ∀ a, ∀ l ∈ m.leaves, l.Holds data a → searchMin.getD m.minAddr ≤ a →
        a + data.length - 1 ≤ searchMax.getD m.maxAddr →
          a + data.length < searchMax.getD m.maxAddr ∧ searchMin.getD m.minAddr ≤ l.1 + data.length := by
  have hall := h.shape.and hdisjoint
  have hpos := List.length_pos_iff.mpr hdata
  have hfound := fun a => @Every.mem_findIn m data (searchMin.getD m.minAddr) (searchMax.getD m.maxAddr) a h.shape
  constructor
  · intro hexact a l hl hholds hmin hmax
    obtain ⟨l', hl', hholds', -, hlt, hreach⟩ := (hfound a).mp ((hexact.found a).mpr ⟨hmin, hmax, l, hl, hholds⟩)
    have hstop := hholds.stop_le
    have hstop' := hholds'.stop_le
    have heq := hall.leaf_unique hl hl' (a := a) ⟨hholds.1, by omega⟩ ⟨hholds'.1, by omega⟩
    subst heq
    exact ⟨hlt, hreach⟩
  · intro hreach
    refine ⟨hall.nodup_findIn hdata, fun a => (hfound a).trans ⟨?_, ?_⟩⟩
    · rintro ⟨l, hl, hholds, hmin, hlt, -⟩
      exact ⟨hmin, by omega, l, hl, hholds⟩
    · rintro ⟨hmin, hmax, l, hl, hholds⟩
      obtain ⟨hlt, hlow⟩ := hreach a l hl hholds hmin hmax
      exact ⟨l, hl, hholds, hmin, hlt, hlow⟩

/-- Five bytes at address `0`. -/
def fiveBytes : Clemory := { maxAddr := 5, backers := [.bytes 0 [1, 2, 3, 4, 5]] }

theorem built_fiveBytes : Built fiveBytes :=
  .bytes (.empty false) le_rfl (show Clemory.addBytes {} 0 [1, 2, 3, 4, 5] = .ok fiveBytes from rfl)

theorem disjoint_fiveBytes : Every Disjoint fiveBytes :=
  .mk _ (List.pairwise_singleton _ _) fun b hb c hc => by
    cases List.mem_singleton.mp hb
    cases hc

theorem findsExactly_iff_example : fiveBytes.FindsExactly [1, 2] none none ↔
    ∀ a, ∀ l ∈ fiveBytes.leaves, l.Holds [1, 2] a → 0 ≤ a → a + 2 - 1 ≤ 5 → a + 2 < 5 ∧ 0 ≤ l.1 + 2 :=
  findsExactly_iff built_fiveBytes disjoint_fiveBytes (by decide) none none

/-- The last bytes of a memory are not found in the whole of it. -/
theorem match_at_end_missed : ¬ ∀ m data searchMin searchMax, Built m → Every Disjoint m → data ≠ [] →
    m.FindsExactly data searchMin searchMax := by
  intro h
  have hexact := h fiveBytes [4, 5] none none built_fiveBytes disjoint_fiveBytes (by decide)
  have hmatch : fiveBytes.Matches [4, 5] 0 5 3 :=
    ⟨by decide, by decide, (0, [1, 2, 3, 4, 5]), by simp [fiveBytes, Clemory.leaves, leavesIn, Backer.leaves], by decide,
      ⟨by decide, [], rfl⟩⟩
  have hfound := (hexact.found 3).mpr hmatch
  have hnone : fiveBytes.find [4, 5] none none = [] := by decide
  rw [hnone] at hfound
  cases hfound

end Cle
