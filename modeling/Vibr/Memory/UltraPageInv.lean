import Vibr.Memory.UltraPage

/-!
# The bytes of a page

`written` maps every offset to the byte stored there last, if there is one. The invariant
relates it to the three parts of a page, and a store moves both on together.
-/

namespace Angr

open Claripy

/-! ## Searching -/

theorem nextWhere_spec (p : Nat → Bool) {start stop : Nat} (h : start ≤ stop) :
    start ≤ nextWhere p start stop ∧ nextWhere p start stop ≤ stop ∧
      (∀ i, start ≤ i → i < nextWhere p start stop → p i = false) ∧
      (nextWhere p start stop < stop → p (nextWhere p start stop) = true) := by
  unfold nextWhere
  cases hf : (List.range' start (stop - start)).find? p with
  | none =>
    rw [List.find?_eq_none] at hf
    refine ⟨h, le_rfl, fun i hi hlt => ?_, fun hlt => absurd hlt (lt_irrefl _)⟩
    have := hf i (by simp only [List.mem_range'_1]; simp only [Option.getD_none] at hlt; omega)
    simpa using this
  | some k =>
    have hmem := List.mem_of_find?_eq_some hf
    have hk := List.find?_some hf
    simp only [List.mem_range'_1] at hmem
    refine ⟨hmem.1, by simp only [Option.getD_some]; omega, fun i hi hlt => ?_, fun _ => hk⟩
    simp only [Option.getD_some] at hlt
    obtain ⟨as, bs, hsplit, hall⟩ := List.find?_eq_some_iff_append.mp hf |>.2
    have hi' : i ∈ as := by
      have hmem' : i ∈ List.range' start (stop - start) := by
        simp only [List.mem_range'_1]; omega
      have hsorted : (List.range' start (stop - start)).Pairwise (· < ·) := List.pairwise_lt_range'
      rw [hsplit] at hmem' hsorted
      rcases List.mem_append.mp hmem' with hm | hm
      · exact hm
      have hge : k ≤ i := by
        rcases List.mem_cons.mp hm with rfl | hm
        · exact le_rfl
        · exact ((List.pairwise_cons.mp (List.pairwise_append.mp hsorted).2.1).1 i hm).le
      omega
    simpa using hall i hi'

variable {d : Nat → Option MemoryObject}

theorem floorKey_eq_some {a k : Nat} :
    floorKey d a = some k ↔ k ≤ a ∧ (d k).isSome ∧ ∀ j, k < j → j ≤ a → d j = none := by
  induction a with
  | zero =>
    rw [floorKey]
    split
    · rename_i hsome
      simp only [Option.some.injEq]
      refine ⟨?_, fun h => by omega⟩
      rintro rfl
      exact ⟨le_rfl, hsome, fun j hj hj' => by omega⟩
    rename_i hnone
    simp only [reduceCtorEq, false_iff]
    rintro ⟨hk, hsome, -⟩
    obtain rfl : k = 0 := by omega
    exact hnone hsome
  | succ a ih =>
    rw [floorKey]
    split
    · rename_i hsome
      simp only [Option.some.injEq]
      constructor
      · rintro rfl
        exact ⟨le_rfl, hsome, fun j hj hj' => by omega⟩
      rintro ⟨hk, -, hnone⟩
      by_contra hne
      have := hnone (a + 1) (by omega) le_rfl
      simp [this] at hsome
    · rename_i hnone
      rw [ih]
      have hnone' : d (a + 1) = none := by simpa using hnone
      constructor
      · rintro ⟨hk, hsome, hj⟩
        refine ⟨by omega, hsome, fun j hj' hj'' => ?_⟩
        by_cases hja : j = a + 1
        · rw [hja, hnone']
        · exact hj j hj' (by omega)
      rintro ⟨hk, hsome, hj⟩
      have hka : k ≠ a + 1 := by
        rintro rfl
        exact hnone hsome
      exact ⟨by omega, hsome, fun j hj' hj'' => hj j hj' (by omega)⟩

theorem floorKey_eq_none {a : Nat} : floorKey d a = none ↔ ∀ j ≤ a, d j = none := by
  induction a with
  | zero =>
    rw [floorKey]
    split
    · rename_i hsome
      simp only [reduceCtorEq, false_iff]
      intro h
      simp [h 0 le_rfl] at hsome
    rename_i hnone
    simp only [true_iff]
    intro j hj
    obtain rfl : j = 0 := by omega
    simpa using hnone
  | succ a ih =>
    rw [floorKey]
    split
    · rename_i hsome
      simp only [reduceCtorEq, false_iff]
      intro h
      simp [h (a + 1) le_rfl] at hsome
    rename_i hnone
    rw [ih]
    constructor
    · intro h j hj
      by_cases hja : j = a + 1
      · rw [hja]
        simpa using hnone
      · exact h j (by omega)
    · exact fun h j hj => h j (by omega)

/-- Without a key in between, two offsets share their closest key. -/
theorem floorKey_eq_of_no_key {a b : Nat} (hab : a ≤ b) (h : ∀ j, a < j → j ≤ b → d j = none) :
    floorKey d b = floorKey d a := by
  cases hf : floorKey d a with
  | none =>
    rw [floorKey_eq_none] at hf ⊢
    intro j hj
    by_cases hja : j ≤ a
    · exact hf j hja
    · exact h j (by omega) hj
  | some k =>
    rw [floorKey_eq_some] at hf ⊢
    refine ⟨by omega, hf.2.1, fun j hj hj' => ?_⟩
    by_cases hja : j ≤ a
    · exact hf.2.2 j hj hja
    · exact h j (by omega) hj'

theorem floorKey_congr {d' : Nat → Option MemoryObject} {a : Nat}
    (h : ∀ j ≤ a, (d j).isSome = (d' j).isSome) : floorKey d a = floorKey d' a := by
  induction a with
  | zero => rw [floorKey, floorKey, h 0 le_rfl]
  | succ a ih => rw [floorKey, floorKey, h (a + 1) le_rfl, ih fun j hj => h j (by omega)]

/-! ## Invariant -/

/-- The byte of an object at an address. -/
def MemoryObject.byteAt (bits : Nat) (mo : MemoryObject) (x : Nat) : Assignment → Nat :=
  fun ρ => (mo.stored ρ).getD (mo.rel bits x) 0

/-- The bytes written to a page: for every offset the last one, if there is one. -/
abbrev Written := Nat → Option (Assignment → Nat)

namespace UltraPage

section

variable (L : Layout) (F : Filler) (zero : Bool) (pageAddr : Nat)

/-- A default byte for an address: zero on a page made so, else a byte of a value that the
memory gave for a range with the address in it. -/
def Filled (x : Nat) (f : Assignment → Nat) : Prop :=
  (zero = true ∧ f = fun _ => 0) ∨ ∃ t a n e, a ≤ x ∧ x < a + n ∧
    f = (MemoryObject.new (F.value t a n e) a e).byteAt L.bits x

/-- The byte that a load has to return at an offset. -/
def Right (written : Written) (b : Nat) (f : Assignment → Nat) : Prop :=
  match written b with
  | some g => f = g
  | none => Filled L F zero (pageAddr + b) f

/-- An object that a page can hold under a key: it starts at or before it, or it starts
after the page and comes around the end of the address space. -/
structure Placed (k : Nat) (mo : MemoryObject) : Prop where
  sane : mo.Sane
  short : mo.length < 2 ^ L.bits
  side : mo.base ≤ pageAddr + k ∨ L.pageSize + pageAddr ≤ mo.base ∧
    mo.base ≤ pageAddr + k + 2 ^ L.bits ∧ ∀ b < L.pageSize,
      mo.rel L.bits (pageAddr + b) < mo.length → mo.Reaches L.bits (pageAddr + b)

/-- What the parts of a page satisfy by themselves. -/
structure Good (page : UltraPage) : Prop where
  bytes_lt : ∀ b, page.concreteData b < 256
  keys_le : ∀ k mo, page.symbolicData k = some mo → k ≤ L.pageSize
  placed : ∀ k mo, page.symbolicData k = some mo → Placed L pageAddr k mo

/-- The byte behind a cell at an address. -/
def Cell.byte (bits x : Nat) : Cell → Option (Assignment → Nat)
  | .concrete v => some fun _ => v
  | .object mo => some (mo.byteAt bits x)
  | .unwritten => none

def bytes (page : UltraPage) : Written := fun b => (page.cell L pageAddr b).byte L.bits (pageAddr + b)

structure Inv (page : UltraPage) (written : Written) : Prop extends Good L pageAddr page where
  agrees : ∀ b < L.pageSize, match page.bytes L pageAddr b with
    | some f => Right L F zero pageAddr written b f
    | none => written b = none

end

variable {L : Layout} {F : Filler} {zero : Bool} {pageAddr : Nat} {page : UltraPage}
  {written : Written}

theorem good_init : Good L pageAddr (init zero) where
  bytes_lt := by simp [init]
  keys_le := by simp [init]
  placed := by simp [init]

variable {k a b : Nat} {mo : MemoryObject}

theorem cell_eq_object : page.cell L pageAddr b = .object mo ↔
    page.symbolicBitmap b = true ∧ page.getObject L b pageAddr = some mo := by
  unfold cell
  split
  · rename_i hbit
    cases page.getObject L b pageAddr <;> simp [hbit]
  · rename_i hbit
    simp [hbit]

theorem cell_eq_concrete {v : Nat} : page.cell L pageAddr b = .concrete v ↔
    page.symbolicBitmap b = false ∧ page.concreteData b = v := by
  unfold cell
  split
  · rename_i hbit
    cases page.getObject L b pageAddr <;> simp [hbit]
  · rename_i hbit
    simp [hbit]

theorem cell_eq_unwritten : page.cell L pageAddr b = .unwritten ↔
    page.symbolicBitmap b = true ∧ page.getObject L b pageAddr = none := by
  unfold cell
  split
  · rename_i hbit
    cases page.getObject L b pageAddr <;> simp [hbit]
  · rename_i hbit
    simp [hbit]

variable {page' : UltraPage}

theorem cell_congr (hbit : page'.symbolicBitmap b = page.symbolicBitmap b)
    (hdata : page'.concreteData b = page.concreteData b)
    (hget : page.symbolicBitmap b = true → page'.getObject L b pageAddr = page.getObject L b pageAddr) :
    page'.cell L pageAddr b = page.cell L pageAddr b := by
  unfold cell
  rw [hbit, hdata]
  split
  · rename_i htrue
    rw [hget htrue]
  · rfl

theorem inv_init : Inv L F zero pageAddr (init zero) fun _ => none where
  toGood := good_init
  agrees b _ := by
    have hget : (init zero).getObject L b pageAddr = none := by
      have hfloor : floorKey (fun _ => none) b = none := floorKey_eq_none.mpr fun _ _ => rfl
      simp [getObject, init, hfloor]
    cases zero with
    | true =>
      have hcell : (init true).cell L pageAddr b = .concrete 0 := cell_eq_concrete.mpr ⟨rfl, rfl⟩
      simp only [bytes, hcell, Cell.byte]
      exact .inl ⟨rfl, rfl⟩
    | false =>
      have hcell : (init false).cell L pageAddr b = .unwritten := cell_eq_unwritten.mpr ⟨rfl, hget⟩
      simp only [bytes, hcell, Cell.byte]

/-- A page as the record of what it holds itself. -/
theorem Good.inv (h : Good L pageAddr page) : Inv L F zero pageAddr page (page.bytes L pageAddr) where
  toGood := h
  agrees b _ := by
    unfold Right
    cases hb : page.bytes L pageAddr b <;> simp

theorem Inv.concrete (h : Inv L F zero pageAddr page written) (hb : b < L.pageSize)
    (hbit : page.symbolicBitmap b = false) : Right L F zero pageAddr written b fun _ => page.concreteData b := by
  have := h.agrees b hb
  rwa [bytes, cell_eq_concrete.mpr ⟨hbit, rfl⟩] at this

theorem Inv.object (h : Inv L F zero pageAddr page written) (hb : b < L.pageSize)
    (hbit : page.symbolicBitmap b = true) (hmo : page.getObject L b pageAddr = some mo) :
    Right L F zero pageAddr written b (mo.byteAt L.bits (pageAddr + b)) := by
  have := h.agrees b hb
  rwa [bytes, cell_eq_object.mpr ⟨hbit, hmo⟩] at this

theorem Inv.absent (h : Inv L F zero pageAddr page written) (hb : b < L.pageSize)
    (hbit : page.symbolicBitmap b = true) (hget : page.getObject L b pageAddr = none) :
    written b = none := by
  have := h.agrees b hb
  rwa [bytes, cell_eq_unwritten.mpr ⟨hbit, hget⟩] at this

/-- A page with new bytes in a range and the old cells elsewhere. -/
theorem Inv.update {start stop : Nat} {g : Nat → Assignment → Nat} (h : Inv L F zero pageAddr page written)
    (hgood : Good L pageAddr page')
    (hin : ∀ b < L.pageSize, start ≤ b → b < stop → page'.bytes L pageAddr b = some (g b))
    (hout : ∀ b < L.pageSize, ¬ (start ≤ b ∧ b < stop) → page'.cell L pageAddr b = page.cell L pageAddr b) :
    Inv L F zero pageAddr page' (fillRange written start stop fun b => some (g b)) where
  toGood := hgood
  agrees b hb := by
    unfold Right fillRange
    by_cases hrange : start ≤ b ∧ b < stop
    · rw [hin b hb hrange.1 hrange.2, if_pos hrange]
    · rw [bytes, hout b hb hrange, if_neg hrange]
      exact h.agrees b hb

theorem Placed.mono (h : Placed L pageAddr k mo) (hka : k ≤ a) : Placed L pageAddr a mo :=
  ⟨h.sane, h.short, h.side.imp (fun hb => by omega) fun hw => ⟨hw.1, by omega, hw.2.2⟩⟩

theorem Placed.reaches (h : Placed L pageAddr k mo) (hka : k ≤ a) (ha : a < L.pageSize)
    (hin : mo.rel L.bits (pageAddr + a) < mo.length) : mo.Reaches L.bits (pageAddr + a) :=
  h.side.elim (fun hb => .inl (by omega)) fun hw => hw.2.2 a ha hin

theorem Placed.rel_add (h : Placed L pageAddr k mo) (hka : k ≤ a) (hab : a ≤ b)
    (hb : b < L.pageSize) :
    mo.rel L.bits (pageAddr + b) = mo.rel L.bits (pageAddr + a) + (b - a) := by
  unfold MemoryObject.rel
  rcases h.side with hbase | ⟨hbase, hwrap, -⟩
  · rw [if_pos (by omega), if_pos (by omega)]
    omega
  · rw [if_neg (by omega), if_neg (by omega)]
    omega

/-- An object is found at an offset exactly if the offset is within it. -/
theorem Placed.includes_iff (h : Placed L pageAddr k mo) (hka : k ≤ a) (ha : a < L.pageSize) :
    (mo.includes (a + pageAddr) || mo.includes (a + pageAddr + 2 ^ L.bits)) = true ↔
      mo.rel L.bits (pageAddr + a) < mo.length := by
  have hpos := Nat.two_pow_pos L.bits
  unfold MemoryObject.rel MemoryObject.includes
  simp only [Bool.or_eq_true, decide_eq_true_eq]
  rcases h.side with hbase | ⟨hbase, hwrap, -⟩
  · rw [if_pos (by omega)]
    omega
  · rw [if_neg (by omega)]
    omega

theorem Placed.base_le (h : Placed L pageAddr k mo) : mo.base ≤ pageAddr + k + 2 ^ L.bits :=
  h.side.elim (fun hb => by have := Nat.two_pow_pos L.bits; omega) fun hw => hw.2.1

theorem getObject_eq_some (hplaced : ∀ k mo, page.symbolicData k = some mo → Placed L pageAddr k mo)
    (ha : a < L.pageSize) :
    page.getObject L a pageAddr = some mo ↔ ∃ k, floorKey page.symbolicData a = some k ∧
      page.symbolicData k = some mo ∧ mo.rel L.bits (pageAddr + a) < mo.length := by
  unfold getObject
  cases hf : floorKey page.symbolicData a with
  | none => simp
  | some k =>
    have hka := (floorKey_eq_some.mp hf).1
    simp only [Option.filter_eq_some_iff, Option.some.injEq, exists_eq_left']
    exact and_congr_right fun hmo => (hplaced k mo hmo).includes_iff hka ha

theorem getObject_eq_none (hplaced : ∀ k mo, page.symbolicData k = some mo → Placed L pageAddr k mo)
    (ha : a < L.pageSize) :
    page.getObject L a pageAddr = none ↔ ∀ k mo, floorKey page.symbolicData a = some k →
      page.symbolicData k = some mo → mo.length ≤ mo.rel L.bits (pageAddr + a) := by
  rw [Option.eq_none_iff_forall_ne_some]
  constructor
  · intro h k mo hk hmo
    by_contra hlt
    exact h mo ((getObject_eq_some hplaced ha).mpr ⟨k, hk, hmo, by omega⟩)
  · intro h mo hmo
    obtain ⟨k, hk, hd, hlt⟩ := (getObject_eq_some hplaced ha).mp hmo
    exact absurd (h k mo hk hd) (by omega)

/-- Two pages that find the same object under the closest key. -/
theorem getObject_congr
    (h : (floorKey page'.symbolicData b).bind page'.symbolicData = (floorKey page.symbolicData b).bind page.symbolicData) :
    page'.getObject L b pageAddr = page.getObject L b pageAddr := by
  have hbind : ∀ page : UltraPage, page.getObject L b pageAddr =
      ((floorKey page.symbolicData b).bind page.symbolicData).filter fun obj =>
        obj.includes (b + pageAddr) || obj.includes (b + pageAddr + 2 ^ L.bits) := by
    intro page
    unfold getObject
    cases floorKey page.symbolicData b <;> rfl
  rw [hbind, hbind, h]

/-! ## Storing a symbolic object -/

variable {addr size : Nat}

theorem storeSymbolic_data (j : Nat) :
    (page.storeSymbolic addr size mo).symbolicData j =
      if j = addr then some mo
      else if addr < j ∧ j < addr + size then none
      else if j = addr + size then (floorKey page.symbolicData (addr + size)).bind page.symbolicData
      else page.symbolicData j := by
  unfold storeSymbolic fillRange
  dsimp only
  rw [Function.update_apply]
  by_cases hj : j = addr
  · rw [if_pos hj, if_pos hj]
  rw [if_neg hj, if_neg hj]
  by_cases hin : addr < j ∧ j < addr + size
  · rw [if_pos (by omega), if_pos hin]
  rw [if_neg (by omega), if_neg hin]
  cases hf : floorKey page.symbolicData (addr + size) with
  | none =>
    dsimp only [Option.bind_none]
    split
    · rename_i hje
      rw [hje]
      exact floorKey_eq_none.mp hf _ le_rfl
    · rfl
  | some e =>
    dsimp only [Option.bind_some]
    by_cases he : e = addr + size
    · rw [if_neg (not_not.mpr he), he]
      split
      · rename_i hje; rw [hje]
      · rfl
    · rw [if_pos he, Function.update_apply]

/-- Before the stored range nothing changes. -/
theorem getObject_storeSymbolic_before (hb : b < addr) :
    (page.storeSymbolic addr size mo).getObject L b pageAddr = page.getObject L b pageAddr := by
  have hdata : ∀ j ≤ b, (page.storeSymbolic addr size mo).symbolicData j = page.symbolicData j := by
    intro j hj
    rw [storeSymbolic_data, if_neg (by omega), if_neg (by omega), if_neg (by omega)]
  refine getObject_congr ?_
  rw [floorKey_congr fun j hj => by rw [hdata j hj]]
  cases hf : floorKey page.symbolicData b with
  | none => rfl
  | some k => exact hdata k (floorKey_eq_some.mp hf).1

theorem floorKey_storeSymbolic_within (hab : addr ≤ b) (hb : b < addr + size) :
    floorKey (page.storeSymbolic addr size mo).symbolicData b = some addr := by
  refine floorKey_eq_some.mpr ⟨hab, by rw [storeSymbolic_data, if_pos rfl]; rfl,
    fun j hj hj' => ?_⟩
  rw [storeSymbolic_data, if_neg (by omega), if_pos (by omega)]

/-- After the stored range the closest key leads to the same object as before; without
one, to the new object. -/
theorem floorKey_storeSymbolic_after (page : UltraPage) (mo : MemoryObject) (hsize : 0 < size)
    (hb : addr + size ≤ b) :
    (floorKey (page.storeSymbolic addr size mo).symbolicData b).bind
        (page.storeSymbolic addr size mo).symbolicData =
      match floorKey page.symbolicData b with
      | some k => page.symbolicData k
      | none => some mo := by
  have hafter : ∀ j, addr + size < j →
      (page.storeSymbolic addr size mo).symbolicData j = page.symbolicData j := by
    intro j hj
    rw [storeSymbolic_data, if_neg (by omega), if_neg (by omega), if_neg (by omega)]
  have hending : (page.storeSymbolic addr size mo).symbolicData (addr + size) =
      (floorKey page.symbolicData (addr + size)).bind page.symbolicData := by
    rw [storeSymbolic_data, if_neg (by omega), if_neg (by omega), if_pos rfl]
  cases hf : floorKey page.symbolicData b with
  | some k =>
    obtain ⟨hkb, hk, hnone⟩ := floorKey_eq_some.mp hf
    dsimp only
    by_cases hlate : addr + size < k
    · -- The key lies after the stored range and is untouched.
      have hfloor : floorKey (page.storeSymbolic addr size mo).symbolicData b = some k :=
        floorKey_eq_some.mpr ⟨hkb, by rw [hafter k hlate]; exact hk, fun j hj hj' => by
          rw [hafter j (by omega)]; exact hnone j hj hj'⟩
      rw [hfloor, Option.bind_some, hafter k hlate]
    -- The key lies in or before it, and its object is kept at the end of the range.
    have hfloorEnd : floorKey page.symbolicData (addr + size) = some k :=
      floorKey_eq_some.mpr ⟨by omega, hk, fun j hj hj' => hnone j hj (by omega)⟩
    rw [hfloorEnd, Option.bind_some] at hending
    have hfloor : floorKey (page.storeSymbolic addr size mo).symbolicData b = some (addr + size) :=
      floorKey_eq_some.mpr ⟨hb, by rw [hending]; exact hk, fun j hj hj' => by
        rw [hafter j hj]; exact hnone j (by omega) hj'⟩
    rw [hfloor, Option.bind_some, hending]
  | none =>
    have hnone := floorKey_eq_none.mp hf
    have hfloorEnd : floorKey page.symbolicData (addr + size) = none :=
      floorKey_eq_none.mpr fun j hj => hnone j (by omega)
    rw [hfloorEnd, Option.bind_none] at hending
    have haddr : (page.storeSymbolic addr size mo).symbolicData addr = some mo := by
      rw [storeSymbolic_data, if_pos rfl]
    have hfloor : floorKey (page.storeSymbolic addr size mo).symbolicData b = some addr := by
      refine floorKey_eq_some.mpr ⟨by omega, by rw [haddr]; rfl, fun j hj hj' => ?_⟩
      rcases Nat.lt_trichotomy j (addr + size) with hlt | rfl | hgt
      · rw [storeSymbolic_data, if_neg (by omega), if_pos ⟨hj, hlt⟩]
      · exact hending
      · rw [hafter j hgt]
        exact hnone j hj'
    rw [hfloor, Option.bind_some, haddr]

theorem Good.storeSymbolic (h : Good L pageAddr page) (hin : addr + size ≤ L.pageSize)
    (hmo : Placed L pageAddr addr mo) : Good L pageAddr (page.storeSymbolic addr size mo) := by
  have hplaced : ∀ k mo', (page.storeSymbolic addr size mo).symbolicData k = some mo' →
      k ≤ L.pageSize ∧ Placed L pageAddr k mo' := by
    intro k mo' hk
    rw [storeSymbolic_data] at hk
    split at hk
    · rename_i hka
      cases hk
      exact ⟨by omega, hka ▸ hmo⟩
    split at hk
    · cases hk
    split at hk
    · rename_i hke
      obtain ⟨e, he, hmo'⟩ := Option.bind_eq_some_iff.mp hk
      exact ⟨by omega, (h.placed e mo' hmo').mono (by rw [hke]; exact (floorKey_eq_some.mp he).1)⟩
    · exact ⟨h.keys_le k mo' hk, h.placed k mo' hk⟩
  exact ⟨h.bytes_lt, fun k mo' hk => (hplaced k mo' hk).1, fun k mo' hk => (hplaced k mo' hk).2⟩

/-- The stored range finds the new object, the other symbolic bytes find what they found
before. -/
theorem Good.getObject_storeSymbolic (h : Good L pageAddr page) (hsize : 0 < size)
    (hin : addr + size ≤ L.pageSize) (hmo : Placed L pageAddr addr mo)
    (hcover : mo.rel L.bits (pageAddr + addr) + size ≤ mo.length)
    (hbeyond : ∀ b, addr + size ≤ b → b < L.pageSize → page.symbolicBitmap b = true →
      mo.rel L.bits (pageAddr + b) < mo.length → ∃ k ≤ b, (page.symbolicData k).isSome)
    (hb : b < L.pageSize) (hbit : page.symbolicBitmap b = true ∨ addr ≤ b ∧ b < addr + size) :
    (page.storeSymbolic addr size mo).getObject L b pageAddr =
      if addr ≤ b ∧ b < addr + size then some mo else page.getObject L b pageAddr := by
  have hplaced := (h.storeSymbolic hin hmo).placed
  split
  · rename_i hrange
    have hrel := hmo.rel_add le_rfl hrange.1 hb
    exact (getObject_eq_some hplaced hb).mpr ⟨addr, floorKey_storeSymbolic_within hrange.1 hrange.2,
      by rw [storeSymbolic_data, if_pos rfl], by omega⟩
  rename_i hnot
  by_cases hlt : b < addr
  · exact getObject_storeSymbolic_before hlt
  have hafter := floorKey_storeSymbolic_after page mo hsize (show addr + size ≤ b by omega)
  cases hf : floorKey page.symbolicData b with
  | some k =>
    rw [hf] at hafter
    refine getObject_congr ?_
    rw [hafter, hf, Option.bind_some]
  | none =>
    rw [hf] at hafter
    have hnone := floorKey_eq_none.mp hf
    have hold : page.getObject L b pageAddr = none := by simp [getObject, hf]
    rw [hold, getObject_eq_none hplaced hb]
    intro k mo' hk hd
    rw [hk, Option.bind_some, hd] at hafter
    cases hafter
    by_contra hlt'
    obtain ⟨k', hk', hsome⟩ := hbeyond b (by omega) hb (hbit.resolve_right hnot) (by omega)
    simp [hnone k' hk'] at hsome

theorem Good.cell_storeSymbolic (h : Good L pageAddr page) (hsize : 0 < size)
    (hin : addr + size ≤ L.pageSize) (hmo : Placed L pageAddr addr mo)
    (hcover : mo.rel L.bits (pageAddr + addr) + size ≤ mo.length)
    (hbeyond : ∀ b, addr + size ≤ b → b < L.pageSize → page.symbolicBitmap b = true →
      mo.rel L.bits (pageAddr + b) < mo.length → ∃ k ≤ b, (page.symbolicData k).isSome)
    (hb : b < L.pageSize) :
    (page.storeSymbolic addr size mo).cell L pageAddr b =
      if addr ≤ b ∧ b < addr + size then .object mo else page.cell L pageAddr b := by
  have hbitmap : (page.storeSymbolic addr size mo).symbolicBitmap b =
      if addr ≤ b ∧ b < addr + size then true else page.symbolicBitmap b := rfl
  have hget := fun hbit => h.getObject_storeSymbolic (b := b) hsize hin hmo hcover hbeyond hb hbit
  split
  · rename_i hrange
    rw [if_pos hrange] at hbitmap hget
    exact cell_eq_object.mpr ⟨hbitmap, hget (.inr hrange)⟩
  · rename_i hnot
    rw [if_neg hnot] at hbitmap hget
    exact cell_congr hbitmap rfl fun hbit => hget (.inl hbit)

/-! ## Storing concrete bytes -/

/-- The bytes that `to_bytes` produces for a store, in memory order. -/
def toBytes (endness : Endness) (size ival : Nat) : List Nat :=
  if endness = .Iend_BE then Bytes.bytesBE size ival else (Bytes.bytesBE size ival).reverse

theorem toBytes_eq_order {e : Endness} (he : e.Known) (size ival : Nat) :
    toBytes e size ival = e.order (Bytes.bytesBE size ival) := by
  cases e <;> simp_all [toBytes, Endness.order, Endness.Known]

theorem getD_toBytes_lt (e : Endness) (size ival i : Nat) : (toBytes e size ival).getD i 0 < 256 := by
  by_cases hi : i < (toBytes e size ival).length
  · rw [List.getD_eq_getElem _ _ hi]
    have hmem : (toBytes e size ival)[i] ∈ Bytes.bytesBE size ival := by
      have hget : (toBytes e size ival)[i] ∈ toBytes e size ival := List.getElem_mem hi
      unfold toBytes at hget ⊢
      split at hget <;> simp_all
    exact Bytes.lt_of_mem_bytesBE hmem
  · rw [List.getD_eq_default _ _ (by omega)]
    decide

theorem Good.storeConcrete (h : Good L pageAddr page) (addr ival size : Nat) (e : Endness) :
    Good L pageAddr (page.storeConcrete addr ival size e) := by
  refine ⟨fun b => ?_, h.keys_le, h.placed⟩
  have hdata : (page.storeConcrete addr ival size e).concreteData b =
      if addr ≤ b ∧ b < addr + size then (toBytes e size ival).getD (b - addr) 0
      else page.concreteData b := rfl
  rw [hdata]
  split
  · exact getD_toBytes_lt e size ival _
  · exact h.bytes_lt b

theorem cell_storeConcrete (page : UltraPage) (addr ival size : Nat) (e : Endness) (b : Nat) :
    (page.storeConcrete addr ival size e).cell L pageAddr b =
      if addr ≤ b ∧ b < addr + size then .concrete ((toBytes e size ival).getD (b - addr) 0)
      else page.cell L pageAddr b := by
  have hbitmap : (page.storeConcrete addr ival size e).symbolicBitmap b =
      if addr ≤ b ∧ b < addr + size then false else page.symbolicBitmap b := rfl
  have hdata : (page.storeConcrete addr ival size e).concreteData b =
      if addr ≤ b ∧ b < addr + size then (toBytes e size ival).getD (b - addr) 0
      else page.concreteData b := rfl
  split
  · rename_i hrange
    rw [if_pos hrange] at hbitmap hdata
    exact cell_eq_concrete.mpr ⟨hbitmap, hdata⟩
  · rename_i hnot
    rw [if_neg hnot] at hbitmap hdata
    exact cell_congr hbitmap hdata fun _ => rfl

theorem Inv.storeConcrete (h : Inv L F zero pageAddr page written) (addr ival size : Nat) (e : Endness) :
    Inv L F zero pageAddr (page.storeConcrete addr ival size e)
      (fillRange written addr (addr + size) fun b => some fun _ => (toBytes e size ival).getD (b - addr) 0) := by
  refine h.update (h.toGood.storeConcrete addr ival size e) (fun b _ hb hb' => ?_) fun b _ hnot => ?_
  · rw [bytes, cell_storeConcrete, if_pos ⟨hb, hb'⟩, Cell.byte]
  · rw [cell_storeConcrete, if_neg hnot]

theorem pySlice_within {l : List Nat} {i n : Nat} (h : i + n ≤ l.length) :
    pySlice l i (i + n) = (l.drop i).take n := by
  unfold pySlice
  dsimp only
  rw [if_neg (by omega), if_neg (by omega)]
  congr 1
  · omega
  · congr 1
    omega

theorem concreteValue_bytes {object : Ast} {v n : Nat} (h : concreteValue object = some v)
    (hof : object.OfBytes n) (ρ : Assignment) : object.bytes ρ = Bytes.bytesBE n v := by
  unfold concreteValue at h
  split at h
  · rename_i v' w args
    cases h
    have hlen : w = 8 * n := hof.length
    rw [hof.bytes_eq, Ast.eval_BVV]
    simp [Value.toNat]
  · cases h

/-- A trimmed constant has the bytes that the object stores in the range. -/
theorem trim_spec {v : Nat} (hv : concreteValue mo.object = some v) (hsane : mo.Sane)
    (hshort : mo.length < 2 ^ L.bits) (hbase : mo.base ≤ pageAddr + addr + 2 ^ L.bits) (hsize : 0 < size)
    (hcover : mo.rel L.bits (pageAddr + addr) + size ≤ mo.length) (ρ : Assignment) :
    ∃ ival, trim L mo v addr size pageAddr mo.endness = some ival ∧
      toBytes mo.endness size ival = ((mo.stored ρ).drop (mo.rel L.bits (pageAddr + addr))).take size := by
  have hbytes := concreteValue_bytes hv hsane.ofBytes ρ
  have hstart : ((pageAddr : Int) + addr - mo.base) % 2 ^ L.bits = mo.rel L.bits (pageAddr + addr) := by
    have hpow : ((2 : Int) ^ L.bits) = ((2 ^ L.bits : Nat) : Int) := by norm_cast
    unfold MemoryObject.rel at hcover ⊢
    rw [hpow]
    by_cases hs : mo.base ≤ pageAddr + addr
    · rw [if_pos hs] at hcover ⊢
      rw [Int.emod_eq_of_lt (by omega) (by omega)]
      omega
    · rw [if_neg hs] at hcover ⊢
      rw [← Int.add_emod_right, Int.emod_eq_of_lt (by omega) (by omega)]
      omega
  generalize hr : mo.rel L.bits (pageAddr + addr) = r at hcover hstart
  have hlen : mo.object.length = 8 * mo.length := hsane.ofBytes.length
  have hdiv : mo.object.length / 8 = mo.length := by omega
  have hlist : (Bytes.bytesBE mo.length v).length = mo.length := Bytes.length_bytesBE _ _
  have hread : ∀ bs : List Nat, (∀ b ∈ bs, b < 256) → bs.length = size →
      toBytes mo.endness size (Bytes.ofBytesBE bs) = mo.endness.order bs := by
    intro bs hbs hbslen
    rw [toBytes_eq_order hsane.endness, ← hbslen, Bytes.bytesBE_ofBytesBE hbs]
  have hslice : ∀ i, i + size ≤ mo.length → ∀ b ∈ ((Bytes.bytesBE mo.length v).drop i).take size,
      b < 256 := fun i _ b hb =>
    Bytes.lt_of_mem_bytesBE (List.mem_of_mem_drop (List.mem_of_mem_take hb))
  have hslicelen : ∀ i, i + size ≤ mo.length →
      (((Bytes.bytesBE mo.length v).drop i).take size).length = size := by
    intro i hi
    rw [List.length_take, List.length_drop, hlist]
    omega
  unfold trim
  dsimp only
  rw [hstart, if_neg (by omega), hdiv, hlen]
  unfold MemoryObject.stored
  rw [hbytes]
  split
  · by_cases hle : mo.endness = .Iend_LE
    · simp only [hle, if_true]
      refine ⟨_, rfl, ?_⟩
      have harg : concreteBytes v mo.length
          ((((8 * mo.length : Nat) : Int) - (((8 * mo.length : Nat) : Int) - (((8 * mo.length : Nat) : Int)
            - (r : Int) * 8 - 1 + 1 - size * 8) - 1) - 1) / 8)
          (((((8 * mo.length : Nat) : Int) - (((8 * mo.length : Nat) : Int) - (r : Int) * 8 - 1 + 1
            - size * 8) - 1) - (((8 * mo.length : Nat) : Int) - (((8 * mo.length : Nat) : Int)
            - (r : Int) * 8 - 1) - 1) + 1) / 8) =
          ((Bytes.bytesBE mo.length v).drop (mo.length - (r + size))).take size := by
        rw [concreteBytes, ← pySlice_within (by rw [hlist]; omega)]
        congr 1 <;> omega
      rw [harg, ← hle, hread _ (hslice _ (by omega)) (hslicelen _ (by omega)), hle]
      simp only [Endness.order, if_true]
      rw [← take_drop_reverse (by rw [hlist]; omega), hlist]
    · simp only [hle, if_false]
      refine ⟨_, rfl, ?_⟩
      have harg : concreteBytes v mo.length
          ((((8 * mo.length : Nat) : Int) - (((8 * mo.length : Nat) : Int) - (r : Int) * 8 - 1) - 1) / 8)
          (((((8 * mo.length : Nat) : Int) - (r : Int) * 8 - 1) - (((8 * mo.length : Nat) : Int)
            - (r : Int) * 8 - 1 + 1 - size * 8) + 1) / 8) =
          ((Bytes.bytesBE mo.length v).drop r).take size := by
        rw [concreteBytes, ← pySlice_within (by rw [hlist]; omega)]
        congr 1 <;> omega
      rw [harg, hread _ (hslice _ (by omega)) (hslicelen _ (by omega))]
      simp [Endness.order, hle]
  · rename_i hfull
    obtain rfl : r = 0 := by omega
    obtain rfl : size = mo.length := by omega
    refine ⟨v, rfl, ?_⟩
    rw [toBytes_eq_order hsane.endness, List.drop_zero, List.take_of_length_le (by simp)]

/-- What a store has to come with: at least one byte, within the page, of an object that
has the bytes and the byte order of the store. A symbolic object has to be one that the
page can hold, and where it goes on after the range, the page knows better about every
symbolic byte there: it has a key at or before it. -/
structure Storable (L : Layout) (pageAddr : Nat) (page : UltraPage) (addr size : Nat)
    (mo : MemoryObject) : Prop where
  size_pos : 0 < size
  within : addr + size ≤ L.pageSize
  sane : mo.Sane
  short : mo.length < 2 ^ L.bits
  base_le : mo.base ≤ pageAddr + addr + 2 ^ L.bits
  cover : mo.rel L.bits (pageAddr + addr) + size ≤ mo.length
  placed : concreteValue mo.object = none → Placed L pageAddr addr mo
  beyond : concreteValue mo.object = none → ∀ b, addr + size ≤ b → b < L.pageSize →
    page.symbolicBitmap b = true → mo.rel L.bits (pageAddr + b) < mo.length →
    ∃ k ≤ b, (page.symbolicData k).isSome

theorem getD_take_drop {l : List Nat} {o n i : Nat} (hi : i < n) :
    ((l.drop o).take n).getD i 0 = l.getD (o + i) 0 := by
  simp [List.getD_eq_getElem?_getD, hi]

/-- A store puts the bytes of the object into the range, as concrete bytes or as the
object, and leaves the other cells alone. -/
theorem Good.store (h : Good L pageAddr page) (hs : Storable L pageAddr page addr size mo) :
    ∃ page', page.store L addr (.object mo) size pageAddr mo.endness = some page' ∧
      Good L pageAddr page' ∧ page'.fills = page.fills ∧
      (∀ b < L.pageSize, addr ≤ b → b < addr + size →
        page'.bytes L pageAddr b = some (fun ρ =>
          (mo.stored ρ).getD (mo.rel L.bits (pageAddr + addr) + (b - addr)) 0) ∧
        ∀ mo', page'.cell L pageAddr b = .object mo' → mo' = mo ∧ Placed L pageAddr addr mo) ∧
      ∀ b < L.pageSize, ¬ (addr ≤ b ∧ b < addr + size) →
        page'.cell L pageAddr b = page.cell L pageAddr b := by
  have hwithin := hs.within
  unfold UltraPage.store
  dsimp only
  rw [Nat.min_eq_left (by omega)]
  cases hv : concreteValue mo.object with
  | none =>
    have hplaced := hs.placed hv
    have hcell := fun b hb => h.cell_storeSymbolic (b := b) hs.size_pos hwithin hplaced hs.cover
      (hs.beyond hv) hb
    refine ⟨_, rfl, h.storeSymbolic hwithin hplaced, rfl, fun b hb hab hb' => ?_, fun b hb hnot => ?_⟩
    · rw [bytes, hcell b hb, if_pos ⟨hab, hb'⟩]
      refine ⟨?_, fun mo' hmo' => ?_⟩
      · rw [Cell.byte]
        unfold MemoryObject.byteAt
        rw [hplaced.rel_add le_rfl hab hb]
      · cases hmo'
        exact ⟨rfl, hplaced⟩
    · rw [hcell b hb, if_neg hnot]
  | some v =>
    obtain ⟨ival, hival, -⟩ := trim_spec hv hs.sane hs.short hs.base_le hs.size_pos hs.cover
      ⟨fun _ => 0, fun _ => false⟩
    refine ⟨page.storeConcrete addr ival size mo.endness, by simp only [hival]; rfl,
      h.storeConcrete addr ival size mo.endness, rfl, fun b hb hab hb' => ?_, fun b hb hnot => ?_⟩
    · rw [bytes, cell_storeConcrete, if_pos ⟨hab, hb'⟩]
      refine ⟨?_, fun mo' hmo' => by cases hmo'⟩
      rw [Cell.byte]
      refine congrArg some (funext fun ρ => ?_)
      obtain ⟨ival', hival', hbytes⟩ := trim_spec hv hs.sane hs.short hs.base_le hs.size_pos hs.cover ρ
      rw [hival] at hival'
      cases hival'
      rw [hbytes, getD_take_drop (by omega)]
    · rw [cell_storeConcrete, if_neg hnot]

theorem Inv.store (h : Inv L F zero pageAddr page written) (hmo : Placed L pageAddr addr mo)
    (hs : Storable L pageAddr page addr size mo) :
    ∃ page', page.store L addr (.object mo) size pageAddr mo.endness = some page' ∧
      Inv L F zero pageAddr page'
        (fillRange written addr (addr + size) fun b => some (mo.byteAt L.bits (pageAddr + b))) := by
  obtain ⟨page', hstore, hgood, -, hin, hout⟩ := h.toGood.store hs
  refine ⟨page', hstore, h.update hgood (fun b hb hab hb' => ?_) hout⟩
  rw [(hin b hb hab hb').1]
  unfold MemoryObject.byteAt
  rw [hmo.rel_add le_rfl hab hb]

end UltraPage
end Angr
