import Vibr.Heap.PTMallocFree

/-!
# Allocations

The allocations of a layout are the bases of its chunks that are in use, with their requests.
The operations are specified by what becomes of them.
-/

namespace Angr.Layout

open Words PTChunk Ring

variable {c : HeapConfig} {v : Cells} {head : Option Nat} {A B ks ks' : List LayoutChunk}
  {k : LayoutChunk} {m m' : Memory} {b r x y q : Nat}

def allocations (b : Nat) : List LayoutChunk → List (Nat × Nat)
  | [] => []
  | k :: ks => (k.request.map fun r => (b, r)).toList ++ allocations (b + k.size) ks

theorem allocations_append :
    allocations b (A ++ B) = allocations b A ++ allocations (b + extent A) B := by
  induction A generalizing b with
  | nil => rfl
  | cons k A ih => simp [allocations, ih, Nat.add_assoc]

theorem allocations_of_free (h : ∀ k ∈ ks, k.free = true) : allocations b ks = [] := by
  induction ks generalizing b with
  | nil => rfl
  | cons k ks ih =>
    have hk : k.request = none := Option.isNone_iff_eq_none.mp (h k List.mem_cons_self)
    rw [allocations, hk, ih fun l hl => h l (List.mem_cons_of_mem _ hl)]
    rfl

theorem allocations_subset (h : (x, r) ∈ allocations b ks) : x ∈ bases b ks := by
  induction ks generalizing b with
  | nil => cases h
  | cons k ks ih =>
    rcases List.mem_append.mp h with h | h
    · obtain ⟨r', -, heq⟩ := Option.map_eq_some_iff.mp (Option.mem_toList.mp h)
      cases heq
      exact List.mem_cons_self
    · exact List.mem_cons_of_mem _ (ih h)

theorem exists_of_mem_allocations (h : (x, r) ∈ allocations b ks) :
    ∃ A k B, ks = A ++ k :: B ∧ k.request = some r ∧ x = b + extent A := by
  induction ks generalizing b with
  | nil => cases h
  | cons k ks ih =>
    rcases List.mem_append.mp h with h | h
    · obtain ⟨r', hr', heq⟩ := Option.map_eq_some_iff.mp (Option.mem_toList.mp h)
      cases heq
      exact ⟨[], k, ks, rfl, hr', rfl⟩
    · obtain ⟨A, l, B, rfl, hl, hx⟩ := ih h
      exact ⟨k :: A, l, B, rfl, hl, by rw [hx, extent_cons, Nat.add_assoc]⟩

theorem mem_allocations_mid : (y, q) ∈ allocations c.heapBase (A ++ k :: B)
    ↔ (y, q) ∈ allocations c.heapBase A ∨ (k.request = some q ∧ y = addr c A) ∨
      (y, q) ∈ allocations (addr c A + k.size) B := by
  rw [allocations_append, List.mem_append, allocations, List.mem_append, Option.mem_toList,
    Option.map_eq_some_iff, addr]
  refine or_congr_right (or_congr_left ⟨?_, ?_⟩)
  · rintro ⟨r, hr, heq⟩
    cases heq
    exact ⟨hr, rfl⟩
  · rintro ⟨hr, rfl⟩
    exact ⟨q, hr, rfl⟩

/-- The chunk at an address is one of the allocations only with its own request. -/
theorem Tiled.allocation_at (h : Tiled c v (A ++ k :: B)) (hy : (y, q) ∈ allocations c.heapBase A ∨
    (y, q) ∈ allocations (addr c A + k.size) B) : y ≠ addr c A := by
  have hw := c.word_pos
  have hmin := h.chunk.2.1
  rcases hy with hy | hy
  · have := mem_bases_range (fun l hl => h.sized l (by simp [hl])) (allocations_subset hy)
    unfold addr
    omega
  · have := mem_bases_range (fun l hl => h.sized l (by simp [hl])) (allocations_subset hy)
    omega

theorem Tiled.allocation_unique (h : Tiled c v ks) (hq : (x, q) ∈ allocations c.heapBase ks)
    (hr : (x, r) ∈ allocations c.heapBase ks) : q = r := by
  obtain ⟨A, k, B, rfl, hk, hx⟩ := exists_of_mem_allocations hq
  have hne := h.allocation_at (y := x) (q := r)
  rcases mem_allocations_mid.mp hr with hr | ⟨hr, -⟩ | hr
  · exact absurd hx (hne (.inl hr))
  · exact Option.some.inj (hk.symm.trans hr)
  · exact absurd hx (hne (.inr hr))

/-! ## A chunk in use that is cut -/

theorem View.cut_inUse (hc : c.Valid) {S : Nat → Prop} (hS : Spread c S) (hv : View c S m v)
    {size rest rem : Nat} (hremEq : x + size = rem) (hyEq : rem + rest = y) (hx : S x) (hrem : S rem)
    (hy : S y ∨ y = c.top) (hsize : 8 ∣ size) (hrest : 8 ∣ rest)
    (hsizePos : 0 < size) (hrestPos : 0 < rest) (hle : y ≤ c.top) :
    PTChunk.nextChunk c (PTChunk.setSize c m x size (some false)) x = some rem ∧
      ∃ v₃, View c S (PTChunk.setPrevFreeness c (PTChunk.setSize c
          (PTChunk.setSize c m x size (some false)) rem rest (some false)) rem false) v₃ ∧
        v₃ .size x = size + v .size x % 8 ∧
        (v₃ .size rem % 2 = 1 ∧ v₃ .size rem - v₃ .size rem % 8 = rest) ∧
        v₃ .size y = flagWord c y false (v .size y) ∧
        (∀ z, z ≠ x → z ≠ rem → z ≠ y → v₃ .size z = v .size z) ∧
        (∀ z, v₃ .prev z = v .prev z) ∧ v₃ .fwd = v .fwd ∧ v₃ .bck = v .bck := by
  have hne : rem ≠ c.top := by omega
  have hxr : x ≠ rem := by omega
  have hry : rem ≠ y := by omega
  have hxy : x ≠ y := by omega
  have h₁ := hv.setSize_hint hc hS hx hsize hsizePos (by omega) (by rw [hremEq]; exact .inl hrem) false
  have h₂ := h₁.setSize_hint hc hS hrem hrest hrestPos (by omega) (by rwa [hyEq]) false
  have h₃ := h₂.setPrevFreeness hS hrem hne false
  simp only [Bool.false_eq_true, if_false, hremEq, hyEq] at h₁ h₃
  refine ⟨?_, _, h₃, ?_⟩
  · rw [h₁.nextChunk hc hx (n := rem) ?_ (by omega), if_neg hne]
    rw [Cells.set_field, Function.update_of_ne hxr, Cells.set_field, Function.update_self]
    omega
  simp only [Cells.set_field, Cells.set_of_ne _ (by decide : Field.prev ≠ .size),
    Cells.set_of_ne _ (by decide : Field.fwd ≠ .size), Cells.set_of_ne _ (by decide : Field.bck ≠ .size),
    Function.update_apply]
  refine ⟨?_, ?_, ?_, ?_, ?_, trivial, trivial⟩
  · simp [hxr, hxy]
  · simp only [hry, if_true, if_false]
    have hflag := flagWord_mod c rem false
      (rest + flagWord c rem false (v .size rem) % 8)
    have hsz := flagWord_size hne false (rest + flagWord c rem false (v .size rem) % 8)
    simp only [Bool.false_eq_true, iff_false] at hflag
    omega
  · simp [hxy.symm, hry.symm]
  · intro z h₁ h₂ h₃
    simp [h₁, h₂, h₃]
  · simp

/-! ## Payloads -/

/-- The words of a layout are outside the payloads of the chunks in use. -/
theorem Rep.frame (h : Rep c (cells c m) head (A ++ k :: B)) (hk : k.free = false)
    (hm : ∀ a, a < addr c A + 2 * c.word ∨ addr c A + k.size ≤ a → m' a = m a) :
    Rep c (cells c m') head (A ++ k :: B) := by
  have hw := c.word_pos
  have hmin := h.toTiled.chunk.2.1
  have hle := h.toTiled.next_le
  have hcells : ∀ f z, z + f.index * c.word + c.word ≤ addr c A + 2 * c.word ∨
      addr c A + k.size ≤ z + f.index * c.word → cells c m' f z = cells c m f z := by
    intro f z hz
    exact load_congr fun a h₁ h₂ => hm a (by omega)
  have hheader : ∀ z, Bases c (A ++ k :: B) z → z ≤ addr c A ∨ addr c A + k.size ≤ z := by
    intro z hz
    rcases bases_mid.mp hz with hz | hz | hz
    · have := mem_bases_range (fun l hl => h.sized l (by simp [hl])) hz
      unfold addr
      omega
    · omega
    · have := mem_bases_range (fun l hl => h.sized l (by simp [hl])) hz
      omega
  have hlink : ∀ z ∈ freeBases c.heapBase (A ++ k :: B),
      z + 4 * c.word ≤ addr c A ∨ addr c A + k.size ≤ z := by
    intro z hz
    rw [freeBases_mid, hk] at hz
    have hz : z ∈ others c A k.size B := by simpa [others, or_comm] using hz
    exact (h.toTiled.others_range hz).imp_right And.left
  refine
    { headers := ?_
      final := ?_
      sized := h.sized
      extent_eq := h.extent_eq
      ring := ?_
      head_eq := h.head_eq
      coalesced := h.coalesced }
  · refine headers_congr (fun z hz => ?_) h.headers
    have := hheader z hz
    refine ⟨hcells .size z ?_, hcells .prev z ?_⟩ <;> simp only [Field.index] <;> omega
  · rw [Final, hcells .size c.top (by simp only [Field.index]; omega)]
    exact h.final
  refine isRing_congr (fun z hz => ?_) (fun z hz => ?_) h.ring
  · have := hlink z hz
    exact hcells .fwd z (by simp only [Field.index]; omega)
  · have := hlink z hz
    exact hcells .bck z (by simp only [Field.index]; omega)

/-- The request is not in the memory. -/
theorem Rep.request (h : Rep c v head (A ++ k :: B)) (hk : k.free = false)
    (hr : r + 2 * c.word ≤ k.size) : Rep c v head (A ++ ⟨k.size, some r⟩ :: B) := by
  have hlist : freeBases c.heapBase (A ++ ⟨k.size, some r⟩ :: B) = freeBases c.heapBase (A ++ k :: B) := by
    rw [freeBases_mid, freeBases_mid, hk]
    rfl
  have hold : Tiled c v (A ++ ([k] ++ B)) := h.toTiled
  have hk1 : extent [k] = k.size := by simp
  have hkS := h.toTiled.chunk
  have hsized : Sized c ⟨extent [k], some r⟩ := by
    rw [hk1]
    refine ⟨hkS.1, hkS.2.1, fun r' hr' => ?_⟩
    cases hr'
    exact hr
  have hsz := h.toTiled.size_at
  have htiled : Tiled c v (A ++ ([⟨extent [k], some r⟩] ++ B)) := by
    refine hold.one (by simp) hsized ?_ ?_ (fun _ => rfl) (fun _ hq => by cases hq) (fun _ _ _ => rfl)
      fun _ _ => rfl
    · rw [hk1]
      omega
    · rw [hk1, h.toTiled.next_flag, hk]
      simp
  rw [hk1] at htiled
  refine { toTiled := htiled, ring := ?_, head_eq := ?_, coalesced := ?_ }
  · rw [hlist]
    exact h.ring
  · rw [hlist]
    exact h.head_eq
  have hco := coalesced_mid.mp h.coalesced
  refine coalesced_mid.mpr ⟨hco.1, hco.2.1, ?_, ?_⟩
  · simp [LayoutChunk.free]
  · simp [LayoutChunk.free]

end Angr.Layout

namespace Angr.SimHeapPTMalloc

open Layout PTChunk Ring

variable {c : HeapConfig} {self : SimHeapPTMalloc} {A B ks ks' : List LayoutChunk} {k : LayoutChunk}
  {v : Cells} {r x y q : Nat}

/-! ## What is allocated -/

theorem Allocates.mem_iff (h : Allocates c r ks ks' x) :
    (y, q) ∈ allocations c.heapBase ks'
      ↔ (y = x ∧ q = r) ∨ (y, q) ∈ allocations c.heapBase ks := by
  have hswap : ∀ a : Prop, (some r = some q ∧ a ↔ a ∧ q = r) := fun a => by
    rw [Option.some.injEq, and_comm, eq_comm]
  cases h with
  | whole hk hsize =>
    have hnone := Option.isNone_iff_eq_none.mp hk
    rw [mem_allocations_mid, mem_allocations_mid, hnone, hswap]
    simp only [reduceCtorEq, false_and, false_or]
    tauto
  | @front A B k rest hk hsum =>
    have hnone := Option.isNone_iff_eq_none.mp hk
    rw [mem_allocations_mid, mem_allocations_mid, hnone, hswap, allocations]
    simp only [reduceCtorEq, false_and, false_or, Option.map_none, Option.toList_none, List.nil_append]
    rw [Nat.add_assoc, hsum]
    tauto

/-- The address of an allocation was that of a free chunk. -/
theorem Allocates.fresh (ht : Tiled c v ks) (h : Allocates c r ks ks' x)
    (hy : (y, q) ∈ allocations c.heapBase ks) : y ≠ x := by
  have hfree : ∀ {A B : List LayoutChunk} {k : LayoutChunk}, Tiled c v (A ++ k :: B) → k.free = true →
      (y, q) ∈ allocations c.heapBase (A ++ k :: B) → y ≠ addr c A := by
    intro A B k ht hk hy
    have hnone := Option.isNone_iff_eq_none.mp hk
    rw [mem_allocations_mid, hnone] at hy
    exact ht.allocation_at (by simpa using hy)
  cases h with
  | whole hk _ => exact hfree ht hk hy
  | front hk _ => exact hfree ht hk hy

theorem Allocates.chunk (h : Allocates c r ks ks' x) :
    ∃ A k B, ks' = A ++ k :: B ∧ x = addr c A ∧ k.request = some r ∧ makeChunkSize c r ≤ k.size := by
  cases h with
  | whole hk hsize => exact ⟨_, _, _, rfl, rfl, rfl, hsize⟩
  | front hk hsum => exact ⟨_, _, _, rfl, rfl, rfl, Nat.le_refl _⟩

theorem Frees.mem_iff (ht : Tiled c v ks) (h : Frees c ks ks' x) :
    (y, q) ∈ allocations c.heapBase ks' ↔ (y, q) ∈ allocations c.heapBase ks ∧ y ≠ x := by
  obtain @⟨A, L, R, B, k, hL, hR⟩ := h
  have hassoc : A ++ (L ++ k :: R ++ B) = (A ++ L) ++ k :: (R ++ B) := by simp
  have ht' : Tiled c v ((A ++ L) ++ k :: (R ++ B)) := hassoc ▸ ht
  have hbefore : allocations c.heapBase (A ++ L) = allocations c.heapBase A := by
    rw [allocations_append, allocations_of_free hL, List.append_nil]
  have hbehind : allocations (addr c (A ++ L) + k.size) (R ++ B)
      = allocations (addr c A + extent (L ++ k :: R)) B := by
    rw [allocations_append, allocations_of_free hR, List.nil_append, addr_append]
    simp [Nat.add_assoc]
  have hne := fun h => ht'.allocation_at (y := y) (q := q) h
  rw [hbefore, hbehind] at hne
  rw [hassoc, mem_allocations_mid, mem_allocations_mid, hbefore, hbehind]
  simp only [reduceCtorEq, false_and, false_or]
  constructor
  · intro hy
    exact ⟨hy.imp_right .inr, hne hy⟩
  rintro ⟨hy | ⟨-, heq⟩ | hy, hyx⟩
  · exact .inl hy
  · exact absurd heq hyx
  · exact .inr hy

/-- A write to the payload of a chunk in use. -/
theorem Represents.frame (h : Represents c self (A ++ k :: B)) (hk : k.request = some r)
    {m' : Words.Memory}
    (hm : ∀ a, a < addr c A + 2 * c.word ∨ addr c A + k.size ≤ a → m' a = self.memory a) :
    Represents c { self with memory := m' } (A ++ k :: B) :=
  Rep.frame h (by rw [LayoutChunk.free, hk]; rfl) hm

/-! ## calloc -/

theorem calloc_spec (hc : c.Valid) (h : Represents c self ks) (nmemb size : Nat) :
    ∃ self' p, calloc c self nmemb size = some (self', p) ∧
      (p = 0 ∧ self' = self ∨
        ∃ ks' x, p = dataPtr c x ∧ Represents c self' ks' ∧
          Allocates c (nmemb * size % 256 ^ c.word) ks ks' x) := by
  have hw := c.word_pos
  obtain ⟨self', p, heq, hcase⟩ := malloc_spec hc h (nmemb * size % 256 ^ c.word)
  unfold calloc
  simp only [heq, Option.bind_eq_bind, Option.bind_some]
  rcases hcase with ⟨rfl, rfl⟩ | ⟨ks', x, rfl, hrep, hal⟩
  · exact ⟨self', 0, rfl, .inl ⟨rfl, rfl⟩⟩
  rw [if_neg (by unfold dataPtr; omega)]
  split
  · refine ⟨_, _, rfl, .inr ⟨ks', x, rfl, ?_, hal⟩⟩
    obtain ⟨A, k, B, rfl, rfl, hk, -⟩ := hal.chunk
    refine hrep.frame hk fun a ha => Words.fill_of_apart ?_
    have := (hrep.sized k (by simp)).2.2 _ hk
    unfold dataPtr
    omega
  · exact ⟨_, _, rfl, .inr ⟨ks', x, rfl, hrep, hal⟩⟩

/-! ## realloc -/

/-- What is cut off a chunk in use is a chunk in use, until it is freed. -/
theorem represents_cut (hc : c.Valid) (h : Represents c self (A ++ k :: B)) (hk : k.free = false)
    {size rest : Nat} (hsum : size + rest = k.size) (hfirst : Sized c ⟨size, some r⟩)
    (hsecond : Sized c ⟨rest, some 0⟩) :
    let m := PTChunk.setSize c self.memory (addr c A) size (some false)
    nextChunk c m (addr c A) = some (addr c A + size) ∧
      Represents c { self with
          memory := setPrevFreeness c (PTChunk.setSize c m (addr c A + size) rest (some false))
            (addr c A + size) false }
        (A ++ (⟨size, some r⟩ :: ⟨rest, some 0⟩ :: B)) := by
  have hw := c.word_pos
  have hle := h.toTiled.next_le
  have hrestPos : 4 * c.word ≤ rest := hsecond.2.1
  have hsizePos : 4 * c.word ≤ size := hfirst.2.1
  obtain ⟨hS, hsub, hSrem⟩ := h.toTiled.spread_two hsum hfirst hsecond
  have hold : Tiled c (cells c self.memory) (A ++ ([k] ++ B)) := h.toTiled
  set fine := A ++ (⟨size, some r⟩ :: ⟨rest, some 0⟩ :: B) with hfine
  have hSy := h.toTiled.next_mem.imp_left (hsub _)
  obtain ⟨hnext, v, hv, hsx, hsrem, hsy, hs, hp, hf, hb⟩ := (View.refl c (Bases c fine) self.memory).cut_inUse
    hc hS rfl (by rw [Nat.add_assoc, hsum] : addr c A + size + rest = addr c A + k.size)
    (hsub _ h.toTiled.mem) hSrem hSy hfirst.eight_dvd hsecond.eight_dvd (Nat.lt_of_lt_of_le (by omega) hsizePos)
    (Nat.lt_of_lt_of_le (by omega) hrestPos) (by omega)
  refine ⟨hnext, Rep.of_view ?_ hv fun z hz => hz⟩
  have hlist : freeBases c.heapBase fine = freeBases c.heapBase (A ++ k :: B) := by
    rw [hfine, freeBases_mid, freeBases_mid, hk]
    simp only [LayoutChunk.free, Option.isNone_some, Bool.false_eq_true, if_false, List.nil_append,
      freeBases]
    rw [Nat.add_assoc, hsum]
  refine { toTiled := ?_, ring := ?_, head_eq := ?_, coalesced := ?_ }
  · refine hold.two hsum hfirst hsecond hsx hsrem ?_ ?_ (fun _ hq => by cases hq) hs fun z _ => hp z
    · rw [hsy, flagWord_mod]
      simp
    · intro hy
      rw [hsy, flagWord_size hy]
  · rw [hlist, hf, hb]
    exact h.ring
  · rw [hlist]
    exact h.head_eq
  · have hco := coalesced_mid.mp h.coalesced
    refine coalesced_mid.mpr ⟨hco.1, coalesced_mid.mpr ⟨.nil, hco.2.1, by simp, ?_⟩, ?_, ?_⟩
    all_goals simp [LayoutChunk.free]

/-- A chunk gets a new request, in place or elsewhere. -/
def Moves (c : HeapConfig) (size x : Nat) (ks ks' : List LayoutChunk) (x' : Nat) : Prop :=
  ∀ y q, (y, q) ∈ allocations c.heapBase ks' ↔
    (y = x' ∧ q = size) ∨ (y, q) ∈ allocations c.heapBase ks ∧ y ≠ x

theorem moves_request (ht : Tiled c v (A ++ k :: B)) :
    Moves c q (addr c A) (A ++ k :: B) (A ++ ⟨k.size, some q⟩ :: B) (addr c A) := by
  intro y q'
  rw [mem_allocations_mid, mem_allocations_mid, Option.some.injEq]
  have hne := ht.allocation_at (y := y) (q := q')
  constructor
  · rintro (hy | ⟨rfl, rfl⟩ | hy)
    · exact .inr ⟨.inl hy, hne (.inl hy)⟩
    · exact .inl ⟨rfl, rfl⟩
    · exact .inr ⟨.inr (.inr hy), hne (.inr hy)⟩
  rintro (⟨rfl, rfl⟩ | ⟨hy | ⟨-, heq⟩ | hy, hyx⟩)
  · exact .inr (.inl ⟨rfl, rfl⟩)
  · exact .inl hy
  · exact absurd heq hyx
  · exact .inr (.inr hy)

theorem shrink_spec (hc : c.Valid) (h : Represents c self (A ++ k :: B)) (hk : k.free = false)
    {newSize : Nat} (hnew : Sized c ⟨newSize, some r⟩) (hrest : 4 * c.word ≤ k.size - newSize)
    (hlt : newSize < k.size) :
    ∃ self' ks', shrink c self (addr c A) k.size newSize = some (self', dataPtr c (addr c A)) ∧
      Represents c self' ks' ∧ Moves c r (addr c A) (A ++ k :: B) ks' (addr c A) := by
  have hw := c.word_pos
  have hsecond : Sized c ⟨k.size - newSize, some 0⟩ := by
    refine ⟨Nat.dvd_sub h.toTiled.chunk.1 hnew.1, hrest, fun r' hr' => ?_⟩
    cases hr'
    dsimp only
    omega
  obtain ⟨hnext, hrep⟩ := represents_cut hc h hk (by omega) hnew hsecond
  set self₁ : SimHeapPTMalloc := { self with
    memory := setPrevFreeness c (PTChunk.setSize c
      (PTChunk.setSize c self.memory (addr c A) newSize (some false)) (addr c A + newSize)
      (k.size - newSize) (some false)) (addr c A + newSize) false }
  have haddr : addr c (A ++ [⟨newSize, some r⟩]) = addr c A + newSize := by simp [addr_append]
  have hassoc : A ++ (⟨newSize, some r⟩ :: ⟨k.size - newSize, some 0⟩ :: B)
      = (A ++ [⟨newSize, some r⟩]) ++ ⟨k.size - newSize, some 0⟩ :: B := by simp
  have hrep' : Represents c self₁ ((A ++ [⟨newSize, some r⟩]) ++ ⟨k.size - newSize, some 0⟩ :: B) :=
    hassoc ▸ hrep
  obtain ⟨self', ks', heq, hrep'', hfrees⟩ := free_spec hc hrep' rfl
  rw [haddr] at heq
  refine ⟨self', ks', ?_, hrep'', ?_⟩
  · unfold shrink
    simp only [hnext, Option.bind_eq_bind]
    rw [heq]
    rfl
  intro y q
  have hsum : newSize + (k.size - newSize) = k.size := by omega
  have hmem := hfrees.mem_iff hrep'.toTiled (y := y) (q := q)
  have hne := fun h => hrep'.toTiled.allocation_at (y := y) (q := q) h
  have hmoves := moves_request (q := r) h.toTiled y q
  rw [hmem, ← hmoves, haddr, ← hassoc, mem_allocations_mid, mem_allocations_mid, allocations]
  rw [haddr] at hne
  dsimp only at hne ⊢
  simp only [Option.map_some, Option.toList_some, List.mem_append, List.mem_singleton, Prod.mk.injEq]
  rw [Nat.add_assoc, hsum] at hne ⊢
  constructor
  · rintro ⟨hy | hy | ⟨rfl, -⟩ | hy, hyx⟩
    · exact .inl hy
    · exact .inr (.inl hy)
    · exact absurd rfl hyx
    · exact .inr (.inr hy)
  intro hy
  refine ⟨hy.imp_right fun hy => hy.imp_right .inr, ?_⟩
  rcases hy with hy | ⟨-, rfl⟩ | hy
  · exact hne (.inl (by rw [allocations_append]; exact List.mem_append_left _ hy))
  · have : 4 * c.word ≤ newSize := hnew.2.1
    omega
  · exact hne (.inr hy)

/-- If there is no room for a larger chunk, the heap and the old chunk stay as they are. -/
theorem realloc_spec (hc : c.Valid) (h : Represents c self (A ++ k :: B)) (hk : k.request = some r)
    {size : Nat} (hsize : size ≠ 0) :
    ∃ self' p, realloc c self (dataPtr c (addr c A)) size = some (self', p) ∧
      (p = 0 ∧ self' = self ∨
        ∃ ks' x', p = dataPtr c x' ∧ Represents c self' ks' ∧
          Moves c size (addr c A) (A ++ k :: B) ks' x') := by
  have hw := c.word_pos
  have hfree : k.free = false := by
    rw [LayoutChunk.free, hk]
    rfl
  have hchunk : chunkFromMem c (dataPtr c (addr c A)) = some (addr c A) := by
    unfold chunkFromMem dataPtr
    rw [if_pos (by omega), Nat.add_sub_cancel]
  have hold := h.toTiled.getSize (View.refl c _ self.memory) h.toTiled.mem
  obtain ⟨hdvd, hmin, hreq⟩ := makeChunkSize_spec c size
  unfold realloc
  simp only [hchunk, hold, if_neg hsize]
  by_cases hgrow : k.size < makeChunkSize c size
  · rw [if_pos hgrow]
    obtain ⟨self', p, heq, ⟨rfl, rfl⟩ | ⟨ks', x', rfl, hrep, hal⟩⟩ := malloc_spec hc h size
    · exact ⟨self', 0, by simp [heq], .inl ⟨rfl, rfl⟩⟩
    have hmem : (addr c A, r) ∈ allocations c.heapBase (A ++ k :: B) :=
      mem_allocations_mid.mpr (.inr (.inl ⟨hk, rfl⟩))
    have hxx' : addr c A ≠ x' := hal.fresh h.toTiled hmem
    -- the copy stays inside the new chunk, and the old chunk is still there to be freed
    have hcopied : Represents c { self' with
        memory := Words.copy self'.memory (dataPtr c x') (dataPtr c (addr c A)) (k.size - 2 * c.word) } ks' := by
      obtain ⟨A', k', B', rfl, rfl, hk', hle⟩ := hal.chunk
      refine hrep.frame hk' fun a ha => Words.copy_of_apart ?_
      unfold dataPtr
      omega
    obtain ⟨A', k', B', rfl, hk', hx⟩ := exists_of_mem_allocations (hal.mem_iff.mpr (.inr hmem))
    have haddr : addr c A' = addr c A := hx.symm
    have hfree' : k'.free = false := by
      rw [LayoutChunk.free, hk']
      rfl
    obtain ⟨self'', ks'', hfreed, hrep'', hfrees⟩ := free_spec hc hcopied hfree'
    rw [haddr] at hfreed hfrees
    refine ⟨self'', dataPtr c x', ?_, .inr ⟨ks'', x', rfl, hrep'', fun y q => ?_⟩⟩
    · simp only [heq, Option.bind_eq_bind, Option.bind_some]
      rw [if_neg (by unfold dataPtr; omega), hfreed]
      rfl
    rw [hfrees.mem_iff hcopied.toTiled, hal.mem_iff]
    constructor
    · rintro ⟨hy | hy, hyx⟩
      · exact .inl hy
      · exact .inr ⟨hy, hyx⟩
    · rintro (⟨rfl, rfl⟩ | ⟨hy, hyx⟩)
      · exact ⟨.inl ⟨rfl, rfl⟩, Ne.symm hxx'⟩
      · exact ⟨.inr hy, hyx⟩
  · rw [if_neg hgrow]
    by_cases hshrink : makeChunkSize c size < k.size ∧ chunkMinSize c ≤ k.size - makeChunkSize c size
    · obtain ⟨self', ks', heq, hrep, hmoves⟩ := shrink_spec (r := size) hc h hfree
        ⟨hdvd, hmin, fun r' hr' => by cases hr'; exact hreq⟩ hshrink.2 hshrink.1
      rw [if_pos hshrink]
      exact ⟨self', _, heq, .inr ⟨ks', _, rfl, hrep, hmoves⟩⟩
    · rw [if_neg hshrink]
      exact ⟨self, _, rfl, .inr ⟨_, _, rfl, Rep.request h hfree (by omega), moves_request h.toTiled⟩⟩

/-! ## The first chunk -/

theorem initState_spec (hc : c.Valid) (memory : Words.Memory) :
    Represents c (initState c memory) [⟨c.heapSize - 2 * c.word, none⟩] := by
  have hw := c.word_pos
  have htop := hc.top_add
  have hroom := hc.room
  set size := c.heapSize - 2 * c.word with hsize
  have hdvd : 2 * c.word ∣ size := Nat.dvd_sub hc.size_aligned (Nat.dvd_refl _)
  have hdvd8 : 8 ∣ size := c.eight_dvd_word.trans hdvd
  have hsized : ∀ k ∈ [(⟨size, none⟩ : LayoutChunk)], Sized c k := by
    intro k hk
    rw [List.mem_singleton.mp hk]
    exact ⟨hdvd, by dsimp only; omega, fun _ hr => by cases hr⟩
  have hext : c.heapBase + extent [⟨size, none⟩] = c.top := by
    rw [extent_cons, extent_nil]
    dsimp only
    omega
  have hS := spread_bases hsized hext
  have hSx : Bases c [⟨size, none⟩] c.heapBase := List.mem_cons_self
  have hbase : c.heapBase &&& chunkAlignMask c = 0 := by
    rw [and_chunkAlignMask]
    exact Nat.mod_eq_zero_of_dvd hc.base_aligned
  have hval : andNot size (chunkAlignMask c) ||| CHUNK_P_MASK = size + 1 := by
    rw [andNot, and_chunkAlignMask, Nat.mod_eq_zero_of_dvd hdvd, Nat.sub_zero]
    exact or_flags hdvd8 (by decide)
  have hfits : size + 1 < 256 ^ c.word := by
    have := hc.fits
    omega
  have h₁ := View.store (f := .size) hS (View.refl c _ memory) hSx hfits
  rw [Field.index, Nat.one_mul] at h₁
  have h₂ := h₁.setFinalFreeness hc hS true
  have hbaseFits : c.heapBase < 256 ^ c.word := by omega
  have h₃ := h₂.setFwdChunk hS hSx hbaseFits
  have h₄ := h₃.setBckChunk hS hSx hbaseFits
  have hne : c.heapBase ≠ c.top := by omega
  unfold Represents initState
  rw [if_neg (not_not.mpr hbase), ← hsize, hval]
  refine Rep.of_view ?_ h₄ fun z hz => hz
  refine
    { headers := ⟨⟨?_, ?_⟩, ?_, trivial⟩
      final := ?_
      sized := hsized
      extent_eq := hext
      ring := ?_
      head_eq := rfl
      coalesced := .singleton _ }
  · simp [hne]
    omega
  · simp
  · simp [hne]
    omega
  · rw [Final, Cells.set_of_ne _ (by decide), Cells.set_of_ne _ (by decide), Cells.set_field,
      Function.update_self, flagWord_mod]
    exact iff_of_true rfl rfl
  · simp [freeBases, LayoutChunk.free, isRing_singleton, Linked]

end Angr.SimHeapPTMalloc
