import Vibr.Heap.PTMallocResize
import Vibr.Lib.Runs

/-!
# Runs of the heap

A run is a sequence of calls, and of writes by the program between them. Beside the heap it
has the pointers that are live, each with the size that was requested for it.
-/

namespace Angr.SimHeapPTMalloc

open Layout PTChunk Ring

/-- The chunks that `next_chunk` reaches; `chunks` starts at the base of the heap. -/
def chunksFrom (c : HeapConfig) (m : Words.Memory) : (fuel base : Nat) → List Nat
  | 0, _ => []
  | fuel + 1, base =>
    base :: match nextChunk c m base with
      | some next => chunksFrom c m fuel next
      | none => []

def chunks (c : HeapConfig) (self : SimHeapPTMalloc) : List Nat :=
  chunksFrom c self.memory c.heapSize c.heapBase

def freeChunks (c : HeapConfig) (self : SimHeapPTMalloc) : List Nat :=
  (chunks c self).filter fun x => isFree c self.memory x

structure Traced where
  heap : SimHeapPTMalloc
  /-- What was requested for a pointer that was returned and not yet freed. -/
  live : Nat → Option Nat

inductive Op where
  | malloc (size : Nat)
  | calloc (nmemb size : Nat)
  | realloc (ptr size : Nat)
  | free (ptr : Nat)
  /-- A write by the program. -/
  | write (addr : Nat) (bytes : List UInt8)

/-- A null pointer is no allocation. -/
def record (live : Nat → Option Nat) (ptr size : Nat) : Nat → Option Nat :=
  if ptr = 0 then live else Function.update live ptr (some size)

def forget (live : Nat → Option Nat) (ptr : Nat) : Nat → Option Nat :=
  if ptr = 0 then live else Function.update live ptr none

/-- `none` is a failure. -/
def step (c : HeapConfig) (s : Option Traced) (op : Op) : Option Traced := do
  let t ← s
  match op with
  | .malloc size =>
    let (heap, p) ← malloc c t.heap size
    return { heap := heap, live := record t.live p size }
  | .calloc nmemb size =>
    let (heap, p) ← calloc c t.heap nmemb size
    return { heap := heap, live := record t.live p (nmemb * size) }
  | .realloc ptr size =>
    let (heap, p) ← realloc c t.heap ptr size
    -- a null pointer for a request of some size means that the old chunk is still there
    let live := if p = 0 ∧ size ≠ 0 then t.live else record (forget t.live ptr) p size
    return { heap := heap, live := live }
  | .free ptr =>
    let heap ← free c t.heap ptr
    return { heap := heap, live := forget t.live ptr }
  | .write addr bytes =>
    return { t with heap := { t.heap with memory := Words.write t.heap.memory addr bytes } }

/-- Pointers are live or null, the program writes only what it requested, and the sizes given
to `calloc` have a product that fits into a word. -/
def Admissible (c : HeapConfig) (s : Option Traced) (op : Op) : Prop :=
  ∀ t, s = some t →
    match op with
    | .malloc _ => True
    | .calloc nmemb size => nmemb * size < 256 ^ c.word
    | .realloc ptr _ => ptr = 0 ∨ ∃ r, t.live ptr = some r
    | .free ptr => ptr = 0 ∨ ∃ r, t.live ptr = some r
    | .write addr bytes => ∃ p r, t.live p = some r ∧ p ≤ addr ∧ addr + bytes.length ≤ p + r

def init (c : HeapConfig) (memory : Words.Memory) : Option Traced :=
  some { heap := initState c memory, live := fun _ => none }

/-! ## The invariant -/

/-- The live pointers are those to the allocations. -/
def Lives (c : HeapConfig) (live : Nat → Option Nat) (allocated : Nat → Nat → Prop) : Prop :=
  ∀ p r, live p = some r ↔ ∃ x, p = dataPtr c x ∧ allocated x r

def Inv (c : HeapConfig) (t : Traced) : Prop :=
  ∃ ks, Represents c t.heap ks ∧ Lives c t.live fun x r => (x, r) ∈ allocations c.heapBase ks

variable {c : HeapConfig} {ks ks' : List LayoutChunk} {live : Nat → Option Nat} {r x x' : Nat} {t : Traced}
  {allocated allocated' : Nat → Nat → Prop}

theorem dataPtr_ne_zero (c : HeapConfig) (x : Nat) : dataPtr c x ≠ 0 := by
  have := c.word_pos
  unfold dataPtr
  omega

theorem dataPtr_inj (h : dataPtr c x = dataPtr c x') : x = x' := Nat.add_right_cancel h

theorem Lives.congr (h : Lives c live allocated) (hiff : ∀ y q, allocated' y q ↔ allocated y q) :
    Lives c live allocated' := by
  intro p q
  rw [h p q]
  exact exists_congr fun y => and_congr_right fun _ => (hiff y q).symm

theorem Lives.record (h : Lives c live allocated) (hx : ∀ q, allocated x q → q = r) :
    Lives c (record live (dataPtr c x) r) fun y q => (y = x ∧ q = r) ∨ allocated y q := by
  intro p q
  rw [SimHeapPTMalloc.record, if_neg (dataPtr_ne_zero c x), Function.update_apply]
  split
  · rename_i hp
    constructor
    · intro hq
      exact ⟨x, hp, .inl ⟨rfl, (Option.some.inj hq).symm⟩⟩
    rintro ⟨y, hy, ⟨-, rfl⟩ | hyq⟩
    · rfl
    · cases dataPtr_inj (hp.symm.trans hy)
      rw [hx q hyq]
  rename_i hp
  rw [h p q]
  constructor
  · rintro ⟨y, hy, hyq⟩
    exact ⟨y, hy, .inr hyq⟩
  · rintro ⟨y, hy, ⟨rfl, -⟩ | hyq⟩
    · exact absurd hy hp
    · exact ⟨y, hy, hyq⟩

theorem Lives.forget (h : Lives c live allocated) :
    Lives c (forget live (dataPtr c x)) fun y q => allocated y q ∧ y ≠ x := by
  intro p q
  rw [SimHeapPTMalloc.forget, if_neg (dataPtr_ne_zero c x), Function.update_apply]
  split
  · rename_i hp
    refine iff_of_false (by simp) ?_
    rintro ⟨y, hy, -, hyx⟩
    exact hyx (dataPtr_inj (hy.symm.trans hp))
  rename_i hp
  rw [h p q]
  constructor
  · rintro ⟨y, hy, hyq⟩
    refine ⟨y, hy, hyq, ?_⟩
    rintro rfl
    exact hp hy
  · rintro ⟨y, hy, hyq, -⟩
    exact ⟨y, hy, hyq⟩

theorem forget_zero : forget live 0 = live := rfl

theorem record_zero : record live 0 r = live := rfl

/-- The heap and the pointers after a call that allocates, or returns null. -/
theorem Inv.after_allocation (h : Represents c t.heap ks)
    (hlive : Lives c t.live fun x r => (x, r) ∈ allocations c.heapBase ks) {heap : SimHeapPTMalloc} {p : Nat}
    (hcase : p = 0 ∧ heap = t.heap ∨
      ∃ ks' x, p = dataPtr c x ∧ Represents c heap ks' ∧ Allocates c r ks ks' x) :
    Inv c { heap := heap, live := record t.live p r } := by
  rcases hcase with ⟨rfl, rfl⟩ | ⟨ks', x, rfl, hrep, hal⟩
  · exact ⟨ks, h, hlive⟩
  · refine ⟨ks', hrep, (hlive.record fun q hq => ?_).congr fun y q => hal.mem_iff⟩
    exact absurd rfl (hal.fresh h.toTiled hq)

theorem Inv.after_free (hc : c.Valid) (hrep : Represents c t.heap ks)
    (hlive : Lives c t.live fun x r => (x, r) ∈ allocations c.heapBase ks) {ptr : Nat}
    (hptr : ∃ r, t.live ptr = some r) :
    ∃ heap, free c t.heap ptr = some heap ∧ Inv c { heap := heap, live := forget t.live ptr } := by
  obtain ⟨r, hr⟩ := hptr
  obtain ⟨x, rfl, hx⟩ := (hlive ptr r).mp hr
  obtain ⟨A, k, B, rfl, hk, hxA⟩ := exists_of_mem_allocations hx
  have hxA : x = addr c A := hxA
  have hfree : k.free = false := by
    rw [LayoutChunk.free, hk]
    rfl
  obtain ⟨heap, ks', heq, hrep', hfrees⟩ := free_spec hc hrep hfree
  rw [← hxA] at heq hfrees
  exact ⟨heap, heq, ks', hrep', hlive.forget.congr fun y q => hfrees.mem_iff hrep.toTiled⟩

theorem Inv.after_realloc (hc : c.Valid) (hrep : Represents c t.heap ks)
    (hlive : Lives c t.live fun x r => (x, r) ∈ allocations c.heapBase ks) {ptr size : Nat}
    (hptr : ∃ r, t.live ptr = some r) (hsize : size ≠ 0) :
    ∃ heap p, realloc c t.heap ptr size = some (heap, p) ∧
      Inv c ⟨heap, if p = 0 ∧ size ≠ 0 then t.live else record (forget t.live ptr) p size⟩ := by
  obtain ⟨r, hr⟩ := hptr
  obtain ⟨x, rfl, hx⟩ := (hlive ptr r).mp hr
  obtain ⟨A, k, B, rfl, hk, hxA⟩ := exists_of_mem_allocations hx
  have hxA : x = addr c A := hxA
  obtain ⟨heap, p, heq, hcase⟩ := realloc_spec hc hrep hk hsize
  rw [← hxA] at heq hcase
  refine ⟨heap, p, heq, ?_⟩
  rcases hcase with ⟨rfl, rfl⟩ | ⟨ks', x', rfl, hrep', hmoves⟩
  · rw [if_pos ⟨rfl, hsize⟩]
    exact ⟨_, hrep, hlive⟩
  · rw [if_neg fun h => dataPtr_ne_zero c x' h.1]
    refine ⟨ks', hrep', (hlive.forget.record fun q hq => ?_).congr fun y q => hmoves y q⟩
    exact hrep'.toTiled.allocation_unique ((hmoves x' q).mpr (.inr hq)) ((hmoves x' size).mpr (.inl ⟨rfl, rfl⟩))

theorem Inv.after_write (hrep : Represents c t.heap ks)
    (hlive : Lives c t.live fun x r => (x, r) ∈ allocations c.heapBase ks) {addr : Nat} {bytes : List UInt8}
    (hin : ∃ p r, t.live p = some r ∧ p ≤ addr ∧ addr + bytes.length ≤ p + r) :
    Inv c { t with heap := { t.heap with memory := Words.write t.heap.memory addr bytes } } := by
  obtain ⟨p, r, hr, hle, hend⟩ := hin
  obtain ⟨x, rfl, hx⟩ := (hlive p r).mp hr
  obtain ⟨A, k, B, rfl, hk, hxA⟩ := exists_of_mem_allocations hx
  have hxA : x = Layout.addr c A := hxA
  have hsize := (hrep.sized k (by simp)).2.2 r hk
  refine ⟨_, hrep.frame hk fun a ha => Words.write_of_apart ?_, hlive⟩
  unfold dataPtr at hle hend
  omega

theorem inv_step (hc : c.Valid) (h : Inv c t) (op : Op) (hok : Admissible c (some t) op) :
    ∃ t', step c (some t) op = some t' ∧ Inv c t' := by
  obtain ⟨ks, hrep, hlive⟩ := h
  have hok := hok t rfl
  cases op with
  | malloc size =>
    obtain ⟨heap, p, heq, hcase⟩ := malloc_spec hc hrep size
    exact ⟨_, by simp [step, heq], Inv.after_allocation hrep hlive hcase⟩
  | calloc nmemb size =>
    obtain ⟨heap, p, heq, hcase⟩ := calloc_spec hc hrep nmemb size
    rw [Nat.mod_eq_of_lt hok] at hcase
    exact ⟨_, by simp [step, heq], Inv.after_allocation hrep hlive hcase⟩
  | realloc ptr size =>
    rcases hok with rfl | hptr
    · -- a null pointer is allocated for
      obtain ⟨heap, p, heq, hcase⟩ := malloc_spec hc hrep size
      have heq' : realloc c t.heap 0 size = some (heap, p) := heq
      have hinv := Inv.after_allocation hrep hlive hcase
      refine ⟨_, by simp only [step, heq', Option.bind_eq_bind, Option.bind_some]; rfl, ?_⟩
      split
      · rename_i hnull
        rwa [hnull.1] at hinv
      · exact hinv
    · by_cases hsize : size = 0
      · obtain ⟨heap, heq, hinv⟩ := Inv.after_free hc hrep hlive hptr
        have heq' : realloc c t.heap ptr size = some (heap, 0) := by
          obtain ⟨r, hr⟩ := hptr
          obtain ⟨x, rfl, -⟩ := (hlive ptr r).mp hr
          unfold realloc
          rw [chunkFromMem, if_pos (dataPtr_ne_zero c x)]
          simp only [hsize, if_true, heq, Option.map_some]
        refine ⟨_, by simp only [step, heq', Option.bind_eq_bind, Option.bind_some]; rfl, ?_⟩
        rw [if_neg fun h => h.2 hsize]
        exact hinv
      · obtain ⟨heap, p, heq, hinv⟩ := Inv.after_realloc hc hrep hlive hptr hsize
        exact ⟨_, by simp only [step, heq, Option.bind_eq_bind, Option.bind_some]; rfl, hinv⟩
  | free ptr =>
    rcases hok with rfl | hptr
    · exact ⟨t, rfl, ks, hrep, hlive⟩
    · obtain ⟨heap, heq, hinv⟩ := Inv.after_free hc hrep hlive hptr
      exact ⟨_, by simp [step, heq], hinv⟩
  | write addr bytes => exact ⟨_, rfl, Inv.after_write hrep hlive hok⟩

theorem inv_init (hc : c.Valid) (memory : Words.Memory) : ∃ t, init c memory = some t ∧ Inv c t := by
  refine ⟨_, rfl, _, initState_spec hc memory, fun p r => ?_⟩
  refine iff_of_false (by simp) ?_
  rintro ⟨x, -, hx⟩
  cases hx

theorem inv_reach (hc : c.Valid) {memory : Words.Memory} {s : Option Traced}
    (h : Runs.Reach (step c) (Admissible c) (init c memory) s) : ∃ t, s = some t ∧ Inv c t := by
  refine h.invariant (fun s => ∃ t, s = some t ∧ Inv c t) (inv_init hc memory) ?_
  rintro _ op ⟨t, rfl, hinv⟩ hok
  exact inv_step hc hinv op hok

/-! ## What can be seen of the heap -/

/-- Two chunks that follow each other in the free list. -/
def FreeLinked (c : HeapConfig) (m : Words.Memory) (x y : Nat) : Prop :=
  fwdChunk c m x = some y ∧ bckChunk c m y = some x

/-- The end of the payload at a pointer. -/
def payloadEnd (c : HeapConfig) (m : Words.Memory) (ptr : Nat) : Nat :=
  ptr - 2 * c.word + getSize c m (ptr - 2 * c.word)

/-- The heap in the terms of the methods of its chunks. -/
structure Intact (c : HeapConfig) (t : Traced) : Prop where
  /-- The chunks start at the base, each where the one before it ends, and end where the
  last two words of the heap start. -/
  starts : (chunks c t.heap).head? = some c.heapBase
  tiles : (chunks c t.heap).IsChain fun x y => x + getSize c t.heap.memory x = y
  ends : ∀ x ∈ (chunks c t.heap).getLast?,
    x + getSize c t.heap.memory x = c.heapBase + c.heapSize - 2 * c.word
  coalesced : (chunks c t.heap).IsChain fun x y =>
    ¬ (isFree c t.heap.memory x = true ∧ isFree c t.heap.memory y = true)
  /-- The free list: where it starts, its order, its links, and those between its ends. -/
  head_eq : t.heap.freeHeadChunk = (freeChunks c t.heap).head?
  ascending : (freeChunks c t.heap).Pairwise (· < ·)
  linked : (freeChunks c t.heap).IsChain (FreeLinked c t.heap.memory)
  circular : ∀ x ∈ (freeChunks c t.heap).getLast?, ∀ y ∈ (freeChunks c t.heap).head?,
    FreeLinked c t.heap.memory x y
  /-- A free chunk that is not the last one has its size repeated in the chunk after it. -/
  repeated : (chunks c t.heap).IsChain fun x y => isFree c t.heap.memory x = true →
    loadWord c t.heap.memory y = getSize c t.heap.memory x
  /-- The payloads of the live pointers are in chunks of their own. -/
  payload : ∀ p r, t.live p = some r → ∃ x ∈ chunks c t.heap, p = dataPtr c x ∧
    isFree c t.heap.memory x = false ∧ p + r ≤ payloadEnd c t.heap.memory p
  disjoint : ∀ p r p' r', t.live p = some r → t.live p' = some r' → p ≠ p' →
    payloadEnd c t.heap.memory p ≤ p' ∨ payloadEnd c t.heap.memory p' ≤ p

section
variable {A B : List LayoutChunk} {k : LayoutChunk} {b : Nat}

theorem bases_isChain {R : Nat → Nat → Prop}
    (h : ∀ A k n B, ks = A ++ k :: n :: B → R (b + extent A) (b + extent A + k.size)) :
    (bases b ks).IsChain R := by
  induction ks generalizing b with
  | nil => exact .nil
  | cons k ks ih =>
    rw [bases, List.isChain_cons]
    constructor
    · intro y hy
      cases ks with
      | nil => cases hy
      | cons n ks =>
        cases hy
        exact h [] k n ks rfl
    · refine ih fun A l n B hks => ?_
      have := h (k :: A) l n B (by rw [hks]; rfl)
      rwa [extent_cons, ← Nat.add_assoc] at this

theorem filter_bases {p : Nat → Bool} (h : ∀ A k B, ks = A ++ k :: B → p (b + extent A) = k.free) :
    (bases b ks).filter p = freeBases b ks := by
  induction ks generalizing b with
  | nil => rfl
  | cons k ks ih =>
    have hk : p b = k.free := h [] k ks rfl
    have hrest : (bases (b + k.size) ks).filter p = freeBases (b + k.size) ks := by
      refine ih fun A l B hks => ?_
      have := h (k :: A) l B (by rw [hks]; rfl)
      rwa [extent_cons, ← Nat.add_assoc] at this
    rw [bases, freeBases, List.filter_cons, hk, hrest]

theorem chunksFrom_eq (hc : c.Valid) {m : Words.Memory} {v : Cells} {S : Nat → Prop} (hv : View c S m v)
    {fuel : Nat} (h : Tiled c v (A ++ k :: B)) (hS : ∀ z, Bases c (A ++ k :: B) z → S z)
    (hfuel : B.length < fuel) : chunksFrom c m fuel (addr c A) = bases (addr c A) (k :: B) := by
  induction B generalizing A k fuel with
  | nil =>
    obtain ⟨fuel, rfl⟩ := Nat.exists_eq_succ_of_ne_zero (Nat.ne_of_gt hfuel)
    rw [chunksFrom, h.nextChunk hc hv (hS _ h.mem)]
    rfl
  | cons n B ih =>
    obtain ⟨fuel, rfl⟩ := Nat.exists_eq_succ_of_ne_zero
      (Nat.ne_of_gt (Nat.lt_of_le_of_lt (Nat.zero_le _) hfuel))
    have hassoc : A ++ k :: n :: B = (A ++ [k]) ++ n :: B := by simp
    have haddr : addr c (A ++ [k]) = addr c A + k.size := by simp [addr_append]
    have hrest := ih (A := A ++ [k]) (k := n) (hassoc ▸ h) (fun z hz => hS z (hassoc ▸ hz))
      (by simpa using hfuel)
    rw [chunksFrom, h.nextChunk hc hv (hS _ h.mem)]
    simp only [reduceCtorEq, if_false]
    rw [bases, ← haddr, hrest]

end

theorem Represents.ne_nil (hc : c.Valid) (h : Represents c t.heap ks) : ks ≠ [] := by
  rintro rfl
  have hext := h.extent_eq
  have := hc.top_add
  have := hc.room
  have := c.word_pos
  rw [extent_nil] at hext
  omega

theorem chunks_eq (hc : c.Valid) (h : Represents c t.heap ks) :
    chunks c t.heap = bases c.heapBase ks := by
  have htop := hc.top_add
  have hext := h.extent_eq
  have hlen := length_le_extent h.sized
  obtain ⟨k, ks, rfl⟩ := List.exists_cons_of_ne_nil (h.ne_nil hc)
  refine chunksFrom_eq hc (View.refl c _ _) (A := []) h.toTiled (fun z hz => hz) ?_
  rw [List.length_cons] at hlen
  omega

/-- What starts behind a base starts behind its chunk. -/
theorem Tiled.behind_of_lt {v : Cells} {A B : List LayoutChunk} {k : LayoutChunk} {z : Nat}
    (h : Tiled c v (A ++ k :: B)) (hz : Bases c (A ++ k :: B) z) (hlt : addr c A < z) :
    addr c A + k.size ≤ z := by
  rcases bases_mid.mp hz with hz | hz | hz
  · have := (mem_bases_range (fun l hl => h.sized l (by simp [hl])) hz).2
    have := c.word_pos
    unfold addr at hlt
    omega
  · omega
  · exact (mem_bases_range (fun l hl => h.sized l (by simp [hl])) hz).1

theorem intact_of_inv (hc : c.Valid) (h : Inv c t) : Intact c t := by
  obtain ⟨ks, hrep, hlive⟩ := h
  have hw := c.word_pos
  have hv := View.refl c (Bases c ks) t.heap.memory
  have hchunks := chunks_eq hc hrep
  have hsize : ∀ A k B, ks = A ++ k :: B → getSize c t.heap.memory (addr c A) = k.size := by
    rintro A k B rfl
    exact hrep.toTiled.getSize hv hrep.toTiled.mem
  have hisFree : ∀ A k B, ks = A ++ k :: B → isFree c t.heap.memory (addr c A) = k.free := by
    rintro A k B rfl
    exact Tiled.isFree hc hrep.toTiled hv hrep.toTiled.mem hrep.toTiled.next_mem
  have hfree : freeChunks c t.heap = freeBases c.heapBase ks := by
    rw [freeChunks, hchunks]
    exact filter_bases hisFree
  have hlinked : ∀ x ∈ freeBases c.heapBase ks, ∀ y ∈ freeBases c.heapBase ks,
      Linked (cells c t.heap.memory .fwd) (cells c t.heap.memory .bck) x y →
      FreeLinked c t.heap.memory x y := by
    intro x hx y hy hxy
    have hfx := Tiled.isFree_of_mem hc hrep.toTiled hv (fun z hz => hz) hx
    have hfy := Tiled.isFree_of_mem hc hrep.toTiled hv (fun z hz => hz) hy
    refine ⟨?_, ?_⟩
    · rw [hv.fwdChunk (freeBases_subset hx) hfx, hxy.1]
    · rw [hv.bckChunk (freeBases_subset hy) hfy, hxy.2]
  have hpayload : ∀ p r, t.live p = some r → ∃ A k B, ks = A ++ k :: B ∧ k.request = some r ∧
      p = dataPtr c (addr c A) ∧ payloadEnd c t.heap.memory p = addr c A + k.size := by
    intro p r hr
    obtain ⟨x, rfl, hx⟩ := (hlive p r).mp hr
    obtain ⟨A, k, B, hks, hk, rfl⟩ := exists_of_mem_allocations hx
    refine ⟨A, k, B, hks, hk, rfl, ?_⟩
    rw [payloadEnd, dataPtr, Nat.add_sub_cancel]
    exact congrArg _ (hsize A k B hks)
  have hnext : ∀ A k, addr c (A ++ [k]) = addr c A + k.size := by
    intro A k
    simp [addr_append]
  refine ⟨?_, ?_, ?_, ?_, ?_, ?_, ?_, ?_, ?_, ?_, ?_⟩
  · rw [hchunks]
    obtain ⟨k, ks, rfl⟩ := List.exists_cons_of_ne_nil (hrep.ne_nil hc)
    rfl
  · rw [hchunks]
    refine bases_isChain fun A k n B hks => ?_
    exact congrArg _ (hsize A k (n :: B) hks)
  · rw [hchunks]
    intro x hx
    obtain ⟨A, k, rfl⟩ := (List.eq_nil_or_concat' ks).resolve_left (hrep.ne_nil hc)
    rw [bases_append, bases, bases, List.getLast?_append_of_ne_nil _ (by simp)] at hx
    cases hx
    have hend := hrep.toTiled.next_le
    rw [extent_nil, Nat.add_zero] at hend
    exact (congrArg _ (hsize A k [] rfl)).trans hend
  · rw [hchunks]
    refine bases_isChain fun A k n B hks => ?_
    have h₁ := hisFree A k (n :: B) hks
    have h₂ := hisFree (A ++ [k]) n B (by simp [hks])
    rw [hnext A k] at h₂
    have hco := hrep.coalesced
    rw [hks] at hco
    have := (coalesced_mid.mp hco).2.2.2 n rfl
    unfold addr at h₁ h₂
    rwa [h₁, h₂]
  · rw [hfree]
    exact hrep.head_eq
  · rw [hfree]
    exact (bases_sorted hw hrep.sized).sublist freeBases_sublist
  · rw [hfree]
    exact hrep.ring.1.imp_of_mem_imp fun x y hx hy => hlinked x hx y hy
  · rw [hfree]
    intro x hx y hy
    exact hlinked x (List.mem_of_getLast? hx) y (List.mem_of_mem_head? hy) (hrep.ring.2 x hx y hy)
  · rw [hchunks]
    refine bases_isChain fun A k n B hks hfreeA => ?_
    have hk : k.free = true := (hisFree A k (n :: B) hks).symm.trans hfreeA
    have hrep' : Represents c t.heap ((A ++ [k]) ++ n :: B) := by simpa [hks] using hrep
    have hprev := hrep'.boundary_at.2 k.size (by rw [exit_append]; simp [exit, LayoutChunk.exit, hk])
    have hload : ∀ z, loadWord c t.heap.memory z = cells c t.heap.memory .prev z := by
      intro z
      simp [loadWord, cells, Field.index, Field.bigEndian]
    rw [hnext A k] at hprev
    exact (hload _).trans (hprev.trans (hsize A k (n :: B) hks).symm)
  · intro p r hr
    obtain ⟨A, k, B, rfl, hk, rfl, hend⟩ := hpayload p r hr
    refine ⟨addr c A, ?_, rfl, ?_, ?_⟩
    · rw [hchunks]
      exact hrep.toTiled.mem
    · rw [hisFree A k B rfl, LayoutChunk.free, hk]
      rfl
    · have := hrep.toTiled.chunk.2.2 r hk
      rw [hend, dataPtr]
      omega
  · intro p r p' r' hr hr' hne
    obtain ⟨A, k, B, hks, -, rfl, hend⟩ := hpayload p r hr
    obtain ⟨A', k', B', hks', -, rfl, hend'⟩ := hpayload p' r' hr'
    rw [hend, hend', dataPtr, dataPtr]
    have hbases : ∀ A k B, ks = A ++ k :: B → Bases c ks (addr c A) := by
      rintro A k B rfl
      exact hrep.toTiled.mem
    have htiled := hrep.toTiled
    rcases Nat.lt_trichotomy (addr c A) (addr c A') with hlt | heq | hlt
    · have hmem := hbases A' k' B' hks'
      rw [hks] at htiled hmem
      have := Tiled.behind_of_lt htiled hmem hlt
      exact .inl (by omega)
    · exact absurd (congrArg (dataPtr c) heq) hne
    have hmem := hbases A k B hks
    rw [hks'] at htiled hmem
    have := Tiled.behind_of_lt htiled hmem hlt
    exact .inr (by omega)

/-- In every run the calls succeed, and leave the heap intact. -/
theorem heap_intact (hc : c.Valid) {memory : Words.Memory} {s : Option Traced}
    (h : Runs.Reach (step c) (Admissible c) (init c memory) s) : ∃ t, s = some t ∧ Intact c t := by
  obtain ⟨t, rfl, hinv⟩ := inv_reach hc h
  exact ⟨t, rfl, intact_of_inv hc hinv⟩

/-- A small heap of 64-bit words. -/
def smallHeap (words : Nat) : HeapConfig where
  word := 8
  bigEndian := false
  heapBase := 0xC0000000
  heapSize := 8 * words
  word_eq := .inr rfl

/-- Two requests to a new heap. -/
theorem heap_intact_smallHeap : ∃ t, step (smallHeap 64)
      (step (smallHeap 64) (init (smallHeap 64) fun _ => 0) (.malloc 100)) (.realloc 0 20) = some t ∧
    Intact (smallHeap 64) t := by
  have hc : (smallHeap 64).Valid := ⟨by decide, by decide, by decide, by decide⟩
  have hrun : Runs.Reach (step (smallHeap 64)) (Admissible (smallHeap 64)) (init (smallHeap 64) fun _ => 0)
      (step (smallHeap 64) (step (smallHeap 64) (init (smallHeap 64) fun _ => 0) (.malloc 100)) (.realloc 0 20)) := by
    refine .tail (.tail .refl ?_) ?_
    · intro t _
      trivial
    · intro t _
      exact .inl rfl
  exact heap_intact hc hrun

/-- The last chunk has no copy of its size behind it; a request that overflows gets a payload
of two words; and a heap without room for a chunk gets one that is not in it. -/
theorem heap_not_intact :
    (isFree (smallHeap 64) (initState (smallHeap 64) fun _ => 0).memory 0xC0000000 = true ∧
      getSize (smallHeap 64) (initState (smallHeap 64) fun _ => 0).memory 0xC0000000 = 496 ∧
      loadWord (smallHeap 64) (initState (smallHeap 64) fun _ => 0).memory (0xC0000000 + 496) ≠ 496) ∧
    (calloc (smallHeap 64) (initState (smallHeap 64) fun _ => 0) (2 ^ 32) (2 ^ 32)).map
      (fun result => (result.2, payloadEnd (smallHeap 64) result.1.memory result.2))
        = some (0xC0000010, 0xC0000010 + 16) ∧
    nextChunk (smallHeap 2) (initState (smallHeap 2) fun _ => 0).memory 0xC0000000
      = some (0xC0000000 - 8) := by
  refine ⟨?_, ?_, ?_⟩ <;> decide +kernel

end Angr.SimHeapPTMalloc
