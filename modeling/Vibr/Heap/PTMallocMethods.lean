import Vibr.Heap.PTMallocLayout

/-!
# Chunk methods

One lemma for every method of `PTChunk`: on a memory with the cells `v`, it gives a memory
whose cells are an update of `v`.
-/

namespace Angr.Layout

open Words PTChunk

variable {c : HeapConfig} {S : Nat → Prop} {m : Memory} {v : Cells} {x n size val : Nat}

theorem loadWord_size (m : Memory) (x : Nat) : loadWord c m (x + c.word) = cells c m .size x := by
  simp [loadWord, cells, Field.index, Field.bigEndian]

theorem size_lt (m : Memory) (x : Nat) : cells c m .size x < 256 ^ c.word := load_lt

theorem View.size_eq (h : View c S m v) (hx : S x ∨ x = c.top) :
    loadWord c m (x + c.word) = v .size x := by
  rw [loadWord_size]
  rcases hx with hx | rfl
  · exact h.word .size x hx
  · exact h.final

theorem View.size_lt (h : View c S m v) (hx : S x ∨ x = c.top) : v .size x < 256 ^ c.word := by
  rw [← h.size_eq hx, loadWord_size]
  exact Layout.size_lt m x

/-! ## Reading -/

theorem View.getSize (h : View c S m v) (hx : S x) :
    getSize c m x = v .size x - v .size x % 8 := by
  rw [PTChunk.getSize, h.size_eq (.inl hx), andNot_flags]

theorem View.isPrevFree (h : View c S m v) (hx : S x ∨ x = c.top) :
    isPrevFree c m x = decide (v .size x % 2 = 0) := by
  have hand : v .size x &&& CHUNK_P_MASK = v .size x % 2 := Nat.and_two_pow_sub_one_eq_mod _ 1
  rw [PTChunk.isPrevFree, h.size_eq hx, hand]

theorem View.prevSize (h : View c S m v) (hx : S x) :
    prevSize c m x = v .prev x - v .prev x % 8 := by
  have hload : loadWord c m x = v .prev x := by
    rw [← h.word .prev x hx]
    simp [loadWord, cells, Field.index, Field.bigEndian]
  rw [PTChunk.prevSize, hload, andNot_flags]

theorem View.nextChunk (hc : c.Valid) (h : View c S m v) (hx : S x)
    (hn : x + (v .size x - v .size x % 8) = n) (hle : n ≤ c.top) :
    nextChunk c m x = if n = c.top then none else some n := by
  have htop := hc.top_add
  rw [PTChunk.nextChunk, h.getSize hx, hn, Nat.mod_eq_of_lt (by omega)]
  change (if c.top ≤ n then none else some n) = _
  by_cases heq : n = c.top
  · rw [if_pos (by omega), if_pos heq]
  · rw [if_neg (by omega), if_neg heq]

theorem final_addr (hc : c.Valid) : c.heapBase + c.heapSize - c.word = c.top + c.word := by
  have := hc.top_add
  omega

theorem View.isFree (hc : c.Valid) (h : View c S m v) (hx : S x)
    (hn : x + (v .size x - v .size x % 8) = n) (hle : n ≤ c.top) (hnS : S n ∨ n = c.top) :
    isFree c m x = decide (v .size n % 2 = 0) := by
  have hand : v .size n &&& CHUNK_P_MASK = v .size n % 2 := Nat.and_two_pow_sub_one_eq_mod _ 1
  rw [PTChunk.isFree, h.nextChunk hc hx hn hle]
  by_cases heq : n = c.top
  · rw [if_pos heq]
    dsimp only
    rw [isFinalFree, final_addr hc, ← heq, h.size_eq hnS, hand]
  · rw [if_neg heq]
    exact h.isPrevFree hnS

theorem View.fwdChunk (h : View c S m v) (hx : S x) (hfree : PTChunk.isFree c m x = true) :
    fwdChunk c m x = some (v .fwd x) := by
  rw [PTChunk.fwdChunk, if_pos hfree, ← h.word .fwd x hx]
  rfl

theorem View.bckChunk (h : View c S m v) (hx : S x) (hfree : PTChunk.isFree c m x = true) :
    bckChunk c m x = some (v .bck x) := by
  rw [PTChunk.bckChunk, if_pos hfree, ← h.word .bck x hx]
  rfl

/-! ## Writing -/

theorem View.setFwdChunk (hS : Spread c S) (h : View c S m v) (hx : S x) (hval : val < 256 ^ c.word) :
    View c S (setFwdChunk c m x val) (v.set .fwd x val) :=
  View.store (f := .fwd) hS h hx hval

theorem View.setBckChunk (hS : Spread c S) (h : View c S m v) (hx : S x) (hval : val < 256 ^ c.word) :
    View c S (setBckChunk c m x val) (v.set .bck x val) :=
  View.store (f := .bck) hS h hx hval

/-- The size word of a chunk whose predecessor is made free, or taken into use; behind the
last chunk there is only the flag. -/
def flagWord (c : HeapConfig) (n : Nat) (free : Bool) (s : Nat) : Nat :=
  if n = c.top then if free then 256 ^ c.word - 2 else 1
  else if free then s - s % 2 else s - s % 2 + 1

theorem flagWord_mod (c : HeapConfig) (n : Nat) (free : Bool) (s : Nat) :
    flagWord c n free s % 2 = 0 ↔ free = true := by
  obtain ⟨k, hk⟩ := c.eight_dvd_pow
  have hmod : flagWord c n free s % 2 = if free then 0 else 1 := by
    unfold flagWord
    cases free
    · simp only [Bool.false_eq_true, if_false]
      split <;> omega
    · simp only [if_true]
      split <;> omega
  rw [hmod]
  cases free <;> simp

theorem flagWord_size (h : n ≠ c.top) (free : Bool) (s : Nat) :
    flagWord c n free s - flagWord c n free s % 8 = s - s % 8 := by
  rw [flagWord, if_neg h]
  cases free
  · simp only [Bool.false_eq_true, if_false]
    omega
  · simp only [if_true]
    omega

theorem flagWord_lt {s : Nat} (hs : s < 256 ^ c.word) (n : Nat) (free : Bool) :
    flagWord c n free s < 256 ^ c.word := by
  obtain ⟨k, hk⟩ := c.eight_dvd_pow
  unfold flagWord
  cases free
  · simp only [Bool.false_eq_true, if_false]
    split <;> omega
  · simp only [if_true]
    split <;> omega

theorem View.setPrevFreeness (hS : Spread c S) (h : View c S m v) (hx : S x) (hne : x ≠ c.top)
    (free : Bool) :
    View c S (setPrevFreeness c m x free) (v.set .size x (flagWord c x free (v .size x))) := by
  have hword : flagWord c x free (v .size x)
      = if free then andNot (v .size x) CHUNK_P_MASK else v .size x ||| CHUNK_P_MASK := by
    rw [flagWord, if_neg hne, andNot_p, or_p]
  rw [PTChunk.setPrevFreeness, h.size_eq (.inl hx), ← hword, storeWord]
  have hstore := View.store (f := .size) hS h hx (flagWord_lt (h.size_lt (.inl hx)) x free)
  rwa [Field.index, Nat.one_mul] at hstore

theorem View.setFinalFreeness (hc : c.Valid) (hS : Spread c S) (h : View c S m v) (free : Bool) :
    View c S (setFinalFreeness c m free)
      (v.set .size c.top (flagWord c c.top free (v .size c.top))) := by
  have hword : flagWord c c.top free (v .size c.top)
      = if free then 256 ^ c.word - 1 - CHUNK_P_MASK else CHUNK_P_MASK := by
    rw [flagWord, if_pos rfl]
    rfl
  rw [PTChunk.setFinalFreeness, final_addr hc, ← hword, storeWord]
  exact h.storeFinal hS (flagWord_lt (h.size_lt (.inr rfl)) _ _)

theorem View.setFreeness (hc : c.Valid) (hS : Spread c S) (h : View c S m v) (hx : S x)
    (hn : x + (v .size x - v .size x % 8) = n) (hle : n ≤ c.top) (hnS : S n ∨ n = c.top)
    (free : Bool) :
    View c S (setFreeness c m x free) (v.set .size n (flagWord c n free (v .size n))) := by
  rw [PTChunk.setFreeness, h.nextChunk hc hx hn hle]
  by_cases heq : n = c.top
  · subst heq
    rw [if_pos rfl]
    exact h.setFinalFreeness hc hS free
  · rw [if_neg heq]
    exact h.setPrevFreeness hS (hnS.resolve_right heq) heq free

/-- The new size, with the flags that the word had. -/
theorem View.setLeadingSize (hS : Spread c S) (h : View c S m v) (hx : S x) (hsize : 8 ∣ size)
    (hlt : size < 256 ^ c.word) :
    View c S (setLeadingSize c m x size) (v.set .size x (size + v .size x % 8)) := by
  have hand : v .size x &&& CHUNK_FLAGS_MASK = v .size x % 8 := Nat.and_two_pow_sub_one_eq_mod _ 3
  have hmod : v .size x % 8 < 8 := Nat.mod_lt _ (by decide)
  have hval : size + v .size x % 8 < 256 ^ c.word := by
    obtain ⟨k, hk⟩ := c.eight_dvd_pow
    omega
  rw [PTChunk.setLeadingSize, h.size_eq (.inl hx), hand, or_flags hsize hmod, storeWord]
  have hstore := View.store (f := .size) hS h hx hval
  rwa [Field.index, Nat.one_mul] at hstore

theorem View.storePrev (hS : Spread c S) (h : View c S m v) (hx : S x) (hval : val < 256 ^ c.word) :
    View c S (storeWord c m x val) (v.set .prev x val) := by
  have hstore := View.store (f := .prev) hS h hx hval
  rwa [Field.index, Nat.zero_mul, Nat.add_zero] at hstore

/-- The size is repeated in the chunk behind, if there is one. -/
def Cells.setPrevSize (c : HeapConfig) (v : Cells) (n size : Nat) : Cells :=
  if n = c.top then v else v.set .prev n size

/-- Without a hint the freeness stays as it is. -/
theorem View.setSize (hc : c.Valid) (hS : Spread c S) (h : View c S m v) (hx : S x) (hsize : 8 ∣ size)
    (hpos : 0 < size) (hle : x + size ≤ c.top) (hnS : S (x + size) ∨ x + size = c.top) :
    View c S (setSize c m x size none)
      (if v .size (x + size) % 2 = 0
        then ((v.set .size x (size + v .size x % 8)).setPrevSize c (x + size) size)
        else v.set .size x (size + v .size x % 8)) := by
  have htop := hc.top_add
  have h₁ := h.setLeadingSize hS hx hsize (by omega)
  have hsx : (v.set .size x (size + v .size x % 8)) .size x = size + v .size x % 8 := by simp
  have hn : x + ((v.set .size x (size + v .size x % 8)) .size x
      - (v.set .size x (size + v .size x % 8)) .size x % 8) = x + size := by
    rw [hsx]
    omega
  have hsn : (v.set .size x (size + v .size x % 8)) .size (x + size) = v .size (x + size) := by
    rw [Cells.set_field, Function.update_of_ne (by omega)]
  rw [PTChunk.setSize]
  rw [h₁.nextChunk hc hx hn hle, h₁.isFree hc hx hn hle hnS, hsn]
  unfold Cells.setPrevSize
  by_cases heq : x + size = c.top
  · rw [if_pos heq]
    simpa [heq] using h₁
  rw [if_neg heq]
  simp only [reduceCtorEq, false_or, decide_eq_true_eq, heq, if_false]
  split
  · exact h₁.storePrev hS (hnS.resolve_right heq) (by omega)
  · exact h₁

/-- With a hint the chunk is made free, or taken into use. -/
theorem View.setSize_hint (hc : c.Valid) (hS : Spread c S) (h : View c S m v) (hx : S x)
    (hsize : 8 ∣ size) (hpos : 0 < size) (hle : x + size ≤ c.top)
    (hnS : S (x + size) ∨ x + size = c.top) (free : Bool) :
    View c S (PTChunk.setSize c m x size (some free))
      (let w := (v.set .size x (size + v .size x % 8)).set .size (x + size)
          (flagWord c (x + size) free (v .size (x + size)))
        if free then w.setPrevSize c (x + size) size else w) := by
  have htop := hc.top_add
  have h₁ := h.setLeadingSize hS hx hsize (by omega)
  have hsx : (v.set .size x (size + v .size x % 8)) .size x = size + v .size x % 8 := by simp
  have hn : x + ((v.set .size x (size + v .size x % 8)) .size x
      - (v.set .size x (size + v .size x % 8)) .size x % 8) = x + size := by
    rw [hsx]
    omega
  have hsn : (v.set .size x (size + v .size x % 8)) .size (x + size) = v .size (x + size) := by
    rw [Cells.set_field, Function.update_of_ne (by omega)]
  have h₂ := h₁.setFreeness hc hS hx hn hle hnS free
  rw [hsn] at h₂
  have hn₂ : x + (((v.set .size x (size + v .size x % 8)).set .size (x + size)
      (flagWord c (x + size) free (v .size (x + size)))) .size x
      - ((v.set .size x (size + v .size x % 8)).set .size (x + size)
      (flagWord c (x + size) free (v .size (x + size)))) .size x % 8) = x + size := by
    rw [Cells.set_field, Function.update_of_ne (by omega), hn]
  have hflag : ((v.set .size x (size + v .size x % 8)).set .size (x + size)
      (flagWord c (x + size) free (v .size (x + size)))) .size (x + size) % 2 = 0 ↔ free = true := by
    rw [Cells.set_field, Function.update_self]
    exact flagWord_mod c _ _ _
  rw [PTChunk.setSize]
  dsimp only
  rw [h₁.nextChunk hc hx hn hle, h₂.isFree hc hx hn₂ hle hnS]
  unfold Cells.setPrevSize
  by_cases heq : x + size = c.top
  · rw [if_pos heq]
    simp only [heq, if_true, ite_self] at h₂ ⊢
    exact h₂
  rw [if_neg heq]
  dsimp only
  simp only [hflag, heq, if_false, decide_eq_true_eq, Option.some.injEq, or_self]
  split
  · exact h₂.storePrev hS (hnS.resolve_right heq) (by omega)
  · exact h₂

end Angr.Layout
