import Vibr.Heap.PTMalloc
import Vibr.Lib.Ring

/-!
# Layouts

What the heap is divided into is a list of chunks, each free or allocated for a request. A
memory represents a layout if the words at the bases of its chunks say so. Only these words
matter, and chunks are so large that the words of two of them are apart; the words at the base
of a chunk are its `Cells`.

Behind the last chunk there is one more base, `top`, whose size word is the last word of the
heap. It has the flag for the last chunk.
-/

namespace Angr

open Words Ring

/-- A chunk of a layout; the request that it is allocated for, `none` if it is free. -/
structure LayoutChunk where
  size : Nat
  request : Option Nat
  deriving DecidableEq

namespace LayoutChunk

def free (k : LayoutChunk) : Bool := k.request.isNone

/-- What the chunk after this one knows of it: its size, if it is free. -/
def exit (k : LayoutChunk) : Option Nat := if k.free then some k.size else none

end LayoutChunk

namespace HeapConfig

structure Valid (c : HeapConfig) : Prop where
  base_aligned : 2 * c.word ∣ c.heapBase
  size_aligned : 2 * c.word ∣ c.heapSize
  /-- There is room for one chunk of the smallest size. -/
  room : 6 * c.word ≤ c.heapSize
  fits : c.heapBase + c.heapSize ≤ 256 ^ c.word

def top (c : HeapConfig) : Nat := c.heapBase + c.heapSize - 2 * c.word

theorem word_pos (c : HeapConfig) : 0 < c.word := by
  rcases c.word_eq with h | h <;> omega

theorem eight_dvd_word (c : HeapConfig) : 8 ∣ 2 * c.word := by
  rcases c.word_eq with h | h
  · rw [h]
  · exact ⟨2, by rw [h]⟩

theorem eight_dvd_pow (c : HeapConfig) : 8 ∣ 256 ^ c.word := by
  rcases c.word_eq with h | h <;> rw [h] <;> decide

theorem Valid.top_add {c : HeapConfig} (hc : c.Valid) :
    c.top + 2 * c.word = c.heapBase + c.heapSize ∧ c.top < 256 ^ c.word := by
  have := hc.room
  have := hc.fits
  have := c.word_pos
  unfold top
  omega

end HeapConfig

namespace Layout

variable {c : HeapConfig}

/-- The words at the base of a chunk. -/
inductive Field where
  | prev
  | size
  | fwd
  | bck
  deriving DecidableEq

namespace Field

def index : Field → Nat
  | prev => 0
  | size => 1
  | fwd => 2
  | bck => 3

def bigEndian (c : HeapConfig) : Field → Bool
  | prev | size => true
  | fwd | bck => c.bigEndian

end Field

abbrev Cells := Field → Nat → Nat

def cells (c : HeapConfig) (m : Memory) : Cells := fun f x =>
  load (f.bigEndian c) c.word m (x + f.index * c.word)

def extent (ks : List LayoutChunk) : Nat := (ks.map LayoutChunk.size).sum

/-- What is known behind some chunks of the last of them. -/
def exit (prev : Option Nat) : List LayoutChunk → Option Nat
  | [] => prev
  | k :: ks => exit k.exit ks

def bases (b : Nat) : List LayoutChunk → List Nat
  | [] => []
  | k :: ks => b :: bases (b + k.size) ks

def freeBases (b : Nat) : List LayoutChunk → List Nat
  | [] => []
  | k :: ks => if k.free then b :: freeBases (b + k.size) ks else freeBases (b + k.size) ks

/-- The words at a base say whether the chunk before it is free, and if so, its size. -/
def Boundary (v : Cells) (b : Nat) (prev : Option Nat) : Prop :=
  (v .size b % 2 = 0 ↔ prev.isSome) ∧ ∀ s, prev = some s → v .prev b = s

/-- The headers of some chunks that follow each other. -/
def Headers (v : Cells) : Nat → Option Nat → List LayoutChunk → Prop
  | _, _, [] => True
  | b, prev, k :: ks =>
    Boundary v b prev ∧ v .size b - v .size b % 8 = k.size ∧ Headers v (b + k.size) k.exit ks

/-- The last chunk has no size behind it. -/
def Final (c : HeapConfig) (v : Cells) (prev : Option Nat) : Prop :=
  v .size c.top % 2 = 0 ↔ prev.isSome

def Sized (c : HeapConfig) (k : LayoutChunk) : Prop :=
  2 * c.word ∣ k.size ∧ 4 * c.word ≤ k.size ∧ ∀ r, k.request = some r → r + 2 * c.word ≤ k.size

/-- The words in front of the chunks, and behind the last one, are those of a layout that
fills the heap. -/
structure Tiled (c : HeapConfig) (v : Cells) (ks : List LayoutChunk) : Prop where
  headers : Headers v c.heapBase none ks
  final : Final c v (exit none ks)
  sized : ∀ k ∈ ks, Sized c k
  extent_eq : c.heapBase + extent ks = c.top

/-- The cells, with the head of the free list, represent a layout. -/
structure Rep (c : HeapConfig) (v : Cells) (head : Option Nat) (ks : List LayoutChunk) : Prop
    extends Tiled c v ks where
  ring : IsRing (v .fwd) (v .bck) (freeBases c.heapBase ks)
  head_eq : head = (freeBases c.heapBase ks).head?
  coalesced : ks.IsChain fun k l => ¬ (k.free ∧ l.free)

variable {v v' : Cells} {b x y : Nat} {prev : Option Nat} {A B ks : List LayoutChunk} {k : LayoutChunk}

/-! ## Lists of chunks -/

@[simp] theorem extent_nil : extent [] = 0 := rfl

@[simp] theorem extent_cons : extent (k :: ks) = k.size + extent ks := by simp [extent]

@[simp] theorem extent_append : extent (A ++ B) = extent A + extent B := by simp [extent]

theorem exit_append : exit prev (A ++ B) = exit (exit prev A) B := by
  induction A generalizing prev with
  | nil => rfl
  | cons k A ih => exact ih

theorem bases_append : bases b (A ++ B) = bases b A ++ bases (b + extent A) B := by
  induction A generalizing b with
  | nil => rfl
  | cons k A ih => simp [bases, ih, Nat.add_assoc]

theorem length_bases : (bases b ks).length = ks.length := by
  induction ks generalizing b with
  | nil => rfl
  | cons k ks ih => rw [bases, List.length_cons, ih, List.length_cons]

theorem freeBases_append : freeBases b (A ++ B) = freeBases b A ++ freeBases (b + extent A) B := by
  induction A generalizing b with
  | nil => rfl
  | cons k A ih =>
    simp only [List.cons_append, freeBases, ih, extent_cons, Nat.add_assoc]
    split <;> simp

theorem freeBases_subset (h : x ∈ freeBases b ks) : x ∈ bases b ks := by
  induction ks generalizing b with
  | nil => cases h
  | cons k ks ih =>
    rw [freeBases] at h
    split at h
    · rcases List.mem_cons.mp h with rfl | h
      · exact List.mem_cons_self
      · exact List.mem_cons_of_mem _ (ih h)
    · exact List.mem_cons_of_mem _ (ih h)

theorem headers_append :
    Headers v b prev (A ++ B) ↔ Headers v b prev A ∧ Headers v (b + extent A) (exit prev A) B := by
  induction A generalizing b prev with
  | nil => simp [Headers, exit]
  | cons k A ih => simp [Headers, exit, ih, Nat.add_assoc, and_assoc]

theorem headers_congr (h : ∀ z ∈ bases b ks, v' .size z = v .size z ∧ v' .prev z = v .prev z)
    (H : Headers v b prev ks) : Headers v' b prev ks := by
  induction ks generalizing b prev with
  | nil => trivial
  | cons k ks ih =>
    obtain ⟨hbound, hsize, hrest⟩ := H
    obtain ⟨hs, hp⟩ := h b List.mem_cons_self
    refine ⟨?_, by rw [hs]; exact hsize, ih (fun z hz => h z (List.mem_cons_of_mem _ hz)) hrest⟩
    unfold Boundary at *
    rw [hs, hp]
    exact hbound

theorem mem_bases_range (hsized : ∀ k ∈ ks, Sized c k) (h : x ∈ bases b ks) :
    b ≤ x ∧ x + 4 * c.word ≤ b + extent ks := by
  induction ks generalizing b with
  | nil => cases h
  | cons k ks ih =>
    have hk := (hsized k List.mem_cons_self).2.1
    rw [extent_cons]
    rcases List.mem_cons.mp h with rfl | h
    · omega
    · have := ih (fun l hl => hsized l (List.mem_cons_of_mem _ hl)) h
      omega

/-- The bases of two chunks are at least four words apart. -/
theorem bases_apart (hsized : ∀ k ∈ ks, Sized c k) (hx : x ∈ bases b ks) (hy : y ∈ bases b ks)
    (hne : x ≠ y) : x + 4 * c.word ≤ y ∨ y + 4 * c.word ≤ x := by
  induction ks generalizing b with
  | nil => cases hx
  | cons k ks ih =>
    have hk := (hsized k List.mem_cons_self).2.1
    have hrest : ∀ l ∈ ks, Sized c l := fun l hl => hsized l (List.mem_cons_of_mem _ hl)
    rcases List.mem_cons.mp hx with rfl | hx <;> rcases List.mem_cons.mp hy with rfl | hy
    · exact absurd rfl hne
    · have := mem_bases_range hrest hy
      omega
    · have := mem_bases_range hrest hx
      omega
    · exact ih hrest hx hy

theorem bases_sorted (hw : 0 < c.word) (hsized : ∀ k ∈ ks, Sized c k) :
    (bases b ks).Pairwise (· < ·) := by
  induction ks generalizing b with
  | nil => exact .nil
  | cons k ks ih =>
    have hk := (hsized k List.mem_cons_self).2.1
    have hrest : ∀ l ∈ ks, Sized c l := fun l hl => hsized l (List.mem_cons_of_mem _ hl)
    refine .cons (fun y hy => ?_) (ih hrest)
    have := mem_bases_range hrest hy
    omega

theorem freeBases_sublist : (freeBases b ks).Sublist (bases b ks) := by
  induction ks generalizing b with
  | nil => exact .slnil
  | cons k ks ih =>
    rw [freeBases]
    split
    · exact ih.cons_cons b
    · exact ih.cons b

/-! ## Words -/

theorem andNot_flags (s : Nat) : andNot s CHUNK_FLAGS_MASK = s - s % 8 := by
  have h : s &&& CHUNK_FLAGS_MASK = s % 8 := Nat.and_two_pow_sub_one_eq_mod s 3
  rw [andNot, h]

theorem andNot_p (s : Nat) : andNot s CHUNK_P_MASK = s - s % 2 := by
  have h : s &&& CHUNK_P_MASK = s % 2 := Nat.and_two_pow_sub_one_eq_mod s 1
  rw [andNot, h]

theorem or_flags {s f : Nat} (hs : 8 ∣ s) (hf : f < 8) : s ||| f = s + f := by
  obtain ⟨a, rfl⟩ := hs
  exact (Nat.two_pow_add_eq_or_of_lt (i := 3) hf a).symm

theorem or_p (s : Nat) : s ||| CHUNK_P_MASK = s - s % 2 + 1 := by
  have hor : ∀ a, 2 * a ||| 1 = 2 * a + 1 := fun a =>
    (Nat.two_pow_add_eq_or_of_lt (i := 1) (by decide : 1 < 2 ^ 1) a).symm
  have heven : s - s % 2 = 2 * (s / 2) := by omega
  rw [CHUNK_P_MASK, heven]
  rcases Nat.mod_two_eq_zero_or_one s with h | h
  · have hs : s = 2 * (s / 2) := by omega
    rw [← hor, ← hs]
  have hs : s = 2 * (s / 2) ||| 1 := by
    rw [hor]
    omega
  rw [hs, Nat.or_assoc, Nat.or_self, ← hs]
  omega

/-! ## Views -/

/-- Bases that are apart from each other, and below the last two words of the heap. -/
structure Spread (c : HeapConfig) (S : Nat → Prop) : Prop where
  apart : ∀ x y, S x → S y → x ≠ y → x + 4 * c.word ≤ y ∨ y + 4 * c.word ≤ x
  below : ∀ x, S x → x + 4 * c.word ≤ c.top

/-- The words of a memory at some bases, and the flag of the last chunk. -/
structure View (c : HeapConfig) (S : Nat → Prop) (m : Memory) (v : Cells) : Prop where
  word : ∀ f x, S x → cells c m f x = v f x
  final : cells c m .size c.top = v .size c.top

theorem View.refl (c : HeapConfig) (S : Nat → Prop) (m : Memory) : View c S m (cells c m) :=
  ⟨fun _ _ _ => rfl, rfl⟩

def Cells.set (v : Cells) (f : Field) (x val : Nat) : Cells := fun g y =>
  if g = f ∧ y = x then val else v g y

@[simp] theorem Cells.set_field (v : Cells) (f : Field) (x val : Nat) :
    v.set f x val f = Function.update (v f) x val := by
  funext y
  simp [Cells.set, Function.update_apply]

@[simp] theorem Cells.set_of_ne (v : Cells) {f g : Field} (h : g ≠ f) (x val : Nat) :
    v.set f x val g = v g := by
  funext y
  simp [Cells.set, h]

variable {S : Nat → Prop} {m : Memory} {val n : Nat} {f g : Field}

theorem Field.index_lt (f : Field) : f.index < 4 := by cases f <;> decide

theorem Field.index_inj (h : f.index = g.index) : f = g := by
  cases f <;> cases g <;> first | rfl | cases h

/-- Two fields are in different words. -/
theorem words_apart (hS : Spread c S) (hx : S x) (hy : S y) (hne : ¬ (g = f ∧ y = x)) :
    y + g.index * c.word + c.word ≤ x + f.index * c.word ∨
      x + f.index * c.word + c.word ≤ y + g.index * c.word := by
  have hf := Nat.mul_le_mul_right c.word (Nat.succ_le_of_lt f.index_lt)
  have hg := Nat.mul_le_mul_right c.word (Nat.succ_le_of_lt g.index_lt)
  rw [Nat.succ_mul] at hf hg
  by_cases hyx : y = x
  · have hfg : g.index ≠ f.index := fun h => hne ⟨Field.index_inj h, hyx⟩
    rcases Nat.lt_or_gt_of_ne hfg with hlt | hlt
    · have := Nat.mul_le_mul_right c.word (Nat.succ_le_of_lt hlt)
      rw [Nat.succ_mul] at this
      omega
    · have := Nat.mul_le_mul_right c.word (Nat.succ_le_of_lt hlt)
      rw [Nat.succ_mul] at this
      omega
  · have := hS.apart x y hx hy (Ne.symm hyx)
    omega

theorem View.store (hS : Spread c S) (h : View c S m v) (hx : S x) (hval : val < 256 ^ c.word) :
    View c S (Words.store (f.bigEndian c) c.word m (x + f.index * c.word) val) (v.set f x val) := by
  have hbelow := hS.below x hx
  have hf := Nat.mul_le_mul_right c.word (Nat.succ_le_of_lt f.index_lt)
  rw [Nat.succ_mul] at hf
  refine ⟨fun g y hy => ?_, ?_⟩
  · rw [Cells.set]
    split
    · rename_i heq
      rw [heq.1, heq.2, cells, load_store_self, Nat.mod_eq_of_lt hval]
    · rename_i hne
      rw [← h.word g y hy, cells, cells]
      exact load_store_apart (words_apart hS hx hy hne)
  have htop : c.top ≠ x := by
    have := c.word_pos
    omega
  rw [Cells.set, if_neg fun heq => htop heq.2, ← h.final, cells, cells, Field.index]
  exact load_store_apart (by omega)

/-- The flag of the last chunk. -/
theorem View.storeFinal (hS : Spread c S) (h : View c S m v) (hval : val < 256 ^ c.word) :
    View c S (Words.store true c.word m (c.top + c.word) val) (v.set .size c.top val) := by
  refine ⟨fun g y hy => ?_, ?_⟩
  · have hbelow := hS.below y hy
    have hg := Nat.mul_le_mul_right c.word (Nat.succ_le_of_lt g.index_lt)
    rw [Nat.succ_mul] at hg
    have hne : y ≠ c.top := by
      have := c.word_pos
      omega
    rw [Cells.set, if_neg fun heq => hne heq.2, ← h.word g y hy, cells, cells]
    exact load_store_apart (by omega)
  rw [Cells.set, if_pos ⟨rfl, rfl⟩]
  have : cells c (Words.store true c.word m (c.top + c.word) val) .size c.top
      = load true c.word (Words.store true c.word m (c.top + c.word) val) (c.top + c.word) := by
    simp [cells, Field.index, Field.bigEndian]
  rw [this, load_store_self, Nat.mod_eq_of_lt hval]

end Layout

end Angr
