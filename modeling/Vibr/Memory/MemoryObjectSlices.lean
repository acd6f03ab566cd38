import Vibr.Memory.MemoryObject

/-!
# Slices of memory objects

`SimMemoryObject.bytes_at` and `bv_slice` of `angr/storage/memory_object.py`, also for objects
that are backed by bytes. A slice is right if its bytes, in the requested order, are the
range of the bytes that the object is stored as.
-/

namespace Angr

open Claripy

/-- What a memory object holds: a bitvector, or bytes below 256. -/
inductive Backing where
  | bv (value : Ast)
  | bytes (content : List Nat)

/-- A memory object. Bytes can only be stored big-endian, which the constructor checks. -/
structure SimMemoryObject where
  object : Backing
  base : Nat
  endness : Endness
  length : Nat
  bytes_endness : ∀ content, object = .bytes content → endness = .Iend_BE

inductive MemoryObjectError where
  | ValueError (message : String)
  | ClaripyOperationError
deriving DecidableEq, Repr

/-- `l[start:stop]` of Python, for any integers. -/
def pySlice {α : Type} (l : List α) (start stop : Int) : List α :=
  let clip (i : Int) : Nat := (if i < 0 then max 0 (l.length + i) else min i l.length).toNat
  (l.drop (clip start)).take (clip stop - clip start)

/-- `claripy.BVV` of bytes -/
def BVV.ofBytes (content : List Nat) : Ast := .BVV (Bytes.ofBytesBE content) (8 * content.length)

/-- `bv_slice` with a size that may be missing. -/
def bvSliceOpt (value : Ast) (offset : Int) (size : Option Nat) (rev : Bool) : Option Ast :=
  bvSlice value offset (size.getD (value.length / 8)) rev

namespace SimMemoryObject

/-- `bytes_at`: an expression, or the bytes themselves if they are allowed. -/
def bytesAt (mo : SimMemoryObject) (addr length : Nat) (allowConcrete : Bool) (endness : Endness) :
    Except MemoryObjectError (Ast ⊕ List Nat) :=
  let rev := endness ≠ mo.endness
  if allowConcrete ∧ rev then .error (.ValueError "allow_concrete must be used with the stored endness")
  else
    match mo.object with
    | .bytes content =>
      let o :=
        if addr = mo.base ∧ length = mo.length then content
        else
          let start : Int := addr - mo.base
          pySlice content start (start + length)
      .ok (if allowConcrete then .inr o else .inl (BVV.ofBytes o))
    | .bv value =>
      match (MemoryObject.mk value mo.base mo.endness mo.length).bytesAt addr length endness with
      | some thing => .ok (.inl thing)
      | none => .error .ClaripyOperationError

/-- The bytes in the order they are stored in. -/
def stored (mo : SimMemoryObject) (ρ : Assignment) : List Nat :=
  match mo.object with
  | .bv value => mo.endness.order (value.bytes ρ)
  | .bytes content => content

/-- The object has as many bytes as it says. -/
structure Sane (mo : SimMemoryObject) : Prop where
  endness : mo.endness.Known
  ofBytes : ∀ value, mo.object = .bv value → value.OfBytes mo.length
  content : ∀ content, mo.object = .bytes content → content.length = mo.length ∧ ∀ b ∈ content, b < 256

/-- The range of the stored bytes. -/
def range (mo : SimMemoryObject) (x l : Nat) (ρ : Assignment) : List Nat :=
  ((mo.stored ρ).drop (x - mo.base)).take l

/-- An answer is the range, read back in the byte order if it is an expression. -/
def Reads (mo : SimMemoryObject) (x l : Nat) (e : Endness) :
    Except MemoryObjectError (Ast ⊕ List Nat) → Prop
  | .ok (.inl v) => v.OfBytes l ∧ ∀ ρ, e.order (v.bytes ρ) = mo.range x l ρ
  | .ok (.inr content) => ∀ ρ, content = mo.range x l ρ
  | .error _ => False

end SimMemoryObject

/-! ## The slice helper -/

theorem pySlice_within {α : Type} {bs : List α} {o l : Nat} (h : o + l ≤ bs.length) :
    pySlice bs o (o + l) = (bs.drop o).take l := by
  have hclip : ∀ k : Nat, k ≤ bs.length →
      (if (k : Int) < 0 then max 0 ((bs.length : Int) + k) else min (k : Int) bs.length).toNat = k := by
    intro k hk
    rw [if_neg (by omega)]
    omega
  have hstop := hclip (o + l) h
  push_cast at hstop
  unfold pySlice
  dsimp only
  rw [hclip o (by omega), hstop, Nat.add_sub_cancel_left]

variable {content : List Nat}

theorem BVV.ofBytes_ofBytes (ρ : Assignment) (h : ∀ b ∈ content, b < 256) :
    (BVV.ofBytes content).OfBytes content.length ∧ (BVV.ofBytes content).bytes ρ = content := by
  refine ⟨Ast.ofBytes_BVV _ _, ?_⟩
  rw [BVV.ofBytes, Ast.bytes_BVV, Bytes.bytesBE_ofBytesBE h]

/-- No bytes at all. -/
theorem bvSlice_empty {value : Ast} {n o : Nat} (h : value.OfBytes n) (ho : o ≤ n) (rev : Bool) :
    ∃ v, bvSlice value o 0 rev = some v ∧ v.OfBytes 0 := by
  have hvsize : value.length / 8 = n := by rw [h.length, Nat.mul_div_cancel_left _ (by decide)]
  unfold bvSlice
  rw [hvsize]
  dsimp only
  rw [if_neg (show ¬ (o : Int) < 0 by omega), if_neg (show ¬ (o : Int) + ((0 : Nat) : Int) > n by omega)]
  generalize (if rev then (n : Int) - (o + ((0 : Nat) : Int)) else o) = start
  split
  · rename_i hall
    have hn : n = 0 := by
      omega
    exact ⟨value, rfl, hn ▸ h⟩
  · rw [if_pos (by rfl)]
    exact ⟨_, rfl, Ast.ofBytes_BVV 0 0⟩

/-- Where a slice starts: an offset from the first stored byte, or from the end. -/
def sliceStart (n : Nat) (offset : Int) : Nat := (if offset < 0 then n + offset else offset).toNat

/-- How many bytes a slice has. -/
def sliceSize (n : Nat) (offset : Int) (size : Option Nat) : Nat :=
  min (size.getD n) (n - sliceStart n offset)

/-- `bv_slice` serialises, slices and reads back in one byte order. -/
theorem bvSliceOpt_spec {value : Ast} {n : Nat} (h : value.OfBytes n) {offset : Int}
    (hlow : -n ≤ offset) (hhigh : offset ≤ n) (size : Option Nat) (e : Endness) :
    ∃ v, bvSliceOpt value offset size (e = .Iend_LE) = some v ∧ v.OfBytes (sliceSize n offset size) ∧
      ∀ ρ, e.order (v.bytes ρ) =
        ((e.order (value.bytes ρ)).drop (sliceStart n offset)).take (sliceSize n offset size) := by
  have hvsize : value.length / 8 = n := by rw [h.length, Nat.mul_div_cancel_left _ (by decide)]
  have hstart : sliceStart n offset ≤ n := by
    unfold sliceStart
    split <;> omega
  have hsize : sliceStart n offset + sliceSize n offset size ≤ n := by
    unfold sliceSize
    omega
  -- The same slice, with its bounds clipped.
  have hclip : bvSliceOpt value offset size (e = .Iend_LE) =
      bvSlice value (sliceStart n offset) (sliceSize n offset size) (e = .Iend_LE) := by
    have hoffset : (if offset < 0 then (n : Int) + offset else offset) = (sliceStart n offset : Int) := by
      unfold sliceStart
      split <;> omega
    have hlen : (if (sliceStart n offset : Int) + (size.getD n : Nat) > n then
        (n : Int) - sliceStart n offset else (size.getD n : Nat)) = (sliceSize n offset size : Int) := by
      unfold sliceSize
      split <;> omega
    unfold bvSliceOpt bvSlice
    rw [hvsize]
    dsimp only
    rw [hoffset, hlen, if_neg (show ¬ (sliceStart n offset : Int) < 0 by omega),
      if_neg (show ¬ (sliceStart n offset : Int) + (sliceSize n offset size : Nat) > n by omega)]
  rw [hclip]
  rcases Nat.eq_zero_or_pos (sliceSize n offset size) with hzero | hpos
  · rw [hzero]
    obtain ⟨v, hv, hof⟩ := bvSlice_empty h hstart (e = .Iend_LE)
    refine ⟨v, hv, hof, fun ρ => ?_⟩
    rw [List.take_zero, ← List.length_eq_zero_iff, Endness.length_order, hof.length_bytes]
  obtain ⟨v, hv, hof, hbytes⟩ := bvSlice_spec h hpos hsize (e = .Iend_LE)
  refine ⟨v, hv, hof, fun ρ => ?_⟩
  have hlen : (value.bytes ρ).length = n := h.length_bytes
  have horder := MemoryObject.order_take_drop (value.bytes ρ) e (by rw [hlen]; exact hsize)
  rw [hlen] at horder
  rw [hbytes ρ, horder]

namespace SimMemoryObject

variable {mo : SimMemoryObject} {x l : Nat} {e : Endness}

/-! ## Slices of memory objects -/

/-- The requested byte order is big-endian, or the object is a bitvector, or the range
reads the same in both directions. -/
def InOrder (mo : SimMemoryObject) (x l : Nat) (e : Endness) : Prop :=
  ∀ content, mo.object = .bytes content →
    e = .Iend_BE ∨ ((content.drop (x - mo.base)).take l).reverse = (content.drop (x - mo.base)).take l

/-- A bitvector is sliced in any byte order. -/
theorem bytesAt_bv {value : Ast} (h : mo.Sane) (hobject : mo.object = .bv value) (hx : mo.base ≤ x)
    (hle : x + l ≤ mo.base + mo.length) (he : e.Known) : mo.Reads x l e (mo.bytesAt x l false e) := by
  have hof := h.ofBytes value hobject
  have hstored : ∀ ρ, mo.stored ρ = mo.endness.order (value.bytes ρ) := by
    intro ρ
    rw [stored, hobject]
  have hoffset : (x : Int) - mo.base = (x - mo.base : Nat) := by omega
  have hlow : -(mo.length : Int) ≤ (x - mo.base : Nat) := by omega
  have hhigh : ((x - mo.base : Nat) : Int) ≤ mo.length := by omega
  obtain ⟨v, hv, hvof, hbytes⟩ := bvSliceOpt_spec hof hlow hhigh (some l) mo.endness
  have hstart : sliceStart mo.length (x - mo.base : Nat) = x - mo.base := by
    unfold sliceStart
    rw [if_neg (by omega), Int.toNat_natCast]
  have hsize : sliceSize mo.length (x - mo.base : Nat) (some l) = l := by
    rw [sliceSize, hstart, Option.getD_some]
    omega
  rw [hsize] at hvof
  have hslice : bvSlice value ((x : Int) - mo.base) l (mo.endness = .Iend_LE) = some v := by
    rw [hoffset]
    exact hv
  have hown : ∀ ρ, mo.endness.order (v.bytes ρ) = mo.range x l ρ := by
    intro ρ
    rw [hbytes ρ, hstart, hsize, range, hstored ρ]
  unfold bytesAt
  simp only [Bool.false_eq_true, false_and, if_false, hobject, MemoryObject.bytesAt, hslice, Option.map_some]
  by_cases hsame : mo.endness = e
  · rw [if_neg (by simpa using hsame)]
    exact ⟨hvof, fun ρ => hsame ▸ hown ρ⟩
  rw [if_pos (by simpa using hsame)]
  refine ⟨(hvof.reversed (ρ := ⟨fun _ => 0, fun _ => false⟩)).1, fun ρ => ?_⟩
  rw [hvof.reversed.2, Endness.order_reverse h.endness he hsame]
  exact hown ρ

/-- Bytes are sliced as they are stored, in whatever byte order they are asked for. -/
theorem bytesAt_bytes (h : mo.Sane) (hobject : mo.object = .bytes content) (hx : mo.base ≤ x)
    (hle : x + l ≤ mo.base + mo.length) (allowConcrete : Bool) (hallow : allowConcrete = true → e = mo.endness) :
    mo.bytesAt x l allowConcrete e =
      let o := (content.drop (x - mo.base)).take l
      .ok (if allowConcrete then .inr o else .inl (BVV.ofBytes o)) := by
  have hlen := (h.content content hobject).1
  have hoffset : (x : Int) - mo.base = (x - mo.base : Nat) := by omega
  have hwithin : x - mo.base + l ≤ content.length := by omega
  have hslice : (if x = mo.base ∧ l = mo.length then content
      else pySlice content ((x : Int) - mo.base) ((x : Int) - mo.base + l)) =
      (content.drop (x - mo.base)).take l := by
    split
    · rename_i hall
      obtain ⟨rfl, rfl⟩ := hall
      rw [Nat.sub_self, List.drop_zero, List.take_of_length_le (by omega)]
    · rw [hoffset, pySlice_within hwithin]
  have hpass : ¬ (allowConcrete = true ∧ e ≠ mo.endness) := fun h => h.2 (hallow h.1)
  unfold bytesAt
  dsimp only
  rw [if_neg hpass, hobject]
  dsimp only
  rw [hslice]

theorem range_bytes (hobject : mo.object = .bytes content) (ρ : Assignment) :
    mo.range x l ρ = (content.drop (x - mo.base)).take l := by
  rw [range, stored, hobject]

/-- In the stored byte order the bytes may be returned as such. -/
theorem bytesAt_concrete (h : mo.Sane) (hx : mo.base ≤ x) (hle : x + l ≤ mo.base + mo.length) :
    mo.Reads x l mo.endness (mo.bytesAt x l true mo.endness) := by
  match hobject : mo.object with
  | .bv value =>
    have hsame : mo.bytesAt x l true mo.endness = mo.bytesAt x l false mo.endness := by
      simp [bytesAt, hobject]
    rw [hsame]
    exact bytesAt_bv h hobject hx hle h.endness
  | .bytes content =>
    rw [bytesAt_bytes h hobject hx hle true fun _ => rfl]
    exact fun ρ => (range_bytes hobject ρ).symm

/-- Bytes come in the requested order if it is the stored one, or makes no difference. -/
theorem reads_bytes_iff (h : mo.Sane) (hobject : mo.object = .bytes content) (hx : mo.base ≤ x)
    (hle : x + l ≤ mo.base + mo.length) (he : e.Known) :
    mo.Reads x l e (mo.bytesAt x l false e) ↔ e = .Iend_BE ∨
      ((content.drop (x - mo.base)).take l).reverse = (content.drop (x - mo.base)).take l := by
  obtain ⟨hlen, hbyte⟩ := h.content content hobject
  have hrange := fun ρ => range_bytes (x := x) (l := l) hobject ρ
  have hl : ((content.drop (x - mo.base)).take l).length = l := by
    rw [List.length_take, List.length_drop]
    omega
  have hsmall : ∀ b ∈ (content.drop (x - mo.base)).take l, b < 256 :=
    fun b hb => hbyte b (List.mem_of_mem_drop (List.mem_of_mem_take hb))
  rw [bytesAt_bytes h hobject hx hle false (by simp)]
  simp only [Bool.false_eq_true, if_false, Reads, hrange]
  generalize (content.drop (x - mo.base)).take l = o at hl hsmall ⊢
  have hof := (BVV.ofBytes_ofBytes ⟨fun _ => 0, fun _ => false⟩ hsmall).1
  have hbytes := fun ρ => (BVV.ofBytes_ofBytes ρ hsmall).2
  rw [hl] at hof
  simp only [hof, true_and, hbytes]
  cases e with
  | Iend_LE => exact ⟨fun horder => .inr (horder ⟨fun _ => 0, fun _ => false⟩), fun hor _ => by
    simpa [Endness.order] using hor⟩
  | Iend_BE => simp [Endness.order]
  | unset => exact absurd rfl he

/-- Four bytes at address `16`. -/
def fourBytes : SimMemoryObject := ⟨.bytes [1, 2, 2, 3], 16, .Iend_BE, 4, fun _ _ => rfl⟩

theorem fourBytes_sane : fourBytes.Sane where
  endness := by decide
  ofBytes := by
    intro value hobject
    cases hobject
  content := by
    intro content hobject
    cases hobject
    decide

end SimMemoryObject
end Angr
