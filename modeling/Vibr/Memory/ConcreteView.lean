import Vibr.Claripy.Bytes

/-!
# Concrete views of loaded values

`_load_to_memoryview` of `angr/storage/memory_mixins/paged_memory/paged_memory_mixin.py`. The
elements of a concatenation need not end where bytes end: the bits that an element has of
bytes it shares are chopped off, and the shared bytes are marked in the bitmap. Bytes have
eight bits.
-/

namespace Angr

open Claripy

namespace MemoryView

/-- The value of a constant, which is the first argument of its node. -/
def constant : Ast → Option Nat
  | .node (.BVV v w) _ _ => some (v % 2 ^ w)
  | _ => none

/-- `Extract` of a constant, with its length. -/
def foldExtract (left right : Nat) (c : Nat × Nat) : Nat × Nat :=
  (c.1 / 2 ^ right % 2 ^ (left + 1 - right), left + 1 - right)

/-- `chopped[len(chopped) - 1 - hi_chop : 0]`, then `chopped[:lo_chop]` -/
def chop (hiChop loChop : Nat) (element : Nat × Nat) : Nat × Nat :=
  let chopped := if hiChop ≠ 0 then foldExtract (element.2 - 1 - hiChop) 0 element else element
  if loChop ≠ 0 then foldExtract (chopped.2 - 1) loChop chopped else chopped

def markSymbolic (bitmapOut : List Nat) (i : Nat) : List Nat :=
  bitmapOut.modify (i / 8) (· ||| 1 <<< (i % 8))

/-- `l[start:stop] = data` -/
def setSlice (l : List Nat) (start stop : Nat) (data : List Nat) : List Nat :=
  l.take start ++ data ++ l.drop (max start stop)

structure View where
  bytesOut : List Nat
  bitmapOut : List Nat
  bitIdx : Nat := 0

/-- The body of the loop over the elements; `error` is a return with the bytes so far. -/
def viewElement (withBitmap : Bool) (view : View) (element : Ast) : Except (List Nat) View :=
  let byteIdx := view.bitIdx / 8
  let byteSize := element.length / 8
  let bitIdx := view.bitIdx + element.length
  -- The byte is shared, and the element does not reach the next one.
  let passed : Except (List Nat) View :=
    if !withBitmap then .error (view.bytesOut.take byteIdx)
    else .ok { view with bitmapOut := markSymbolic view.bitmapOut byteIdx, bitIdx }
  if element.length + view.bitIdx < (byteIdx + 1) * 8 then passed
  else
    let hiChop := if view.bitIdx % 8 ≠ 0 then 8 - view.bitIdx % 8 else 0
    let loChop := if bitIdx % 8 ≠ 0 then bitIdx % 8 else 0
    if hiChop + loChop = element.length then passed
    else
      let bitmapOut := if hiChop ≠ 0 then markSymbolic view.bitmapOut byteIdx else view.bitmapOut
      let byteIdx := if hiChop ≠ 0 then byteIdx + 1 else byteIdx
      match constant element with
      | some value =>
        let chopped := chop hiChop loChop (value, element.length)
        let bytesOut :=
          if 0 < chopped.2 then
            setSlice view.bytesOut byteIdx (byteIdx + byteSize) (Bytes.bytesBE byteSize chopped.1)
          else view.bytesOut
        if bitIdx % 8 ≠ 0 then
          if !withBitmap then .error (bytesOut.take (bitIdx / 8))
          else .ok { bytesOut, bitmapOut := markSymbolic bitmapOut (bitIdx / 8), bitIdx }
        else .ok { bytesOut, bitmapOut, bitIdx }
      | none =>
        if !withBitmap then .error (view.bytesOut.take byteIdx)
        else
          let bitmapOut := (List.range' byteIdx byteSize).foldl markSymbolic bitmapOut
          let bitmapOut := if bitIdx % 8 ≠ 0 then markSymbolic bitmapOut (bitIdx / 8) else bitmapOut
          .ok { view with bitmapOut, bitIdx }

/-- `_load_to_memoryview`: the bytes, and the bitmap if it is asked for. -/
def loadToMemoryview (load : (addr size : Nat) → Ast) (addr size : Nat) (withBitmap : Bool) :
    List Nat × Option (List Nat) :=
  let bitmapSize := (size + 7) / 8
  match load addr size with
  | .node (.BVV v w) _ _ =>
    (Bytes.bytesBE size (v % 2 ^ w), if withBitmap then some (List.replicate bitmapSize 0) else none)
  | .node .Concat args _ =>
    match args.foldlM (viewElement withBitmap) ⟨List.replicate size 0, List.replicate bitmapSize 0, 0⟩ with
    | .error bytesOut => (bytesOut, none)
    | .ok view => (view.bytesOut, if withBitmap then some view.bitmapOut else none)
  | _ =>
    if withBitmap then
      let bitmapOut := List.replicate bitmapSize 255
      let bitmapOut := if size % 8 ≠ 0 then bitmapOut.set (bitmapSize - 1) (2 ^ (size % 8) - 1) else bitmapOut
      (List.replicate size 0, some bitmapOut)
    else ([], none)

/-! ## What the view should be -/

/-- The parts that a value is made of. -/
def elements : Ast → List Ast
  | .node .Concat args _ => args
  | value => [value]

/-- All bits of a byte lie between two positions. -/
def Within (start stop i : Nat) : Prop := start ≤ 8 * i ∧ 8 * (i + 1) ≤ stop

instance (start stop i : Nat) : Decidable (Within start stop i) := inferInstanceAs (Decidable (_ ∧ _))

/-- The byte of an element that ends at bit `stop`. -/
def byteAt (value stop i : Nat) : Nat := value / 2 ^ (stop - 8 * (i + 1)) % 256

/-- The value of byte `i` of some elements, the first of which starts at bit `start`, if all
its bits come from one constant. -/
def constantByte : (start : Nat) → List Ast → (i : Nat) → Option Nat
  | _, [], _ => none
  | start, e :: es, i =>
    if Within start (start + e.length) i then
      (constant e).map fun value => byteAt value (start + e.length) i
    else constantByte (start + e.length) es i

def marked (bitmap : List Nat) (i : Nat) : Bool := (bitmap.getD (i / 8) 0).testBit (i % 8)

/-- The bitmap marks the bytes that do not come from one constant, and the others are right. -/
structure ExactView (es : List Ast) (size : Nat) (view : List Nat × Option (List Nat)) : Prop where
  length : view.1.length = size
  bitmap : ∃ bitmap, view.2 = some bitmap ∧
    ∀ i < size, marked bitmap i = false ↔ (constantByte 0 es i).isSome
  value : ∀ i < size, ∀ v, constantByte 0 es i = some v → view.1.getD i 0 = v

/-- The longest prefix of bytes that come from one constant each. -/
structure ExactPrefix (es : List Ast) (size : Nat) (bytes : List Nat) : Prop where
  le : bytes.length ≤ size
  value : ∀ i < bytes.length, constantByte 0 es i = some (bytes.getD i 0)
  longest : bytes.length = size ∨ constantByte 0 es bytes.length = none

/-- How many bits of shared bytes an element has at its front and at its back. -/
def frontBits (start : Nat) : Nat := (8 - start % 8) % 8

def backBits (stop : Nat) : Nat := stop % 8

/-- What is chopped off a constant is less than a byte, or all of its own bytes are zero. -/
def Fits : (start : Nat) → List Ast → Prop
  | _, [] => True
  | start, e :: es =>
    (∀ value, constant e = some value → frontBits start + backBits (start + e.length) < 8 ∨
      ∀ i, Within start (start + e.length) i → byteAt value (start + e.length) i = 0) ∧
    Fits (start + e.length) es

/-! ## Bytes and bitmaps -/

variable {bitmap : List Nat}

@[simp] theorem length_markSymbolic (bitmap : List Nat) (i : Nat) :
    (markSymbolic bitmap i).length = bitmap.length := by simp [markSymbolic]

theorem marked_markSymbolic {i : Nat} (h : i / 8 < bitmap.length) (j : Nat) :
    marked (markSymbolic bitmap i) j = (decide (i = j) || marked bitmap j) := by
  unfold marked markSymbolic
  simp only [List.getD_eq_getElem?_getD, List.getElem?_modify]
  by_cases hdiv : i / 8 = j / 8
  · have hj : j / 8 < bitmap.length := by omega
    simp only [if_pos hdiv, List.getElem?_eq_getElem hj, Option.map_eq_map, Option.map_some, Option.getD_some,
      Nat.testBit_or, Nat.one_shiftLeft, Nat.testBit_two_pow]
    rw [Bool.or_comm]
    congr 1
    rw [decide_eq_decide]
    omega
  · rw [decide_eq_false (by rintro rfl; exact hdiv rfl), Bool.false_or]
    simp [hdiv]

theorem length_foldl_markSymbolic (bitmap : List Nat) (is : List Nat) :
    (is.foldl markSymbolic bitmap).length = bitmap.length := by
  induction is generalizing bitmap with
  | nil => rfl
  | cons i is ih => rw [List.foldl_cons, ih, length_markSymbolic]

theorem marked_foldl_markSymbolic {is : List Nat} (h : ∀ i ∈ is, i / 8 < bitmap.length) (j : Nat) :
    marked (is.foldl markSymbolic bitmap) j = (decide (j ∈ is) || marked bitmap j) := by
  induction is generalizing bitmap with
  | nil => simp
  | cons i is ih =>
    rw [List.foldl_cons, ih fun k hk => by
      rw [length_markSymbolic]
      exact h k (List.mem_cons_of_mem _ hk)]
    rw [marked_markSymbolic (h i List.mem_cons_self)]
    simp only [List.mem_cons, eq_comm (a := i), Bool.decide_or]
    rw [← Bool.or_assoc, Bool.or_comm (decide (j ∈ is))]

theorem length_setSlice {l data : List Nat} {start n : Nat} (h : start + n ≤ l.length) (hdata : data.length = n) :
    (setSlice l start (start + n) data).length = l.length := by
  unfold setSlice
  simp only [List.length_append, List.length_take, List.length_drop]
  omega

theorem getD_setSlice {l data : List Nat} {start n : Nat} (h : start + n ≤ l.length) (hdata : data.length = n)
    (i : Nat) : (setSlice l start (start + n) data).getD i 0 =
      if start ≤ i ∧ i < start + n then data.getD (i - start) 0 else l.getD i 0 := by
  unfold setSlice
  have htake : (l.take start).length = start := by
    rw [List.length_take]
    omega
  simp only [List.getD_eq_getElem?_getD, List.append_assoc]
  rcases Nat.lt_or_ge i start with hlt | hge
  · rw [if_neg (by omega), List.getElem?_append_left (by omega), List.getElem?_take_of_lt hlt]
  rw [List.getElem?_append_right (by omega), htake]
  rcases Nat.lt_or_ge i (start + n) with hin | hout
  · rw [if_pos ⟨hge, hin⟩, List.getElem?_append_left (by omega)]
  · rw [if_neg (by omega), List.getElem?_append_right (by omega), List.getElem?_drop]
    congr 2
    omega

variable {e : Ast}

theorem constant_lt {v : Nat} (h : constant e = some v) : v < 2 ^ e.length := by
  unfold constant at h
  split at h
  · cases h
    exact Nat.mod_lt _ (Nat.two_pow_pos _)
  · cases h

/-- What is left of a constant. -/
theorem chop_eq {v len hi lo : Nat} (hv : v < 2 ^ len) (hlt : hi + lo < len) :
    chop hi lo (v, len) = (v % 2 ^ (len - hi) / 2 ^ lo, len - hi - lo) := by
  have hfront : (if hi ≠ 0 then foldExtract (len - 1 - hi) 0 (v, len) else (v, len)) =
      (v % 2 ^ (len - hi), len - hi) := by
    split
    · rw [foldExtract, pow_zero, Nat.div_one, Nat.sub_zero, show len - 1 - hi + 1 = len - hi by omega]
    · obtain rfl : hi = 0 := by omega
      rw [Nat.sub_zero, Nat.mod_eq_of_lt hv]
  have hback : (if lo ≠ 0 then foldExtract (len - hi - 1) lo (v % 2 ^ (len - hi), len - hi)
      else (v % 2 ^ (len - hi), len - hi)) = (v % 2 ^ (len - hi) / 2 ^ lo, len - hi - lo) := by
    split
    · rw [foldExtract, show len - hi - 1 + 1 - lo = len - hi - lo by omega, Nat.mod_eq_of_lt]
      rw [Nat.div_lt_iff_lt_mul (Nat.two_pow_pos _), ← pow_add, show len - hi - lo + lo = len - hi by omega]
      exact Nat.mod_lt _ (Nat.two_pow_pos _)
    · obtain rfl : lo = 0 := by omega
      rw [pow_zero, Nat.div_one, Nat.sub_zero]
  unfold chop
  dsimp only
  rw [hfront]
  exact hback

/-- A byte of what is left of a constant is a byte of the constant. -/
theorem chopped_byte {v len hi lo m : Nat} (h : hi + lo + 8 * (m + 1) ≤ len) :
    v % 2 ^ (len - hi) / 2 ^ lo / 256 ^ m % 256 = v / 2 ^ (lo + 8 * m) % 256 := by
  have hpow : (256 : Nat) ^ m = 2 ^ (8 * m) := by rw [pow_mul]; rfl
  obtain ⟨r, hr⟩ := Nat.exists_eq_add_of_le (show lo + 8 * m + 8 ≤ len - hi by omega)
  rw [Nat.div_div_eq_div_mul, hpow, ← pow_add, hr, Nat.add_assoc (lo + 8 * m), pow_add 2 (lo + 8 * m),
    Nat.mod_mul_right_div_self, pow_add 2 8 r]
  exact Nat.mod_mul_right_mod _ (2 ^ 8) (2 ^ r)

theorem chopped_byte_zero {v len hi lo m : Nat} (h : len ≤ hi + lo + 8 * m) :
    v % 2 ^ (len - hi) / 2 ^ lo / 256 ^ m = 0 := by
  have hpow : (256 : Nat) ^ m = 2 ^ (8 * m) := by rw [pow_mul]; rfl
  rw [Nat.div_div_eq_div_mul, hpow, ← pow_add]
  refine Nat.div_eq_of_lt ((Nat.mod_lt _ (Nat.two_pow_pos _)).trans_le ?_)
  exact Nat.pow_le_pow_right (by decide) (by omega)

/-! ## One element -/

/-- What an element does to a view with a bitmap. -/
structure Viewed (e : Ast) (view view' : View) : Prop where
  bitIdx : view'.bitIdx = view.bitIdx + e.length
  length : view'.bytesOut.length = view.bytesOut.length
  length_bitmap : view'.bitmapOut.length = view.bitmapOut.length
  before : ∀ i, 8 * (i + 1) ≤ view.bitIdx → view'.bytesOut.getD i 0 = view.bytesOut.getD i 0
  keeps : ∀ i, marked view.bitmapOut i = true → marked view'.bitmapOut i = true
  marks : ∀ i, marked view'.bitmapOut i = true → marked view.bitmapOut i = true ∨
    (8 * i < view'.bitIdx ∧ view.bitIdx < 8 * (i + 1) ∧
      (Within view.bitIdx view'.bitIdx i → constant e = none))
  /-- A byte that the element shares with the one before is marked. -/
  front : view.bitIdx % 8 ≠ 0 → marked view'.bitmapOut (view.bitIdx / 8) = true
  symbolic : constant e = none → ∀ i, Within view.bitIdx view'.bitIdx i → marked view'.bitmapOut i = true
  /-- The bytes of a constant, which are one too far if a byte has been chopped off. -/
  value : ∀ v, constant e = some v → ∀ i, Within view.bitIdx view'.bitIdx i → view'.bytesOut.getD i 0 =
    if frontBits view.bitIdx + backBits view'.bitIdx < 8 then byteAt v view'.bitIdx i
    else if i = (view.bitIdx + frontBits view.bitIdx) / 8 then 0 else byteAt v view'.bitIdx (i - 1)

/-- An element without a byte of its own. -/
theorem viewed_passed {view : View} (hpos : 0 < e.length)
    (hnone : ∀ i, ¬ Within view.bitIdx (view.bitIdx + e.length) i)
    (hbitmap : view.bitIdx / 8 / 8 < view.bitmapOut.length) :
    Viewed e view { view with
      bitmapOut := markSymbolic view.bitmapOut (view.bitIdx / 8), bitIdx := view.bitIdx + e.length } where
  bitIdx := rfl
  length := rfl
  length_bitmap := length_markSymbolic _ _
  before _ _ := rfl
  keeps i h := by rw [marked_markSymbolic hbitmap, h, Bool.or_true]
  marks i h := by
    rw [marked_markSymbolic hbitmap, Bool.or_eq_true, decide_eq_true_eq] at h
    rcases h with rfl | h
    · exact .inr ⟨by dsimp only; omega, by omega, fun hin => absurd hin (hnone _)⟩
    · exact .inl h
  front _ := by rw [marked_markSymbolic hbitmap, decide_eq_true rfl, Bool.true_or]
  symbolic _ i h := absurd h (hnone i)
  value _ _ i h := absurd h (hnone i)

/-- The bits chopped off, as the code counts them. -/
theorem hiChop_eq (s : Nat) : (if s % 8 ≠ 0 then 8 - s % 8 else 0) = frontBits s := by
  unfold frontBits
  split <;> omega

theorem loChop_eq (t : Nat) : (if t % 8 ≠ 0 then t % 8 else 0) = backBits t := by
  unfold backBits
  split <;> omega

theorem marked_ite {c : Prop} [Decidable c] {i : Nat} (h : c → i / 8 < bitmap.length) (j : Nat) :
    marked (if c then markSymbolic bitmap i else bitmap) j = true ↔
      (c ∧ i = j) ∨ marked bitmap j = true := by
  split
  · rename_i hc
    rw [marked_markSymbolic (h hc), Bool.or_eq_true, decide_eq_true_eq]
    simp [hc]
  · rename_i hc
    simp [hc]

theorem length_ite_markSymbolic (bitmap : List Nat) (c : Prop) [Decidable c] (i : Nat) :
    (if c then markSymbolic bitmap i else bitmap).length = bitmap.length := by
  split <;> simp

/-- Where the bytes of an element lie that has some of its own. -/
theorem exists_parts {s len : Nat} (hshort : ¬ len + s < (s / 8 + 1) * 8)
    (hall : frontBits s + backBits (s + len) ≠ len) :
    ∃ b w, 8 * b = s + frontBits s ∧ (if frontBits s ≠ 0 then s / 8 + 1 else s / 8) = b ∧ 0 < w ∧
      len = frontBits s + 8 * w + backBits (s + len) ∧ frontBits s < 8 ∧ backBits (s + len) < 8 := by
  refine ⟨(s + frontBits s) / 8, (len - frontBits s - backBits (s + len)) / 8, ?_, ?_, ?_, ?_, ?_, ?_⟩
  all_goals unfold frontBits backBits at *
  · omega
  · split <;> omega
  · omega
  · omega
  · omega
  · omega

/-- What is written for a constant. -/
theorem getD_chopped {v s len b w i : Nat} (hb : 8 * b = s + frontBits s)
    (hlen : len = frontBits s + 8 * w + backBits (s + len)) (hhi : frontBits s < 8)
    (hlo : backBits (s + len) < 8) (hi : Within s (s + len) i) :
    (Bytes.bytesBE (len / 8) (v % 2 ^ (len - frontBits s) / 2 ^ backBits (s + len))).getD (i - b) 0 =
      if frontBits s + backBits (s + len) < 8 then byteAt v (s + len) i
      else if i = b then 0 else byteAt v (s + len) (i - 1) := by
  obtain ⟨hlow, hhigh⟩ := hi
  have hib : b ≤ i ∧ i < b + w := by omega
  unfold byteAt
  by_cases hfit : frontBits s + backBits (s + len) < 8
  · rw [if_pos hfit, show len / 8 = w by omega, Bytes.getD_bytesBE (by omega), chopped_byte (by omega)]
    congr 3
    omega
  rw [if_neg hfit, show len / 8 = w + 1 by omega, Bytes.getD_bytesBE (by omega)]
  by_cases hfirst : i = b
  · rw [if_pos hfirst, chopped_byte_zero (by omega)]
  · rw [if_neg hfirst, chopped_byte (by omega)]
    congr 3
    omega

/-- The body of the loop, with a bitmap. -/
theorem viewElement_viewed {view : View} (hpos : 0 < e.length)
    (hbytes : view.bitIdx + e.length ≤ 8 * view.bytesOut.length)
    (hbitmap : view.bytesOut.length ≤ 8 * view.bitmapOut.length) :
    ∃ view', viewElement true view e = .ok view' ∧ Viewed e view view' := by
  unfold viewElement
  simp only [hiChop_eq, loChop_eq, Bool.not_true, Bool.false_eq_true, if_false]
  by_cases hshort : e.length + view.bitIdx < (view.bitIdx / 8 + 1) * 8
  · rw [if_pos hshort]
    refine ⟨_, rfl, viewed_passed hpos (fun i hi => ?_) (by omega)⟩
    obtain ⟨hlow, hhigh⟩ := hi
    omega
  rw [if_neg hshort]
  by_cases hall : frontBits view.bitIdx + backBits (view.bitIdx + e.length) = e.length
  · rw [if_pos hall]
    refine ⟨_, rfl, viewed_passed hpos (fun i hi => ?_) (by omega)⟩
    obtain ⟨hlow, hhigh⟩ := hi
    unfold frontBits backBits at hall
    omega
  rw [if_neg hall]
  obtain ⟨b, w, hb, hbyteIdx, hw, hlen, hhi, hlo⟩ := exists_parts hshort hall
  have hfrontBound : frontBits view.bitIdx ≠ 0 → view.bitIdx / 8 / 8 < view.bitmapOut.length := by omega
  have hfront : ∀ j, marked (if frontBits view.bitIdx ≠ 0 then markSymbolic view.bitmapOut (view.bitIdx / 8)
      else view.bitmapOut) j = true ↔ (frontBits view.bitIdx ≠ 0 ∧ view.bitIdx / 8 = j) ∨
        marked view.bitmapOut j = true := marked_ite hfrontBound
  have hlength := length_ite_markSymbolic view.bitmapOut (frontBits view.bitIdx ≠ 0) (view.bitIdx / 8)
  have hmisaligned : frontBits view.bitIdx ≠ 0 ↔ view.bitIdx % 8 ≠ 0 := by
    unfold frontBits
    omega
  rw [hbyteIdx]
  generalize (if frontBits view.bitIdx ≠ 0 then markSymbolic view.bitmapOut (view.bitIdx / 8)
    else view.bitmapOut) = bitmap at hfront hlength ⊢
  have hbackBound : (view.bitIdx + e.length) % 8 ≠ 0 →
      (view.bitIdx + e.length) / 8 / 8 < bitmap.length := by omega
  cases hconst : constant e with
  | some v =>
    have hchop := chop_eq (constant_lt hconst)
      (show frontBits view.bitIdx + backBits (view.bitIdx + e.length) < e.length by omega)
    dsimp only
    rw [hchop, if_pos (show 0 < e.length - frontBits view.bitIdx - backBits (view.bitIdx + e.length) by omega)]
    have hdata := Bytes.length_bytesBE (e.length / 8)
      (v % 2 ^ (e.length - frontBits view.bitIdx) / 2 ^ backBits (view.bitIdx + e.length))
    have hslice : b + e.length / 8 ≤ view.bytesOut.length := by omega
    have hback := marked_ite hbackBound
    have hlength' := length_ite_markSymbolic bitmap ((view.bitIdx + e.length) % 8 ≠ 0)
      ((view.bitIdx + e.length) / 8)
    refine ⟨⟨setSlice view.bytesOut b (b + e.length / 8) (Bytes.bytesBE (e.length / 8)
        (v % 2 ^ (e.length - frontBits view.bitIdx) / 2 ^ backBits (view.bitIdx + e.length))),
      if (view.bitIdx + e.length) % 8 ≠ 0 then markSymbolic bitmap ((view.bitIdx + e.length) / 8) else bitmap,
      view.bitIdx + e.length⟩, ?_, rfl, length_setSlice hslice hdata,
      hlength'.trans hlength, fun i hi => ?_, fun i hi => ?_, fun i hi => ?_, fun hs => ?_, ?_, ?_⟩
    · by_cases hc : (view.bitIdx + e.length) % 8 ≠ 0
      · rw [if_pos hc, if_pos hc]
      · rw [if_neg hc, if_neg hc]
    · dsimp only
      rw [getD_setSlice hslice hdata, if_neg (by omega)]
    · exact (hback i).mpr (.inr ((hfront i).mpr (.inr hi)))
    · rcases (hback i).mp hi with ⟨hc, rfl⟩ | hi
      · refine .inr ⟨by dsimp only; omega, by omega, fun hin => ?_⟩
        obtain ⟨-, hhigh⟩ := hin
        dsimp only at hhigh
        omega
      rcases (hfront i).mp hi with ⟨hc, rfl⟩ | hi
      · refine .inr ⟨by dsimp only; omega, by omega, fun hin => ?_⟩
        obtain ⟨hlow, -⟩ := hin
        omega
      · exact .inl hi
    · exact (hback _).mpr (.inr ((hfront _).mpr (.inl ⟨hmisaligned.mpr hs, rfl⟩)))
    · intro hnone
      cases hconst.symm.trans hnone
    · intro v' hv' i hi
      obtain rfl : v = v' := Option.some.inj (hconst.symm.trans hv')
      have hin := hi
      obtain ⟨hlow, hhigh⟩ := hi
      dsimp only at hhigh hin ⊢
      rw [getD_setSlice hslice hdata, if_pos (by omega), getD_chopped hb hlen hhi hlo hin,
        show (view.bitIdx + frontBits view.bitIdx) / 8 = b by omega]
  | none =>
    dsimp only
    have hrange : ∀ i ∈ List.range' b (e.length / 8), i / 8 < bitmap.length := by
      intro i hi
      have := List.mem_range'_1.mp hi
      omega
    have hfold := marked_foldl_markSymbolic hrange
    have hfoldLength := length_foldl_markSymbolic bitmap (List.range' b (e.length / 8))
    generalize (List.range' b (e.length / 8)).foldl markSymbolic bitmap = bitmap' at hfold hfoldLength ⊢
    have hback := marked_ite (show (view.bitIdx + e.length) % 8 ≠ 0 → (view.bitIdx + e.length) / 8 / 8 < bitmap'.length by
      rwa [hfoldLength])
    have hlength' := length_ite_markSymbolic bitmap' ((view.bitIdx + e.length) % 8 ≠ 0)
      ((view.bitIdx + e.length) / 8)
    have hmid : ∀ i, marked bitmap' i = true ↔ (b ≤ i ∧ i < b + e.length / 8) ∨ marked bitmap i = true := by
      intro i
      rw [hfold, Bool.or_eq_true, decide_eq_true_eq, List.mem_range'_1]
    refine ⟨_, rfl, rfl, rfl, hlength'.trans (hfoldLength.trans hlength), fun i hi => rfl, fun i hi => ?_,
      fun i hi => ?_, fun hs => ?_, fun _ i hi => ?_, fun v hv => ?_⟩
    · exact (hback i).mpr (.inr ((hmid i).mpr (.inr ((hfront i).mpr (.inr hi)))))
    · rcases (hback i).mp hi with ⟨hc, rfl⟩ | hi
      · exact .inr ⟨by dsimp only; omega, by omega, fun _ => hconst⟩
      rcases (hmid i).mp hi with ⟨hlow, hhigh⟩ | hi
      · exact .inr ⟨by dsimp only; omega, by omega, fun _ => hconst⟩
      · rcases (hfront i).mp hi with ⟨hc, rfl⟩ | hi
        · exact .inr ⟨by dsimp only; omega, by omega, fun _ => hconst⟩
        · exact .inl hi
    · exact (hback _).mpr (.inr ((hmid _).mpr (.inr ((hfront _).mpr (.inl ⟨hmisaligned.mpr hs, rfl⟩)))))
    · obtain ⟨hlow, hhigh⟩ := hi
      dsimp only at hhigh
      exact (hback i).mpr (.inr ((hmid i).mpr (.inl (by omega))))
    · cases hconst.symm.trans hv

/-! ## All elements -/

variable {es : List Ast}

/-- A byte that starts before the elements does not come from one of them. -/
theorem constantByte_eq_none {start i : Nat} (h : 8 * i < start) : constantByte start es i = none := by
  induction es generalizing start with
  | nil => rfl
  | cons e es ih =>
    have hout : ¬ Within start (start + e.length) i := fun hin => by
      have := hin.1
      omega
    rw [constantByte, if_neg hout, ih (by omega)]

theorem lt_of_constantByte {start i v : Nat} (h : constantByte start es i = some v) :
    8 * (i + 1) ≤ start + (es.map Ast.length).sum := by
  induction es generalizing start with
  | nil => cases h
  | cons e es ih =>
    rw [List.map_cons, List.sum_cons]
    rw [constantByte] at h
    split at h
    · rename_i hin
      have := hin.2
      omega
    · have := ih h
      omega

/-- Bytes that are one too far are right if all of them are zero. -/
theorem shifted_iff (v s t : Nat) :
    (∀ i, Within s t i → (if i = (s + frontBits s) / 8 then 0 else byteAt v t (i - 1)) = byteAt v t i) ↔
      ∀ i, Within s t i → byteAt v t i = 0 := by
  have hfirst : ∀ i, Within s t i → (s + frontBits s) / 8 ≤ i := by
    rintro i ⟨hlow, -⟩
    unfold frontBits
    omega
  have hprev : ∀ i, Within s t (i + 1) → i + 1 ≠ (s + frontBits s) / 8 → Within s t i := by
    rintro i ⟨hlow, hhigh⟩ hne
    unfold frontBits at hne
    exact ⟨by omega, by omega⟩
  constructor
  · intro h i
    induction i with
    | zero =>
      intro hin
      have hzero := h 0 hin
      rw [if_pos (by have := hfirst 0 hin; omega)] at hzero
      exact hzero.symm
    | succ i ih =>
      intro hin
      have hnext := h (i + 1) hin
      split at hnext
      · exact hnext.symm
      · rename_i hne
        rw [← hnext]
        exact ih (hprev i hin hne)
  · intro h i hin
    split
    · exact (h i hin).symm
    rename_i hne
    cases i with
    | zero => exact absurd (Nat.le_zero.mp (hfirst 0 hin)).symm hne
    | succ i =>
      rw [h (i + 1) hin]
      exact h i (hprev i hin hne)

/-- The bytes of one constant are right just if it fits. -/
theorem Viewed.right_iff {view view' : View} (h : Viewed e view view') :
    (∀ v, constant e = some v → ∀ i, Within view.bitIdx view'.bitIdx i →
        view'.bytesOut.getD i 0 = byteAt v view'.bitIdx i) ↔
      ∀ v, constant e = some v → frontBits view.bitIdx + backBits view'.bitIdx < 8 ∨
        ∀ i, Within view.bitIdx view'.bitIdx i → byteAt v view'.bitIdx i = 0 := by
  refine forall_congr' fun v => forall_congr' fun hv => ?_
  have hvalue := h.value v hv
  by_cases hfit : frontBits view.bitIdx + backBits view'.bitIdx < 8
  · simp only [if_pos hfit] at hvalue
    exact iff_of_true hvalue (.inl hfit)
  simp only [if_neg hfit] at hvalue
  rw [or_iff_right hfit, ← shifted_iff]
  refine forall_congr' fun i => forall_congr' fun hin => ?_
  rw [hvalue i hin]

/-- What the loop does to a view with a bitmap. -/
structure ViewedAll (es : List Ast) (view view' : View) : Prop where
  length : view'.bytesOut.length = view.bytesOut.length
  before : ∀ i, 8 * (i + 1) ≤ view.bitIdx → view'.bytesOut.getD i 0 = view.bytesOut.getD i 0 ∧
    marked view'.bitmapOut i = marked view.bitmapOut i
  keeps : ∀ i, marked view.bitmapOut i = true → marked view'.bitmapOut i = true
  front : view.bitIdx % 8 ≠ 0 → marked view'.bitmapOut (view.bitIdx / 8) = true
  marks : ∀ i < view.bytesOut.length, view.bitIdx ≤ 8 * i →
    (marked view'.bitmapOut i = true ↔ marked view.bitmapOut i = true ∨ constantByte view.bitIdx es i = none)
  right_iff : (∀ i, view.bitIdx ≤ 8 * i → ∀ v, constantByte view.bitIdx es i = some v →
    view'.bytesOut.getD i 0 = v) ↔ Fits view.bitIdx es

/-- The elements one by one. -/
theorem foldlM_viewed {view : View} (hpos : ∀ e ∈ es, 0 < e.length)
    (htotal : view.bitIdx + (es.map Ast.length).sum = 8 * view.bytesOut.length)
    (hbitmap : view.bytesOut.length ≤ 8 * view.bitmapOut.length) :
    ∃ view', es.foldlM (viewElement true) view = .ok view' ∧ ViewedAll es view view' := by
  induction es generalizing view with
  | nil =>
    rw [List.map_nil, List.sum_nil] at htotal
    refine ⟨view, rfl, rfl, fun i _ => ⟨rfl, rfl⟩, fun i h => h, fun h => by omega, fun i hi h => by omega, ?_⟩
    exact iff_of_true (fun i _ v hv => by cases hv) trivial
  | cons e es ih =>
    rw [List.map_cons, List.sum_cons] at htotal
    obtain ⟨view₁, hview₁, h₁⟩ := viewElement_viewed (hpos e List.mem_cons_self) (by omega) hbitmap
    have hidx := h₁.bitIdx
    obtain ⟨view', hview', h'⟩ : ∃ view', es.foldlM (viewElement true) view₁ = .ok view' ∧
        ViewedAll es view₁ view' := ih (fun e' he' => hpos e' (List.mem_cons_of_mem _ he'))
      (by rw [hidx, h₁.length]; omega) (by rw [h₁.length, h₁.length_bitmap]; exact hbitmap)
    have hle : view.bitIdx ≤ view₁.bitIdx := by omega
    have hcons : ∀ i, constantByte view.bitIdx (e :: es) i =
        if Within view.bitIdx view₁.bitIdx i then (constant e).map fun v => byteAt v view₁.bitIdx i
        else constantByte view₁.bitIdx es i := fun i => by rw [hidx]; rfl
    have hmarks₁ : ∀ i, ¬ (8 * i < view₁.bitIdx ∧ view.bitIdx < 8 * (i + 1)) →
        marked view₁.bitmapOut i = marked view.bitmapOut i := by
      intro i hi
      rw [Bool.eq_iff_iff]
      exact ⟨fun hm => (h₁.marks i hm).resolve_right fun hbad => hi ⟨hbad.1, hbad.2.1⟩, h₁.keeps i⟩
    refine ⟨view', by rw [List.foldlM_cons, hview₁]; exact hview', h'.length.trans h₁.length, fun i hi => ?_,
      fun i hi => h'.keeps i (h₁.keeps i hi), fun hs => h'.keeps _ (h₁.front hs), fun i hi hs => ?_, ?_⟩
    · obtain ⟨hbyte, hmark⟩ := h'.before i (by omega)
      exact ⟨hbyte.trans (h₁.before i hi), hmark.trans (hmarks₁ i (by omega))⟩
    · rw [hcons]
      rcases Nat.lt_or_ge (8 * i) view₁.bitIdx with hin | hout
      · by_cases hwithin : Within view.bitIdx view₁.bitIdx i
        · -- A byte of the element.
          rw [if_pos hwithin, Option.map_eq_none_iff, (h'.before i hwithin.2).2]
          constructor
          · intro hm
            exact (h₁.marks i hm).imp id fun hnew => hnew.2.2 hwithin
          · rintro (hm | hnone)
            · exact h₁.keeps i hm
            · exact h₁.symbolic hnone i hwithin
        -- A byte that it shares with the next one.
        have hlast : view₁.bitIdx / 8 = i := by
          unfold Within at hwithin
          omega
        rw [if_neg hwithin, constantByte_eq_none hin]
        refine iff_of_true (hlast ▸ h'.front fun haligned => ?_) (.inr rfl)
        omega
      · rw [if_neg fun hwithin => by have := hwithin.2; omega, h'.marks i (by rw [h₁.length]; exact hi) hout,
          hmarks₁ i (by omega)]
    · rw [Fits, ← hidx, ← h₁.right_iff, ← h'.right_iff]
      constructor
      · refine fun hright => ⟨fun v hv i hin => ?_, fun i hi v hv => ?_⟩
        · rw [← (h'.before i hin.2).1]
          refine hright i hin.1 _ ?_
          rw [hcons, if_pos hin, hv]
          rfl
        · refine hright i (by omega) v ?_
          rw [hcons, if_neg fun hin => by have := hin.2; omega, hv]
      rintro ⟨hfirst, hrest⟩ i hi v hv
      rw [hcons] at hv
      split at hv
      · rename_i hin
        obtain ⟨value, hvalue, rfl⟩ := Option.map_eq_some_iff.mp hv
        rw [(h'.before i hin.2).1]
        exact hfirst value hvalue i hin
      rcases Nat.lt_or_ge (8 * i) view₁.bitIdx with hin | hout
      · rw [constantByte_eq_none hin] at hv
        cases hv
      · exact hrest i hout v hv

/-! ## Without a bitmap -/

/-- The body of the loop without a bitmap, at the start of a byte: it returns the bytes before
an element that has none of its own, or goes on past the bytes of a constant. -/
theorem viewElement_plain {view : View} (haligned : view.bitIdx % 8 = 0)
    (hbytes : view.bitIdx + e.length ≤ 8 * view.bytesOut.length) :
    (viewElement false view e = .error (view.bytesOut.take (view.bitIdx / 8)) ∧
      (Within view.bitIdx (view.bitIdx + e.length) (view.bitIdx / 8) → constant e = none)) ∨
    ∃ bytes, bytes.length = view.bytesOut.length ∧
      (∀ i, 8 * (i + 1) ≤ view.bitIdx → bytes.getD i 0 = view.bytesOut.getD i 0) ∧
      (∀ i, Within view.bitIdx (view.bitIdx + e.length) i →
        (constant e).map (fun v => byteAt v (view.bitIdx + e.length) i) = some (bytes.getD i 0)) ∧
      viewElement false view e =
        if (view.bitIdx + e.length) % 8 ≠ 0 then .error (bytes.take ((view.bitIdx + e.length) / 8))
        else .ok { bytesOut := bytes, bitmapOut := view.bitmapOut, bitIdx := view.bitIdx + e.length } := by
  unfold viewElement
  simp only [hiChop_eq, loChop_eq, Bool.not_false, if_true]
  have hfront : frontBits view.bitIdx = 0 := by
    unfold frontBits
    omega
  by_cases hshort : e.length + view.bitIdx < (view.bitIdx / 8 + 1) * 8
  · rw [if_pos hshort]
    refine .inl ⟨rfl, fun hin => ?_⟩
    have := hin.2
    omega
  rw [if_neg hshort]
  have hall : frontBits view.bitIdx + backBits (view.bitIdx + e.length) ≠ e.length := by
    unfold backBits
    omega
  rw [if_neg hall]
  obtain ⟨b, w, hb, hbyteIdx, hw, hlen, hhi, hlo⟩ := exists_parts hshort hall
  rw [hbyteIdx, if_neg (not_not.mpr hfront)]
  cases hconst : constant e with
  | none => exact .inl ⟨by rw [show b = view.bitIdx / 8 by omega], fun _ => rfl⟩
  | some v =>
    have hchop := chop_eq (constant_lt hconst)
      (show frontBits view.bitIdx + backBits (view.bitIdx + e.length) < e.length by omega)
    dsimp only
    rw [hchop, if_pos (show 0 < e.length - frontBits view.bitIdx - backBits (view.bitIdx + e.length) by omega)]
    have hdata := Bytes.length_bytesBE (e.length / 8)
      (v % 2 ^ (e.length - frontBits view.bitIdx) / 2 ^ backBits (view.bitIdx + e.length))
    have hslice : b + e.length / 8 ≤ view.bytesOut.length := by omega
    refine .inr ⟨_, length_setSlice hslice hdata, fun i hi => ?_, fun i hin => ?_, rfl⟩
    · rw [getD_setSlice hslice hdata, if_neg (by omega)]
    · obtain ⟨hlow, hhigh⟩ := id hin
      rw [getD_setSlice hslice hdata, if_pos (by omega), getD_chopped hb hlen hhi hlo hin, if_pos (by omega)]
      rfl

theorem getD_take {l : List Nat} {k i : Nat} (h : i < k) : (l.take k).getD i 0 = l.getD i 0 := by
  rw [List.getD_eq_getElem?_getD, List.getD_eq_getElem?_getD, List.getElem?_take_of_lt h]

/-- The bytes that are returned, early or not. -/
def bytesOf : Except (List Nat) View → List Nat
  | .error bytes => bytes
  | .ok view => view.bytesOut

/-- Without a bitmap every element so far was a constant of whole bytes. -/
theorem bytesOf_foldlM {view : View} (hpos : ∀ e ∈ es, 0 < e.length) (haligned : view.bitIdx % 8 = 0)
    (htotal : view.bitIdx + (es.map Ast.length).sum = 8 * view.bytesOut.length) :
    let bytes := bytesOf (es.foldlM (viewElement false) view)
    bytes.length ≤ view.bytesOut.length ∧ view.bitIdx ≤ 8 * bytes.length ∧
      (∀ i, 8 * (i + 1) ≤ view.bitIdx → bytes.getD i 0 = view.bytesOut.getD i 0) ∧
      (∀ i < bytes.length, view.bitIdx ≤ 8 * i → constantByte view.bitIdx es i = some (bytes.getD i 0)) ∧
      (bytes.length = view.bytesOut.length ∨ constantByte view.bitIdx es bytes.length = none) := by
  dsimp only
  induction es generalizing view with
  | nil =>
    rw [List.map_nil, List.sum_nil] at htotal
    refine ⟨Nat.le_refl _, by simp only [List.foldlM_nil, pure, Except.pure, bytesOf]; omega, fun i _ => rfl, fun i hi h => ?_, .inl rfl⟩
    simp only [List.foldlM_nil, pure, Except.pure, bytesOf] at hi
    omega
  | cons e es ih =>
    rw [List.map_cons, List.sum_cons] at htotal
    have hcons : ∀ i, constantByte view.bitIdx (e :: es) i =
        if Within view.bitIdx (view.bitIdx + e.length) i then
          (constant e).map fun v => byteAt v (view.bitIdx + e.length) i
        else constantByte (view.bitIdx + e.length) es i := fun i => rfl
    rcases viewElement_plain haligned (show view.bitIdx + e.length ≤ 8 * view.bytesOut.length by omega) with
      ⟨hview, hnone⟩ | ⟨bytes, hlen, hbefore, hbytes, hview⟩
    · have hout : bytesOf ((e :: es).foldlM (viewElement false) view) =
          view.bytesOut.take (view.bitIdx / 8) := by
        rw [List.foldlM_cons, hview]
        rfl
      have hstop : (view.bytesOut.take (view.bitIdx / 8)).length = view.bitIdx / 8 := by
        rw [List.length_take]
        omega
      have hpositive := hpos e List.mem_cons_self
      rw [hout, hstop]
      refine ⟨by omega, by omega, fun i hi => getD_take (by omega), fun i hi hs => by omega, .inr ?_⟩
      rw [hcons]
      split
      · rename_i hin
        rw [hnone hin]
        rfl
      · exact constantByte_eq_none (by omega)
    · by_cases hend : (view.bitIdx + e.length) % 8 ≠ 0
      · have hout : bytesOf ((e :: es).foldlM (viewElement false) view) =
            bytes.take ((view.bitIdx + e.length) / 8) := by
          rw [List.foldlM_cons, hview, if_pos hend]
          rfl
        have hstop : (bytes.take ((view.bitIdx + e.length) / 8)).length = (view.bitIdx + e.length) / 8 := by
          rw [List.length_take]
          omega
        rw [hout, hstop]
        refine ⟨by omega, by omega, fun i hi => ?_, fun i hi hs => ?_, .inr ?_⟩
        · rw [getD_take (by omega), hbefore i hi]
        · have hin : Within view.bitIdx (view.bitIdx + e.length) i := ⟨hs, by omega⟩
          rw [getD_take hi, hcons, if_pos hin, hbytes i hin]
        · rw [hcons, if_neg fun hin => by have := hin.2; omega, constantByte_eq_none (by omega)]
      · rw [if_neg hend] at hview
        have hout : bytesOf ((e :: es).foldlM (viewElement false) view) = bytesOf (es.foldlM (viewElement false)
            { bytesOut := bytes, bitmapOut := view.bitmapOut, bitIdx := view.bitIdx + e.length }) := by
          rw [List.foldlM_cons, hview]
          rfl
        obtain ⟨hle, hidx, hsame, hright, hlongest⟩ := @ih
          { bytesOut := bytes, bitmapOut := view.bitmapOut, bitIdx := view.bitIdx + e.length }
          (fun e' he' => hpos e' (List.mem_cons_of_mem _ he')) (by dsimp only; omega) (by dsimp only; omega)
        rw [hout]
        generalize bytesOf (es.foldlM (viewElement false)
          { bytesOut := bytes, bitmapOut := view.bitmapOut, bitIdx := view.bitIdx + e.length }) = out at *
        dsimp only at hle hidx hsame hright hlongest
        refine ⟨by omega, by omega, fun i hi => ?_, fun i hi hs => ?_, ?_⟩
        · rw [hsame i (by omega), hbefore i hi]
        · rw [hcons]
          split
          · rename_i hin
            rw [hbytes i hin, hsame i hin.2]
          · rename_i hin
            unfold Within at hin
            exact hright i hi (by omega)
        · rw [hcons, if_neg fun hin => by have := hin.2; omega, ← hlen]
          exact hlongest

/-! ## The view -/

theorem marked_replicate_zero (n i : Nat) : marked (List.replicate n 0) i = false := by
  unfold marked
  rw [List.getD_eq_getElem?_getD, List.getElem?_replicate]
  split <;> exact Nat.zero_testBit _

/-- A constant is viewed byte by byte. -/
theorem exact_constant {v w size : Nat} (hw : w = 8 * size) (args : List Ast) (annotations : List Annotation) :
    ∀ i < size, constantByte 0 [.node (.BVV v w) args annotations] i =
      some ((Bytes.bytesBE size (v % 2 ^ w)).getD i 0) := by
  intro i hi
  have hlen : (Ast.node (.BVV v w) args annotations).length = 8 * size := hw
  have hin : Within 0 (0 + (Ast.node (.BVV v w) args annotations).length) i := ⟨by omega, by omega⟩
  rw [constantByte, if_pos hin, constant, Option.map_some, Bytes.getD_bytesBE hi, byteAt, hlen]
  have hpow : (256 : Nat) ^ (size - 1 - i) = 2 ^ (0 + 8 * size - 8 * (i + 1)) := by
    rw [show 0 + 8 * size - 8 * (i + 1) = 8 * (size - 1 - i) by omega, pow_mul]
    rfl
  rw [hpow]

/-- The bitmap of a region without constants: the bits of the region are set. -/
theorem marked_region {size i : Nat} (hi : i < size) :
    marked (if size % 8 ≠ 0 then
      (List.replicate ((size + 7) / 8) 255).set ((size + 7) / 8 - 1) (2 ^ (size % 8) - 1)
      else List.replicate ((size + 7) / 8) 255) i = true := by
  have hbyte : i / 8 < (List.replicate ((size + 7) / 8) 255).length := by
    rw [List.length_replicate]
    omega
  have hones : (255 : Nat).testBit (i % 8) = true := by
    rw [show (255 : Nat) = 2 ^ 8 - 1 from rfl, Nat.testBit_two_pow_sub_one]
    exact decide_eq_true (by omega)
  unfold marked
  split
  · rw [List.getD_eq_getElem?_getD, List.getElem?_set]
    split
    · rename_i hlast
      rw [if_pos (hlast ▸ hbyte), Option.getD_some, Nat.testBit_two_pow_sub_one]
      exact decide_eq_true (by omega)
    · rw [List.getElem?_eq_getElem hbyte, List.getElem_replicate]
      exact hones
  · rw [List.getD_eq_getElem?_getD, List.getElem?_eq_getElem hbyte, List.getElem_replicate]
    exact hones

/-- The view of a concatenation. -/
theorem exact_concat_iff {size : Nat} (hpos : ∀ e ∈ es, 0 < e.length)
    (htotal : (es.map Ast.length).sum = 8 * size) :
    ∃ view, es.foldlM (viewElement true) ⟨List.replicate size 0, List.replicate ((size + 7) / 8) 0, 0⟩ = .ok view ∧
      (ExactView es size (view.bytesOut, some view.bitmapOut) ↔ Fits 0 es) := by
  obtain ⟨view, hview, h⟩ := @foldlM_viewed es
    ⟨List.replicate size 0, List.replicate ((size + 7) / 8) 0, 0⟩ hpos
    (by rw [List.length_replicate, Nat.zero_add, htotal]) (by simp only [List.length_replicate]; omega)
  refine ⟨view, hview, ?_⟩
  rw [← h.right_iff]
  have hlength := h.length
  have hmarks := h.marks
  simp only [List.length_replicate] at hlength hmarks
  refine ⟨fun hexact i _ v hv => ?_, fun hright => ⟨hlength, ⟨_, rfl, fun i hi => ?_⟩, fun i hi v hv => ?_⟩⟩
  · have hlt := lt_of_constantByte hv
    exact hexact.value i (by dsimp only at hlt; omega) v hv
  · rw [← Bool.not_eq_true, hmarks i hi (Nat.zero_le _), marked_replicate_zero, ← Option.ne_none_iff_isSome]
    simp
  · exact hright i (Nat.zero_le _) v hv

/-- Without a bitmap, a concatenation gives the longest prefix. -/
theorem exactPrefix_concat {size : Nat} (hpos : ∀ e ∈ es, 0 < e.length)
    (htotal : (es.map Ast.length).sum = 8 * size) (bitmap : List Nat) :
    ExactPrefix es size (bytesOf (es.foldlM (viewElement false) ⟨List.replicate size 0, bitmap, 0⟩)) := by
  obtain ⟨hle, -, -, hvalue, hlongest⟩ := @bytesOf_foldlM es ⟨List.replicate size 0, bitmap, 0⟩ hpos rfl
    (by rw [List.length_replicate, Nat.zero_add, htotal])
  simp only [List.length_replicate] at hle hlongest
  exact ⟨hle, fun i hi => hvalue i hi (Nat.zero_le _), hlongest⟩

theorem length_Concat (args : List Ast) (annotations : List Annotation) :
    (Ast.node .Concat args annotations).length = (args.map Ast.length).sum := by
  rw [Ast.length, Op.length]
  congr 1
  induction args with
  | nil => rfl
  | cons a as ih => rw [Ast.lengthList, List.map_cons, ih]

/-- The view of an expression that is neither a constant nor a concatenation. -/
theorem load_cases (load : (addr size : Nat) → Ast) (addr size : Nat) :
    (∃ v w args annotations, load addr size = .node (.BVV v w) args annotations) ∨
    (∃ args annotations, load addr size = .node .Concat args annotations) ∨
    (elements (load addr size) = [load addr size] ∧ constant (load addr size) = none ∧
      loadToMemoryview load addr size true = (List.replicate size 0, some (if size % 8 ≠ 0 then
        (List.replicate ((size + 7) / 8) 255).set ((size + 7) / 8 - 1) (2 ^ (size % 8) - 1)
        else List.replicate ((size + 7) / 8) 255)) ∧
      (loadToMemoryview load addr size false).1 = []) := by
  unfold loadToMemoryview
  obtain ⟨op, args, annotations⟩ := load addr size
  cases op with
  | BVV v w => exact .inl ⟨v, w, args, annotations, rfl⟩
  | Concat => exact .inr (.inl ⟨args, annotations, rfl⟩)
  | _ => exact .inr (.inr ⟨rfl, rfl, rfl, rfl⟩)

/-- A symbol of `n` bits. -/
def symbol (n : Nat) : Ast := .node (.BVS "x" n) [] []

/-- A constant of two bytes between two symbols of half a byte. -/
def shiftedLoad (_addr _size : Nat) : Ast := .concat [symbol 4, .BVV 0xABCD 16, symbol 4]

/-- The same with a symbol of a whole byte in front. -/
def alignedLoad (_addr _size : Nat) : Ast := .concat [symbol 8, .BVV 0xABCD 16, symbol 8]

end MemoryView
end Angr
