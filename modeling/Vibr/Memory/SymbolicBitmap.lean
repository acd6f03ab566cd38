import Vibr.Lib.Bits
import Vibr.Memory.UltraPageInv

/-!
# SymbolicBitmap

`angr/storage/memory_mixins/paged_memory/pages/symbolic_bitmap.py`. A map is uniform, or
owns a byte array. Byte arrays live in a list and are named by their position in it,
since a view aliases the array of its map. `none` stands for an exception.
-/

namespace Angr

open Bits

/-- The byte arrays there are. -/
abbrev Buffers := List (List Nat)

structure SymbolicBitmap where
  size : Nat
  /-- the byte array of a map that is not uniform -/
  bits : Option Nat
  uniform : Bool
  /-- a view aliases the byte array -/
  pinned : Bool
deriving DecidableEq

/-- A `memoryview`: bytes `lo … hi - 1` of a byte array, or read-only bytes. -/
inductive View where
  | alias (ref lo hi : Nat)
  | readonly (bytes : List Nat)
deriving DecidableEq

namespace SymbolicBitmap

/-! ## Bytes -/

/-- A byte without exception of this value. -/
def fill (value : Bool) : Nat := if value then 0xFF else 0

/-- `byte |= mask`, or `byte &= ~mask & 0xFF`. -/
def put (value : Bool) (byte mask : Nat) : Nat :=
  if value then byte ||| (mask &&& 0xFF) else byte &&& Nat.ldiff 0xFF mask

def update (value : Bool) (bits : List Nat) (k mask : Nat) : Option (List Nat) := do
  let byte ← bits[k]?
  return bits.set k (put value byte mask)

/-- The part of `set_range` and `clear_range` that writes to the byte array. -/
def writeRange (value : Bool) (bits : List Nat) (start stop : Nat) : Option (List Nat) :=
  let fb := start >>> 3
  let fo := start &&& 7
  let lb := stop >>> 3
  let lo := stop &&& 7
  if fb = lb then update value bits fb ((0xFF <<< fo) &&& (0xFF >>> (8 - lo)))
  else do
    let first :=
      if fo ≠ 0 then (update value bits fb (0xFF <<< fo)).map fun bits => (bits, fb + 1)
      else some (bits, fb)
    let (bits, fb) ← first
    let bits :=
      if fb < lb then bits.take fb ++ List.replicate (lb - fb) (fill value) ++ bits.drop lb else bits
    if lo ≠ 0 then update value bits lb (0xFF >>> (8 - lo)) else some bits

/-- The bits `pos … pos + n - 1`, from bit zero on; inverted to look for a clear one.
The operand of `>>` is negative then, and `~x >> off` is `~(x >> off)`. -/
def window (value : Bool) (bits : List Nat) (pos n : Nat) : Option Nat := do
  let fb := pos >>> 3
  let off := pos &&& 7
  let word ←
    if fb = (pos + n - 1) >>> 3 then bits[fb]?
    else some (Bytes.ofBytesLE ((bits.drop fb).take (((pos + n + 7) >>> 3) - fb)))
  return if value then (word >>> off) &&& ((1 <<< n) - 1) else Nat.ldiff ((1 <<< n) - 1) (word >>> off)

/-- The loop of `next_set` and `next_clear`: a first probe, then the rest in one shot. -/
def nextLoop (value : Bool) (bits : List Nat) (stop pos probe : Nat) (_hprobe : 0 < probe) : Option Nat :=
  if h : pos < stop then do
    let w ← window value bits pos (min (pos + probe) stop - pos)
    if w ≠ 0 then some (pos + (isolate w).size - 1)
    else nextLoop value bits stop (min (pos + probe) stop) stop (by omega)
  else some stop
termination_by stop - pos

theorem testBit_put (value : Bool) (byte mask : Nat) {j : Nat} (hj : j < 8) :
    (put value byte mask).testBit j = if mask.testBit j then value else byte.testBit j := by
  cases value with
  | true =>
    simp only [put, if_true, Nat.testBit_or, Nat.testBit_and, testBit_255, hj]
    cases mask.testBit j <;> simp
  | false =>
    simp only [put, Bool.false_eq_true, if_false, Nat.testBit_and, Nat.testBit_ldiff, testBit_255, hj]
    cases mask.testBit j <;> simp

theorem put_lt (value : Bool) {byte : Nat} (mask : Nat) (h : byte < 256) : put value byte mask < 256 := by
  refine byte_of_testBit fun i hi => ?_
  have hbyte := testBit_of_byte h hi
  cases value <;> simp [put, hbyte, testBit_255, Nat.not_lt.mpr hi]

theorem testBit_fill (value : Bool) {j : Nat} (hj : j < 8) : (fill value).testBit j = value := by
  cases value <;> simp [fill, testBit_255, hj]

theorem fill_lt (value : Bool) : fill value < 256 := by
  cases value <;> decide

/-- What writes to a byte array keep, and the bits they leave: `value` where `p` holds. -/
structure Written (value : Bool) (p : Nat → Prop) (bits bits' : List Nat) : Prop where
  length : bits'.length = bits.length
  isBytes : IsBytes bits'
  written : ∀ i < 8 * bits.length, p i → bit bits' i = value
  kept : ∀ i < 8 * bits.length, ¬ p i → bit bits' i = bit bits i

theorem Written.trans {value : Bool} {p q r : Nat → Prop} {bits₁ bits₂ bits₃ : List Nat}
    (h₁ : Written value p bits₁ bits₂) (h₂ : Written value q bits₂ bits₃)
    (hr : ∀ i < 8 * bits₁.length, r i ↔ p i ∨ q i) : Written value r bits₁ bits₃ where
  length := h₂.length.trans h₁.length
  isBytes := h₂.isBytes
  written i hi h := by
    have hi' : i < 8 * bits₂.length := by rwa [h₁.length]
    by_cases hq : q i
    · exact h₂.written i hi' hq
    · rw [h₂.kept i hi' hq, h₁.written i hi (((hr i hi).mp h).resolve_right hq)]
  kept i hi h := by
    rw [hr i hi, not_or] at h
    rw [h₂.kept i (by rwa [h₁.length]) h.2, h₁.kept i hi h.1]

theorem Written.congr {value : Bool} {p q : Nat → Prop} {bits bits' : List Nat}
    (h : Written value p bits bits') (hq : ∀ i < 8 * bits.length, q i ↔ p i) :
    Written value q bits bits' where
  length := h.length
  isBytes := h.isBytes
  written i hi hp := h.written i hi ((hq i hi).mp hp)
  kept i hi hp := h.kept i hi fun hp' => hp ((hq i hi).mpr hp')

variable {value : Bool} {bits : List Nat}

theorem Written.refl (h : IsBytes bits) : Written value (fun _ => False) bits bits :=
  ⟨rfl, h, fun _ _ => False.elim, fun _ _ _ => rfl⟩

/-- An update writes the bits of the mask, in one byte. -/
theorem update_spec (value : Bool) (h : IsBytes bits) {k : Nat} (hk : k < bits.length) (mask : Nat) :
    ∃ bits', update value bits k mask = some bits' ∧
      Written value (fun i => i / 8 = k ∧ mask.testBit (i % 8) = true) bits bits' := by
  have hbit : ∀ i, bit (bits.set k (put value bits[k] mask)) i =
      if i / 8 = k ∧ mask.testBit (i % 8) = true then value else bit bits i := by
    intro i
    rw [bit_set hk]
    by_cases hi : i / 8 = k
    · subst hi
      rw [if_pos rfl, testBit_put _ _ _ (Nat.mod_lt _ (by decide))]
      simp [bit, List.getD_eq_getElem?_getD, List.getElem?_eq_getElem hk]
    · rw [if_neg hi, if_neg (fun h => hi h.1)]
  refine ⟨bits.set k (put value bits[k] mask), ?_, ?_, ?_, ?_, ?_⟩
  · simp [update, List.getElem?_eq_getElem hk]
  · exact List.length_set
  · exact h.set k (put_lt value mask (h _ (List.getElem_mem hk)))
  · exact fun i _ hp => by rw [hbit, if_pos hp]
  · exact fun i _ hp => by rw [hbit, if_neg hp]

/-- Whole bytes are written by replacing a slice. -/
theorem slice_spec (h : IsBytes bits) {fb lb : Nat} (hle : fb ≤ lb) (hlb : lb ≤ bits.length) :
    Written value (fun i => fb ≤ i / 8 ∧ i / 8 < lb) bits
      (bits.take fb ++ List.replicate (lb - fb) (fill value) ++ bits.drop lb) := by
  have hlen : (bits.take fb).length = fb := List.length_take_of_le (hle.trans hlb)
  have hbit : ∀ i, bit (bits.take fb ++ List.replicate (lb - fb) (fill value) ++ bits.drop lb) i =
      if i < 8 * fb then bit (bits.take fb) i
      else if i < 8 * lb then bit (List.replicate (lb - fb) (fill value)) (i - 8 * fb)
      else bit (bits.drop lb) (i - 8 * lb) := by
    intro i
    have hlen' : fb + (lb - fb) = lb := by omega
    rw [bit_append, bit_append, List.length_append, List.length_replicate, hlen, hlen']
    by_cases h₁ : i < 8 * fb
    · rw [if_pos (by omega), if_pos h₁, if_pos h₁]
    · rw [if_neg h₁, if_neg h₁]
  refine ⟨?_, ?_, ?_, ?_⟩
  · simp only [List.length_append, List.length_take, List.length_replicate, List.length_drop]
    omega
  · intro b hb
    simp only [List.mem_append] at hb
    rcases hb with (hb | hb) | hb
    · exact h b (List.mem_of_mem_take hb)
    · rw [List.eq_of_mem_replicate hb]
      exact fill_lt value
    · exact h b (List.mem_of_mem_drop hb)
  · intro i hi hp
    rw [hbit, if_neg (by omega), if_pos (by omega), bit_replicate (by omega),
      testBit_fill _ (Nat.mod_lt _ (by decide))]
  intro i hi hp
  rw [hbit]
  by_cases h₁ : i < 8 * fb
  · have hslice := bit_slice bits 0 h₁
    rw [if_pos h₁]
    simpa using hslice
  have hslice := bit_slice bits lb (l := bits.length - lb)
    (show i - 8 * lb < 8 * (bits.length - lb) by omega)
  have hindex : 8 * lb + (i - 8 * lb) = i := by omega
  rw [List.take_of_length_le (by simp), hindex] at hslice
  rw [if_neg h₁, if_neg (by omega), hslice]

theorem testBit_high (fo : Nat) {j : Nat} (hj : j < 8) : (0xFF <<< fo).testBit j = decide (fo ≤ j) := by
  rw [Nat.testBit_shiftLeft, testBit_255, decide_eq_true (by omega : j - fo < 8), Bool.and_true]

theorem testBit_low {lo : Nat} (hlo : lo < 8) (j : Nat) :
    (0xFF >>> (8 - lo)).testBit j = decide (j < lo) := by
  rw [Nat.testBit_shiftRight, testBit_255, decide_eq_decide]
  omega

theorem shiftRight_three (i : Nat) : i >>> 3 = i / 8 := Nat.shiftRight_eq_div_pow i 3

theorem and_seven (i : Nat) : i &&& 7 = i % 8 := Nat.and_two_pow_sub_one_eq_mod i 3

/-- A range within the array is written, and nothing else. -/
theorem writeRange_spec (value : Bool) (h : IsBytes bits) {start stop : Nat} (hlt : start < stop)
    (hstop : stop ≤ 8 * bits.length) :
    ∃ bits', writeRange value bits start stop = some bits' ∧
      Written value (fun i => start ≤ i ∧ i < stop) bits bits' := by
  have hlo := Nat.mod_lt stop (show 0 < 8 by decide)
  simp only [writeRange, shiftRight_three, and_seven]
  by_cases hsame : start / 8 = stop / 8
  · obtain ⟨bits', hrun, hwritten⟩ := update_spec value h (k := start / 8) (by omega)
      ((0xFF <<< (start % 8)) &&& (0xFF >>> (8 - stop % 8)))
    refine ⟨bits', by rw [if_pos hsame, hrun], hwritten.congr fun i _ => ?_⟩
    rw [Nat.testBit_and, testBit_high _ (Nat.mod_lt _ (by decide)), testBit_low hlo, Bool.and_eq_true,
      decide_eq_true_eq, decide_eq_true_eq]
    omega
  rw [if_neg hsame]
  -- the first byte, if only a part of it is in the range
  obtain ⟨bits₁, fb, hfirst, hwritten₁, hfb, hfb'⟩ : ∃ bits₁ fb,
      (if start % 8 ≠ 0 then (update value bits (start / 8) (0xFF <<< (start % 8))).map
          fun bits => (bits, start / 8 + 1)
        else some (bits, start / 8)) = some (bits₁, fb) ∧
      Written value (fun i => start ≤ i ∧ i / 8 < fb) bits bits₁ ∧
      start ≤ 8 * fb ∧ 8 * fb < start + 8 := by
    by_cases hfo : start % 8 = 0
    · refine ⟨bits, start / 8, if_neg (by simp [hfo]), (Written.refl h).congr fun i _ => iff_false_intro ?_,
        by omega, by omega⟩
      rintro ⟨hi, hi'⟩
      omega
    obtain ⟨bits₁, hrun, hwritten⟩ := update_spec value h (k := start / 8) (by omega)
      (0xFF <<< (start % 8))
    refine ⟨bits₁, start / 8 + 1, by rw [if_pos hfo, hrun]; rfl, hwritten.congr fun i _ => ?_,
      by omega, by omega⟩
    rw [testBit_high _ (Nat.mod_lt _ (by decide)), decide_eq_true_eq]
    omega
  rw [hfirst]
  -- the bytes that are wholly in the range
  have hmiddle : Written value (fun i => fb ≤ i / 8 ∧ i / 8 < stop / 8) bits₁
      (if fb < stop / 8 then bits₁.take fb ++ List.replicate (stop / 8 - fb) (fill value) ++
        bits₁.drop (stop / 8) else bits₁) := by
    by_cases hlt' : fb < stop / 8
    · rw [if_pos hlt']
      exact slice_spec hwritten₁.isBytes hlt'.le (by rw [hwritten₁.length]; omega)
    rw [if_neg hlt']
    refine (Written.refl hwritten₁.isBytes).congr fun i _ => iff_false_intro ?_
    rintro ⟨hi, hi'⟩
    omega
  have hwritten₂ := hwritten₁.trans (r := fun i => start ≤ i ∧ i / 8 < stop / 8) hmiddle
    fun i _ => by omega
  by_cases hlo' : stop % 8 = 0
  · refine ⟨_, if_neg (by simp [hlo']), hwritten₂.congr fun i _ => ?_⟩
    omega
  obtain ⟨bits₃, hrun, hwritten₃⟩ := update_spec value hwritten₂.isBytes
    (k := stop / 8) (by rw [hwritten₂.length]; omega) (0xFF >>> (8 - stop % 8))
  refine ⟨bits₃, (if_pos hlo').trans hrun, hwritten₂.trans hwritten₃ fun i _ => ?_⟩
  rw [testBit_low hlo, decide_eq_true_eq]
  omega

theorem nextWhere_eq {p : Nat → Bool} {start stop k : Nat} (hk : start ≤ k) (hk' : k ≤ stop)
    (hno : ∀ i, start ≤ i → i < k → p i = false) (hyes : k < stop → p k = true) :
    nextWhere p start stop = k := by
  obtain ⟨hge, hle, hno', hyes'⟩ := nextWhere_spec p (hk.trans hk')
  rcases Nat.lt_trichotomy (nextWhere p start stop) k with hlt | heq | hgt
  · have htrue := hyes' (by omega)
    rw [hno _ hge hlt] at htrue
    cases htrue
  · exact heq
  · have htrue := hyes (by omega)
    rw [hno' k hk hgt] at htrue
    cases htrue

theorem testBit_window (value : Bool) (word n off i : Nat) :
    (if value then (word >>> off) &&& ((1 <<< n) - 1)
      else Nat.ldiff ((1 <<< n) - 1) (word >>> off)).testBit i =
      (decide (i < n) && (word.testBit (off + i) == value)) := by
  rw [Nat.shiftLeft_eq, Nat.one_mul]
  cases value
  · simp [Nat.testBit_ldiff, Nat.testBit_two_pow_sub_one, Nat.testBit_shiftRight]
  · simp [Nat.testBit_shiftRight]

theorem window_spec (value : Bool) (h : IsBytes bits) {pos n : Nat} (hn : 0 < n) (hle : pos + n ≤ 8 * bits.length) :
    ∃ w, window value bits pos n = some w ∧
      ∀ i, w.testBit i = (decide (i < n) && (bit bits (pos + i) == value)) := by
  simp only [window, shiftRight_three, and_seven]
  by_cases hsame : pos / 8 = (pos + n - 1) / 8
  · have hlt : pos / 8 < bits.length := by omega
    rw [if_pos hsame, List.getElem?_eq_getElem hlt]
    refine ⟨_, rfl, fun i => ?_⟩
    rw [testBit_window]
    by_cases hi : i < n
    · have hdiv : (pos + i) / 8 = pos / 8 := by omega
      have hmod : (pos + i) % 8 = pos % 8 + i := by omega
      simp [bit, List.getD_eq_getElem?_getD, hdiv, hmod, List.getElem?_eq_getElem hlt]
    · simp [hi]
  · rw [if_neg hsame]
    refine ⟨_, rfl, fun i => ?_⟩
    have hbytes : IsBytes ((bits.drop (pos / 8)).take ((pos + n + 7) / 8 - pos / 8)) := fun b hb =>
      h b (List.mem_of_mem_drop (List.mem_of_mem_take hb))
    rw [testBit_window, testBit_ofBytesLE hbytes]
    by_cases hi : i < n
    · have hindex : 8 * (pos / 8) + (pos % 8 + i) = pos + i := by omega
      rw [bit_slice _ _ (by omega), hindex]
    · simp [hi]

/-- The loop finds the first bit with the value. -/
theorem nextLoop_spec (h : IsBytes bits) {stop : Nat} (hstop : stop ≤ 8 * bits.length) (pos probe : Nat)
    (hprobe : 0 < probe) (hpos : pos ≤ stop) :
    nextLoop value bits stop pos probe hprobe =
      some (nextWhere (fun i => bit bits i == value) pos stop) := by
  fun_induction nextLoop value bits stop pos probe hprobe with
  | case1 pos probe hprobe hlt ih =>
    obtain ⟨w, hw, hbits⟩ := window_spec value h
      (show 0 < min (pos + probe) stop - pos by omega) (show pos + _ ≤ _ by omega)
    rw [hw, Option.bind_eq_bind, Option.bind_some]
    by_cases hzero : w = 0
    · have hno : ∀ i, pos ≤ i → i < min (pos + probe) stop → (bit bits i == value) = false := by
        intro i hi hi'
        have hbit := hbits (i - pos)
        rw [hzero, Nat.zero_testBit, decide_eq_true (by omega), Bool.true_and,
          Nat.add_sub_cancel' hi] at hbit
        exact hbit.symm
      obtain ⟨hge, hle, hno', hyes⟩ := nextWhere_spec (fun i => bit bits i == value)
        (Nat.min_le_right (pos + probe) stop)
      rw [if_neg (not_not.mpr hzero), ih (Nat.min_le_right _ _)]
      refine congrArg some (nextWhere_eq (by omega) hle (fun i hi hi' => ?_) hyes).symm
      rcases Nat.lt_or_ge i (min (pos + probe) stop) with hlt' | hge'
      · exact hno i hi hlt'
      · exact hno' i hge' hi'
    · obtain ⟨k, hsize, htrue, hfalse⟩ := size_isolate hzero
      rw [hbits, Bool.and_eq_true, decide_eq_true_eq] at htrue
      rw [if_pos hzero, hsize]
      refine congrArg some (nextWhere_eq (by omega) (by omega) (fun i hi hi' => ?_) fun _ => ?_).symm
      · have hbit := hfalse (i - pos) (by omega)
        rwa [hbits, decide_eq_true (by omega), Bool.true_and, Nat.add_sub_cancel' hi] at hbit
      · exact htrue.2
  | case2 pos probe hprobe hge =>
    refine congrArg some (nextWhere_eq hpos le_rfl (fun i hi hi' => ?_) fun hlt => ?_).symm
    · omega
    · exact absurd hlt (lt_irrefl _)

/-! ## Operations -/

/-- The constructor. -/
def new (size : Nat) (value : Bool) : SymbolicBitmap := ⟨size, none, value, false⟩

variable (M : Buffers) (self : SymbolicBitmap)

/-- The byte array of a map, which `_concretize` allocates where there is none. -/
def backing : Buffers × SymbolicBitmap × Nat :=
  match self.bits with
  | some r => (M, self, r)
  | none =>
    (M ++ [List.replicate ((self.size + 7) >>> 3) (fill self.uniform)],
      { self with bits := some M.length }, M.length)

/-- Replace the contents of a byte array. -/
def modify (r : Nat) (f : List Nat → Option (List Nat)) : Option Buffers := do
  let bits ← M[r]?
  let bits ← f bits
  return M.set r bits

def get (i : Nat) : Option Nat :=
  match self.bits with
  | none => some self.uniform.toNat
  | some r => do
    let bits ← M[r]?
    let byte ← bits[i >>> 3]?
    return (byte >>> (i &&& 7)) &&& 1

def set (i : Nat) (value : Bool) : Option (Buffers × SymbolicBitmap) :=
  if self.bits = none ∧ value = self.uniform then some (M, self)
  else do
    let (M, self, r) := self.backing M
    let M ← modify M r fun bits => update value bits (i >>> 3) (1 <<< (i &&& 7))
    return (M, self)

/-- What `set_range` and `clear_range` do to set a range to `value`. -/
def fillRange (value : Bool) (start stop : Nat) : Option (Buffers × SymbolicBitmap) :=
  if stop ≤ start then some (M, self)
  else if start ≤ 0 ∧ self.size ≤ stop then
    if self.pinned then do
      let r ← self.bits
      let M ← modify M r fun bits => some (List.replicate bits.length (fill value))
      return (M, self)
    else some (M, { self with bits := none, uniform := value })
  else if self.bits = none ∧ self.uniform = value then some (M, self)
  else do
    let (M, self, r) := self.backing M
    let M ← modify M r fun bits => writeRange value bits start stop
    return (M, self)

def setRange (start stop : Nat) : Option (Buffers × SymbolicBitmap) := self.fillRange M true start stop

def clearRange (start stop : Nat) : Option (Buffers × SymbolicBitmap) := self.fillRange M false start stop

def next (value : Bool) (start stop : Nat) : Option Nat :=
  if stop ≤ start then some stop
  else
    match self.bits with
    | none => some (if self.uniform = value then start else stop)
    | some r => do
      let bits ← M[r]?
      nextLoop value bits stop start 64 (by decide)

def nextSet (start stop : Nat) : Option Nat := self.next M true start stop

def nextClear (start stop : Nat) : Option Nat := self.next M false start stop

def allSet (start stop : Nat) : Option Bool :=
  if stop ≤ start then some true
  else if self.bits = none then some self.uniform
  else (self.nextClear M start stop).map fun i => i = stop

def anySet (start stop : Nat) : Option Bool := (self.nextSet M start stop).map fun i => i ≠ stop

/-- `_shifted` -/
def shifted (start stop : Nat) : Option (List Nat) :=
  let n := stop - start
  if n = 0 then some []
  else do
    let w ←
      match self.bits with
      | none => some (if self.uniform then (1 <<< n) - 1 else 0)
      | some r =>
        M[r]?.map fun bits =>
          (Bytes.ofBytesLE ((bits.drop (start >>> 3)).take (((stop + 7) >>> 3) - (start >>> 3)))
            >>> (start &&& 7)) &&& ((1 <<< n) - 1)
    return Bytes.bytesLE ((n + 7) >>> 3) w

def view (start stop : Nat) : Option (Buffers × SymbolicBitmap × View) :=
  if start &&& 7 ≠ 0 then do
    let bytes ← self.shifted M start stop
    return (M, self, .readonly bytes)
  else
    let (M, self, r) := self.backing M
    some (M, { self with pinned := true }, .alias r (start >>> 3) ((stop + 7) >>> 3))

def copy : Option (Buffers × SymbolicBitmap) :=
  match self.bits with
  | none => some (M, { self with pinned := false })
  | some r => do
    let bits ← M[r]?
    return (M ++ [bits], { self with bits := some M.length, pinned := false })

end SymbolicBitmap

namespace View

variable (M : Buffers)

/-- `tobytes()` -/
def read : View → Option (List Nat)
  | .alias r lo hi => do
    let bits ← M[r]?
    return (bits.drop lo).take (hi - lo)
  | .readonly bytes => some bytes

/-- `view[k] = byte` -/
def write (k byte : Nat) : View → Option Buffers
  | .alias r lo hi => do
    let bits ← M[r]?
    if k < min hi bits.length - lo ∧ byte < 256 then some (M.set r (bits.set (lo + k) byte)) else none
  | .readonly _ => none

end View
end Angr
