import Vibr.Memory.SymbolicBitmap

/-!
# Runs on symbolic bitmaps

The specification is an array of Booleans for every map, and for every view either a
range of such an array or, where a view cannot alias the packed bits, the Booleans that
were in the range when it was taken. Every operation of the maps simulates the operation
on arrays, and pinning is what keeps the views of the two sides in step.
-/

namespace Angr

open Bits

/-- What a map is for: a Boolean for every byte of a page. -/
structure BitArray where
  size : Nat
  get : Nat → Bool

namespace BitArray

def set (a : BitArray) (i : Nat) (value : Bool) : BitArray :=
  { a with get := Function.update a.get i value }

def fillRange (a : BitArray) (value : Bool) (start stop : Nat) : BitArray :=
  { a with get := fun i => if start ≤ i ∧ i < stop then value else a.get i }

theorem get_set (a : BitArray) (i : Nat) (value : Bool) (j : Nat) :
    (a.set i value).get j = if j = i then value else a.get j :=
  Function.update_apply a.get i value j

/-- Overwrite eight elements, from `i` on, by the bits of a byte. -/
def setByte (a : BitArray) (i byte : Nat) : BitArray :=
  { a with get := fun j => if i ≤ j ∧ j < i + 8 then byte.testBit (j - i) else a.get j }

end BitArray

/-! ## One map -/

variable {stop : Nat} {start stop : Nat}

namespace SymbolicBitmap

/-- A byte array that holds the Booleans. -/
structure Holds (a : BitArray) (bits : List Nat) : Prop where
  length : bits.length = (a.size + 7) / 8
  isBytes : IsBytes bits
  bit : ∀ i < a.size, bit bits i = a.get i

/-- A map that represents an array. -/
structure Rep (M : Buffers) (b : SymbolicBitmap) (a : BitArray) : Prop where
  size : b.size = a.size
  uniform : b.bits = none → b.pinned = false ∧ ∀ i < a.size, a.get i = b.uniform
  packed : ∀ r, b.bits = some r → ∃ bits, M[r]? = some bits ∧ Holds a bits

/-- What an operation on a map leaves alone: the byte arrays of others, and the byte
array of its own that a view aliases. -/
structure Frame (M : Buffers) (b : SymbolicBitmap) (M' : Buffers) (b' : SymbolicBitmap) : Prop where
  length_le : M.length ≤ M'.length
  others : ∀ r < M.length, b.bits ≠ some r → M'[r]? = M[r]?
  own : ∀ r, b'.bits = some r → b.bits = some r ∨ M.length ≤ r
  pinned : b.pinned = true → b'.bits = b.bits ∧ b'.pinned = true

theorem Frame.refl (M : Buffers) (b : SymbolicBitmap) : Frame M b M b :=
  ⟨le_rfl, fun _ _ _ => rfl, fun _ h => .inl h, fun h => ⟨rfl, h⟩⟩

variable {M : Buffers} {b : SymbolicBitmap} {a : BitArray}

theorem Holds.stop_le {bits : List Nat} (h : Holds a bits) (hstop : stop ≤ a.size) : stop ≤ 8 * bits.length := by
  have hlen := h.length
  omega

/-- A write to a byte array is the write to the Booleans. -/
theorem Holds.write {bits bits' : List Nat} {value : Bool} {p : Nat → Prop} {a' : BitArray}
    (h : Holds a bits) (hw : Written value p bits bits') (hsize : a'.size = a.size)
    (hin : ∀ i < a.size, p i → a'.get i = value) (hout : ∀ i < a.size, ¬ p i → a'.get i = a.get i) :
    Holds a' bits' where
  length := by rw [hw.length, h.length, hsize]
  isBytes := hw.isBytes
  bit i hi := by
    rw [hsize] at hi
    have hi' := h.stop_le (Nat.succ_le_of_lt hi)
    by_cases hp : p i
    · rw [hw.written i hi' hp, hin i hi hp]
    · rw [hw.kept i hi' hp, hout i hi hp, h.bit i hi]

theorem Rep.new (M : Buffers) (size : Nat) (value : Bool) :
    Rep M (.new size value) ⟨size, fun _ => value⟩ where
  size := rfl
  uniform _ := ⟨rfl, fun _ _ => rfl⟩
  packed _ h := nomatch h

/-- The byte array that `backing` returns holds the Booleans. -/
theorem Rep.backing_spec (h : Rep M b a) :
    ∃ M' b' r bits, b.backing M = (M', b', r) ∧ M'[r]? = some bits ∧ Holds a bits ∧
      b'.bits = some r ∧ b'.size = b.size ∧ b'.pinned = b.pinned ∧
      Frame M b M' b' := by
  unfold backing
  cases hbits : b.bits with
  | some r =>
    obtain ⟨bits, hr, hholds⟩ := h.packed r hbits
    exact ⟨M, b, r, bits, rfl, hr, hholds, hbits, rfl, rfl, .refl M b⟩
  | none =>
    obtain ⟨hpinned, huniform⟩ := h.uniform hbits
    refine ⟨_, _, _, List.replicate ((b.size + 7) >>> 3) (fill b.uniform), rfl, by simp, ?_, rfl,
      rfl, rfl, ?_⟩
    · refine ⟨by rw [List.length_replicate, shiftRight_three, h.size], ?_, fun i hi => ?_⟩
      · intro b hb
        rw [List.eq_of_mem_replicate hb]
        exact fill_lt _
      · rw [bit_replicate (by rw [shiftRight_three, h.size]; omega),
          testBit_fill _ (Nat.mod_lt _ (by decide)), huniform i hi]
    refine ⟨by simp, fun r hr _ => List.getElem?_append_left hr, ?_, fun hp => ?_⟩
    · rintro r ⟨⟩
      exact .inr le_rfl
    · rw [hpinned] at hp
      cases hp

/-- Writing to the byte array of a map. -/
theorem modify_spec {M' : Buffers} {b' : SymbolicBitmap} {a' : BitArray} {r : Nat} {bits bits' : List Nat}
    {f : List Nat → Option (List Nat)} (hr : M'[r]? = some bits) (hb : b'.bits = some r)
    (hsize : b'.size = a'.size) (hframe : Frame M b M' b') (hf : f bits = some bits')
    (hholds : Holds a' bits') :
    ∃ M'', modify M' r f = some M'' ∧ Rep M'' b' a' ∧ Frame M b M'' b' := by
  have hlt : r < M'.length := (List.getElem?_eq_some_iff.mp hr).1
  refine ⟨M'.set r bits', by simp [modify, hr, hf], ⟨hsize, fun hn => ?_, fun r' hr' => ?_⟩, ?_⟩
  · rw [hb] at hn
    cases hn
  · rw [hb] at hr'
    cases hr'
    exact ⟨bits', List.getElem?_set_self hlt, hholds⟩
  refine ⟨by simpa using hframe.length_le, fun r' hr' hne => ?_, hframe.own, hframe.pinned⟩
  have hne' : r ≠ r' := by
    rintro rfl
    rcases hframe.own r hb with hown | hge
    · exact hne hown
    · omega
  rw [List.getElem?_set_ne hne', hframe.others r' hr' hne]

theorem Rep.set_spec (h : Rep M b a) {i : Nat} (hi : i < a.size) (value : Bool) :
    ∃ M' b', b.set M i value = some (M', b') ∧ Rep M' b' (a.set i value) ∧
      Frame M b M' b' := by
  unfold SymbolicBitmap.set
  by_cases hsame : b.bits = none ∧ value = b.uniform
  · obtain ⟨hpinned, huniform⟩ := h.uniform hsame.1
    refine ⟨M, b, if_pos hsame, ⟨h.size, fun _ => ⟨hpinned, fun j hj => ?_⟩, fun r hr => ?_⟩, .refl M b⟩
    · by_cases hij : j = i
      · rw [BitArray.get_set, if_pos hij, hsame.2]
      · rw [BitArray.get_set, if_neg hij, huniform j hj]
    · rw [hsame.1] at hr
      cases hr
  obtain ⟨M', b', r, bits, hrun, hr, hholds, hbits, hsize, -, hframe⟩ := h.backing_spec
  obtain ⟨bits', hupdate, hwritten⟩ := update_spec value hholds.isBytes (k := i / 8)
    (by have := hholds.length; omega) (1 <<< (i % 8))
  have hbit : ∀ j, j / 8 = i / 8 ∧ (1 <<< (i % 8)).testBit (j % 8) = true ↔ j = i := by
    intro j
    rw [Nat.one_shiftLeft, Nat.testBit_two_pow, decide_eq_true_eq]
    omega
  have hholds' : Holds (a.set i value) bits' := hholds.write hwritten rfl
    (fun j _ hj => by rw [BitArray.get_set, if_pos ((hbit j).mp hj)])
    (fun j _ hj => by rw [BitArray.get_set, if_neg (fun hij => hj ((hbit j).mpr hij))])
  obtain ⟨M'', hmodify, hrep, hframe'⟩ := modify_spec hr hbits
    (show b'.size = (a.set i value).size from hsize.trans h.size) hframe
    (f := fun bits => update value bits (i >>> 3) (1 <<< (i &&& 7)))
    (by rw [shiftRight_three, and_seven]; exact hupdate) hholds'
  refine ⟨M'', b', ?_, hrep, hframe'⟩
  rw [if_neg hsame, hrun]
  simp only [hmodify]
  rfl

theorem Rep.fillRange_spec (h : Rep M b a) (value : Bool) (start : Nat) (hstop : stop ≤ a.size) :
    ∃ M' b', b.fillRange M value start stop = some (M', b') ∧ Rep M' b' (a.fillRange value start stop) ∧
      Frame M b M' b' := by
  unfold SymbolicBitmap.fillRange
  by_cases hempty : stop ≤ start
  · have hsame : a.fillRange value start stop = a := by
      rw [BitArray.fillRange]
      congr 1
      funext i
      exact if_neg (by omega)
    exact ⟨M, b, if_pos hempty, by rwa [hsame], .refl M b⟩
  rw [if_neg hempty]
  by_cases hwhole : start ≤ 0 ∧ b.size ≤ stop
  · have hall : ∀ i < a.size, (a.fillRange value start stop).get i = value := by
      intro i hi
      have hsize := h.size
      exact if_pos (by omega)
    rw [if_pos hwhole]
    by_cases hpinned : b.pinned = true
    · obtain ⟨r, hr⟩ : ∃ r, b.bits = some r := Option.ne_none_iff_exists'.mp fun hn => by
        rw [(h.uniform hn).1] at hpinned
        cases hpinned
      obtain ⟨bits, hbits, hholds⟩ := h.packed r hr
      have hholds' : Holds (a.fillRange value start stop) (List.replicate bits.length (fill value)) := by
        refine ⟨by rw [List.length_replicate, hholds.length]; rfl, fun c hc => ?_, fun i hi => ?_⟩
        · rw [List.eq_of_mem_replicate hc]
          exact fill_lt value
        · rw [bit_replicate (hholds.stop_le (Nat.succ_le_of_lt hi)), testBit_fill _ (Nat.mod_lt _ (by decide)),
            hall i hi]
      obtain ⟨M', hmodify, hrep, hframe⟩ := modify_spec hbits hr
        (show b.size = (a.fillRange value start stop).size from h.size) (.refl M b)
        (f := fun bits => some (List.replicate bits.length (fill value))) rfl hholds'
      refine ⟨M', b, ?_, hrep, hframe⟩
      rw [if_pos hpinned, hr]
      simp only [Option.bind_eq_bind, Option.bind_some, hmodify]
      rfl
    · refine ⟨M, _, if_neg hpinned, ⟨h.size, fun _ => ⟨by simpa using hpinned, hall⟩, ?_⟩, le_rfl,
        fun _ _ _ => rfl, ?_, fun hp => absurd hp hpinned⟩
      · exact fun r hr => absurd hr (by simp)
      · exact fun r hr => absurd hr (by simp)
  rw [if_neg hwhole]
  by_cases hsame : b.bits = none ∧ b.uniform = value
  · obtain ⟨hpinned, huniform⟩ := h.uniform hsame.1
    refine ⟨M, b, if_pos hsame, ⟨h.size, fun _ => ⟨hpinned, fun i hi => ?_⟩, fun r hr => ?_⟩, .refl M b⟩
    · have hget : a.get i = value := (huniform i hi).trans hsame.2
      rw [hsame.2]
      exact ite_eq_left_iff.mpr fun _ => hget
    · rw [hsame.1] at hr
      cases hr
  obtain ⟨M', b', r, bits, hrun, hr, hholds, hbits, hsize, -, hframe⟩ := h.backing_spec
  obtain ⟨bits', hwrite, hwritten⟩ := writeRange_spec value hholds.isBytes
    (Nat.lt_of_not_le hempty) (hholds.stop_le hstop)
  have hholds' : Holds (a.fillRange value start stop) bits' := hholds.write hwritten rfl
    (fun i _ hi => if_pos hi) (fun i _ hi => if_neg hi)
  obtain ⟨M'', hmodify, hrep, hframe'⟩ := modify_spec hr hbits
    (show b'.size = (a.fillRange value start stop).size from hsize.trans h.size) hframe
    (f := fun bits => writeRange value bits start stop) hwrite hholds'
  refine ⟨M'', b', ?_, hrep, hframe'⟩
  rw [if_neg hsame, hrun]
  simp only [hmodify]
  rfl

theorem Rep.copy_spec (h : Rep M b a) :
    ∃ M' b', b.copy M = some (M', b') ∧ Rep M' b' a ∧ M.length ≤ M'.length ∧
      (∀ r < M.length, M'[r]? = M[r]?) ∧ ∀ r, b'.bits = some r → M.length ≤ r := by
  unfold SymbolicBitmap.copy
  cases hbits : b.bits with
  | none =>
    refine ⟨M, _, rfl, ⟨h.size, fun _ => ⟨rfl, (h.uniform hbits).2⟩, fun r hr => ?_⟩, le_rfl,
      fun _ _ => rfl, fun r hr => ?_⟩
    · cases hr
    · cases hr
  | some r =>
    obtain ⟨bits, hr, hholds⟩ := h.packed r hbits
    refine ⟨M ++ [bits], { b with bits := some M.length, pinned := false }, by simp [hr], ⟨h.size, ?_, ?_⟩,
      by simp, fun r hr => List.getElem?_append_left hr, ?_⟩
    · exact fun hn => absurd hn (by simp)
    · rintro r ⟨⟩
      exact ⟨bits, by simp, hholds⟩
    · rintro r ⟨⟩
      exact le_rfl

/-! ## Queries -/

theorem Rep.get_spec (h : Rep M b a) {i : Nat} (hi : i < a.size) : b.get M i = some (a.get i).toNat := by
  unfold SymbolicBitmap.get
  cases hbits : b.bits with
  | none => rw [(h.uniform hbits).2 i hi]
  | some r =>
    obtain ⟨bits, hr, hholds⟩ := h.packed r hbits
    have hlt : i / 8 < bits.length := by
      have hlen := hholds.length
      omega
    rw [← hholds.bit i hi, bit, List.getD_eq_getElem?_getD, List.getElem?_eq_getElem hlt]
    simp only [hr, Option.bind_eq_bind, Option.bind_some, shiftRight_three, and_seven,
      List.getElem?_eq_getElem hlt, Option.getD_some, Nat.testBit, Nat.and_one_is_mod, Nat.one_and_eq_mod_two]
    rcases Nat.mod_two_eq_zero_or_one (bits[i / 8] >>> (i % 8)) with hmod | hmod <;> simp [hmod]

theorem Rep.next_spec (h : Rep M b a) (hstop : stop ≤ a.size) (value : Bool) :
    b.next M value start stop = some (nextWhere (fun i => a.get i == value) start stop) := by
  unfold SymbolicBitmap.next
  by_cases hempty : stop ≤ start
  · have hzero : stop - start = 0 := by omega
    rw [if_pos hempty, nextWhere, hzero]
    rfl
  have hle : start ≤ stop := by omega
  rw [if_neg hempty]
  cases hbits : b.bits with
  | none =>
    have huniform := (h.uniform hbits).2
    by_cases hvalue : b.uniform = value
    · refine congrArg some ((if_pos hvalue).trans (nextWhere_eq le_rfl hle (fun i hi hi' => ?_) fun _ => ?_).symm)
      · omega
      · rw [huniform start (by omega), hvalue]
        exact beq_self_eq_true value
    refine congrArg some ((if_neg hvalue).trans (nextWhere_eq hle le_rfl (fun i hi hi' => ?_) fun hlt => ?_).symm)
    · rw [huniform i (by omega)]
      exact beq_eq_false_iff_ne.mpr hvalue
    · exact absurd hlt (lt_irrefl _)
  | some r =>
    obtain ⟨bits, hr, hholds⟩ := h.packed r hbits
    simp only [hr, Option.bind_eq_bind, Option.bind_some]
    refine (nextLoop_spec hholds.isBytes (hholds.stop_le hstop) start 64 (by decide) hle).trans ?_
    obtain ⟨hge, hle', hno, hyes⟩ := nextWhere_spec (fun i => a.get i == value) hle
    refine congrArg some (nextWhere_eq hge hle' (fun i hi hi' => ?_) fun hlt => ?_)
    · rw [hholds.bit i (by omega)]
      exact hno i hi hi'
    · rw [hholds.bit _ (by omega)]
      exact hyes hlt

theorem nextWhere_eq_stop {p : Nat → Bool} (h : start ≤ stop) :
    nextWhere p start stop = stop ↔ ∀ i, start ≤ i → i < stop → p i = false := by
  obtain ⟨hge, hle, hno, hyes⟩ := nextWhere_spec p h
  constructor
  · intro heq i hi hi'
    exact hno i hi (by rwa [heq])
  · intro hall
    exact nextWhere_eq h le_rfl hall fun hlt => absurd hlt (lt_irrefl _)

theorem all_range' {p : Nat → Bool} :
    (List.range' start (stop - start)).all p = true ↔ ∀ i, start ≤ i → i < stop → p i = true := by
  simp only [List.all_eq_true, List.mem_range'_1]
  exact forall_congr' fun i => ⟨fun h hi hi' => h (by omega), fun h hi => h hi.1 (by omega)⟩

theorem Rep.allSet_spec (h : Rep M b a) (hstop : stop ≤ a.size) :
    b.allSet M start stop = some ((List.range' start (stop - start)).all a.get) := by
  unfold SymbolicBitmap.allSet
  by_cases hempty : stop ≤ start
  · rw [if_pos hempty, Nat.sub_eq_zero_of_le hempty]
    rfl
  rw [if_neg hempty]
  by_cases hbits : b.bits = none
  · have huniform := (h.uniform hbits).2
    rw [if_pos hbits, Option.some_inj, Bool.eq_iff_iff, all_range']
    constructor
    · intro hv i _ hi'
      rw [huniform i (by omega), hv]
    · intro hall
      rw [← huniform start (by omega), hall start le_rfl (by omega)]
  · rw [if_neg hbits, nextClear, h.next_spec hstop, Option.map_some, Option.some_inj, Bool.eq_iff_iff,
      all_range', decide_eq_true_eq, nextWhere_eq_stop (by omega)]
    simp

theorem Rep.anySet_spec (h : Rep M b a) (hstop : stop ≤ a.size) :
    b.anySet M start stop = some ((List.range' start (stop - start)).any a.get) := by
  rw [SymbolicBitmap.anySet, nextSet, h.next_spec hstop, Option.map_some, Option.some_inj]
  by_cases hempty : stop ≤ start
  · rw [nextWhere, Nat.sub_eq_zero_of_le hempty]
    simp
  have hnone := nextWhere_eq_stop (p := fun i => a.get i == true) (Nat.le_of_not_le hempty)
  rw [Bool.eq_iff_iff, decide_eq_true_eq, ne_eq, hnone, ← not_iff_not, not_not, Bool.not_eq_true,
    List.any_eq_false]
  simp only [List.mem_range'_1]
  exact forall_congr' fun i => ⟨fun hi hr => by simpa using hi hr.1 (by omega),
    fun hi h₁ h₂ => by simpa using hi ⟨h₁, by omega⟩⟩

/-! ## Views -/

/-- The bits of a range, moved to bit zero and cut off behind it. -/
theorem Rep.shifted_spec (h : Rep M b a) (hstop : stop ≤ a.size) :
    ∃ bytes, b.shifted M start stop = some bytes ∧ bytes.length = (stop - start + 7) / 8 ∧
      ∀ i < stop - start, bit bytes i = a.get (start + i) := by
  unfold shifted
  by_cases hempty : stop - start = 0
  · exact ⟨[], if_pos hempty, by simp [hempty], fun i hi => by omega⟩
  -- whatever number the bits are read from, its string has its bits
  have hbytes : ∀ w, w < 2 ^ (stop - start) → (∀ i < stop - start, w.testBit i = a.get (start + i)) →
      ∀ i < stop - start, bit (Bytes.bytesLE ((stop - start + 7) / 8) w) i = a.get (start + i) := by
    intro w hw hbit i hi
    have hlt : w < 256 ^ ((stop - start + 7) / 8) := by
      calc w < 2 ^ (stop - start) := hw
        _ ≤ 2 ^ (8 * ((stop - start + 7) / 8)) := Nat.pow_le_pow_right (by decide) (by omega)
        _ = 256 ^ ((stop - start + 7) / 8) := by rw [pow_mul]; rfl
    rw [bit_bytesLE hlt, hbit i hi]
  rw [if_neg hempty]
  simp only [shiftRight_three, and_seven, Nat.shiftLeft_eq, Nat.one_mul]
  cases hbits : b.bits with
  | none =>
    have huniform := (h.uniform hbits).2
    refine ⟨_, rfl, Bytes.length_bytesLE _ _, hbytes _ ?_ fun i hi => ?_⟩
    · have hpos := Nat.two_pow_pos (stop - start)
      split
      · omega
      · exact hpos
    rw [huniform (start + i) (by omega)]
    cases b.uniform
    · simp
    · simp [Nat.testBit_two_pow_sub_one, hi]
  | some r =>
    obtain ⟨bits, hr, hholds⟩ := h.packed r hbits
    have hslice : IsBytes ((bits.drop (start / 8)).take ((stop + 7) / 8 - start / 8)) := fun c hc =>
      hholds.isBytes c (List.mem_of_mem_drop (List.mem_of_mem_take hc))
    refine ⟨_, by simp only [hr]; rfl, Bytes.length_bytesLE _ _, hbytes _ ?_ fun i hi => ?_⟩
    · beta_reduce
      rw [Nat.and_two_pow_sub_one_eq_mod]
      exact Nat.mod_lt _ (Nat.two_pow_pos _)
    have hindex : 8 * (start / 8) + (start % 8 + i) = start + i := by omega
    rw [Nat.testBit_and, Nat.testBit_two_pow_sub_one, decide_eq_true hi, Bool.and_true,
      Nat.testBit_shiftRight, testBit_ofBytesLE hslice, bit_slice _ _ (by omega), hindex,
      hholds.bit _ (by omega)]

theorem Rep.view_spec (h : Rep M b a) (start : Nat) (hstop : stop ≤ a.size) :
    ∃ M' b' v, b.view M start stop = some (M', b', v) ∧ Rep M' b' a ∧ Frame M b M' b' ∧
      (start % 8 = 0 → ∃ r, v = .alias r (start / 8) ((stop + 7) / 8) ∧ b'.bits = some r ∧
        b'.pinned = true) ∧
      (start % 8 ≠ 0 → ∃ bytes, v = .readonly bytes ∧ bytes.length = (stop - start + 7) / 8 ∧
        ∀ i < stop - start, bit bytes i = a.get (start + i)) := by
  unfold SymbolicBitmap.view
  rw [and_seven]
  by_cases haligned : start % 8 = 0
  · obtain ⟨M', b', r, bits, hrun, hr, hholds, hbits, hsize, -, hframe⟩ := h.backing_spec
    refine ⟨M', { b' with pinned := true }, .alias r (start >>> 3) ((stop + 7) >>> 3), ?_, ?_, ?_,
      fun _ => ⟨r, by rw [shiftRight_three, shiftRight_three], hbits, rfl⟩, fun hne => absurd haligned hne⟩
    · rw [if_neg (not_not.mpr haligned), hrun]
    · refine ⟨hsize.trans h.size, fun hn => ?_, fun r' hr' => ?_⟩
      · exact absurd (hbits.symm.trans hn) (by simp)
      · cases hbits.symm.trans hr'
        exact ⟨bits, hr, hholds⟩
    · exact ⟨hframe.length_le, hframe.others, hframe.own, fun hp => ⟨(hframe.pinned hp).1, rfl⟩⟩
  · obtain ⟨bytes, hrun, hlen, hbit⟩ := h.shifted_spec hstop
    refine ⟨M, b, .readonly bytes, ?_, h, .refl M b, fun h0 => absurd h0 haligned,
      fun _ => ⟨bytes, rfl, hlen, hbit⟩⟩
    rw [if_pos haligned, hrun]
    rfl

end SymbolicBitmap

/-! ## Runs -/

/-- What callers do: make, change and copy maps, take views, and write to views. Maps and
views are numbered in the order in which they appear. -/
inductive Operation where
  | new (size : Nat) (value : Bool)
  | set (m i : Nat) (value : Bool)
  | setRange (m start stop : Nat)
  | clearRange (m start stop : Nat)
  | copy (m : Nat)
  | view (m start stop : Nat)
  | write (v k byte : Nat)

structure World where
  buffers : Buffers := []
  maps : List SymbolicBitmap := []
  views : List View := []

namespace World

/-- Apply a method to a map. -/
def change (w : World) (m : Nat)
    (f : Buffers → SymbolicBitmap → Option (Buffers × SymbolicBitmap)) : Option World := do
  let b ← w.maps[m]?
  let (M, b) ← f w.buffers b
  return { w with buffers := M, maps := w.maps.set m b }

def step (w : World) : Operation → Option World
  | .new size value => some { w with maps := w.maps ++ [.new size value] }
  | .set m i value => w.change m fun M b => b.set M i value
  | .setRange m start stop => w.change m fun M b => b.setRange M start stop
  | .clearRange m start stop => w.change m fun M b => b.clearRange M start stop
  | .copy m => do
    let b ← w.maps[m]?
    let (M, c) ← b.copy w.buffers
    return { w with buffers := M, maps := w.maps ++ [c] }
  | .view m start stop => do
    let b ← w.maps[m]?
    let (M, b, v) ← b.view w.buffers start stop
    return { buffers := M, maps := w.maps.set m b, views := w.views ++ [v] }
  | .write v k byte => do
    let v ← w.views[v]?
    let M ← v.write w.buffers k byte
    return { w with buffers := M }

def run : World → List Operation → Option World
  | w, [] => some w
  | w, op :: ops => (w.step op).bind fun w => w.run ops

end World

/-- A view of an array: a range of it, or a range as it was when the view was taken. -/
inductive ArrayView where
  | live (m start stop : Nat)
  | taken (a : BitArray)

def BitArray.slice (a : BitArray) (start stop : Nat) : BitArray := ⟨stop - start, fun i => a.get (start + i)⟩

/-- What a view shows. -/
def ArrayView.read (arrays : List BitArray) : ArrayView → Option BitArray
  | .live m start stop => arrays[m]?.map fun a => a.slice start stop
  | .taken a => some a

/-- Arrays of Booleans, with the same operations. Positions and ranges are within the
arrays, as the source assumes; only a view with an aligned start can be written to. -/
structure Arrays where
  maps : List BitArray := []
  views : List ArrayView := []

namespace Arrays

def change (s : Arrays) (m : Nat) (stop : Nat) (f : BitArray → BitArray) : Option Arrays := do
  let a : BitArray ← s.maps[m]?
  if stop ≤ a.size then some { s with maps := s.maps.set m (f a) } else none

def step (s : Arrays) : Operation → Option Arrays
  | .new size value => some { s with maps := s.maps ++ [⟨size, fun _ => value⟩] }
  | .set m i value => s.change m (i + 1) fun a => a.set i value
  | .setRange m start stop => s.change m stop fun a => a.fillRange true start stop
  | .clearRange m start stop => s.change m stop fun a => a.fillRange false start stop
  | .copy m => do
    let a ← s.maps[m]?
    return { s with maps := s.maps ++ [a] }
  | .view m start stop => do
    let a : BitArray ← s.maps[m]?
    if stop ≤ a.size then
      let v := if start % 8 = 0 then .live m start stop else .taken (a.slice start stop)
      some { s with views := s.views ++ [v] }
    else none
  | .write v k byte =>
    match s.views[v]? with
    | some (.live m start stop) => do
      let a : BitArray ← s.maps[m]?
      if 8 * k < stop - start ∧ byte < 256 then
        some { s with maps := s.maps.set m (a.setByte (start + 8 * k) byte) }
      else none
    | _ => none

def run : Arrays → List Operation → Option Arrays
  | s, [] => some s
  | s, op :: ops => (s.step op).bind fun s => s.run ops

end Arrays

/-- Every query on a map answers as on the array. -/
structure Answers (M : Buffers) (b : SymbolicBitmap) (a : BitArray) : Prop where
  get : ∀ i < a.size, b.get M i = some (a.get i).toNat
  nextSet : ∀ start stop, stop ≤ a.size → b.nextSet M start stop = some (nextWhere a.get start stop)
  nextClear : ∀ start stop, stop ≤ a.size →
    b.nextClear M start stop = some (nextWhere (fun i => !a.get i) start stop)
  allSet : ∀ start stop, stop ≤ a.size →
    b.allSet M start stop = some ((List.range' start (stop - start)).all a.get)
  anySet : ∀ start stop, stop ≤ a.size →
    b.anySet M start stop = some ((List.range' start (stop - start)).any a.get)

/-- A view shows what the view of the array shows, in packed bits. -/
def Shows (M : Buffers) (arrays : List BitArray) (v : View) (u : ArrayView) : Prop :=
  ∃ (bytes : List Nat) (a : BitArray), v.read M = some bytes ∧ u.read arrays = some a ∧
    bytes.length = (a.size + 7) / 8 ∧ ∀ i < a.size, bit bytes i = a.get i

structure Agrees (w : World) (s : Arrays) : Prop where
  maps : List.Forall₂ (Answers w.buffers) w.maps s.maps
  views : List.Forall₂ (Shows w.buffers s.maps) w.views s.views

/-- A view of packed bits and the view of an array that it stands for. An alias names the
byte array that its map still has, since the map is pinned. -/
inductive ViewRep (maps : List SymbolicBitmap) (arrays : List BitArray) : View → ArrayView → Prop where
  | live {m r start stop : Nat} {b : SymbolicBitmap} {a : BitArray} (hb : maps[m]? = some b)
      (ha : arrays[m]? = some a) (hr : b.bits = some r) (hp : b.pinned = true) (hstart : start % 8 = 0)
      (hstop : stop ≤ a.size) :
      ViewRep maps arrays (.alias r (start / 8) ((stop + 7) / 8)) (.live m start stop)
  | taken {bytes : List Nat} {a : BitArray} (hlen : bytes.length = (a.size + 7) / 8)
      (hbit : ∀ i < a.size, bit bytes i = a.get i) : ViewRep maps arrays (.readonly bytes) (.taken a)

/-- The simulation. No two maps share a byte array. -/
structure Sim (w : World) (s : Arrays) : Prop where
  length : w.maps.length = s.maps.length
  rep : ∀ (m : Nat) (b : SymbolicBitmap) (a : BitArray), w.maps[m]? = some b → s.maps[m]? = some a →
    SymbolicBitmap.Rep w.buffers b a
  apart : ∀ (m n : Nat) (b c : SymbolicBitmap) (r : Nat), w.maps[m]? = some b → w.maps[n]? = some c →
    b.bits = some r → c.bits = some r → m = n
  views : List.Forall₂ (ViewRep w.maps s.maps) w.views s.views

variable {b : SymbolicBitmap} {a : BitArray}

theorem SymbolicBitmap.Rep.frame {M M' : Buffers} (h : Rep M b a) (hframe : ∀ r, b.bits = some r → M'[r]? = M[r]?) :
    Rep M' b a where
  size := h.size
  uniform := h.uniform
  packed r hr := by
    rw [hframe r hr]
    exact h.packed r hr

theorem SymbolicBitmap.Rep.lt_length {M : Buffers} (h : Rep M b a) {r : Nat} (hr : b.bits = some r) : r < M.length := by
  obtain ⟨bits, hbits, -⟩ := h.packed r hr
  exact (List.getElem?_eq_some_iff.mp hbits).1

namespace Sim

variable {w : World} {s : Arrays} {M' : Buffers} {b' : SymbolicBitmap} {a' : BitArray} {m : Nat}

theorem array_of_map (h : Sim w s) (hb : w.maps[m]? = some b) : ∃ a, s.maps[m]? = some a := by
  have hlt := (List.getElem?_eq_some_iff.mp hb).1
  rw [h.length] at hlt
  exact ⟨_, List.getElem?_eq_getElem hlt⟩

theorem map_of_array (h : Sim w s) (ha : s.maps[m]? = some a) : ∃ b, w.maps[m]? = some b := by
  have hlt := (List.getElem?_eq_some_iff.mp ha).1
  rw [← h.length] at hlt
  exact ⟨_, List.getElem?_eq_getElem hlt⟩

/-- An operation on one map leaves the others and their views alone. -/
theorem change (h : Sim w s) (hb : w.maps[m]? = some b) (ha : s.maps[m]? = some a)
    (hrep : SymbolicBitmap.Rep M' b' a') (hframe : SymbolicBitmap.Frame w.buffers b M' b')
    (hsize : a'.size = a.size) : Sim ⟨M', w.maps.set m b', w.views⟩ ⟨s.maps.set m a', s.views⟩ := by
  have hlt := (List.getElem?_eq_some_iff.mp hb).1
  have hlt' := (List.getElem?_eq_some_iff.mp ha).1
  -- the byte array of another map is neither that of `b` nor a new one
  have hother : ∀ n c r, n ≠ m → w.maps[n]? = some c → c.bits = some r →
      r < w.buffers.length ∧ b.bits ≠ some r := by
    intro n c r hn hc hr
    obtain ⟨d, hd⟩ := h.array_of_map hc
    exact ⟨(h.rep n c d hc hd).lt_length hr, fun hr' => hn (h.apart n m c b r hc hb hr hr')⟩
  refine ⟨by simpa using h.length, fun n c d hc hd => ?_, fun n k c d r hc hd hr hr' => ?_, ?_⟩
  · by_cases hn : n = m
    · subst hn
      rw [List.getElem?_set_self hlt] at hc
      rw [List.getElem?_set_self hlt'] at hd
      cases hc
      cases hd
      exact hrep
    rw [List.getElem?_set_ne (Ne.symm hn)] at hc hd
    refine (h.rep n c d hc hd).frame fun r hr => ?_
    obtain ⟨hlt, hne⟩ := hother n c r hn hc hr
    exact hframe.others r hlt hne
  · have hmixed : ∀ n c r, n ≠ m → w.maps[n]? = some c → c.bits = some r → b'.bits ≠ some r := by
      intro n c r hn hc hr hr'
      obtain ⟨hlt, hne⟩ := hother n c r hn hc hr
      rcases hframe.own r hr' with hown | hge
      · exact hne hown
      · omega
    by_cases hn : n = m
    · by_cases hk : k = m
      · rw [hn, hk]
      subst hn
      rw [List.getElem?_set_self hlt] at hc
      rw [List.getElem?_set_ne (Ne.symm hk)] at hd
      cases hc
      exact absurd hr (hmixed k d r hk hd hr')
    rw [List.getElem?_set_ne (Ne.symm hn)] at hc
    by_cases hk : k = m
    · subst hk
      rw [List.getElem?_set_self hlt] at hd
      cases hd
      exact absurd hr' (hmixed n c r hn hc hr)
    · rw [List.getElem?_set_ne (Ne.symm hk)] at hd
      exact h.apart n k c d r hc hd hr hr'
  · refine h.views.imp fun v u huv => ?_
    cases huv with
    | taken hlen hbit => exact .taken hlen hbit
    | @live n r start stop c d hc hd hr hp hstart hstop =>
      by_cases hn : n = m
      · subst hn
        cases hb.symm.trans hc
        cases ha.symm.trans hd
        obtain ⟨hbits, hpinned⟩ := hframe.pinned hp
        exact .live (List.getElem?_set_self hlt) (List.getElem?_set_self hlt') (hbits.trans hr) hpinned
          hstart (by rwa [hsize])
      · exact .live ((List.getElem?_set_ne (Ne.symm hn)).trans hc)
          ((List.getElem?_set_ne (Ne.symm hn)).trans hd) hr hp hstart hstop

/-- A new map, whose byte array is new if it has one. -/
theorem append (h : Sim w s) (hrep : SymbolicBitmap.Rep M' b' a') (hold : ∀ r < w.buffers.length, M'[r]? = w.buffers[r]?)
    (hnew : ∀ r, b'.bits = some r → w.buffers.length ≤ r) :
    Sim ⟨M', w.maps ++ [b'], w.views⟩ ⟨s.maps ++ [a'], s.views⟩ := by
  have hcases : ∀ n c, (w.maps ++ [b'])[n]? = some c →
      w.maps[n]? = some c ∨ n = w.maps.length ∧ c = b' := by
    intro n c hc
    by_cases hn : n < w.maps.length
    · exact .inl (by rwa [List.getElem?_append_left hn] at hc)
    have hn' : n = w.maps.length := by
      have hlt := (List.getElem?_eq_some_iff.mp hc).1
      simp only [List.length_append, List.length_singleton] at hlt
      omega
    subst hn'
    rw [List.getElem?_concat_length] at hc
    exact .inr ⟨rfl, (Option.some_inj.mp hc).symm⟩
  have hlt : ∀ (n : Nat) (c : SymbolicBitmap) (r : Nat), w.maps[n]? = some c → c.bits = some r → r < w.buffers.length := by
    intro n c r hc hr
    obtain ⟨d, hd⟩ := h.array_of_map hc
    exact (h.rep n c d hc hd).lt_length hr
  refine ⟨by simp [h.length], fun n c d hc hd => ?_, fun n k c d r hc hd hr hr' => ?_, ?_⟩
  · rcases hcases n c hc with hc | ⟨rfl, rfl⟩
    · have hn := (List.getElem?_eq_some_iff.mp hc).1
      rw [h.length] at hn
      rw [List.getElem?_append_left hn] at hd
      exact (h.rep n c d hc hd).frame fun r hr => hold r (hlt n c r hc hr)
    · rw [h.length, List.getElem?_concat_length] at hd
      cases hd
      exact hrep
  · rcases hcases n c hc with hc' | ⟨hn, hc'⟩ <;> rcases hcases k d hd with hd' | ⟨hk, hd'⟩
    · exact h.apart n k c d r hc' hd' hr hr'
    · have hr₁ := hlt n c r hc' hr
      have hr₂ := hnew r (hd' ▸ hr')
      omega
    · have hr₁ := hlt k d r hd' hr'
      have hr₂ := hnew r (hc' ▸ hr)
      omega
    · rw [hn, hk]
  · refine h.views.imp fun v u huv => ?_
    cases huv with
    | taken hlen hbit => exact .taken hlen hbit
    | @live n r start stop c d hc hd hr hp hstart hstop =>
      have hn := (List.getElem?_eq_some_iff.mp hc).1
      have hn' := (List.getElem?_eq_some_iff.mp hd).1
      exact .live ((List.getElem?_append_left hn).trans hc) ((List.getElem?_append_left hn').trans hd) hr
        hp hstart hstop

theorem addView (h : Sim w s) {v : View} {u : ArrayView} (huv : ViewRep w.maps s.maps v u) :
    Sim { w with views := w.views ++ [v] } { s with views := s.views ++ [u] } :=
  ⟨h.length, h.rep, h.apart, List.rel_append h.views (.cons huv .nil)⟩

variable {s' : Arrays}

/-- A method that keeps the representation is a step of the simulation. -/
theorem change_step (h : Sim w s) {f : BitArray → BitArray}
    (g : Buffers → SymbolicBitmap → Option (Buffers × SymbolicBitmap)) (hs : s.change m stop f = some s')
    (hsize : ∀ a, (f a).size = a.size)
    (hspec : ∀ b a, SymbolicBitmap.Rep w.buffers b a → stop ≤ a.size → ∃ M' b', g w.buffers b = some (M', b') ∧ SymbolicBitmap.Rep M' b' (f a) ∧ SymbolicBitmap.Frame w.buffers b M' b') :
    ∃ w', w.change m g = some w' ∧ Sim w' s' := by
  simp only [Arrays.change, Option.bind_eq_bind, Option.bind_eq_some_iff] at hs
  obtain ⟨a, ha, hs⟩ := hs
  split at hs
  · rename_i hstop
    cases hs
    obtain ⟨b, hb⟩ := h.map_of_array ha
    obtain ⟨M', b', hrun, hrep, hframe⟩ := hspec b a (h.rep m b a hb ha) hstop
    refine ⟨_, ?_, h.change hb ha hrep hframe (hsize a)⟩
    simp only [World.change, hb, hrun, Option.bind_eq_bind, Option.bind_some]
    rfl
  · cases hs

theorem copy_step (h : Sim w s) (hs : s.step (.copy m) = some s') :
    ∃ w', w.step (.copy m) = some w' ∧ Sim w' s' := by
  simp only [Arrays.step, Option.bind_eq_bind, Option.bind_eq_some_iff] at hs
  obtain ⟨a, ha, hs⟩ := hs
  cases hs
  obtain ⟨b, hb⟩ := h.map_of_array ha
  obtain ⟨M', b', hrun, hrep, -, hold, hnew⟩ := (h.rep m b a hb ha).copy_spec
  refine ⟨_, ?_, h.append hrep hold hnew⟩
  simp only [World.step, hb, hrun, Option.bind_eq_bind, Option.bind_some]
  rfl

theorem view_step (h : Sim w s) (hs : s.step (.view m start stop) = some s') :
    ∃ w', w.step (.view m start stop) = some w' ∧ Sim w' s' := by
  simp only [Arrays.step, Option.bind_eq_bind, Option.bind_eq_some_iff] at hs
  obtain ⟨a, ha, hs⟩ := hs
  split at hs
  · rename_i hstop
    cases hs
    obtain ⟨b, hb⟩ := h.map_of_array ha
    obtain ⟨M', b', v, hrun, hrep, hframe, halias, hreadonly⟩ := (h.rep m b a hb ha).view_spec start hstop
    have hsim := h.change hb ha hrep hframe rfl
    have hsame : s.maps.set m a = s.maps := by
      obtain ⟨hlt, hget⟩ := List.getElem?_eq_some_iff.mp ha
      rw [← hget, List.set_getElem_self]
    rw [hsame] at hsim
    have hb' : (w.maps.set m b')[m]? = some b' := List.getElem?_set_self (List.getElem?_eq_some_iff.mp hb).1
    refine ⟨⟨M', w.maps.set m b', w.views ++ [v]⟩, ?_, hsim.addView ?_⟩
    · simp only [World.step, hb, hrun, Option.bind_eq_bind, Option.bind_some]
      rfl
    by_cases hstart : start % 8 = 0
    · obtain ⟨r, rfl, hr, hpinned⟩ := halias hstart
      rw [if_pos hstart]
      exact .live hb' ha hr hpinned hstart hstop
    · obtain ⟨bytes, rfl, hlen, hbit⟩ := hreadonly hstart
      rw [if_neg hstart]
      exact .taken hlen hbit
  · cases hs

/-- Writing to an aliasing view writes eight elements of the array. -/
theorem write_step (h : Sim w s) {v k byte : Nat} (hs : s.step (.write v k byte) = some s') :
    ∃ w', w.step (.write v k byte) = some w' ∧ Sim w' s' := by
  simp only [Arrays.step] at hs
  split at hs
  · rename_i m start stop hu
    simp only [Option.bind_eq_bind, Option.bind_eq_some_iff] at hs
    obtain ⟨a, ha, hs⟩ := hs
    split at hs
    · rename_i hk
      cases hs
      obtain ⟨view, hview, hrep⟩ : ∃ view, w.views[v]? = some view ∧
          ViewRep w.maps s.maps view (.live m start stop) := by
        obtain ⟨hlt, hget⟩ := List.getElem?_eq_some_iff.mp hu
        obtain ⟨hlen, hall⟩ := List.forall₂_iff_get.mp h.views
        have hlt' : v < w.views.length := by rwa [hlen]
        exact ⟨_, List.getElem?_eq_getElem hlt', hget ▸ hall v hlt' hlt⟩
      cases hrep with
      | @live _ r _ _ b a' hb ha' hr hpinned hstart hstop =>
        cases ha.symm.trans ha'
        obtain ⟨bits, hbits, hholds⟩ := (h.rep m b a hb ha).packed r hr
        have hlen := hholds.length
        have hindex : start / 8 + k < bits.length := by omega
        have hholds' : SymbolicBitmap.Holds (a.setByte (start + 8 * k) byte)
            (bits.set (start / 8 + k) byte) := by
          refine ⟨by rw [List.length_set]; exact hlen, hholds.isBytes.set _ hk.2, fun i hi => ?_⟩
          rw [bit_set hindex, BitArray.setByte]
          by_cases hin : start + 8 * k ≤ i ∧ i < start + 8 * k + 8
          · have hmod : i % 8 = i - (start + 8 * k) := by omega
            rw [if_pos (by omega), hmod]
            exact (if_pos hin).symm
          · rw [if_neg (by omega), hholds.bit i hi]
            exact (if_neg hin).symm
        obtain ⟨M', hmodify, hrep', hframe⟩ := SymbolicBitmap.modify_spec hbits hr
          (show b.size = (a.setByte (start + 8 * k) byte).size from (h.rep m b a hb ha).size)
          (.refl w.buffers b) (f := fun bits => some (bits.set (start / 8 + k) byte)) rfl hholds'
        have hsame : w.maps.set m b = w.maps := by
          obtain ⟨hlt, hget⟩ := List.getElem?_eq_some_iff.mp hb
          rw [← hget, List.set_getElem_self]
        have hsim := h.change hb ha hrep' hframe rfl
        rw [hsame] at hsim
        refine ⟨⟨M', w.maps, w.views⟩, ?_, hsim⟩
        have hmodify' : w.buffers.set r (bits.set (start / 8 + k) byte) = M' := by
          simpa [SymbolicBitmap.modify, hbits] using hmodify
        have hroom : k < min ((stop + 7) / 8) bits.length - start / 8 := by omega
        simp only [World.step, hview, View.write, hbits, Option.bind_eq_bind, Option.bind_some,
          if_pos (And.intro hroom hk.2), hmodify']
        rfl
    · cases hs
  · cases hs

theorem step (h : Sim w s) {op : Operation} (hs : s.step op = some s') :
    ∃ w', w.step op = some w' ∧ Sim w' s' := by
  cases op with
  | new size value =>
    cases hs
    exact ⟨_, rfl, h.append (.new w.buffers size value) (fun _ _ => rfl) (fun r hr => absurd hr (by
      simp [SymbolicBitmap.new]))⟩
  | set m i value =>
    exact h.change_step (fun M b => b.set M i value) hs (fun _ => rfl)
      fun b a hrep hi => hrep.set_spec hi value
  | setRange m start stop =>
    exact h.change_step (fun M b => b.setRange M start stop) hs (fun _ => rfl)
      fun b a hrep hstop => hrep.fillRange_spec true start hstop
  | clearRange m start stop =>
    exact h.change_step (fun M b => b.clearRange M start stop) hs (fun _ => rfl)
      fun b a hrep hstop => hrep.fillRange_spec false start hstop
  | copy m => exact h.copy_step hs
  | view m start stop => exact h.view_step hs
  | write v k byte => exact h.write_step hs

theorem run (h : Sim w s) {ops : List Operation} (hs : s.run ops = some s') :
    ∃ w', w.run ops = some w' ∧ Sim w' s' := by
  induction ops generalizing w s with
  | nil =>
    cases hs
    exact ⟨w, rfl, h⟩
  | cons op ops ih =>
    rw [Arrays.run, Option.bind_eq_some_iff] at hs
    obtain ⟨s₁, hstep, hs⟩ := hs
    obtain ⟨w₁, hstep', h₁⟩ := h.step hstep
    obtain ⟨w', hrun, h'⟩ := ih h₁ hs
    exact ⟨w', by rw [World.run, hstep', Option.bind_some, hrun], h'⟩

theorem answers (hb : SymbolicBitmap.Rep M' b a) : Answers M' b a where
  get i hi := hb.get_spec hi
  nextSet start stop hstop := by
    rw [SymbolicBitmap.nextSet, hb.next_spec hstop]
    simp
  nextClear start stop hstop := by
    rw [SymbolicBitmap.nextClear, hb.next_spec hstop]
    simp
  allSet start stop hstop := hb.allSet_spec hstop
  anySet start stop hstop := hb.anySet_spec hstop

/-- What an alias shows is the range of its map, whatever happened to the map since. -/
theorem shows (h : Sim w s) {v : View} {u : ArrayView} (hv : ViewRep w.maps s.maps v u) :
    Shows w.buffers s.maps v u := by
  cases hv with
  | @taken bytes a hlen hbit => exact ⟨bytes, a, rfl, rfl, hlen, hbit⟩
  | @live m r start stop b a hb ha hr hp hstart hstop =>
    obtain ⟨bits, hbits, hholds⟩ := (h.rep m b a hb ha).packed r hr
    have hlen := hholds.length
    refine ⟨(bits.drop (start / 8)).take ((stop + 7) / 8 - start / 8), a.slice start stop, ?_, ?_, ?_,
      fun i hi => ?_⟩
    · simp [View.read, hbits]
    · simp [ArrayView.read, ha]
    · rw [List.length_take, List.length_drop]
      change min _ _ = (stop - start + 7) / 8
      omega
    change i < stop - start at hi
    change _ = a.get (start + i)
    have hindex : 8 * (start / 8) + i = start + i := by omega
    rw [bit_slice _ _ (by omega), hindex, hholds.bit _ (by omega)]

theorem agrees (h : Sim w s) : Agrees w s where
  maps := List.forall₂_iff_get.mpr ⟨h.length, fun m hb ha =>
    answers (h.rep m _ _ (List.getElem?_eq_getElem hb) (List.getElem?_eq_getElem ha))⟩
  views := h.views.imp fun _ _ hv => h.shows hv

end Sim

/-- Whatever is done to maps, copies and views, in any order: no step raises, every query
on every map answers as on the array, and every view shows what it is a view of. -/
theorem symbolic_bitmaps_refine_arrays (ops : List Operation) (s : Arrays)
    (h : Arrays.run {} ops = some s) : ∃ w, World.run {} ops = some w ∧ Agrees w s := by
  have hinit : Sim {} {} := ⟨rfl, fun m b a hb => absurd hb (by simp), fun m n b c r hb => absurd hb (by simp),
    .nil⟩
  obtain ⟨w, hrun, hsim⟩ := hinit.run h
  exact ⟨w, hrun, hsim.agrees⟩

/-- A copy taken between two range writes, under a view that pins the first map. -/
theorem symbolic_bitmaps_of_pinned_map : ∃ w, World.run {} [.new 10 false, .setRange 0 3 9, .view 0 0 10,
    .copy 0, .clearRange 0 0 10, .view 1 3 9, .write 0 1 2, .set 1 0 true] = some w ∧
      Agrees w ⟨[(((BitArray.mk 10 fun _ => false).fillRange true 3 9).fillRange false 0 10).setByte 8 2,
          ((BitArray.mk 10 fun _ => false).fillRange true 3 9).set 0 true],
        [.live 0 0 10, .taken (((BitArray.mk 10 fun _ => false).fillRange true 3 9).slice 3 9)]⟩ :=
  symbolic_bitmaps_refine_arrays _ _ rfl

end Angr
