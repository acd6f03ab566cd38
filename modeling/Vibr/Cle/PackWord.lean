import Vibr.Cle.ReadOnlyView
import Vibr.Lib.Bytes

/-!
# Words

`unpack_word` and `pack_word` of `cle/memory.py`. A word of a size that `struct` has a
format character for is read and written in the first byte array that is found; any
other goes through `load` and `store`.
-/

namespace Cle

open Bisect Bytes

/-- `archinfo.Endness` -/
inductive Endness where
  | BE
  | LE
  | ME
deriving DecidableEq

/-- What words depend on in an architecture. -/
structure Arch where
  bytes : Int
  memoryEndness : Endness

/-- The exceptions of `unpack_word` and `pack_word`. -/
inductive WordError where
  | ValueError
  | OverflowError
  | KeyError
  | StructError
deriving DecidableEq

def UnpackError.toWordError : UnpackError → WordError
  | .KeyError => .KeyError
  | .StructError => .StructError

/-! ## Integers as bytes -/

inductive Byteorder where
  | little
  | big
deriving DecidableEq

/-- `_byteorder` -/
def byteorder : Endness → Except WordError Byteorder
  | .BE => .ok .big
  | .LE => .ok .little
  | .ME => .error .ValueError

namespace Byteorder

/-- Between the bytes in memory and the bytes with the most significant first. -/
def arrange : Byteorder → List UInt8 → List UInt8
  | .big, bs => bs
  | .little, bs => bs.reverse

@[simp] theorem arrange_arrange (order : Byteorder) (bs : List UInt8) : order.arrange (order.arrange bs) = bs := by
  cases order <;> simp [arrange]

@[simp] theorem length_arrange (order : Byteorder) (bs : List UInt8) : (order.arrange bs).length = bs.length := by
  cases order <;> simp [arrange]

end Byteorder

/-- The integers that `n` bytes hold. -/
def inRange (signed : Bool) (n : Nat) (v : Int) : Bool :=
  if signed then -2 ^ (8 * n - 1) ≤ v ∧ v < 2 ^ (8 * n - 1) else 0 ≤ v ∧ v < 2 ^ (8 * n)

/-- The bytes of an integer, in two's complement. -/
def encode (order : Byteorder) (n : Nat) (v : Int) : List UInt8 :=
  order.arrange ((bytesBE n (v % 2 ^ (8 * n)).toNat).map UInt8.ofNat)

/-- `int.to_bytes`; `none` where it raises `OverflowError`. -/
def toBytes (v : Int) (n : Nat) (order : Byteorder) (signed : Bool) : Option (List UInt8) :=
  if inRange signed n v then some (encode order n v) else none

/-- `int.from_bytes` -/
def fromBytes (order : Byteorder) (signed : Bool) (data : List UInt8) : Int :=
  let v : Int := ofBytesBE ((order.arrange data).map UInt8.toNat)
  if signed ∧ 2 ^ (8 * data.length - 1) ≤ v then v - 2 ^ (8 * data.length) else v

/-! ## Formats -/

/-- `_STRUCT_WORD_SIZES` -/
def structWordSizes : List Int := [1, 2, 4, 8]

/-- A format of one integer: a byte order, and a format character by its size and sign. -/
structure StructFmt where
  order : Byteorder
  size : Nat
  signed : Bool

/-- `Arch.struct_fmt` -/
def Arch.structFmt (self : Arch) (size : Option Int) (signed : Bool) (endness : Option Endness) :
    Except WordError StructFmt :=
  let size := size.getD self.bytes
  let order : Except WordError Byteorder := match endness.getD self.memoryEndness with
    | .BE => .ok .big
    | .LE => .ok .little
    | .ME => .error .ValueError
  match order with
  | .error e => .error e
  | .ok order =>
    if size = 8 then .ok ⟨order, 8, signed⟩
    else if size = 4 then .ok ⟨order, 4, signed⟩
    else if size = 2 then .ok ⟨order, 2, signed⟩
    else if size = 1 then .ok ⟨order, 1, signed⟩
    else .error .ValueError

def StructFmt.format (fmt : StructFmt) : Format Int :=
  { calcsize := some fmt.size, decode := fromBytes fmt.order fmt.signed }

/-- What the module `struct` makes of a format and the values that are packed with it. -/
structure Packing where
  calcsize : Option Nat
  /-- The bytes that are written, or `none` if the format or the number of values is refused. -/
  bytes : Option (List UInt8)
  /-- Whether all values could be converted. -/
  accepted : Bool
  length_bytes : ∀ bs, bytes = some bs → calcsize = some bs.length

namespace Packing

variable (packing : Packing)

/-- What remains of a format when nothing is read. -/
def format : Format Unit := { calcsize := packing.calcsize, decode := fun _ => () }

/-- `struct.pack_into`: the buffer if it is written, and whether it returns; it raises
`struct.error` otherwise. -/
def packInto (buffer : List UInt8) (offset : Int) : Option (List UInt8) × Bool :=
  match packing.bytes with
  | none => (none, false)
  | some bytes =>
    if buffer.length - offset < bytes.length then (none, false)
    else (some (setSlice buffer offset.toNat bytes.length bytes), packing.accepted)

end Packing

/-- What is written over a word: the bytes are cleared before the value is looked at. -/
def StructFmt.written (fmt : StructFmt) (value : Int) : List UInt8 :=
  (toBytes value fmt.size fmt.order fmt.signed).getD (List.replicate fmt.size 0)

theorem StructFmt.length_written (fmt : StructFmt) (value : Int) : (fmt.written value).length = fmt.size := by
  unfold written toBytes encode
  split <;> simp

/-- Packing one integer. -/
def StructFmt.packing (fmt : StructFmt) (value : Int) : Packing where
  calcsize := some fmt.size
  bytes := some (fmt.written value)
  accepted := (toBytes value fmt.size fmt.order fmt.signed).isSome
  length_bytes := by
    intro bs hbs
    cases hbs
    rw [fmt.length_written]

/-! ## Packing -/

mutual

/-- The backer with other contents for the first byte array with `p` that is yielded
from it. -/
def Backer.setFirst (p : Leaf → Bool) (addr : Int) (new : List UInt8) : Backer → Option Backer
  | .bytes start data => if p (start, data) then some (.bytes start new) else none
  | .clemory start consecutive minAddr maxAddr backers =>
    if maxAddr < addr - start then none
    else
      (setFirstFromIndex (fun l => p (l.shift start)) (addr - start) new
        (bisect (backers.map Backer.calculateEnd) (addr - start)) backers).map
          (.clemory start consecutive minAddr maxAddr)

def setFirstFromIndex (p : Leaf → Bool) (addr : Int) (new : List UInt8) :
    (index : Nat) → List Backer → Option (List Backer)
  | _, [] => none
  | index + 1, backer :: rest => (setFirstFromIndex p addr new index rest).map (backer :: ·)
  | 0, backer :: rest =>
    match backer.setFirst p addr new with
    | some backer => some (backer :: rest)
    | none => (setFirstFromIndex p addr new 0 rest).map (backer :: ·)

end

namespace Clemory

variable (self : Clemory)

/-- The memory with other contents for the first byte array with `p` that `backers`
yields. -/
def setFirst (p : Leaf → Bool) (addr : Int) (new : List UInt8) : Clemory :=
  if self.maxAddr < addr then self
  else
    { self with
      backers := (setFirstFromIndex p addr new (bisect (self.backers.map Backer.calculateEnd) addr)
        self.backers).getD self.backers }

/-- Packing into a byte array of a memory, with the error that is reported. -/
def packAt (packing : Packing) (addr : Int) (l : Leaf) (write : List UInt8 → Clemory) : Clemory × Option UnpackError :=
  let error := classifyStructError packing.format (l.2.length - (addr - l.1))
  match packing.packInto l.2 (addr - l.1) with
  | (none, _) => (self, some error)
  | (some new, returns) => (write new, if returns then none else some error)

/-- `ClemoryBase.pack`: the memory, and the exception that is raised. -/
def pack (addr : Int) (packing : Packing) : Clemory × Option UnpackError :=
  match self.backersFrom addr with
  | [] => (self, some .KeyError)
  | l :: _ =>
    if l.1 > addr then (self, some .KeyError)
    else self.packAt packing addr l (self.setFirst (fun _ => true) addr)

variable (arch : Arch)

/-- `unpack_word` -/
def unpackWord (addr : Int) (size : Option Int) (signed : Bool) (endness : Option Endness) : Except WordError Int :=
  let wordSize := size.getD arch.bytes
  let wordEndness := endness.getD arch.memoryEndness
  if wordSize ≤ 0 then .error .ValueError
  else if wordSize ∉ structWordSizes then
    match self.load addr wordSize.toNat with
    | none => .error .KeyError
    | some data =>
      if data.length ≠ wordSize then .error .KeyError
      else (byteorder wordEndness).map fun order => fromBytes order signed data
  else
    match arch.structFmt (some wordSize) signed (some wordEndness) with
    | .error e => .error e
    | .ok fmt => (self.unpack addr fmt.format).mapError UnpackError.toWordError

/-- The integer that is packed: `data &= (1 << (word_size * 8)) - 1` without a sign. -/
def wordOf (data size : Int) (signed : Bool) : Int := if signed then data else data % 2 ^ (8 * size.toNat)

/-- `pack_word`: the memory, and the exception that is raised. -/
def packWord (addr data : Int) (size : Option Int) (signed : Bool) (endness : Option Endness) :
    Clemory × Option WordError :=
  let wordSize := size.getD arch.bytes
  let wordEndness := endness.getD arch.memoryEndness
  if wordSize ≤ 0 then (self, some .ValueError)
  else
    let data := wordOf data wordSize signed
    if wordSize ∉ structWordSizes then
      match self.load addr wordSize.toNat with
      | none => (self, some .KeyError)
      | some old =>
        if old.length ≠ wordSize then (self, some .KeyError)
        else
          match byteorder wordEndness with
          | .error e => (self, some e)
          | .ok order =>
            match toBytes data wordSize.toNat order signed with
            | none => (self, some .OverflowError)
            | some bytes =>
              ((self.store addr bytes).1, if (self.store addr bytes).2 then none else some .KeyError)
    else
      match arch.structFmt (some wordSize) signed (some wordEndness) with
      | .error e => (self, some e)
      | .ok fmt => (self.pack addr (fmt.packing data)).map id (Option.map UnpackError.toWordError)

end Clemory

/-! ## Round trip of bytes -/

section RoundTrip

variable {order : Byteorder} {n : Nat} {v : Int} {signed : Bool}

@[simp] theorem length_encode : (encode order n v).length = n := by simp [encode]

theorem ofBytesBE_encode :
    (ofBytesBE ((order.arrange (encode order n v)).map UInt8.toNat) : Int) = v % 2 ^ (8 * n) := by
  have hpos : (0 : Int) < 2 ^ (8 * n) := by positivity
  have hlt : (v % 2 ^ (8 * n)).toNat < 256 ^ n := by
    have hmod := Int.emod_lt_of_pos v hpos
    have hpow : (2 : Nat) ^ (8 * n) = 256 ^ n := pow_mul 2 8 n
    rw [← hpow]
    zify
    rw [Int.toNat_of_nonneg (Int.emod_nonneg v hpos.ne')]
    exact hmod
  have hbytes : ((bytesBE n (v % 2 ^ (8 * n)).toNat).map UInt8.ofNat).map UInt8.toNat =
      bytesBE n (v % 2 ^ (8 * n)).toNat := by
    rw [List.map_map]
    refine (List.map_congr_left fun b hb => ?_).trans (List.map_id _)
    exact UInt8.toNat_ofNat_of_lt (lt_of_mem_bytesBE hb)
  rw [encode, Byteorder.arrange_arrange, hbytes, ofBytesBE_bytesBE, Nat.mod_eq_of_lt hlt,
    Int.toNat_of_nonneg (Int.emod_nonneg v hpos.ne')]

/-- An integer is read back from its bytes if they can hold it. -/
theorem fromBytes_encode (hn : 0 < n) (hrange : inRange signed n v = true) :
    fromBytes order signed (encode order n v) = v := by
  have htwice : (2 : Int) ^ (8 * n) = 2 * 2 ^ (8 * n - 1) := by
    rw [← pow_succ']
    congr 1
    omega
  have hpos : (0 : Int) < 2 ^ (8 * n - 1) := by positivity
  unfold fromBytes
  rw [ofBytesBE_encode, length_encode]
  cases signed with
  | false =>
    simp only [inRange, Bool.false_eq_true, if_false, decide_eq_true_eq] at hrange
    simp only [Bool.false_eq_true, false_and, if_false]
    exact Int.emod_eq_of_lt hrange.1 hrange.2
  | true =>
    simp only [inRange, if_true, decide_eq_true_eq] at hrange
    simp only [true_and]
    by_cases hneg : v < 0
    · have hmod : v % 2 ^ (8 * n) = v + 2 ^ (8 * n) := by
        rw [← Int.add_emod_right, Int.emod_eq_of_lt (by omega) (by omega)]
      rw [hmod, if_pos (by omega)]
      omega
    · rw [Int.emod_eq_of_lt (by omega) (by omega), if_neg (by omega)]

/-- Without a sign, the integer that is packed is in range. -/
theorem inRange_wordOf (size : Int) : inRange false size.toNat (Clemory.wordOf v size false) = true := by
  have hpos : (0 : Int) < 2 ^ (8 * size.toNat) := by positivity
  simp only [inRange, Clemory.wordOf, Bool.false_eq_true, if_false, decide_eq_true_eq]
  exact ⟨Int.emod_nonneg v hpos.ne', Int.emod_lt_of_pos v hpos⟩

end RoundTrip

/-! ## Memories of byte arrays -/

/-- A memory whose backers are byte arrays at ranges apart. -/
structure ByteArrays (m : Clemory) : Prop where
  shape : Shape m
  arrays : ∀ b ∈ m.backers, b.child? = none
  disjoint : Disjoint m

theorem Built.byteArrays {m : Clemory} (h : Built m) (harrays : ∀ b ∈ m.backers, b.child? = none)
    (hdisjoint : Disjoint m) : ByteArrays m := ⟨h.shape.here, harrays, hdisjoint⟩

variable {m : Clemory} {addr : Int}

theorem ByteArrays.regular (h : ByteArrays m) : Every Regular m := by
  refine .mk m ⟨h.shape, h.disjoint, ?_⟩ fun b hb c hc => ?_
  · have hsorted := h.shape.sorted
    rw [List.pairwise_map] at hsorted
    rw [Ordered, List.pairwise_map]
    refine (hsorted.and h.disjoint).imp_of_mem fun {b b'} hb hb' hbb' => ?_
    cases b with
    | clemory start consecutive minAddr maxAddr backers => cases h.arrays _ hb
    | bytes start data =>
      cases b' with
      | clemory start consecutive minAddr maxAddr backers => cases h.arrays _ hb'
      | bytes start' data' =>
        -- an array that ended before the first one would start in it
        have hne := List.length_pos_iff.mpr (h.shape.arrays start' data' hb')
        have hle : start ≤ start' := hbb'.1
        have hapart := hbb'.2 start'
        simp only [Backer.low, Backer.calculateEnd] at hapart ⊢
        omega
  · rw [h.arrays b hb] at hc
    cases hc

/-- Where the first array that is found from an address lies among the backers. -/
theorem ByteArrays.first (h : ByteArrays m) {l : Leaf} {ls : List Leaf} (hfirst : m.backersFrom addr = l :: ls) :
    ∃ front back, m.backers = front ++ .bytes l.1 l.2 :: back ∧ ¬ m.maxAddr < addr ∧
      bisect (m.backers.map Backer.calculateEnd) addr = front.length := by
  unfold Clemory.backersFrom at hfirst
  split at hfirst
  · cases hfirst
  rename_i hmax
  generalize bisect (m.backers.map Backer.calculateEnd) addr = i at hfirst ⊢
  rw [iterFromIndex_eq] at hfirst
  have hsplit := List.take_append_drop i m.backers
  cases hdrop : m.backers.drop i with
  | nil => simp [hdrop] at hfirst
  | cons b back =>
    rw [hdrop] at hfirst hsplit
    have hb : b ∈ m.backers := List.mem_of_mem_drop (hdrop ▸ List.mem_cons_self)
    have hi : i < m.backers.length := by
      by_contra hle
      simp [List.drop_eq_nil_of_le (Nat.le_of_not_lt hle)] at hdrop
    cases b with
    | clemory start consecutive minAddr maxAddr backers => cases h.arrays _ hb
    | bytes start data =>
      rw [List.flatMap_cons, Backer.iterFrom, List.singleton_append, List.cons.injEq] at hfirst
      obtain ⟨rfl, -⟩ := hfirst
      refine ⟨m.backers.take i, back, hsplit.symm, hmax, ?_⟩
      rw [List.length_take]
      omega

theorem setFirstFromIndex_append (p : Leaf → Bool) (new : List UInt8) (front bs : List Backer) :
    setFirstFromIndex p addr new front.length (front ++ bs) =
      (setFirstFromIndex p addr new 0 bs).map (front ++ ·) := by
  induction front with
  | nil => simp
  | cons b front ih =>
    rw [List.length_cons, List.cons_append, setFirstFromIndex, ih, Option.map_map]
    rfl

theorem storeFromIndex_append (base : Int) (p : Progress) (front bs : List Backer) :
    storeFromIndex base addr p front.length (front ++ bs) =
      (front ++ (storeFromIndex base addr p 0 bs).1, (storeFromIndex base addr p 0 bs).2) := by
  induction front with
  | nil => rfl
  | cons b front ih =>
    rw [List.length_cons, List.cons_append, storeFromIndex, ih]
    rfl

theorem storeFromIndex_finished (base : Int) {bs : List Backer} (harrays : ∀ b ∈ bs, b.child? = none) :
    storeFromIndex base addr .finished 0 bs = (bs, .finished) := by
  induction bs with
  | nil => rfl
  | cons b bs ih =>
    cases b with
    | clemory start consecutive minAddr maxAddr backers => cases harrays _ List.mem_cons_self
    | bytes start data =>
      rw [storeFromIndex, Backer.store]
      simp only [storeBytes, ih fun b hb => harrays b (List.mem_cons_of_mem _ hb)]

section First

variable (h : ByteArrays m) {l : Leaf} {ls : List Leaf} (hfirst : m.backersFrom addr = l :: ls)

include h hfirst

/-- The first array is the one with the new contents. -/
theorem ByteArrays.backersFrom_setFirst {new : List UInt8} (hlength : new.length = l.2.length) :
    (m.setFirst (fun _ => true) addr new).backersFrom addr = (l.1, new) :: ls := by
  obtain ⟨front, back, hbackers, hmax, hindex⟩ := h.first hfirst
  have hset : m.setFirst (fun _ => true) addr new = { m with backers := front ++ .bytes l.1 new :: back } := by
    unfold Clemory.setFirst
    rw [if_neg hmax, hindex, hbackers, setFirstFromIndex_append, setFirstFromIndex, Backer.setFirst, if_pos rfl]
    rfl
  have hends : (front ++ .bytes l.1 new :: back).map Backer.calculateEnd = m.backers.map Backer.calculateEnd := by
    simp [hbackers, Backer.calculateEnd, hlength]
  unfold Clemory.backersFrom at hfirst ⊢
  rw [if_neg hmax, hindex, iterFromIndex_eq, hbackers, List.drop_left, List.flatMap_cons, Backer.iterFrom,
    List.singleton_append, List.cons.injEq] at hfirst
  rw [hset]
  dsimp only
  rw [if_neg hmax, hends, hindex, iterFromIndex_eq, List.drop_left, List.flatMap_cons, Backer.iterFrom,
    List.singleton_append, hfirst.2]

/-- Changing bytes of the first array is storing them. -/
theorem ByteArrays.store_eq {bytes : List UInt8} (hlo : l.1 ≤ addr)
    (hhi : addr + bytes.length ≤ l.stop) :
    (m.store addr bytes).1 = m.setFirst (fun _ => true) addr (setSlice l.2 (addr - l.1).toNat bytes.length bytes) := by
  obtain ⟨front, back, hbackers, hmax, hindex⟩ := h.first hfirst
  have hback : ∀ b ∈ back, b.child? = none := by
    intro b hb
    refine h.arrays b ?_
    rw [hbackers]
    exact List.mem_append_right _ (List.mem_cons_of_mem _ hb)
  have hsize : (bytes.length : Int) ≤ l.2.length - (addr - l.1) := by
    unfold Leaf.stop at hhi
    omega
  have hcut : bytes.drop (cut bytes (l.2.length - (addr - l.1))) = [] := by
    refine List.drop_eq_nil_of_le ?_
    unfold cut
    split <;> omega
  unfold Clemory.store Clemory.setFirst
  rw [if_neg hmax, if_neg hmax, hindex, hbackers, storeFromIndex_append, setFirstFromIndex_append, storeFromIndex,
    Backer.store, Int.zero_add, storeBytes, if_neg (by omega)]
  simp only [hcut, if_pos hsize, if_true, storeFromIndex_finished 0 hback, setFirstFromIndex, Backer.setFirst, if_true]
  rfl

end First

/-! ## Packing through struct -/

/-- The `n` bytes at an address lie in one array. -/
def Clemory.HoldsWord (m : Clemory) (addr n : Int) : Prop := ∃ l ∈ m.leaves, l.1 ≤ addr ∧ addr + n ≤ l.stop

theorem ByteArrays.mem_of_first (h : ByteArrays m) {l : Leaf} {ls : List Leaf} (hfirst : m.backersFrom addr = l :: ls) :
    l ∈ m.leaves ∧ addr < l.stop := by
  have hmem : l ∈ m.leaves.filter fun l => addr < l.stop := by
    rw [← h.regular.backersFrom_eq, hfirst]
    exact List.mem_cons_self
  simpa using hmem

/-- The array with a word is the first that is found. -/
theorem ByteArrays.first_of_holds (h : ByteArrays m) {n : Int} (hn : 0 < n) (hholds : m.HoldsWord addr n) :
    ∃ (l : Leaf) (ls : List Leaf), m.backersFrom addr = l :: ls ∧ l.1 ≤ addr ∧ addr + n ≤ l.stop := by
  obtain ⟨l, hl, hlo, hhi⟩ := hholds
  have hmem : l ∈ m.backersFrom addr := by
    rw [h.regular.backersFrom_eq, List.mem_filter, decide_eq_true_eq]
    exact ⟨hl, by omega⟩
  cases hfirst : m.backersFrom addr with
  | nil => simp [hfirst] at hmem
  | cons l' ls =>
    have hsorted : (l' :: ls).Pairwise fun (l l' : Leaf) => l.stop ≤ l'.1 := by
      rw [← hfirst, h.regular.backersFrom_eq]
      exact h.regular.sorted_leaves.ordered.filter _
    have hend := (h.mem_of_first hfirst).2
    rw [hfirst] at hmem
    rcases List.mem_cons.mp hmem with rfl | hmem
    · exact ⟨l, ls, rfl, hlo, hhi⟩
    · have := List.rel_of_pairwise_cons hsorted hmem
      omega

theorem ByteArrays.mapped (h : ByteArrays m) {n : Nat} (hholds : m.HoldsWord addr n) :
    ∀ i < n, (m.getItem (addr + (i : Nat))).isSome := by
  intro i hi
  obtain ⟨l, hl, hlo, hhi⟩ := hholds
  rw [h.regular.shape.getItem_eq, lookup_isSome]
  exact ⟨l, hl, by omega, by omega⟩

/-- A store of a word that is backed. -/
theorem ByteArrays.store_spec (h : ByteArrays m) {bytes : List UInt8} (hbytes : bytes ≠ [])
    (hmapped : ∀ i < bytes.length, (m.getItem (addr + (i : Nat))).isSome) :
    (m.store addr bytes).2 = true ∧ ∀ k, (m.store addr bytes).1.getItem k =
      if addr ≤ k ∧ k < addr + bytes.length then bytes[(k - addr).toNat]? else m.getItem k := by
  have hfirst : (m.getItem addr).isSome := by
    simpa using hmapped 0 (List.length_pos_iff.mpr hbytes)
  obtain ⟨hdone, -, hget⟩ := h.regular.store_spec hfirst hmapped
  exact ⟨hdone, hget⟩

theorem isSome_toBytes {n : Nat} {order : Byteorder} {signed : Bool} {v : Int} :
    (toBytes v n order signed).isSome = inRange signed n v := by
  unfold toBytes
  cases inRange signed n v <;> rfl

theorem StructFmt.packInto_eq (fmt : StructFmt) {buffer : List UInt8} {offset : Int} (value : Int)
    (hsize : offset + fmt.size ≤ buffer.length) :
    (fmt.packing value).packInto buffer offset =
      (some (setSlice buffer offset.toNat fmt.size (fmt.written value)), inRange fmt.signed fmt.size value) := by
  simp only [Packing.packInto, StructFmt.packing, fmt.length_written, isSome_toBytes]
  rw [if_neg (by omega)]

theorem slice_setSlice (backer new : List UInt8) {offset : Nat} (hsize : offset + new.length ≤ backer.length) :
    slice (setSlice backer offset new.length new) offset new.length = new := by
  unfold slice setSlice
  have htake : (backer.take offset).length = offset := by
    rw [List.length_take]
    omega
  simp only [Int.toNat_natCast, List.append_assoc]
  rw [List.drop_left' htake, List.take_left]

variable (fmt : StructFmt) (value : Int)

/-- Packing a word that is not in one array changes nothing. -/
theorem ByteArrays.pack_outside (h : ByteArrays m) (houtside : ¬ m.HoldsWord addr fmt.size) :
    ∃ e, m.pack addr (fmt.packing value) = (m, some e) := by
  unfold Clemory.pack
  cases hfirst : m.backersFrom addr with
  | nil => exact ⟨_, rfl⟩
  | cons l ls =>
    dsimp only
    by_cases hlo : l.1 > addr
    · exact ⟨_, if_pos hlo⟩
    have hshort : l.2.length - (addr - l.1) < fmt.size := by
      by_contra hfits
      refine houtside ⟨l, (h.mem_of_first hfirst).1, by omega, ?_⟩
      unfold Leaf.stop
      omega
    have hunwritten : (fmt.packing value).packInto l.2 (addr - l.1) = (none, false) := by
      simp only [Packing.packInto, StructFmt.packing, fmt.length_written]
      rw [if_pos hshort]
    rw [if_neg hlo, Clemory.packAt, hunwritten]
    exact ⟨_, rfl⟩

/-- Packing a word in one array is the store of its bytes, or of zeros. -/
theorem ByteArrays.pack_inside (h : ByteArrays m) (hsize : 0 < fmt.size) (hholds : m.HoldsWord addr fmt.size) :
    m.pack addr (fmt.packing value) =
      ((m.store addr (fmt.written value)).1, if inRange fmt.signed fmt.size value then none else some .StructError) := by
  obtain ⟨l, ls, hfirst, hlo, hhi⟩ := h.first_of_holds (by omega) hholds
  have hfits : addr - l.1 + fmt.size ≤ l.2.length := by
    unfold Leaf.stop at hhi
    omega
  rw [h.store_eq hfirst hlo (by rw [fmt.length_written]; exact hhi), fmt.length_written]
  unfold Clemory.pack
  rw [hfirst]
  dsimp only
  rw [if_neg (by omega), Clemory.packAt, fmt.packInto_eq value hfits]
  cases inRange fmt.signed fmt.size value with
  | true => rfl
  | false =>
    have hroom : ¬ (l.2.length - (addr - l.1) < (fmt.size : Int)) := by omega
    simp only [classifyStructError, Packing.format, StructFmt.packing, if_neg hroom]

/-- A word that has been packed in one array is read back. -/
theorem ByteArrays.unpack_pack (h : ByteArrays m) (hsize : 0 < fmt.size) (hholds : m.HoldsWord addr fmt.size)
    (hrange : inRange fmt.signed fmt.size value = true) :
    (m.pack addr (fmt.packing value)).1.unpack addr fmt.format = .ok value := by
  obtain ⟨l, ls, hfirst, hlo, hhi⟩ := h.first_of_holds (by omega) hholds
  have hbytes : fmt.written value = encode fmt.order fmt.size value := by
    unfold StructFmt.written toBytes
    rw [if_pos hrange]
    rfl
  have hlength : (fmt.written value).length = fmt.size := fmt.length_written value
  have hfits : (addr - l.1).toNat + fmt.size ≤ l.2.length := by
    unfold Leaf.stop at hhi
    omega
  have hoffset : ((addr - l.1).toNat : Int) = addr - l.1 := Int.toNat_of_nonneg (by omega)
  have hnew : (setSlice l.2 (addr - l.1).toNat fmt.size (fmt.written value)).length = l.2.length := by
    simp only [setSlice, List.length_append, List.length_take, List.length_drop, hlength]
    omega
  rw [h.pack_inside fmt value hsize hholds, h.store_eq hfirst hlo (by rw [hlength]; exact hhi), hlength]
  unfold Clemory.unpack
  rw [h.backersFrom_setFirst hfirst hnew, unpackFirst, if_neg (by dsimp only; omega), unpackAt, Format.unpackFrom]
  have hroom : ¬ (l.2.length - (addr - l.1) < (fmt.size : Int)) := by omega
  have hslice := slice_setSlice l.2 (fmt.written value) (by rw [hlength]; exact hfits)
  rw [hlength, hoffset] at hslice
  simp only [StructFmt.format, hnew, if_neg hroom, hslice, hbytes ▸ fromBytes_encode hsize hrange]

/-! ## Words -/

theorem read_mapped {get : Int → Option UInt8} {a : Int} {n : Nat} (h : (read get a n).length = n) :
    ∀ i < n, (get (a + (i : Nat))).isSome := by
  induction n generalizing a with
  | zero => intro i hi; omega
  | succ n ih =>
    rw [read] at h
    cases hget : get a with
    | none => simp [hget] at h
    | some v =>
      rw [hget, List.length_cons, Nat.add_right_cancel_iff] at h
      intro i hi
      cases i with
      | zero => simp [hget]
      | succ i =>
        have hrest := ih h i (by omega)
        rwa [Int.add_assoc, Int.add_comm 1, ← Nat.cast_succ] at hrest

variable (arch : Arch) (v : Int) (size : Option Int) (signed : Bool) (endness : Option Endness)

/-- The size of a word. -/
abbrev Arch.wordSize : Int := size.getD arch.bytes

/-- Packing a word raises and leaves the memory as it was, or the word reads back and no
other address has changed. -/
def Clemory.PacksExactly (m : Clemory) (addr : Int) : Prop :=
  match m.packWord arch addr v size signed endness with
  | (m', some _) => ∀ k, m'.getItem k = m.getItem k
  | (m', none) =>
    m'.unpackWord arch addr size signed endness =
        .ok (if signed then v else v % 2 ^ (8 * (arch.wordSize size).toNat)) ∧
      ∀ k, ¬ (addr ≤ k ∧ k < addr + arch.wordSize size) → m'.getItem k = m.getItem k

/-- An integer with a sign is out of range of a word that goes through `struct`, and the
word lies in one array and is not zero. -/
def Clemory.ClearsWord (m : Clemory) (addr : Int) : Prop :=
  signed = true ∧ inRange true (arch.wordSize size).toNat v = false ∧ arch.wordSize size ∈ structWordSizes ∧
    endness.getD arch.memoryEndness ≠ .ME ∧ m.HoldsWord addr (arch.wordSize size) ∧
      ∃ k, addr ≤ k ∧ k < addr + arch.wordSize size ∧ m.getItem k ≠ some 0

variable {arch v size signed endness}

theorem Clemory.packsExactly_of_unchanged {e : WordError}
    (h : m.packWord arch addr v size signed endness = (m, some e)) :
    m.PacksExactly arch v size signed endness addr := by
  unfold PacksExactly
  rw [h]
  exact fun k => rfl

theorem Clemory.packsExactly_of_packed {m' : Clemory}
    (h : m.packWord arch addr v size signed endness = (m', none))
    (hunpack : m'.unpackWord arch addr size signed endness = .ok (wordOf v (arch.wordSize size) signed))
    (hother : ∀ k, ¬ (addr ≤ k ∧ k < addr + arch.wordSize size) → m'.getItem k = m.getItem k) :
    m.PacksExactly arch v size signed endness addr := by
  unfold PacksExactly
  rw [h]
  exact ⟨hunpack, hother⟩

/-- What packing a word as bytes comes to. -/
theorem Clemory.packWord_bytes (hpos : 0 < arch.wordSize size) (hsize : arch.wordSize size ∉ structWordSizes) :
    (∃ e, m.packWord arch addr v size signed endness = (m, some e)) ∨
      ∃ old order bytes, m.load addr (arch.wordSize size).toNat = some old ∧ old.length = arch.wordSize size ∧
        byteorder (endness.getD arch.memoryEndness) = .ok order ∧
        toBytes (wordOf v (arch.wordSize size) signed) (arch.wordSize size).toNat order signed = some bytes ∧
        m.packWord arch addr v size signed endness =
          ((m.store addr bytes).1, if (m.store addr bytes).2 then none else some .KeyError) := by
  unfold packWord
  simp only [if_neg (not_le.mpr hpos), if_pos hsize]
  cases m.load addr (arch.wordSize size).toNat with
  | none => exact .inl ⟨_, rfl⟩
  | some old =>
    by_cases hlength : old.length = arch.wordSize size
    swap
    · exact .inl ⟨_, if_pos hlength⟩
    simp only [hlength, ne_eq, not_true, if_false]
    cases byteorder (endness.getD arch.memoryEndness) with
    | error e => exact .inl ⟨_, rfl⟩
    | ok order =>
      cases hbytes : toBytes (wordOf v (arch.wordSize size) signed) (arch.wordSize size).toNat order signed with
      | none => exact .inl ⟨.OverflowError, by simp only [hbytes]⟩
      | some bytes => exact .inr ⟨old, order, bytes, rfl, hlength, rfl, hbytes, by simp only [hbytes]⟩

theorem toBytes_eq_some {n : Nat} {order : Byteorder} {bytes : List UInt8} :
    toBytes v n order signed = some bytes ↔ inRange signed n v = true ∧ bytes = encode order n v := by
  unfold toBytes
  split <;> simp [*, eq_comm]

/-- A word that is stored as bytes is packed exactly. -/
theorem ByteArrays.packsExactly_bytes (h : ByteArrays m) (hpos : 0 < arch.wordSize size)
    (hsize : arch.wordSize size ∉ structWordSizes) : m.PacksExactly arch v size signed endness addr := by
  have hn : ((arch.wordSize size).toNat : Int) = arch.wordSize size := Int.toNat_of_nonneg hpos.le
  rcases Clemory.packWord_bytes hpos hsize with ⟨e, hpack⟩ | ⟨old, order, bytes, hold, hlength, horder, hbytes, hpack⟩
  · exact Clemory.packsExactly_of_unchanged hpack
  obtain ⟨hrange, rfl⟩ := toBytes_eq_some.mp hbytes
  have hload := h.regular.load_eq addr (arch.wordSize size).toNat
  rw [hold] at hload
  split at hload
  swap
  · cases hload
  rename_i hfirst
  rw [Option.some.injEq] at hload
  have hfull : (read m.getItem addr (arch.wordSize size).toNat).length = (arch.wordSize size).toNat := by
    rw [← hload]
    omega
  have hmapped := read_mapped hfull
  generalize hword : Clemory.wordOf v (arch.wordSize size) signed = word at hrange hpack
  obtain ⟨hdone, hread, hother⟩ := h.regular.agrees.store addr (encode order (arch.wordSize size).toNat word) hfirst
    (by rw [length_encode]; exact hmapped)
  rw [length_encode] at hread hother
  rw [hdone, if_pos rfl] at hpack
  refine Clemory.packsExactly_of_packed hpack ?_ (by rw [← hn]; exact hother)
  unfold Clemory.unpackWord
  simp only [if_neg (not_le.mpr hpos), if_pos hsize, hread, length_encode, hn, ne_eq, not_true, if_false, horder]
  rw [Except.map, fromBytes_encode (by omega) hrange, hword]

theorem pos_of_mem_structWordSizes {n : Int} (hn : n ∈ structWordSizes) : 0 < n := by
  simp only [structWordSizes, List.mem_cons, List.not_mem_nil, or_false] at hn
  omega

theorem Arch.structFmt_eq (hsize : arch.wordSize size ∈ structWordSizes) (e : Endness) :
    arch.structFmt (some (arch.wordSize size)) signed (some e) =
      (byteorder e).map fun order => ⟨order, (arch.wordSize size).toNat, signed⟩ := by
  unfold structFmt
  simp only [Option.getD_some]
  generalize arch.wordSize size = n at hsize ⊢
  simp only [structWordSizes, List.mem_cons, List.not_mem_nil, or_false] at hsize
  rcases hsize with rfl | rfl | rfl | rfl <;> cases e <;> rfl

/-- Packing a word through `struct`. -/
theorem Clemory.packWord_struct (hsize : arch.wordSize size ∈ structWordSizes) {order : Byteorder}
    (horder : byteorder (endness.getD arch.memoryEndness) = .ok order) :
    m.packWord arch addr v size signed endness =
      (m.pack addr (StructFmt.packing ⟨order, (arch.wordSize size).toNat, signed⟩
        (wordOf v (arch.wordSize size) signed))).map id (Option.map UnpackError.toWordError) := by
  have hpos : 0 < arch.wordSize size := pos_of_mem_structWordSizes hsize
  unfold packWord
  simp only [if_neg (not_le.mpr hpos), if_neg (not_not.mpr hsize), Arch.structFmt_eq hsize, horder, Except.map]

theorem Clemory.unpackWord_struct (hsize : arch.wordSize size ∈ structWordSizes) {order : Byteorder}
    (horder : byteorder (endness.getD arch.memoryEndness) = .ok order) :
    m.unpackWord arch addr size signed endness =
      (m.unpack addr (StructFmt.format ⟨order, (arch.wordSize size).toNat, signed⟩)).mapError
        UnpackError.toWordError := by
  have hpos : 0 < arch.wordSize size := pos_of_mem_structWordSizes hsize
  unfold unpackWord
  simp only [if_neg (not_le.mpr hpos), if_neg (not_not.mpr hsize), Arch.structFmt_eq hsize, horder, Except.map]

/-- A word that goes through `struct` is packed exactly if it is not cleared first. -/
theorem ByteArrays.packsExactly_struct (h : ByteArrays m) (hsize : arch.wordSize size ∈ structWordSizes)
    {order : Byteorder} (horder : byteorder (endness.getD arch.memoryEndness) = .ok order) :
    m.PacksExactly arch v size signed endness addr ↔ ¬ m.ClearsWord arch v size signed endness addr := by
  have hpos : 0 < arch.wordSize size := pos_of_mem_structWordSizes hsize
  have hn : ((arch.wordSize size).toNat : Int) = arch.wordSize size := Int.toNat_of_nonneg hpos.le
  have hpack := @Clemory.packWord_struct m addr arch v size signed endness hsize order horder
  generalize hfmt : StructFmt.mk order (arch.wordSize size).toNat signed = fmt at hpack
  generalize hvalue : Clemory.wordOf v (arch.wordSize size) signed = value at hpack
  have hfmtSize : (fmt.size : Int) = arch.wordSize size := by rw [← hfmt]; exact hn
  have hfmtSigned : fmt.signed = signed := by rw [← hfmt]
  by_cases hholds : m.HoldsWord addr (arch.wordSize size)
  swap
  · obtain ⟨e, houtside⟩ := h.pack_outside fmt value (by rw [hfmtSize]; exact hholds)
    exact ⟨fun _ hclears => hholds hclears.2.2.2.2.1,
      fun _ => Clemory.packsExactly_of_unchanged (e := e.toWordError) (by rw [hpack, houtside]; rfl)⟩
  rw [← hfmtSize] at hholds
  have hinside := h.pack_inside fmt value (by omega) hholds
  have hmapped := h.mapped hholds
  have hlength := fmt.length_written value
  obtain ⟨-, hget⟩ := @ByteArrays.store_spec m addr h (fmt.written value)
    (by rw [← List.length_pos_iff, hlength]; omega) (by rw [hlength]; exact hmapped)
  rw [hlength, hfmtSize] at hget
  cases hrange : inRange fmt.signed fmt.size value with
  | true =>
    have hexact : m.PacksExactly arch v size signed endness addr := by
      have hstored : m.packWord arch addr v size signed endness = ((m.store addr (fmt.written value)).1, none) := by
        rw [hpack, hinside, hrange]
        rfl
      refine Clemory.packsExactly_of_packed hstored ?_ fun k hk => ?_
      · have hback := h.unpack_pack fmt value (by omega) hholds hrange
        rw [hinside, ← hfmt] at hback
        rw [Clemory.unpackWord_struct hsize horder, hvalue, ← hfmt, hback]
        rfl
      · rw [hget, if_neg hk]
    refine ⟨fun _ hclears => ?_, fun _ => hexact⟩
    obtain ⟨hsigned, hout, -⟩ := hclears
    rw [← hvalue, ← hfmt, hsigned] at hrange
    simp only [Clemory.wordOf, if_true] at hrange
    rw [hrange] at hout
    cases hout
  | false =>
    have hsigned : signed = true := by
      cases signed with
      | true => rfl
      | false =>
        rw [← hvalue, ← hfmt, inRange_wordOf] at hrange
        cases hrange
    have hzeros : fmt.written value = List.replicate fmt.size 0 := by
      unfold StructFmt.written toBytes
      rw [hrange]
      rfl
    -- what is left in memory are zeros
    have hcleared : m.packWord arch addr v size signed endness =
        ((m.store addr (List.replicate fmt.size 0)).1, some .StructError) := by
      rw [hpack, hinside, hrange, hzeros]
      rfl
    rw [hzeros] at hget
    have hword : ∀ k, addr ≤ k → k < addr + arch.wordSize size →
        (m.store addr (List.replicate fmt.size 0)).1.getItem k = some 0 := by
      intro k hlo hhi
      rw [hget, if_pos ⟨hlo, hhi⟩, List.getElem?_replicate, if_pos (by omega)]
    have hexact : m.PacksExactly arch v size signed endness addr ↔
        ∀ k, (m.store addr (List.replicate fmt.size 0)).1.getItem k = m.getItem k := by
      unfold Clemory.PacksExactly
      rw [hcleared]
    rw [hexact]
    constructor
    · rintro hsame ⟨-, -, -, -, -, k, hlo, hhi, hne⟩
      exact hne ((hsame k).symm.trans (hword k hlo hhi))
    intro hclears k
    by_cases hk : addr ≤ k ∧ k < addr + arch.wordSize size
    · rw [hword k hk.1 hk.2]
      by_contra hne
      refine hclears ⟨hsigned, ?_, hsize, ?_, hfmtSize ▸ hholds, k, hk.1, hk.2, fun heq => hne heq.symm⟩
      · rw [← hvalue, ← hfmt, hsigned] at hrange
        exact hrange
      · intro hmiddle
        rw [hmiddle] at horder
        cases horder
    · rw [hget, if_neg hk]

def oneByte : Clemory := { maxAddr := 1, backers := [.bytes 0 [5]] }

def wordArch : Arch := { bytes := 4, memoryEndness := .LE }

theorem byteArrays_oneByte : ByteArrays oneByte := by
  refine Built.byteArrays (.bytes (.empty false) le_rfl (show Clemory.addBytes {} 0 [5] = .ok oneByte from rfl)) ?_
    (List.pairwise_singleton _ _)
  intro b hb
  rw [List.mem_singleton.mp hb]
  rfl

end Cle
