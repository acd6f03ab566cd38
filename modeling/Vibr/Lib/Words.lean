import Vibr.Lib.Bytes

/-!
# Words in a byte memory

A memory is a function from addresses to bytes. `load` and `store` read and write a word of
`n` bytes, the most significant byte first if `big` is set, else last.
-/

namespace Words

open Bytes

abbrev Memory := Nat → UInt8

def bytesAt (m : Memory) (a n : Nat) : List Nat := (List.range n).map fun i => (m (a + i)).toNat

def encode (big : Bool) (n v : Nat) : List Nat :=
  if big then bytesBE n v else (bytesBE n v).reverse

def decode (big : Bool) (bs : List Nat) : Nat :=
  if big then ofBytesBE bs else ofBytesBE bs.reverse

def load (big : Bool) (n : Nat) (m : Memory) (a : Nat) : Nat := decode big (bytesAt m a n)

def store (big : Bool) (n : Nat) (m : Memory) (a v : Nat) : Memory := fun x =>
  if a ≤ x ∧ x < a + n then UInt8.ofNat ((encode big n v).getD (x - a) 0) else m x

/-- Copy `n` bytes from `src` to `dst`, all of them being read first. -/
def copy (m : Memory) (dst src n : Nat) : Memory := fun x =>
  if dst ≤ x ∧ x < dst + n then m (src + (x - dst)) else m x

def fill (m : Memory) (a n : Nat) (v : UInt8) : Memory := fun x =>
  if a ≤ x ∧ x < a + n then v else m x

def write (m : Memory) (a : Nat) (bs : List UInt8) : Memory := fun x =>
  if a ≤ x ∧ x < a + bs.length then bs.getD (x - a) 0 else m x

variable {big big' : Bool} {n v a a' : Nat} {m m' : Memory}

theorem length_encode : (encode big n v).length = n := by
  unfold encode
  split <;> simp

theorem lt_of_mem_encode {b : Nat} (h : b ∈ encode big n v) : b < 256 := by
  unfold encode at h
  split at h
  · exact lt_of_mem_bytesBE h
  · exact lt_of_mem_bytesBE (List.mem_reverse.mp h)

theorem decode_encode : decode big (encode big n v) = v % 256 ^ n := by
  unfold decode encode
  split <;> simp [ofBytesBE_bytesBE]

theorem bytesAt_store_self : bytesAt (store big n m a v) a n = encode big n v := by
  apply List.ext_getElem
  · simp [bytesAt, length_encode]
  intro i h₁ h₂
  have hi : i < n := by simpa [bytesAt] using h₁
  have hlt : (encode big n v)[i] < 256 := lt_of_mem_encode (List.getElem_mem h₂)
  have hget : (encode big n v).getD i 0 = (encode big n v)[i] := by
    rw [List.getD_eq_getElem?_getD, List.getElem?_eq_getElem h₂, Option.getD_some]
  simp only [bytesAt, List.getElem_map, List.getElem_range, store]
  rw [if_pos (by omega), Nat.add_sub_cancel_left, hget, UInt8.toNat_ofNat', Nat.mod_eq_of_lt hlt]

theorem load_store_self : load big n (store big n m a v) a = v % 256 ^ n := by
  rw [load, bytesAt_store_self, decode_encode]

theorem load_congr (h : ∀ x, a ≤ x → x < a + n → m x = m' x) : load big n m a = load big n m' a := by
  unfold load bytesAt
  congr 1
  refine List.map_congr_left fun i hi => ?_
  have := List.mem_range.mp hi
  rw [h (a + i) (by omega) (by omega)]

theorem load_store_apart (h : a + n ≤ a' ∨ a' + n ≤ a) :
    load big n (store big' n m a' v) a = load big n m a := by
  apply load_congr
  intro x h₁ h₂
  rw [store, if_neg (by omega)]

theorem load_lt : load big n m a < 256 ^ n := by
  have hbytes : ∀ b ∈ bytesAt m a n, b < 256 := by
    intro b hb
    obtain ⟨i, -, rfl⟩ := List.mem_map.mp hb
    exact UInt8.toNat_lt (m (a + i))
  have hlen : (bytesAt m a n).length = n := by simp [bytesAt]
  unfold load decode
  split
  · have := ofBytesBE_lt hbytes
    rwa [hlen] at this
  have hreverse : ∀ b ∈ (bytesAt m a n).reverse, b < 256 :=
    fun b hb => hbytes b (List.mem_reverse.mp hb)
  have := ofBytesBE_lt hreverse
  rwa [List.length_reverse, hlen] at this

theorem copy_of_apart {dst src x : Nat} (h : x < dst ∨ dst + n ≤ x) : copy m dst src n x = m x := by
  rw [copy, if_neg (by omega)]

theorem fill_of_apart {v : UInt8} {x : Nat} (h : x < a ∨ a + n ≤ x) : fill m a n v x = m x := by
  rw [fill, if_neg (by omega)]

theorem write_of_apart {bs : List UInt8} {x : Nat} (h : x < a ∨ a + bs.length ≤ x) :
    write m a bs x = m x := by
  rw [write, if_neg (by omega)]

end Words
