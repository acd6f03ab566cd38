import Mathlib.Tactic.Ring

/-!
# Bytes of numbers

`bytesBE n v` are the `n` low bytes of `v`, the most significant first, and
`ofBytesBE` reads such a string back. Strings are lists of numbers below `256`.
-/

namespace Bytes

@[grind =] def bytesBE : Nat → Nat → List Nat
  | 0, _ => []
  | n + 1, v => v / 256 ^ n % 256 :: bytesBE n v

def ofBytesBE (bs : List Nat) : Nat := bs.foldl (fun v b => v * 256 + b) 0

@[simp] theorem length_bytesBE (n v : Nat) : (bytesBE n v).length = n := by
  induction n with
  | zero => rfl
  | succ n ih => simp [bytesBE, ih]

theorem lt_of_mem_bytesBE {n v b : Nat} (h : b ∈ bytesBE n v) : b < 256 := by
  induction n with
  | zero => simp [bytesBE] at h
  | succ n ih =>
    rcases List.mem_cons.mp h with rfl | h
    · exact Nat.mod_lt _ (by decide)
    · exact ih h

/-- The high bytes come first. -/
theorem bytesBE_add (m n v : Nat) : bytesBE (m + n) v = bytesBE m (v / 256 ^ n) ++ bytesBE n v := by
  induction m with
  | zero => simp [bytesBE]
  | succ m ih =>
    rw [Nat.add_right_comm, bytesBE, bytesBE, ih, List.cons_append, Nat.div_div_eq_div_mul,
      ← pow_add, Nat.add_comm n m]

theorem getD_bytesBE {n k : Nat} (h : k < n) (v d : Nat) : (bytesBE n v).getD k d = v / 256 ^ (n - 1 - k) % 256 := by
  induction n generalizing k with
  | zero => omega
  | succ n ih =>
    cases k with
    | zero => rfl
    | succ k =>
      rw [bytesBE, List.getD_cons_succ, ih (by omega)]
      congr 3
      omega

theorem bytesBE_mod (n v : Nat) : bytesBE n (v % 256 ^ n) = bytesBE n v := by
  have hle : ∀ m ≤ n, bytesBE m (v % 256 ^ n) = bytesBE m v := by
    intro m
    induction m with
    | zero => intro _; rfl
    | succ m ih =>
      intro hm
      have hpow : 256 ^ n = 256 ^ m * (256 * 256 ^ (n - (m + 1))) := by
        rw [← pow_succ', ← pow_add]
        congr 1
        omega
      rw [bytesBE, bytesBE, ih (by omega), hpow, Nat.mod_mul_right_div_self,
        Nat.mod_mul_right_mod]
  exact hle n le_rfl

theorem bytesBE_concat (m n h l : Nat) (hl : l < 256 ^ n) :
    bytesBE (m + n) (h * 256 ^ n + l) = bytesBE m h ++ bytesBE n l := by
  have hpos : 0 < 256 ^ n := Nat.pow_pos (by decide)
  have hdiv : (h * 256 ^ n + l) / 256 ^ n = h := by
    rw [Nat.add_comm, Nat.add_mul_div_right _ _ hpos, Nat.div_eq_of_lt hl, Nat.zero_add]
  have hmod : (h * 256 ^ n + l) % 256 ^ n = l := by
    rw [Nat.add_comm, Nat.add_mul_mod_self_right, Nat.mod_eq_of_lt hl]
  rw [bytesBE_add, hdiv, ← bytesBE_mod n (h * 256 ^ n + l), hmod]

/-- The bytes of a part of a number. -/
theorem bytesBE_slice {n o l v : Nat} (h : o + l ≤ n) :
    bytesBE l (v / 256 ^ (n - o - l) % 256 ^ l) = ((bytesBE n v).drop o).take l := by
  obtain ⟨r, rfl⟩ := Nat.exists_eq_add_of_le h
  have hr : o + l + r - o - l = r := by omega
  rw [hr, bytesBE_mod, Nat.add_assoc, bytesBE_add o, List.drop_left' (length_bytesBE _ _),
    bytesBE_add l r, List.take_left' (length_bytesBE _ _)]

theorem ofBytesBE_append (bs cs : List Nat) :
    ofBytesBE (bs ++ cs) = ofBytesBE bs * 256 ^ cs.length + ofBytesBE cs := by
  have hacc : ∀ (cs : List Nat) (a : Nat), cs.foldl (fun v b => v * 256 + b) a =
      a * 256 ^ cs.length + cs.foldl (fun v b => v * 256 + b) 0 := by
    intro cs
    induction cs with
    | nil => intro a; simp
    | cons c cs ih =>
      intro a
      rw [List.foldl_cons, List.foldl_cons, ih, ih (0 * 256 + c), List.length_cons, pow_succ]
      ring
  rw [ofBytesBE, List.foldl_append, hacc]
  rfl

theorem ofBytesBE_lt {bs : List Nat} (h : ∀ b ∈ bs, b < 256) : ofBytesBE bs < 256 ^ bs.length := by
  induction bs with
  | nil => simp [ofBytesBE]
  | cons b bs ih =>
    have hb := h b List.mem_cons_self
    have hbs := ih fun c hc => h c (List.mem_cons_of_mem _ hc)
    have hcons : ofBytesBE (b :: bs) = b * 256 ^ bs.length + ofBytesBE bs := by
      simpa [ofBytesBE] using ofBytesBE_append [b] bs
    calc ofBytesBE (b :: bs)
        = b * 256 ^ bs.length + ofBytesBE bs := hcons
      _ < b * 256 ^ bs.length + 256 ^ bs.length := by omega
      _ = (b + 1) * 256 ^ bs.length := by ring
      _ ≤ 256 * 256 ^ bs.length := Nat.mul_le_mul_right _ hb
      _ = 256 ^ (b :: bs).length := by rw [List.length_cons, pow_succ']

/-- Reading a string back and writing it again. -/
theorem bytesBE_ofBytesBE {bs : List Nat} (h : ∀ b ∈ bs, b < 256) :
    bytesBE bs.length (ofBytesBE bs) = bs := by
  induction bs with
  | nil => rfl
  | cons b bs ih =>
    have hb := h b List.mem_cons_self
    have htail : ∀ c ∈ bs, c < 256 := fun c hc => h c (List.mem_cons_of_mem _ hc)
    have hcons : ofBytesBE (b :: bs) = b * 256 ^ bs.length + ofBytesBE bs := by
      simpa [ofBytesBE] using ofBytesBE_append [b] bs
    rw [hcons, List.length_cons, Nat.add_comm, bytesBE_concat 1 _ _ _ (ofBytesBE_lt htail),
      ih htail]
    simp [bytesBE, Nat.mod_eq_of_lt hb]

theorem ofBytesBE_bytesBE (n v : Nat) : ofBytesBE (bytesBE n v) = v % 256 ^ n := by
  induction n with
  | zero => simp [bytesBE, ofBytesBE, Nat.mod_one]
  | succ n ih =>
    have hcons : ofBytesBE (bytesBE (n + 1) v) =
        v / 256 ^ n % 256 * 256 ^ n + ofBytesBE (bytesBE n v) := by
      simpa [ofBytesBE, bytesBE] using ofBytesBE_append [v / 256 ^ n % 256] (bytesBE n v)
    rw [hcons, ih, pow_succ, Nat.mod_mul]
    ring

/-- Reverse the lowest `n` bytes of a number. -/
@[grind =] def reverseBytes : Nat → Nat → Nat
  | 0, _ => 0
  | n + 1, v => (v % 256) * 256 ^ n + reverseBytes n (v / 256)

theorem reverseBytes_lt (n v : Nat) : reverseBytes n v < 256 ^ n := by
  induction n generalizing v with
  | zero => simp [reverseBytes]
  | succ n ih =>
    have hmod : v % 256 < 256 := Nat.mod_lt _ (by decide)
    calc reverseBytes (n + 1) v
        < v % 256 * 256 ^ n + 256 ^ n := Nat.add_lt_add_left (ih _) _
      _ = (v % 256 + 1) * 256 ^ n := by ring
      _ ≤ 256 * 256 ^ n := Nat.mul_le_mul_right _ hmod
      _ = 256 ^ (n + 1) := by rw [pow_succ']

theorem bytesBE_reverseBytes (n v : Nat) : bytesBE n (reverseBytes n v) = (bytesBE n v).reverse := by
  induction n generalizing v with
  | zero => rfl
  | succ n ih =>
    have hlow : bytesBE (n + 1) v = bytesBE n (v / 256) ++ [v % 256] := by
      rw [bytesBE_add n 1 v]
      simp [bytesBE]
    rw [hlow, List.reverse_append, ← ih, reverseBytes, Nat.add_comm n 1,
      bytesBE_concat 1 n _ _ (reverseBytes_lt n _)]
    simp [bytesBE]

/-! ## Little-endian records -/

/-- The `n` low bytes of `v`, the least significant first. -/
def bytesLE (n v : Nat) : List Nat := (bytesBE n v).reverse

def ofBytesLE (bs : List Nat) : Nat := ofBytesBE bs.reverse

/-- The number in the first `n` bytes, and the bytes after it. -/
def unpackFrom (n : Nat) (bs : List Nat) : Option (Nat × List Nat) :=
  if n ≤ bs.length then some (ofBytesLE (bs.take n), bs.drop n) else none

@[simp] theorem length_bytesLE (n v : Nat) : (bytesLE n v).length = n := by simp [bytesLE]

theorem ofBytesLE_bytesLE {n v : Nat} (h : v < 256 ^ n) : ofBytesLE (bytesLE n v) = v := by
  rw [ofBytesLE, bytesLE, List.reverse_reverse, ofBytesBE_bytesBE, Nat.mod_eq_of_lt h]

/-- A number is read back, whatever follows it. -/
theorem unpackFrom_bytesLE {n v : Nat} (h : v < 256 ^ n) (rest : List Nat) :
    unpackFrom n (bytesLE n v ++ rest) = some (v, rest) := by
  have hle : n ≤ (bytesLE n v ++ rest).length := by simp
  rw [unpackFrom, if_pos hle, List.take_left' (length_bytesLE n v), List.drop_left' (length_bytesLE n v),
    ofBytesLE_bytesLE h]

end Bytes
