import Vibr.Claripy.Constraints

/-!
# Bytes of expressions

Memory works on bitvectors of whole bytes. `bytes` reads such an expression as a byte
string, the most significant byte first, under an assignment.
-/

namespace Claripy
namespace Ast

/-- A bitvector expression of `n` bytes. -/
structure OfBytes (a : Ast) (n : Nat) : Prop where
  length : a.length = 8 * n
  eval : ∀ ρ, ∃ v : BitVec (8 * n), a.eval ρ = .bv (8 * n) v

def bytes (ρ : Assignment) (a : Ast) : List Nat := Bytes.bytesBE (a.length / 8) (a.eval ρ).toNat

/-- `value[high:low]` -/
def extract (high low : Nat) (a : Ast) : Ast := node (.Extract high low) [a] []

/-- `value.reversed` -/
def reversed (a : Ast) : Ast := node .Reverse [a] []

/-- `claripy.Concat` -/
def concat (as : List Ast) : Ast := node .Concat as []

def BVV (v w : Nat) : Ast := node (.BVV v w) [] []

variable {a : Ast} {n : Nat} {ρ : Assignment}

theorem OfBytes.bytes_eq (h : a.OfBytes n) : a.bytes ρ = Bytes.bytesBE n (a.eval ρ).toNat := by
  rw [bytes, h.length, Nat.mul_div_cancel_left _ (by decide)]

theorem OfBytes.length_bytes (h : a.OfBytes n) : (a.bytes ρ).length = n := by
  rw [h.bytes_eq, Bytes.length_bytesBE]

theorem pow_256 (n : Nat) : 256 ^ n = 2 ^ (8 * n) := by
  rw [pow_mul]
  rfl

theorem ofBytes_BVV (v n : Nat) : (BVV v (8 * n)).OfBytes n :=
  ⟨rfl, fun ρ => ⟨_, eval_BVV ρ v (8 * n) [] []⟩⟩

theorem bytes_BVV (v n : Nat) : (BVV v (8 * n)).bytes ρ = Bytes.bytesBE n v := by
  rw [(ofBytes_BVV v n).bytes_eq, BVV, eval_BVV]
  simp only [Value.toNat, BitVec.toNat_ofNat]
  rw [← pow_256, Bytes.bytesBE_mod]

/-- The bytes `o … o + l - 1` of an expression, counted from the most significant. -/
theorem OfBytes.extract {o l : Nat} (h : a.OfBytes n) (hl : 0 < l) (hle : o + l ≤ n) :
    (a.extract (8 * (n - o) - 1) (8 * (n - o - l))).OfBytes l ∧
      (a.extract (8 * (n - o) - 1) (8 * (n - o - l))).bytes ρ = ((a.bytes ρ).drop o).take l := by
  have hwidth : 8 * (n - o) - 1 + 1 - 8 * (n - o - l) = 8 * l := by omega
  have heval : ∀ ρ (v : BitVec (8 * n)), a.eval ρ = .bv (8 * n) v →
      (a.extract (8 * (n - o) - 1) (8 * (n - o - l))).eval ρ =
        .bv (8 * l) (v.extractLsb' (8 * (n - o - l)) (8 * l)) := by
    intro ρ v hv
    simp only [Ast.extract, Ast.eval, evalList, hv, Assignment.leaf, Option.getD_none, Op.apply]
    rw [hwidth]
  have hof : (a.extract (8 * (n - o) - 1) (8 * (n - o - l))).OfBytes l := by
    refine ⟨hwidth, fun ρ => ?_⟩
    obtain ⟨v, hv⟩ := h.eval ρ
    exact ⟨_, heval ρ v hv⟩
  refine ⟨hof, ?_⟩
  obtain ⟨v, hv⟩ := h.eval ρ
  rw [hof.bytes_eq, h.bytes_eq, heval ρ v hv, hv]
  simp only [Value.toNat, BitVec.extractLsb'_toNat]
  rw [← Bytes.bytesBE_slice hle, Nat.shiftRight_eq_div_pow, pow_256, pow_256]

theorem OfBytes.reversed (h : a.OfBytes n) :
    a.reversed.OfBytes n ∧ a.reversed.bytes ρ = (a.bytes ρ).reverse := by
  have heval : ∀ ρ (v : BitVec (8 * n)), a.eval ρ = .bv (8 * n) v →
      a.reversed.eval ρ = .bv (8 * n) (BitVec.ofNat (8 * n) (Bytes.reverseBytes n v.toNat)) := by
    intro ρ v hv
    simp only [Ast.reversed, Ast.eval, evalList, hv, Assignment.leaf, Option.getD_none, Op.apply,
      Value.lift₁, Nat.mul_div_cancel_left n (show 0 < 8 by decide)]
  have hof : a.reversed.OfBytes n := by
    refine ⟨?_, fun ρ => ?_⟩
    · simp [Ast.reversed, Ast.length, lengthList, Op.length, h.length]
    · obtain ⟨v, hv⟩ := h.eval ρ
      exact ⟨_, heval ρ v hv⟩
  refine ⟨hof, ?_⟩
  obtain ⟨v, hv⟩ := h.eval ρ
  rw [hof.bytes_eq, h.bytes_eq, heval ρ v hv, hv]
  simp only [Value.toNat, BitVec.toNat_ofNat]
  rw [← Bytes.bytesBE_reverseBytes, ← pow_256, Nat.mod_eq_of_lt (Bytes.reverseBytes_lt n _)]

/-- The number behind an expression of `n` bytes. -/
theorem OfBytes.value (h : a.OfBytes n) (ρ : Assignment) :
    ∃ k < 256 ^ n, a.eval ρ = .bv (8 * n) (BitVec.ofNat (8 * n) k) ∧ a.bytes ρ = Bytes.bytesBE n k := by
  obtain ⟨v, hv⟩ := h.eval ρ
  refine ⟨v.toNat, ?_, ?_, ?_⟩
  · rw [pow_256]
    exact v.isLt
  · rw [hv, BitVec.ofNat_toNat, BitVec.setWidth_eq]
  · rw [h.bytes_eq, hv]
    rfl

theorem concat_value {m n j k : Nat} (hk : k < 256 ^ n) :
    Value.concat (.bv (8 * m) (BitVec.ofNat (8 * m) j)) (.bv (8 * n) (BitVec.ofNat (8 * n) k)) =
      .bv (8 * (m + n)) (BitVec.ofNat (8 * (m + n)) (j * 256 ^ n + k)) := by
  rw [pow_256] at hk ⊢
  rw [Value.concat, Nat.mul_add]
  congr 1
  apply BitVec.eq_of_toNat_eq
  have hmul : j % 2 ^ (8 * m) * 2 ^ (8 * n) = j * 2 ^ (8 * n) % 2 ^ (8 * m + 8 * n) := by
    rw [pow_add, Nat.mul_mod_mul_right]
  have hlt : j % 2 ^ (8 * m) * 2 ^ (8 * n) + k < 2 ^ (8 * m + 8 * n) := by
    have hj : j % 2 ^ (8 * m) < 2 ^ (8 * m) := Nat.mod_lt _ (Nat.two_pow_pos _)
    calc j % 2 ^ (8 * m) * 2 ^ (8 * n) + k
        < j % 2 ^ (8 * m) * 2 ^ (8 * n) + 2 ^ (8 * n) := by omega
      _ = (j % 2 ^ (8 * m) + 1) * 2 ^ (8 * n) := by ring
      _ ≤ 2 ^ (8 * m) * 2 ^ (8 * n) := Nat.mul_le_mul_right _ hj
      _ = 2 ^ (8 * m + 8 * n) := (pow_add _ _ _).symm
  rw [BitVec.toNat_append, BitVec.toNat_ofNat, BitVec.toNat_ofNat, BitVec.toNat_ofNat,
    Nat.mod_eq_of_lt hk, ← Nat.shiftLeft_add_eq_or_of_lt hk, Nat.shiftLeft_eq,
    ← Nat.mod_eq_of_lt hlt, hmul, Nat.mod_add_mod]

variable {as : List Ast}

/-- Concatenation appends the byte strings. -/
theorem foldl_concat {ns : List Nat} (h : List.Forall₂ OfBytes as ns) (ρ : Assignment) (m j : Nat) :
    ∃ k, (as.map (Ast.eval ρ)).foldl Value.concat (.bv (8 * m) (BitVec.ofNat (8 * m) j)) =
        .bv (8 * (m + ns.sum)) (BitVec.ofNat (8 * (m + ns.sum)) k) ∧
      Bytes.bytesBE (m + ns.sum) k = Bytes.bytesBE m j ++ as.flatMap (bytes ρ) := by
  induction h generalizing m j with
  | nil => exact ⟨j, rfl, by simp⟩
  | @cons a n as ns ha _ ih =>
    obtain ⟨i, hi, heval, hbytes⟩ := ha.value ρ
    obtain ⟨k, hk, hkbytes⟩ := ih (m + n) (j * 256 ^ n + i)
    refine ⟨k, ?_, ?_⟩
    · rw [List.map_cons, List.foldl_cons, heval, concat_value hi, hk, List.sum_cons, Nat.add_assoc]
    · rw [List.sum_cons, ← Nat.add_assoc, hkbytes, Bytes.bytesBE_concat _ _ _ _ hi,
        List.flatMap_cons, hbytes, List.append_assoc]

theorem sum_lengthList {ns : List Nat} (h : List.Forall₂ OfBytes as ns) : (lengthList as).sum = 8 * ns.sum := by
  induction h with
  | nil => rfl
  | cons ha _ ih => rw [lengthList, List.sum_cons, List.sum_cons, ih, ha.length, Nat.mul_add]

theorem ofBytes_concat {ns : List Nat} (hne : as ≠ []) (h : List.Forall₂ OfBytes as ns) :
    (concat as).OfBytes ns.sum ∧ (concat as).bytes ρ = as.flatMap (bytes ρ) := by
  have heval : ∀ ρ, ∃ k, (concat as).eval ρ = .bv (8 * ns.sum) (BitVec.ofNat (8 * ns.sum) k) ∧
      Bytes.bytesBE ns.sum k = as.flatMap (bytes ρ) := by
    intro ρ
    cases h with
    | nil => exact absurd rfl hne
    | @cons a n as ns ha has =>
      obtain ⟨j, -, hj, hjbytes⟩ := ha.value ρ
      obtain ⟨k, hk, hbytes⟩ := foldl_concat has ρ n j
      refine ⟨k, ?_, ?_⟩
      · simp only [concat, Ast.eval, evalList_eq_map, List.map_cons, Assignment.leaf,
          Option.getD_none, Op.apply, hj, hk, List.sum_cons]
      · rw [List.sum_cons, hbytes, List.flatMap_cons, hjbytes]
  have hof : (concat as).OfBytes ns.sum := by
    refine ⟨?_, fun ρ => ?_⟩
    · rw [concat, Ast.length, Op.length, sum_lengthList h]
    · obtain ⟨k, hk, -⟩ := heval ρ
      exact ⟨_, hk⟩
  refine ⟨hof, ?_⟩
  obtain ⟨k, hk, hbytes⟩ := heval ρ
  rw [hof.bytes_eq, hk, ← hbytes, ← Bytes.bytesBE_mod _ k, pow_256]
  rfl

/-- Expressions of one size with the same bytes have the same value. -/
theorem OfBytes.eval_eq {b : Ast} (h : a.OfBytes n) (h' : b.OfBytes n) (hbytes : a.bytes ρ = b.bytes ρ) :
    a.eval ρ = b.eval ρ := by
  obtain ⟨i, hi, heval, hi'⟩ := h.value ρ
  obtain ⟨j, hj, heval', hj'⟩ := h'.value ρ
  rw [hi', hj'] at hbytes
  have hij : i = j := by
    rw [← Nat.mod_eq_of_lt hi, ← Nat.mod_eq_of_lt hj, ← Bytes.ofBytesBE_bytesBE, hbytes,
      Bytes.ofBytesBE_bytesBE]
  rw [heval, heval', hij]

/-! ## Splitting concatenations -/

theorem concat_assoc {u v w : Nat} (x : BitVec u) (y : BitVec v) (z : BitVec w) :
    Value.concat (Value.concat (.bv u x) (.bv v y)) (.bv w z) =
      Value.concat (.bv u x) (Value.concat (.bv v y) (.bv w z)) := by
  have hcast : ∀ {m n : Nat} (h : m = n) (a : BitVec m), Value.bv m a = .bv n (a.cast h) := by
    rintro m _ rfl a
    rfl
  simp only [Value.concat]
  rw [hcast (Nat.add_assoc u v w), BitVec.append_assoc]
  simp

/-- The elements of a concatenation are bitvectors, so it is one. -/
theorem eval_concat_bv (hne : as ≠ []) (has : ∀ a ∈ as, a.IsBV) (ρ : Assignment) :
    ∃ v : BitVec (lengthList as).sum, (concat as).eval ρ = .bv (lengthList as).sum v := by
  have hfold : ∀ (as : List Ast), (∀ a ∈ as, a.IsBV) → ∀ w (x : BitVec w),
      ∃ v : BitVec (w + (lengthList as).sum),
        (as.map (eval ρ)).foldl Value.concat (.bv w x) = .bv (w + (lengthList as).sum) v := by
    intro as
    induction as with
    | nil => exact fun _ w x => ⟨x, rfl⟩
    | cons a as ih =>
      intro has w x
      obtain ⟨y, hy⟩ := (has a (by simp)).eval_bv ρ
      obtain ⟨v, hv⟩ := ih (fun b hb => has b (by simp [hb])) (w + a.length) (x ++ y)
      rw [List.map_cons, List.foldl_cons, hy, Value.concat, hv, lengthList, List.sum_cons, ← Nat.add_assoc]
      exact ⟨v, rfl⟩
  obtain ⟨a, as, rfl⟩ := List.exists_cons_of_ne_nil hne
  obtain ⟨x, hx⟩ := (has a (by simp)).eval_bv ρ
  obtain ⟨v, hv⟩ := hfold as (fun b hb => has b (by simp [hb])) a.length x
  refine ⟨v, ?_⟩
  simp only [concat, Ast.eval, evalList_eq_map, List.map_cons, Assignment.leaf, Option.getD_none,
    Op.apply, hx, hv]
  rfl

variable {as bs : List Ast}

theorem eval_concat_append (hne : as ≠ []) (hne' : bs ≠ []) (has : ∀ a ∈ as, a.IsBV) (hbs : ∀ b ∈ bs, b.IsBV)
    (ρ : Assignment) : (concat (as ++ bs)).eval ρ = Value.concat ((concat as).eval ρ) ((concat bs).eval ρ) := by
  have hfold : ∀ (bs : List Ast), (∀ b ∈ bs, b.IsBV) → ∀ u (x : BitVec u) v (y : BitVec v),
      (bs.map (eval ρ)).foldl Value.concat (Value.concat (.bv u x) (.bv v y)) =
        Value.concat (.bv u x) ((bs.map (eval ρ)).foldl Value.concat (.bv v y)) := by
    intro bs
    induction bs with
    | nil => exact fun _ _ _ _ _ => rfl
    | cons b bs ih =>
      intro hbs u x v y
      obtain ⟨z, hz⟩ := (hbs b (by simp)).eval_bv ρ
      rw [List.map_cons, List.foldl_cons, hz, concat_assoc, List.foldl_cons]
      exact ih (fun c hc => hbs c (by simp [hc])) u x _ _
  obtain ⟨x, hx⟩ := eval_concat_bv hne has ρ
  obtain ⟨a, as, rfl⟩ := List.exists_cons_of_ne_nil hne
  obtain ⟨b, bs, rfl⟩ := List.exists_cons_of_ne_nil hne'
  obtain ⟨y, hy⟩ := (hbs b (by simp)).eval_bv ρ
  have hxs : (as.map (eval ρ)).foldl Value.concat (a.eval ρ) = .bv (lengthList (a :: as)).sum x := by
    rw [← hx]
    simp [concat, Ast.eval, Assignment.leaf, Op.apply]
  have hys : (concat (b :: bs)).eval ρ = (bs.map (eval ρ)).foldl Value.concat (b.eval ρ) := by
    simp [concat, Ast.eval, Assignment.leaf, Op.apply]
  have hall : (concat (a :: as ++ b :: bs)).eval ρ =
      (bs.map (eval ρ)).foldl Value.concat
        (Value.concat ((as.map (eval ρ)).foldl Value.concat (a.eval ρ)) (b.eval ρ)) := by
    simp [concat, Ast.eval, Assignment.leaf, Op.apply]
  rw [hx, hall, hxs, hys, hy, hfold bs (fun c hc => hbs c (by simp [hc]))]

theorem ofBytes_concat_of_length (hne : as ≠ []) (has : ∀ a ∈ as, a.IsBV) (hlen : (lengthList as).sum = 8 * n) :
    (concat as).OfBytes n := by
  refine ⟨hlen, fun ρ => ?_⟩
  have hv := eval_concat_bv hne has ρ
  rwa [hlen] at hv

theorem lengthList_append (as bs : List Ast) : lengthList (as ++ bs) = lengthList as ++ lengthList bs := by
  induction as with
  | nil => rfl
  | cons a as ih => rw [List.cons_append, lengthList, ih, lengthList, List.cons_append]

/-- A concatenation of whole bytes, split at a byte. -/
theorem ofBytes_split {m : Nat} (hne : as ≠ []) (hne' : bs ≠ []) (has : ∀ a ∈ as, a.IsBV) (hbs : ∀ b ∈ bs, b.IsBV)
    (hlen : (lengthList as).sum = 8 * m) (h : (concat (as ++ bs)).OfBytes (m + n)) :
    (concat as).OfBytes m ∧ (concat bs).OfBytes n ∧
      ∀ ρ, (concat (as ++ bs)).bytes ρ = (concat as).bytes ρ ++ (concat bs).bytes ρ := by
  have hof := ofBytes_concat_of_length hne has hlen
  have hof' : (concat bs).OfBytes n := by
    refine ofBytes_concat_of_length hne' hbs ?_
    have htotal : (lengthList (as ++ bs)).sum = 8 * (m + n) := h.length
    rw [lengthList_append, List.sum_append] at htotal
    omega
  refine ⟨hof, hof', fun ρ => ?_⟩
  obtain ⟨i, -, hi, hibytes⟩ := hof.value ρ
  obtain ⟨j, hj, hj', hjbytes⟩ := hof'.value ρ
  have heval := eval_concat_append hne hne' has hbs ρ
  rw [hi, hj', concat_value hj] at heval
  rw [h.bytes_eq, heval, hibytes, hjbytes, ← Bytes.bytesBE_concat _ _ _ _ hj]
  simp only [Value.toNat, BitVec.toNat_ofNat]
  rw [← pow_256, Bytes.bytesBE_mod]

theorem take_bytes_concat {k : Nat} (hne : as ≠ []) (has : ∀ a ∈ as, a.IsBV) (hbs : ∀ b ∈ bs, b.IsBV)
    (hlen : (lengthList as).sum = 8 * k) (h : (concat (as ++ bs)).OfBytes n) :
    ((concat (as ++ bs)).bytes ρ).take k = (concat as).bytes ρ := by
  have hlength : ((concat as).bytes ρ).length = k := (ofBytes_concat_of_length hne has hlen).length_bytes
  by_cases hempty : bs = []
  · rw [hempty, List.append_nil, List.take_of_length_le (by rw [hlength])]
  have htotal : (lengthList (as ++ bs)).sum = 8 * n := h.length
  rw [lengthList_append, List.sum_append] at htotal
  obtain ⟨-, -, hbytes⟩ := ofBytes_split (n := n - k) hne hempty has hbs hlen
    (by rw [Nat.add_sub_cancel' (by omega)]; exact h)
  rw [hbytes, ← hlength, List.take_left]

theorem drop_bytes_concat {k : Nat} (hne : bs ≠ []) (has : ∀ a ∈ as, a.IsBV) (hbs : ∀ b ∈ bs, b.IsBV)
    (hlen : (lengthList as).sum = 8 * k) (h : (concat (as ++ bs)).OfBytes n) :
    ((concat (as ++ bs)).bytes ρ).drop k = (concat bs).bytes ρ := by
  by_cases hempty : as = []
  · subst hempty
    have hk : k = 0 := by simpa [lengthList] using hlen.symm
    rw [hk, List.nil_append, List.drop_zero]
  have hlength : ((concat as).bytes ρ).length = k :=
    (ofBytes_concat_of_length hempty has hlen).length_bytes
  have htotal : (lengthList (as ++ bs)).sum = 8 * n := h.length
  rw [lengthList_append, List.sum_append] at htotal
  obtain ⟨-, -, hbytes⟩ := ofBytes_split (n := n - k) hempty hne has hbs hlen
    (by rw [Nat.add_sub_cancel' (by omega)]; exact h)
  rw [hbytes, ← hlength, List.drop_left]

/-- Some elements of a concatenation of whole bytes, if they start and end at a byte. -/
theorem ofBytes_slice {as bs cs : List Ast} {m l : Nat} (hne : bs ≠ [])
    (hall : ∀ a ∈ as ++ (bs ++ cs), a.IsBV) (hlen : (lengthList as).sum = 8 * m)
    (hlen' : (lengthList bs).sum = 8 * l) (h : (concat (as ++ (bs ++ cs))).OfBytes n) :
    (concat bs).OfBytes l ∧
      ∀ ρ, (concat bs).bytes ρ = (((concat (as ++ (bs ++ cs))).bytes ρ).drop m).take l := by
  have has : ∀ a ∈ as, a.IsBV := fun a ha => hall a (List.mem_append_left _ ha)
  have hrest : ∀ a ∈ bs ++ cs, a.IsBV := fun a ha => hall a (List.mem_append_right _ ha)
  have hbs : ∀ b ∈ bs, b.IsBV := fun b hb => hrest b (List.mem_append_left _ hb)
  have hne' : bs ++ cs ≠ [] := by simp [hne]
  have hof : (concat (bs ++ cs)).OfBytes (n - m) := by
    refine ofBytes_concat_of_length hne' hrest ?_
    have htotal : (lengthList (as ++ (bs ++ cs))).sum = 8 * n := h.length
    rw [lengthList_append, List.sum_append] at htotal
    omega
  refine ⟨ofBytes_concat_of_length hne hbs hlen', fun ρ => ?_⟩
  rw [drop_bytes_concat hne' has hrest hlen h,
    take_bytes_concat hne hbs (fun c hc => hrest c (List.mem_append_right _ hc)) hlen' hof]

end Ast
end Claripy
