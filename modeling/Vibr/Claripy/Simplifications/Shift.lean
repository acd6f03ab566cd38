import Vibr.Claripy.Builder

/-!
# Shifts

`lshift_simplifier`, `rshift_simplifier` and `lshr_simplifier` of `claripy/simplifications.py`.
A shift by zero is dropped, a shift of a value whose high bits are zero by more than what
is left of it is zero, and a left shift of a left shift becomes one left shift by the sum
of the amounts.
-/

namespace Claripy

open Ast

namespace Builder

variable (B : Builder)

/-- `(e == 0).is_true()` -/
def isZero (e : Ast) : Bool := (B.build .eq [e, BVV 0 e.length]).isTrue

/-- `(e > n).is_true()` -/
def isAbove (e : Ast) (n : Nat) : Bool := (B.build .UGT [e, BVV n e.length]).isTrue

/-- The tests of `rshift_simplifier` and `lshr_simplifier`, which are the same. -/
def rightShiftSimplifier (val shift : Ast) : Option Ast :=
  if B.isZero shift then some val
  else
    match val.op, val.args with
    | .Concat, a :: _ =>
      if B.isZero a ∧ B.isAbove shift (val.length - a.length) then some (BVV 0 val.length) else none
    | .ZeroExt n, _ => if B.isAbove shift (val.length - n) then some (BVV 0 val.length) else none
    | _, _ => none

def rshiftSimplifier (val shift : Ast) : Option Ast := B.rightShiftSimplifier val shift

def lshrSimplifier (val shift : Ast) : Option Ast := B.rightShiftSimplifier val shift

/-- The merged shift goes through its own constructor, and so through this function again. -/
def lshiftSimplifier : Ast → Ast → Option Ast
  | node op args ann, shift =>
    if B.isZero shift then some (node op args ann)
    else
      match op, args with
      | .lshift, [realVal, innerShift] =>
        let sum := B.build .add [innerShift, shift]
        some (B.construct (lshiftSimplifier realVal sum) .lshift [realVal, sum])
      | _, _ => none

/-- The entries of the three shifts in the table of the simplifiers. -/
def shiftSimplifier : Op → Ast → Ast → Option Ast
  | .lshift => B.lshiftSimplifier
  | .rshift => B.rshiftSimplifier
  | .LShR => B.lshrSimplifier
  | _ => fun _ _ => none

/-- No merge loses the carry of the sum of the amounts, or there is nothing left of the
value to lose it from. The merges below the first count if their constructor takes them. -/
def MergesExactly (ρ : Assignment) : Ast → Ast → Prop
  | node op args _, shift =>
    match op, args with
    | .lshift, [realVal, innerShift] =>
      let sum := B.build .add [innerShift, shift]
      B.isZero shift = true ∨
        ((innerShift.eval ρ).toNat + (shift.eval ρ).toNat < 2 ^ realVal.length ∨
          2 ^ realVal.length ∣ (realVal.eval ρ).toNat *
            2 ^ (((innerShift.eval ρ).toNat + (shift.eval ρ).toNat) % 2 ^ realVal.length)) ∧
        (B.takes (B.lshiftSimplifier realVal sum) [realVal, sum] = true → MergesExactly ρ realVal sum)
    | _, _ => True

/-! ## Values -/

variable {a b : Ast} {ann : List Annotation}

section
variable {w : Nat}

theorem eval_fold₂ {op : Op} {f : (w : Nat) → BitVec w → BitVec w → BitVec w} (hop : op.apply = Value.fold f)
    (hleaf : ∀ ρ : Assignment, ρ.leaf op = none) {ρ : Assignment} {x y : BitVec w} (ha : a.eval ρ = .bv w x)
    (hb : b.eval ρ = .bv w y) : (node op [a, b] ann).eval ρ = .bv w (f w x y) := by
  simp only [Ast.eval, evalList, hleaf, Option.getD_none, hop, ha, hb, Value.fold, List.foldl_cons,
    List.foldl_nil, Value.lift₂, Value.toBV, BitVec.setWidth_eq]

theorem dvd_iff_shiftLeft_eq_zero (x : BitVec w) (n : Nat) :
    2 ^ w ∣ x.toNat * 2 ^ n ↔ x <<< n = 0#w := by
  rw [BitVec.toNat_eq, BitVec.toNat_shiftLeft, Nat.shiftLeft_eq, BitVec.toNat_ofNat, Nat.zero_mod]
  exact Nat.dvd_iff_mod_eq_zero

/-- Shifting by the sum of the amounts, as it is taken modulo `2 ^ w`. -/
theorem shiftLeft_sum_eq_iff (x i s : BitVec w) :
    x <<< (i + s).toNat = (x <<< i.toNat) <<< s.toNat ↔
      i.toNat + s.toNat < 2 ^ w ∨ 2 ^ w ∣ x.toNat * 2 ^ ((i.toNat + s.toNat) % 2 ^ w) := by
  rw [← BitVec.shiftLeft_add, BitVec.toNat_add, dvd_iff_shiftLeft_eq_zero]
  rcases Nat.lt_or_ge (i.toNat + s.toNat) (2 ^ w) with hlt | hge
  · simp [Nat.mod_eq_of_lt hlt, hlt]
  · have hzero : x <<< (i.toNat + s.toNat) = 0#w :=
      BitVec.shiftLeft_eq_zero (Nat.le_trans Nat.lt_two_pow_self.le hge)
    rw [hzero, or_iff_right (Nat.not_lt.mpr hge)]

/-- A merge never turns a value other than zero into zero. -/
theorem shiftLeft_eq_zero_of_sum {x i s : BitVec w} (h : x <<< (i + s).toNat = 0#w) :
    (x <<< i.toNat) <<< s.toNat = 0#w := by
  rw [← BitVec.shiftLeft_add]
  rcases Nat.lt_or_ge (i.toNat + s.toNat) (2 ^ w) with hlt | hge
  · rwa [BitVec.toNat_add, Nat.mod_eq_of_lt hlt] at h
  · exact BitVec.shiftLeft_eq_zero (Nat.le_trans Nat.lt_two_pow_self.le hge)

end

variable {B} {ρ : Assignment} {w : Nat} {v : BitVec w}

theorem eq_zero_of_isZero {e : Ast} (h : B.isZero e = true) (he : e.eval ρ = .bv w v) : v = 0#w := by
  have heq := holds_of_isTrue h ρ
  rw [holds, B.eval_build] at heq
  have heq : e.eval ρ = (BVV 0 e.length).eval ρ := holds_node_eq.mp heq
  rw [he, BVV, eval_BVV] at heq
  cases heq
  rfl

/-- A result `r` where `t` is the value of the shift: right exactly if `exact` holds, and
not zero where it is wrong. -/
structure Shifted (exact : Prop) (t r : BitVec w) : Prop where
  eq_iff : r = t ↔ exact
  zero : r = 0#w → t = 0#w

/-- The step: a result for the shift by the sum of the amounts is one for the two shifts.
A wrong result is not zero, so it cannot become right in a later merge. -/
theorem Shifted.merge {exact : Prop} {x i s r : BitVec w} (h : Shifted exact (x <<< (i + s).toNat) r) :
    Shifted ((i.toNat + s.toNat < 2 ^ w ∨ 2 ^ w ∣ x.toNat * 2 ^ ((i.toNat + s.toNat) % 2 ^ w)) ∧ exact)
      ((x <<< i.toNat) <<< s.toNat) r := by
  refine ⟨?_, fun hr => shiftLeft_eq_zero_of_sum (h.zero hr)⟩
  rw [← shiftLeft_sum_eq_iff, ← h.eq_iff]
  constructor
  · intro hr
    have hsum : x <<< (i + s).toNat = (x <<< i.toNat) <<< s.toNat := by
      by_contra hne
      have hge : ¬ i.toNat + s.toNat < 2 ^ w := fun hlt => hne ((shiftLeft_sum_eq_iff x i s).mpr (.inl hlt))
      have hleft : (x <<< i.toNat) <<< s.toNat = 0#w := by
        rw [← BitVec.shiftLeft_add]
        exact BitVec.shiftLeft_eq_zero (Nat.le_trans Nat.lt_two_pow_self.le (Nat.not_lt.mp hge))
      exact hne (by rw [hleft, h.zero (hr.trans hleft)])
    exact ⟨hsum, hr.trans hsum.symm⟩
  · rintro ⟨hsum, hr⟩
    exact hr.trans hsum

theorem eval_lshift {x y : BitVec w} (ha : a.eval ρ = .bv w x) (hb : b.eval ρ = .bv w y) :
    (node .lshift [a, b] ann).eval ρ = .bv w (x <<< y.toNat) :=
  eval_fold₂ (f := fun _ a b => a <<< b.toNat) rfl (fun _ => rfl) ha hb

theorem eval_add {x y : BitVec w} (ha : a.eval ρ = .bv w x) (hb : b.eval ρ = .bv w y) :
    (node .add [a, b] ann).eval ρ = .bv w (x + y) :=
  eval_fold₂ (f := fun _ a b => a + b) rfl (fun _ => rfl) ha hb

/-- The constructor gives a node, which is right, or what its simplifier gives. -/
theorem construct_shifted {val shift : Ast} {v s : BitVec w} (hv : val.eval ρ = .bv w v)
    (hs : shift.eval ρ = .bv w s) {exact : Prop}
    (h : ∀ e, B.lshiftSimplifier val shift = some e → ∃ r, e.eval ρ = .bv w r ∧ Shifted exact (v <<< s.toNat) r) :
    ∃ r, (B.construct (B.lshiftSimplifier val shift) .lshift [val, shift]).eval ρ = .bv w r ∧
      Shifted (B.takes (B.lshiftSimplifier val shift) [val, shift] = true → exact) (v <<< s.toNat) r := by
  obtain ⟨htakes, hnew⟩ | ⟨e, ann, htakes, he, hconstruct⟩ :=
    B.construct_cases (B.lshiftSimplifier val shift) .lshift [val, shift]
  · refine ⟨v <<< s.toNat, by rw [hnew, eval_new, eval_lshift hv hs], ?_, id⟩
    simp [htakes]
  · obtain ⟨r, hr, hshifted⟩ := h e he
    refine ⟨r, by rw [hconstruct, eval_annotate, hr], ?_⟩
    simpa [htakes] using hshifted

/-- The result of the simplifier, through all the left shifts that it merges. -/
theorem lshiftSimplifier_shifted {val : Ast} (hval : val.ty = some (.bv w)) (hv : val.eval ρ = .bv w v)
    {shift e : Ast} {s : BitVec w} (hs : shift.eval ρ = .bv w s) (h : B.lshiftSimplifier val shift = some e) :
    ∃ r, e.eval ρ = .bv w r ∧ Shifted (B.MergesExactly ρ val shift) (v <<< s.toNat) r := by
  induction val using Ast.induct generalizing v shift e s with
  | h op args ann ih =>
    unfold lshiftSimplifier at h
    split at h
    · rename_i hzero
      cases h
      have hexact : B.MergesExactly ρ (node op args ann) shift := by
        unfold MergesExactly
        split
        · exact .inl hzero
        · trivial
      have hs0 := eq_zero_of_isZero hzero hs
      refine ⟨v, hv, ⟨by simp [hs0, hexact], by simp [hs0]⟩⟩
    · rename_i hzero
      split at h
      · rename_i realVal innerShift
        cases h
        have htys := ty_of_same rfl hval
        obtain ⟨x, hx⟩ := exists_bv_of_ty (htys realVal (by simp)) ρ
        obtain ⟨i, hi⟩ := exists_bv_of_ty (htys innerShift (by simp)) ρ
        rw [eval_lshift hx hi] at hv
        cases hv
        have hsum : (B.build .add [innerShift, shift]).eval ρ = .bv w (i + s) := by
          rw [B.eval_build, eval_add hi hs]
        have hlen : realVal.length = w := length_of_ty realVal _ (htys realVal (by simp))
        obtain ⟨r, hr, hshifted⟩ := construct_shifted hx hsum fun e he =>
          ih realVal (by simp) (htys realVal (by simp)) hx hsum he
        refine ⟨r, hr, ?_⟩
        have hmerge := hshifted.merge
        unfold MergesExactly
        simpa [hzero, hx, hi, hs, hlen, Value.toNat] using hmerge
      · cases h

/-! ## Right shifts -/

theorem lt_of_isAbove {e : Ast} {n : Nat} (h : B.isAbove e n = true) (hty : e.ty = some (.bv w))
    (he : e.eval ρ = .bv w v) (hn : n ≤ w) : n < v.toNat := by
  have hgt := holds_of_isTrue h ρ
  have hn : n < 2 ^ w := Nat.lt_of_le_of_lt hn Nat.lt_two_pow_self
  rw [holds, B.eval_build, length_of_ty e _ hty] at hgt
  simpa [Ast.eval, evalList, Assignment.leaf, BVV, he, Op.apply, Value.compare, Value.toBV, BitVec.ult,
    Ty.length, Nat.mod_eq_of_lt hn] using hgt

/-- What follows the first element of a concatenation only makes the low bits. -/
theorem foldl_concat_lt (vs : List Value) {u : Nat} (x : BitVec u) (h : vs.foldl Value.concat (.bv u x) = .bv w v) :
    u ≤ w ∧ v.toNat < (x.toNat + 1) * 2 ^ (w - u) := by
  induction vs generalizing u with
  | nil =>
    cases h
    simp
  | cons y vs ih =>
    cases y with
    | bool b => exact ih x h
    | bv k y =>
      obtain ⟨hle, hlt⟩ := ih (x ++ y) h
      have happend : (x ++ y).toNat + 1 ≤ (x.toNat + 1) * 2 ^ k := by
        rw [BitVec.toNat_append, ← Nat.shiftLeft_add_eq_or_of_lt y.isLt, Nat.shiftLeft_eq, Nat.succ_mul]
        exact Nat.add_le_add_left y.isLt _
      refine ⟨by omega, Nat.lt_of_lt_of_le hlt ?_⟩
      calc ((x ++ y).toNat + 1) * 2 ^ (w - (u + k))
          ≤ (x.toNat + 1) * 2 ^ k * 2 ^ (w - (u + k)) := Nat.mul_le_mul_right _ happend
        _ = (x.toNat + 1) * 2 ^ (w - u) := by
            rw [Nat.mul_assoc, ← pow_add]
            congr 2
            omega

theorem concat_zero_lt {a : Ast} {as : List Ast} {u : Nat} (ha : a.eval ρ = .bv u 0#u)
    (hv : (node .Concat (a :: as) ann).eval ρ = .bv w v) : u ≤ w ∧ v.toNat < 2 ^ (w - u) := by
  have hfold : (as.map (Ast.eval ρ)).foldl Value.concat (.bv u 0#u) = .bv w v := by
    rw [← hv, ← ha]
    simp [Ast.eval, Assignment.leaf, Op.apply]
  simpa using foldl_concat_lt _ 0#u hfold

theorem ty_concat_head {a : Ast} {as : List Ast} (h : (node .Concat (a :: as) ann).ty = some (.bv w)) :
    ∃ u, a.ty = some (.bv u) := by
  simp only [ty, tyList, Option.bind_eq_some_iff, Option.map_eq_some_iff] at h
  obtain ⟨_, ⟨t, ht, ts, _, rfl⟩, hop⟩ := h
  cases t with
  | bool => simp [Op.ty, Ty.concat, Ty.isBV] at hop
  | bv u => exact ⟨u, ht⟩

theorem ty_zeroExt_args {n : Nat} {args : List Ast} (h : (node (.ZeroExt n) args ann).ty = some (.bv w)) :
    ∃ a, args = [a] := by
  rcases args with _ | ⟨a, _ | ⟨b, bs⟩⟩
  · simp [ty, tyList, Op.ty] at h
  · exact ⟨a, rfl⟩
  · simp only [ty, tyList, Option.bind_eq_some_iff, Option.map_eq_some_iff] at h
    obtain ⟨_, ⟨_, _, _, ⟨_, _, _, _, rfl⟩, rfl⟩, hop⟩ := h
    simp [Op.ty] at hop

theorem zeroExt_lt {a : Ast} {n : Nat} (hval : (node (.ZeroExt n) [a] ann).ty = some (.bv w))
    (hv : (node (.ZeroExt n) [a] ann).eval ρ = .bv w v) : n < w ∧ v.toNat < 2 ^ (w - n) := by
  rw [ty_one, Option.bind_eq_some_iff] at hval
  obtain ⟨t, ht, hop⟩ := hval
  cases t with
  | bool => simp [Op.ty] at hop
  | bv k =>
    cases hop
    obtain ⟨x, hx⟩ := exists_bv_of_ty ht ρ
    have hpos := ty_pos a k ht
    simp only [Ast.eval, evalList, hx, Assignment.leaf, Option.getD_none, Op.apply] at hv
    cases hv
    rw [BitVec.toNat_setWidth_of_le (by omega), Nat.add_sub_cancel]
    exact ⟨by omega, x.isLt⟩

/-- A result of the simplifier of a right shift: the shift is by zero, or by more than the
value is long. -/
theorem rightShiftSimplifier_cases {val shift e : Ast} {v s : BitVec w} (hval : val.ty = some (.bv w))
    (hshift : shift.ty = some (.bv w)) (hv : val.eval ρ = .bv w v) (hs : shift.eval ρ = .bv w s)
    (h : B.rightShiftSimplifier val shift = some e) :
    (e = val ∧ B.isZero shift = true ∧ s = 0#w) ∨
      (e = BVV 0 w ∧ B.isZero shift = false ∧ ∃ m, v.toNat < 2 ^ m ∧ m < s.toNat ∧ m ≤ w ∧
        (m = w ↔ val.op = .ZeroExt 0)) := by
  have hlen : val.length = w := length_of_ty val _ hval
  unfold rightShiftSimplifier at h
  split at h
  · rename_i hzero
    cases h
    exact .inl ⟨rfl, hzero, eq_zero_of_isZero hzero hs⟩
  rename_i hzero
  refine .inr ?_
  obtain ⟨op, args, ann⟩ := val
  split at h
  · rename_i a as hop hargs
    cases hop
    cases hargs
    split at h
    · rename_i hif
      cases h
      obtain ⟨u, hu⟩ := ty_concat_head hval
      obtain ⟨x, hx⟩ := exists_bv_of_ty hu ρ
      cases eq_zero_of_isZero hif.1 hx
      have hpos := ty_pos a u hu
      obtain ⟨hle, hlt⟩ := concat_zero_lt hx hv
      rw [hlen, length_of_ty a _ hu] at hif
      refine ⟨by rw [hlen], by simpa using hzero, w - u, hlt,
        lt_of_isAbove hif.2 hshift hs (Nat.sub_le w u), Nat.sub_le w u, ?_⟩
      simp only [Ast.op, reduceCtorEq, iff_false]
      omega
    · cases h
  · rename_i n hop
    cases hop
    split at h
    · rename_i habove
      cases h
      obtain ⟨a, rfl⟩ := ty_zeroExt_args hval
      obtain ⟨hlt, hvlt⟩ := zeroExt_lt hval hv
      rw [hlen] at habove
      refine ⟨by rw [hlen], by simpa using hzero, w - n, hvlt,
        lt_of_isAbove habove hshift hs (Nat.sub_le w n), Nat.sub_le w n, ?_⟩
      simp only [Ast.op, Op.ZeroExt.injEq]
      omega
    · cases h
  · cases h

theorem ushiftRight_eq_zero_of_lt {m n : Nat} (hv : v.toNat < 2 ^ m) (h : m ≤ n) : v >>> n = 0#w := by
  rw [BitVec.toNat_eq, BitVec.toNat_ushiftRight, Nat.shiftRight_eq_div_pow, BitVec.toNat_ofNat, Nat.zero_mod]
  exact Nat.div_eq_of_lt (Nat.lt_of_lt_of_le hv (Nat.pow_le_pow_right (by decide) h))

/-- A shift by more than the value is long leaves its sign alone. -/
theorem sshiftRight_eq_zero_iff {m n : Nat} (hw : 0 < w) (hv : v.toNat < 2 ^ m) (hmn : m < n) (hmw : m ≤ w) :
    0#w = v.sshiftRight n ↔ v.toNat < 2 ^ (w - 1) := by
  have hpow : 2 ^ w = 2 * 2 ^ (w - 1) := by
    rw [← pow_succ', Nat.sub_add_cancel hw]
  have hmsb : v.toNat < 2 ^ (w - 1) ↔ v.msb = false := by
    rw [BitVec.msb_eq_false_iff_two_mul_lt]
    omega
  rw [hmsb]
  cases h : v.msb with
  | false =>
    rw [BitVec.sshiftRight_eq_of_msb_false h, ushiftRight_eq_zero_of_lt hv hmn.le]
    simp
  | true =>
    have hm : m = w := by
      by_contra hne
      have hle : 2 ^ m ≤ 2 ^ (w - 1) := Nat.pow_le_pow_right (by decide) (by omega)
      rw [hmsb.mp (Nat.lt_of_lt_of_le hv hle)] at h
      cases h
    have hzero : ~~~v >>> n = 0#w := BitVec.ushiftRight_eq_zero (by omega)
    rw [BitVec.sshiftRight_eq_of_msb_true h, hzero]
    simp [hw.ne']

theorem eval_rshift {x y : BitVec w} (ha : a.eval ρ = .bv w x) (hb : b.eval ρ = .bv w y) :
    (node .rshift [a, b] ann).eval ρ = .bv w (x.sshiftRight y.toNat) :=
  eval_fold₂ (f := fun _ a b => a.sshiftRight b.toNat) rfl (fun _ => rfl) ha hb

theorem eval_LShR {x y : BitVec w} (ha : a.eval ρ = .bv w x) (hb : b.eval ρ = .bv w y) :
    (node .LShR [a, b] ann).eval ρ = .bv w (x >>> y.toNat) :=
  eval_fold₂ (f := fun _ a b => a >>> b.toNat) rfl (fun _ => rfl) ha hb

variable (B) in
/-- What the simplifier of a shift relies on: for a left shift that the merges are exact, for
an arithmetic right shift that an extension by no bits is not of a negative value. -/
def ShiftsExactly (ρ : Assignment) (op : Op) (val shift : Ast) : Prop :=
  match op with
  | .lshift => B.MergesExactly ρ val shift
  | .rshift =>
    val.op = .ZeroExt 0 → B.isZero shift = false → (val.eval ρ).toNat < 2 ^ (val.length - 1)
  | _ => True

end Builder
end Claripy
