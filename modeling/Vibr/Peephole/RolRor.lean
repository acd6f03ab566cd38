import Mathlib.Data.Int.Bitwise
import Vibr.Peephole.Statements

/-!
# Rotations

A shift to the left, or a multiplication by a power of two, and a shift to the right of the
same operand are rewritten to a rotation, where the amounts of the shifts add up to the width.
-/

namespace Angr.Peephole

open Expr Stmt

/-- The amount of a shift to the left, or of a multiplication with one bit. -/
def getExprShiftLeftAmount (expr : Expr) : Option Int :=
  match expr with
  | .binaryOp .shl _ (.const value _) _ _ => some value
  | .binaryOp .mul _ (.const v _) _ _ => if v.land (v - 1) = 0 then some ((v.natAbs.size : Int) - 1) else none
  | _ => none

namespace RolRorRewriter

def isLeft (op : BinOp) : Bool := op = .shl || op = .mul

/-- The rotation for two shifts, of which the first names it. -/
def rotate (first second : Expr) (bits : Nat) : Option Expr :=
  match first, second with
  | .binaryOp op₁ operand₁ amount₁@(.const v₁ _) _ _, .binaryOp op₂ operand₂ (.const v₂ _) _ _ =>
    if operand₁ ≠ operand₂ then none
    else if isLeft op₁ && op₂ = .shr && (getExprShiftLeftAmount first).any (· + v₂ = bits) then
      (getExprShiftLeftAmount first).map fun amount => .binaryOp .rol operand₁ (.const amount 8) false bits
    else if op₁ = .shr && isLeft op₂ && (getExprShiftLeftAmount second).any (v₁ + · = bits) then
      some (.binaryOp .ror operand₁ amount₁ false bits)
    else none
  | _, _ => none

/-- `RolRorRewriter.optimize`, of the statement with the index `stmtIdx`. -/
def optimize (dst src : Expr) (stmtIdx : Nat) (statements : List Stmt) : Option Stmt :=
  match src with
  | .binaryOp .or (.tmp op₀ _) (.tmp op₁ _) _ _ =>
    if stmtIdx < 2 then none
    else
      match statements[stmtIdx - 1]?, statements[stmtIdx - 2]? with
      | some (.assignment (.tmp tmp₁ _) src₁), some (.assignment (.tmp tmp₂ _) src₂) =>
        if ({tmp₁, tmp₂} : Finset Int) ≠ {op₀, op₁} then none
        else (rotate src₁ src₂ dst.bits).map (.assignment dst)
      | _, _ => none
  | .binaryOp .or op₀ op₁ _ _ => (rotate op₀ op₁ dst.bits).map (.assignment dst)
  | _ => none

/-! ## When the value is preserved -/

/-- The parts that two shifts leave are those of the operand of a rotation to the left. The
amount of the rotation has eight bits; a multiplication by zero leaves nothing. -/
def RolWhen (w : Nat) (amount : Int) (x lo hi : Nat) : Prop :=
  if amount < 0 then x = 0
  else
    let rotated := Rotate.rotr w x (amount.toNat - amount.toNat % 256)
    lo = rotated % 2 ^ (w - amount.toNat) ∧ hi = rotated / 2 ^ (w - amount.toNat)

def RorWhen (w : Nat) (amount : Int) (x lo hi : Nat) : Prop :=
  if amount < 0 then x = 0 else lo = x % 2 ^ (w - amount.toNat) ∧ hi = x / 2 ^ (w - amount.toNat)

/-- The shifts read their operand in `σ₁` and `σ₂`, the rotation reads it in `σ`. The value of
the second shift is gone if its temporary is overwritten. -/
def RotateWhen (w : Nat) (first second : Expr) (overwritten : Bool) (σ₁ σ₂ σ : Env) : Prop :=
  match first, second with
  | .binaryOp _ operand (.const _ _) _ _, .binaryOp .shr _ (.const v₂ _) _ _ =>
    RolWhen w ((getExprShiftLeftAmount first).getD 0) (operand.eval σ) (operand.eval σ₁ % 2 ^ v₂.toNat)
      (if overwritten then 0 else operand.eval σ₂ / 2 ^ v₂.toNat)
  | .binaryOp _ operand (.const v₁ _) _ _, .binaryOp _ _ _ _ _ =>
    RorWhen w ((getExprShiftLeftAmount second).getD 0) (operand.eval σ)
      (if overwritten then 0 else operand.eval σ₂ % 2 ^ v₁.toNat) (operand.eval σ₁ / 2 ^ v₁.toNat)
  | _, _ => True

/-- The runs of a block, from `σ`, in which a rotation has the value that it replaces. -/
def When (src : Expr) (stmtIdx : Nat) (statements : List Stmt) (σ : Env) : Prop :=
  match src with
  | .binaryOp .or (.tmp _ _) (.tmp _ _) _ bits =>
    match statements[stmtIdx - 1]?, statements[stmtIdx - 2]? with
    | some (.assignment (.tmp tmp₁ _) src₁), some (.assignment (.tmp tmp₂ _) src₂) =>
      RotateWhen bits src₁ src₂ (tmp₁ = tmp₂) (run (statements.take (stmtIdx - 1)) σ)
        (run (statements.take (stmtIdx - 2)) σ) (run (statements.take stmtIdx) σ)
    | _, _ => True
  | .binaryOp .or op₀ op₁ _ bits =>
    RotateWhen bits op₀ op₁ false (run (statements.take stmtIdx) σ) (run (statements.take stmtIdx) σ)
      (run (statements.take stmtIdx) σ)
  | _ => True

/-! ## Shifts -/

theorem land_sub_one_eq_zero {v : Int} (hv : 0 ≤ v) (h : v.land (v - 1) = 0) :
    v = 0 ∨ ∃ k : Nat, v = 2 ^ k ∧ (v.natAbs.size : Int) - 1 = k := by
  obtain ⟨n, rfl⟩ := Int.eq_ofNat_of_zero_le hv
  cases n with
  | zero => exact .inl rfl
  | succ n =>
    have hland : (n + 1) &&& (n + 1 - 1) = 0 := by
      have hsub : ((n + 1 : Nat) : Int) - 1 = (n : Nat) := by omega
      rw [hsub] at h
      exact Int.ofNat.inj h
    obtain ⟨k, hk⟩ := (Nat.and_sub_one_eq_zero_iff_isPowerOfTwo (Nat.succ_ne_zero n)).mp hland
    rw [Nat.succ_eq_add_one] at hk
    refine .inr ⟨k, ?_, ?_⟩
    · rw [hk]
      push_cast
      rfl
    · rw [Int.natAbs_natCast, hk, Nat.size_pow]
      omega

/-- The value of a shift to the left; the amount is negative for a multiplication by zero. -/
theorem eval_of_shiftLeft {op : BinOp} {operand : Expr} {v amount : Int} {b w : Nat} {signed : Bool}
    (hamount : getExprShiftLeftAmount (.binaryOp op operand (.const v b) signed w) = some amount)
    (htyped : (binaryOp op operand (.const v b) signed w).WellTyped) (hv : 0 ≤ v ∧ v < 2 ^ b) :
    (amount < 0 ∧ amount = -1 ∧ ∀ σ, (binaryOp op operand (.const v b) signed w).eval σ = 0) ∨
      ∃ k : Nat, amount = k ∧
        ∀ σ, (binaryOp op operand (.const v b) signed w).eval σ = operand.eval σ * 2 ^ k % 2 ^ w := by
  unfold getExprShiftLeftAmount at hamount
  split at hamount
  · rename_i heq
    cases heq
    cases hamount
    refine .inr ⟨v.toNat, (Int.toNat_of_nonneg hv.1).symm, fun σ => ?_⟩
    have hfits := wrap_of_fits hv
    rw [eval_shl, eval_const, show wrap b v = v.toNat by omega]
  · rename_i heq
    cases heq
    obtain ⟨-, -, hbits, hw⟩ := htyped
    obtain rfl : b = w := hw
    have hfits := wrap_of_fits hv
    split at hamount
    · rename_i hland
      cases hamount
      rcases land_sub_one_eq_zero hv.1 hland with rfl | ⟨k, rfl, hk⟩
      · refine .inl ⟨by decide, by decide, fun σ => ?_⟩
        rw [eval_mul, eval_const, show wrap b 0 = 0 by omega, Nat.mul_zero, Nat.zero_mod]
      refine .inr ⟨k, hk, fun σ => ?_⟩
      have hwrap : wrap b (2 ^ k) = 2 ^ k := by
        have hcast : ((2 ^ k : Nat) : Int) = 2 ^ k := by push_cast; rfl
        rw [← hcast] at hfits
        rw [← hcast]
        omega
      rw [eval_mul, eval_const, hwrap]
    · cases hamount
  · cases hamount

/-- What was matched, by the direction of the rotation. -/
theorem rotate_eq_some {first second new : Expr} {w : Nat} (h : rotate first second w = some new) :
    (∃ op x v₁ b₁ s₁ w₁ v₂ b₂ s₂ w₂ amount, first = .binaryOp op x (.const v₁ b₁) s₁ w₁ ∧
        second = .binaryOp .shr x (.const v₂ b₂) s₂ w₂ ∧ getExprShiftLeftAmount first = some amount ∧
        amount + v₂ = w ∧ new = .binaryOp .rol x (.const amount 8) false w) ∨
      ∃ op x v₁ b₁ s₁ w₁ v₂ b₂ s₂ w₂ amount, first = .binaryOp .shr x (.const v₁ b₁) s₁ w₁ ∧
        second = .binaryOp op x (.const v₂ b₂) s₂ w₂ ∧ op ≠ .shr ∧ getExprShiftLeftAmount second = some amount ∧
        v₁ + amount = w ∧ new = .binaryOp .ror x (.const v₁ b₁) false w := by
  unfold rotate at h
  split at h
  · rename_i op₁ x₁ v₁ b₁ s₁ w₁ op₂ x₂ v₂ b₂ s₂ w₂
    split at h
    · cases h
    rename_i hlikes
    obtain rfl : x₁ = x₂ := not_not.mp hlikes
    split at h
    · rename_i hleft
      simp only [Bool.and_eq_true, decide_eq_true_eq] at hleft
      obtain ⟨⟨-, rfl⟩, hany⟩ := hleft
      cases hamount : getExprShiftLeftAmount (.binaryOp op₁ x₁ (.const v₁ b₁) s₁ w₁) with
      | none =>
        rw [hamount] at h
        cases h
      | some amount =>
        rw [hamount] at h hany
        cases h
        exact .inl ⟨op₁, x₁, v₁, b₁, s₁, w₁, v₂, b₂, s₂, w₂, amount, rfl, rfl, rfl, by simpa using hany, rfl⟩
    · split at h
      · rename_i hright
        simp only [Bool.and_eq_true, decide_eq_true_eq] at hright
        obtain ⟨⟨rfl, hleft⟩, hany⟩ := hright
        cases h
        have hop : op₂ ≠ .shr := by
          rintro rfl
          cases hleft
        cases hamount : getExprShiftLeftAmount (.binaryOp op₂ x₁ (.const v₂ b₂) s₂ w₂) with
        | none =>
          rw [hamount] at hany
          cases hany
        | some amount =>
          rw [hamount] at hany
          exact .inr ⟨op₂, x₁, v₁, b₁, s₁, w₁, v₂, b₂, s₂, w₂, amount, rfl, rfl, hop, rfl,
            by simpa using hany, rfl⟩
      · cases h
  · cases h

/-- A value below a power of two has nothing above it. -/
theorem div_two_pow_eq_zero {x w k : Nat} (hx : x < 2 ^ w) (hk : w ≤ k) : x / 2 ^ k = 0 :=
  Nat.div_eq_of_lt (hx.trans_le (Nat.pow_le_pow_right Nat.two_pos hk))

/-- The value of two parts that are put together, and of nothing for the second one. -/
theorem parts_or {a lo hi : Nat} (hhi : hi < 2 ^ a) (overwritten : Bool) :
    (lo * 2 ^ a ||| if overwritten then lo * 2 ^ a else hi) = lo * 2 ^ a + if overwritten then 0 else hi := by
  cases overwritten
  · exact Rotate.or_eq_add hhi
  · exact Nat.or_self _

theorem parts_or_right {a lo hi : Nat} (hhi : hi < 2 ^ a) (overwritten : Bool) :
    (hi ||| if overwritten then hi else lo * 2 ^ a) = (if overwritten then 0 else lo) * 2 ^ a + hi := by
  cases overwritten
  · exact (Nat.lor_comm _ _).trans (Rotate.or_eq_add hhi)
  · rw [if_pos rfl, if_pos rfl, Nat.or_self, Nat.zero_mul, Nat.zero_add]

/-- A rotation to the left by an amount of eight bits, against the two parts. -/
theorem rotl_eq_parts_iff {w x k b lo hi : Nat} (hx : x < 2 ^ w) (hsum : k + b = w) (hhi : hi < 2 ^ k) :
    Rotate.rotl w x (k % 256) = lo * 2 ^ k + hi ↔
      lo = Rotate.rotr w x (k - k % 256) % 2 ^ b ∧ hi = Rotate.rotr w x (k - k % 256) / 2 ^ b := by
  have hback := Rotate.rotl_rotr hx (k % 256) (k - k % 256)
  rw [Nat.add_sub_cancel' (Nat.mod_le k 256)] at hback
  rw [← hback, Rotate.rotl_eq_parts Rotate.rotr_lt hsum, eq_comm,
    Rotate.parts_inj hhi (Rotate.div_lt_two_pow Rotate.rotr_lt hsum)]

theorem rotr_eq_parts_iff {w x k b lo hi : Nat} (hx : x < 2 ^ w) (hsum : k + b = w) (hhi : hi < 2 ^ k) :
    Rotate.rotr w x b = lo * 2 ^ k + hi ↔ lo = x % 2 ^ b ∧ hi = x / 2 ^ b := by
  rw [Rotate.rotr_eq_rotl_of_add hx hsum, Rotate.rotl_eq_parts hx hsum, eq_comm,
    Rotate.parts_inj hhi (Rotate.div_lt_two_pow hx hsum)]

/-- The value of a rotation against the values of the shifts. -/
theorem eval_rotate {first second new : Expr} {w : Nat} (h : rotate first second w = some new) (overwritten : Bool)
    (σ σ₁ σ₂ : Env) (hfirst : first.WellTyped ∧ first.ConstsFit ∧ first.bits = w)
    (hsecond : second.WellTyped ∧ second.ConstsFit ∧ second.bits = w) :
    new.bits = w ∧
      (new.eval σ = (first.eval σ₁ ||| if overwritten then first.eval σ₁ else second.eval σ₂) ↔
        RotateWhen w first second overwritten σ₁ σ₂ σ) := by
  rcases rotate_eq_some h with ⟨op, x, v₁, b₁, s₁, w₁, v₂, b₂, s₂, w₂, amount, rfl, rfl, hamount, hsum, rfl⟩ |
    ⟨op, x, v₁, b₁, s₁, w₁, v₂, b₂, s₂, w₂, amount, rfl, rfl, hop, hamount, hsum, rfl⟩
  · obtain ⟨htyped₁, ⟨-, -, hfit₁⟩, rfl⟩ := hfirst
    obtain ⟨⟨hx, -, hw₂⟩, ⟨-, -, hfit₂⟩, hbits₂⟩ := hsecond
    obtain rfl : w₂ = w₁ := hbits₂
    have hlt : ∀ σ, x.eval σ < 2 ^ w₂ := by
      intro σ
      rw [← show x.bits = w₂ from hw₂]
      exact eval_lt σ x hx
    refine ⟨rfl, ?_⟩
    change (binaryOp .rol x (.const amount 8) false w₂).eval σ = _ ↔
      RolWhen w₂ ((getExprShiftLeftAmount (.binaryOp op x (.const v₁ b₁) s₁ w₂)).getD 0) (x.eval σ)
        (x.eval σ₁ % 2 ^ v₂.toNat) (if overwritten then 0 else x.eval σ₂ / 2 ^ v₂.toNat)
    have hfits := wrap_of_fits hfit₂
    rw [hamount, Option.getD_some, eval_rol hw₂, eval_shr (hlt σ₂), eval_const, eval_const,
      show wrap b₂ v₂ = v₂.toNat by omega]
    have hbits : (binaryOp op x (.const v₁ b₁) s₁ w₂).bits = w₂ := rfl
    rw [hbits] at hsum
    rcases eval_of_shiftLeft hamount htyped₁ hfit₁ with ⟨hneg, rfl, hzero⟩ | ⟨k, rfl, hleft⟩
    · rw [hzero, RolWhen, if_pos hneg, div_two_pow_eq_zero (hlt σ₂) (by omega), ite_self, Nat.or_self]
      exact Rotate.rotl_eq_zero (hlt σ)
    have hab : k + v₂.toNat = w₂ := by omega
    have hhi := Rotate.div_lt_two_pow (hlt σ₂) hab
    have hpart : (if overwritten then 0 else x.eval σ₂ / 2 ^ v₂.toNat) < 2 ^ k := by
      split
      · exact Nat.two_pow_pos k
      · exact hhi
    rw [RolWhen, if_neg (show ¬(k : Int) < 0 by omega), hleft, Rotate.mul_two_pow_mod hab, parts_or hhi, wrap_natCast,
      show (2 : Nat) ^ 8 = 256 from rfl, rotl_eq_parts_iff (hlt σ) hab hpart, Int.toNat_natCast,
      show w₂ - k = v₂.toNat by omega]
  · obtain ⟨⟨hx, -, hw₁⟩, ⟨-, -, hfit₁⟩, rfl⟩ := hfirst
    obtain ⟨htyped₂, ⟨-, -, hfit₂⟩, hbits₂⟩ := hsecond
    obtain rfl : w₂ = w₁ := hbits₂
    have hlt : ∀ σ, x.eval σ < 2 ^ w₂ := by
      intro σ
      rw [← show x.bits = w₂ from hw₁]
      exact eval_lt σ x hx
    refine ⟨rfl, ?_⟩
    have hwhen : RotateWhen w₂ (.binaryOp .shr x (.const v₁ b₁) s₁ w₂) (.binaryOp op x (.const v₂ b₂) s₂ w₂) overwritten
        σ₁ σ₂ σ = RorWhen w₂ ((getExprShiftLeftAmount (.binaryOp op x (.const v₂ b₂) s₂ w₂)).getD 0) (x.eval σ)
          (if overwritten then 0 else x.eval σ₂ % 2 ^ v₁.toNat) (x.eval σ₁ / 2 ^ v₁.toNat) := by
      cases op <;> first | rfl | exact absurd rfl hop
    change (binaryOp .ror x (.const v₁ b₁) false w₂).eval σ = _ ↔
      RotateWhen w₂ (.binaryOp .shr x (.const v₁ b₁) s₁ w₂) (.binaryOp op x (.const v₂ b₂) s₂ w₂) overwritten σ₁ σ₂ σ
    have hfits := wrap_of_fits hfit₁
    rw [hwhen, hamount, Option.getD_some, eval_ror hw₁, eval_shr (hlt σ₁), eval_const, eval_const,
      show wrap b₁ v₁ = v₁.toNat by omega]
    have hbits : (binaryOp .shr x (.const v₁ b₁) s₁ w₂).bits = w₂ := rfl
    rw [hbits] at hsum
    rcases eval_of_shiftLeft hamount htyped₂ hfit₂ with ⟨hneg, rfl, hzero⟩ | ⟨k, rfl, hleft⟩
    · rw [RorWhen, if_pos hneg, hzero, div_two_pow_eq_zero (hlt σ₁) (by omega), ite_self, Nat.or_self,
        Rotate.rotr_eq_rotl (hlt σ)]
      exact Rotate.rotl_eq_zero (hlt σ)
    have hab : k + v₁.toNat = w₂ := by omega
    have hhi := Rotate.div_lt_two_pow (hlt σ₁) hab
    rw [RorWhen, if_neg (show ¬(k : Int) < 0 by omega), hleft, Rotate.mul_two_pow_mod hab, parts_or_right hhi,
      rotr_eq_parts_iff (hlt σ) hab hhi, Int.toNat_natCast, show w₂ - k = v₁.toNat by omega]

/-- A temporary that was read back has what was assigned to it last. -/
theorem eval_tmps {t₁ t₂ i₀ i₁ : Int} (u₁ u₂ : Nat) {w : Nat} {src₁ src₂ : Expr} (σ : Env)
    (hset : ({t₁, t₂} : Finset Int) = {i₀, i₁}) (hlt₁ : ∀ σ, src₁.eval σ < 2 ^ w) (hlt₂ : ∀ σ, src₂.eval σ < 2 ^ w) :
    let σ₁ := (assignment (.tmp t₂ u₂) src₂).exec σ
    let σ₀ := (assignment (.tmp t₁ u₁) src₁).exec σ₁
    ((tmp i₀ w).eval σ₀ ||| (tmp i₁ w).eval σ₀) =
      (src₁.eval σ₁ ||| if t₁ = t₂ then src₁.eval σ₁ else src₂.eval σ) := by
  intro σ₁ σ₀
  have hread₁ : σ₀.tmps t₁ % 2 ^ w = src₁.eval σ₁ := by
    simp only [σ₀, exec, Env.assign, Function.update_self]
    exact Nat.mod_eq_of_lt (hlt₁ σ₁)
  have hread₂ : t₁ ≠ t₂ → σ₀.tmps t₂ % 2 ^ w = src₂.eval σ := by
    intro hne
    simp only [σ₀, σ₁, exec, Env.assign, Function.update_of_ne (Ne.symm hne), Function.update_self]
    exact Nat.mod_eq_of_lt (hlt₂ σ)
  have hmem₀ : i₀ = t₁ ∨ i₀ = t₂ := by
    have : i₀ ∈ ({t₁, t₂} : Finset Int) := by rw [hset]; simp
    simpa using this
  have hmem₁ : i₁ = t₁ ∨ i₁ = t₂ := by
    have : i₁ ∈ ({t₁, t₂} : Finset Int) := by rw [hset]; simp
    simpa using this
  have hmem₁' : t₁ = i₀ ∨ t₁ = i₁ := by
    have : t₁ ∈ ({i₀, i₁} : Finset Int) := by rw [← hset]; simp
    simpa using this
  have hmem₂' : t₂ = i₀ ∨ t₂ = i₁ := by
    have : t₂ ∈ ({i₀, i₁} : Finset Int) := by rw [← hset]; simp
    simpa using this
  simp only [eval]
  by_cases heq : t₁ = t₂
  · subst heq
    obtain rfl : i₀ = t₁ := by tauto
    obtain rfl : i₁ = i₀ := by tauto
    rw [if_pos rfl, hread₁]
  rw [if_neg heq]
  rcases hmem₀ with rfl | rfl
  · obtain rfl : i₁ = t₂ := by
      rcases hmem₂' with h | h
      · exact absurd h.symm heq
      · exact h.symm
    rw [hread₁, hread₂ heq]
  obtain rfl : i₁ = t₁ := by
    rcases hmem₁' with h | h
    · exact absurd h heq
    · exact h.symm
  rw [hread₁, hread₂ heq, Nat.lor_comm]

/-- A rotation of two temporaries that the statements before assign. -/
theorem optimize_tmps_exact {statements : List Stmt} (hblock : BlockTyped statements) {idx : Nat}
    {dst new src₁ src₂ : Expr} {i₀ i₁ t₁ t₂ : Int} {w₀ w₁ u₁ u₂ w : Nat} {signed : Bool}
    (hstmt : statements[idx + 2]? = some (.assignment dst (.binaryOp .or (.tmp i₀ w₀) (.tmp i₁ w₁) signed w)))
    (hstmt₁ : statements[idx + 1]? = some (.assignment (.tmp t₁ u₁) src₁))
    (hstmt₂ : statements[idx]? = some (.assignment (.tmp t₂ u₂) src₂))
    (hset : ({t₁, t₂} : Finset Int) = {i₀, i₁}) (h : rotate src₁ src₂ dst.bits = some new) (σ : Env) :
    new.bits = w ∧ (new.eval (run (statements.take (idx + 2)) σ) =
        (binaryOp .or (.tmp i₀ w₀) (.tmp i₁ w₁) signed w).eval (run (statements.take (idx + 2)) σ) ↔
      RotateWhen w src₁ src₂ (t₁ = t₂) (run (statements.take (idx + 1)) σ) (run (statements.take idx) σ)
        (run (statements.take (idx + 2)) σ)) := by
  obtain ⟨Γ, hΓ⟩ := hblock
  obtain ⟨⟨-, -, hw₀, hw₁⟩, hdst, -, -, -, hwidth₀, hwidth₁⟩ := hΓ _ (List.mem_of_getElem? hstmt)
  obtain ⟨htyped₁, hbits₁, hfit₁, hΓ₁, -⟩ := hΓ _ (List.mem_of_getElem? hstmt₁)
  obtain ⟨htyped₂, hbits₂, hfit₂, hΓ₂, -⟩ := hΓ _ (List.mem_of_getElem? hstmt₂)
  obtain rfl : w₀ = w := hw₀
  obtain rfl : w₁ = w₀ := hw₁
  have hwidth : ∀ t : Int, t = i₀ ∨ t = i₁ → Γ t = w₁ := by
    rintro t (rfl | rfl)
    · exact hwidth₀.symm
    · exact hwidth₁.symm
  have hmem₁ : t₁ = i₀ ∨ t₁ = i₁ := by
    have : t₁ ∈ ({i₀, i₁} : Finset Int) := by rw [← hset]; simp
    simpa using this
  have hmem₂ : t₂ = i₀ ∨ t₂ = i₁ := by
    have : t₂ ∈ ({i₀, i₁} : Finset Int) := by rw [← hset]; simp
    simpa using this
  have hw₁ : src₁.bits = w₁ := hbits₁.symm.trans (Eq.trans hΓ₁ (hwidth t₁ hmem₁))
  have hw₂ : src₂.bits = w₁ := hbits₂.symm.trans (Eq.trans hΓ₂ (hwidth t₂ hmem₂))
  have hlt₁ : ∀ σ, src₁.eval σ < 2 ^ w₁ := fun σ => hw₁ ▸ eval_lt σ src₁ htyped₁
  have hlt₂ : ∀ σ, src₂.eval σ < 2 ^ w₁ := fun σ => hw₂ ▸ eval_lt σ src₂ htyped₂
  have hdst' : dst.bits = w₁ := hdst
  rw [hdst'] at h
  have hread := eval_tmps u₁ u₂ (run (statements.take idx) σ) hset hlt₁ hlt₂
  have hrun₂ := run_take_succ hstmt₂ σ
  have hrun₁ := run_take_succ hstmt₁ σ
  dsimp only at hread
  rw [← hrun₂, ← hrun₁] at hread
  obtain ⟨hbits, hiff⟩ := eval_rotate h (t₁ = t₂) (run (statements.take (idx + 2)) σ)
    (run (statements.take (idx + 1)) σ) (run (statements.take idx) σ) ⟨htyped₁, hfit₁, hw₁⟩ ⟨htyped₂, hfit₂, hw₂⟩
  refine ⟨hbits, ?_⟩
  rw [eval_or, hread, ← hiff]
  have hlt : (src₁.eval (run (statements.take (idx + 1)) σ) |||
      if t₁ = t₂ then src₁.eval (run (statements.take (idx + 1)) σ) else src₂.eval (run (statements.take idx) σ)) <
        2 ^ w₁ := by
    refine Nat.or_lt_two_pow (hlt₁ _) ?_
    split
    · exact hlt₁ _
    · exact hlt₂ _
  rw [Nat.mod_eq_of_lt hlt]
  simp only [decide_eq_true_eq]

/-- A rotation of shifts that stand in the statement itself. -/
theorem optimize_propagated_exact {op₀ op₁ new : Expr} {signed : Bool} {w : Nat}
    (htyped : (binaryOp .or op₀ op₁ signed w).WellTyped) (hfits : (binaryOp .or op₀ op₁ signed w).ConstsFit)
    (h : rotate op₀ op₁ w = some new) (σ : Env) :
    new.bits = w ∧ (new.eval σ = (binaryOp .or op₀ op₁ signed w).eval σ ↔ RotateWhen w op₀ op₁ false σ σ σ) := by
  obtain ⟨htyped₀, htyped₁, hw₀, hw₁⟩ := htyped
  obtain ⟨-, hfit₀, hfit₁⟩ := hfits
  obtain ⟨hbits, hiff⟩ := eval_rotate h false σ σ σ ⟨htyped₀, hfit₀, hw₀⟩ ⟨htyped₁, hfit₁, hw₁⟩
  refine ⟨hbits, ?_⟩
  have hlt : op₀.eval σ ||| op₁.eval σ < 2 ^ w :=
    Nat.or_lt_two_pow (hw₀ ▸ eval_lt σ op₀ htyped₀) (hw₁ ▸ eval_lt σ op₁ htyped₁)
  rw [eval_or, Nat.mod_eq_of_lt hlt, ← hiff]
  rfl

/-- A rotation has the value that it replaces in exactly the runs of `When`. -/
theorem optimize_exact {statements : List Stmt} (hblock : BlockTyped statements) {stmtIdx : Nat} {dst dst' src new : Expr}
    (hstmt : statements[stmtIdx]? = some (.assignment dst src))
    (h : optimize dst src stmtIdx statements = some (.assignment dst' new)) (σ : Env) :
    dst' = dst ∧ new.bits = src.bits ∧
      (new.eval (run (statements.take stmtIdx) σ) = src.eval (run (statements.take stmtIdx) σ) ↔
        When src stmtIdx statements σ) := by
  unfold optimize at h
  split at h
  · split at h
    · cases h
    rename_i i₀ w₀ i₁ w₁ signed w hidx
    obtain ⟨idx, rfl⟩ : ∃ idx, stmtIdx = idx + 2 := ⟨stmtIdx - 2, by omega⟩
    have hone : idx + 2 - 1 = idx + 1 := by omega
    have htwo : idx + 2 - 2 = idx := by omega
    unfold When
    dsimp only
    rw [hone, htwo] at h ⊢
    split at h
    · rename_i t₁ u₁ src₁ t₂ u₂ src₂ hstmt₁ hstmt₂
      split at h
      · cases h
      rename_i hset
      cases hrotate : rotate src₁ src₂ dst.bits with
      | none =>
        rw [hrotate] at h
        cases h
      | some e =>
        rw [hrotate] at h
        cases h
        exact ⟨rfl, optimize_tmps_exact hblock hstmt hstmt₁ hstmt₂ (not_not.mp hset) hrotate σ⟩
    · cases h
  · rename_i op₀ op₁ signed w hne
    cases hrotate : rotate op₀ op₁ dst.bits with
    | none =>
      rw [hrotate] at h
      cases h
    | some e =>
      rw [hrotate] at h
      cases h
      obtain ⟨Γ, hΓ⟩ := hblock
      obtain ⟨htyped, hdst, hfits, -⟩ := hΓ _ (List.mem_of_getElem? hstmt)
      rw [show dst.bits = w from hdst] at hrotate
      refine ⟨rfl, ?_⟩
      have hwhen : When (.binaryOp .or op₀ op₁ signed w) stmtIdx statements σ =
          RotateWhen w op₀ op₁ false (run (statements.take stmtIdx) σ) (run (statements.take stmtIdx) σ)
            (run (statements.take stmtIdx) σ) := by
        unfold When
        split
        · rename_i heq
          cases heq
          exact absurd rfl (hne _ _ _ _ rfl)
        · rename_i heq
          cases heq
          rfl
        · rename_i hno
          exact absurd rfl (hno _ _ _ _)
      rw [hwhen]
      exact optimize_propagated_exact htyped hfits hrotate _
  · cases h

end RolRorRewriter

end Angr.Peephole
