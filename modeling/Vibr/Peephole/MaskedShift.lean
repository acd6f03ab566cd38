import Vibr.Peephole.RolRor

/-!
# Masked shifts

A comparison of a value that was shifted to the right becomes one of the masked value. A
converted value that is shifted to the left and then to the right is masked and shifted once.
-/

namespace Angr.Peephole

open Expr

def isConst : Expr → Bool
  | .const _ _ => true
  | _ => false

namespace CmpMaskedShift

/-- Peels a truncation without a sign, which gives the width. -/
def peel (shifted : Expr) : Option (Option Nat × Expr) :=
  match shifted with
  | .convert fromBits toBits isSigned operand =>
    if isSigned || fromBits ≤ toBits then none else some (some toBits, operand)
  | e => some (none, e)

/-- The comparison of a shifted value with the constant `c`. -/
def optimizeConst (op : BinOp) (op₀ : Expr) (c : Int) (signed : Bool) (bits : Nat) : Option Expr :=
  match peel op₀ with
  | some (width, .binaryOp .shr x (.const n _) _ _) =>
    let width : Int := (width.map Int.ofNat).getD (x.bits - n)
    if n ≤ 0 then none
    else if width ≤ 0 ∨ (x.bits : Int) < n + width then none
    else if c / 2 ^ width.toNat ≠ 0 then none
    else
      let mask := (2 ^ width.toNat - 1) * 2 ^ n.toNat
      let andExpr := Expr.binaryOp .and x (.const mask x.bits) false x.bits
      some (.binaryOp op andExpr (.const (c * 2 ^ n.toNat) x.bits) signed bits)
  | _ => none

def optimize (expr : Expr) : Option Expr :=
  match expr with
  | .binaryOp op op₀ op₁ signed bits =>
    if op ≠ .cmpEQ ∧ op ≠ .cmpNE then none
    else
      match (if isConst op₀ && !isConst op₁ then (op₁, op₀) else (op₀, op₁)) with
      | (op₀, .const c _) => optimizeConst op op₀ c signed bits
      | _ => none
  | _ => none

end CmpMaskedShift

namespace ConvShlShr

def optimize (expr : Expr) : Option Expr :=
  match expr with
  | .binaryOp .shr (.binaryOp .shl (.convert m n false operand) (.const p _) _ _) (.const q _) _ _ =>
    if p ≤ q ∧ m < n ∧ p ≤ n then
      let bitmask := 2 ^ (n - p).toNat - 1
      let andExpr := Expr.binaryOp .and (.convert m n false operand) (.const bitmask n) false n
      some (.binaryOp .shr andExpr (.const (q - p) n) false n)
    else none
  | _ => none

/-- The amount of the shift fits the width of the value, or no bit is left by what it becomes. -/
def When (expr : Expr) (σ : Env) : Prop :=
  match expr with
  | .binaryOp _ (.binaryOp _ (.convert _ n _ operand) (.const p _) _ _) (.const q _) _ _ =>
    q - p < 2 ^ n ∨ operand.eval σ % 2 ^ (n - p).toNat < 2 ^ ((q - p) % 2 ^ n).toNat
  | _ => True

end ConvShlShr

/-! ## Masks -/

/-- The bits of a number that a mask selects. -/
theorem and_mask (x n width : Nat) : x &&& (2 ^ width - 1) * 2 ^ n = x / 2 ^ n % 2 ^ width * 2 ^ n := by
  refine Nat.eq_of_testBit_eq fun i => ?_
  rw [Nat.testBit_and, Nat.mul_comm, Nat.testBit_two_pow_mul, Nat.mul_comm, Nat.testBit_two_pow_mul]
  by_cases hi : n ≤ i
  · rw [decide_eq_true hi, Bool.true_and, Bool.true_and, Nat.testBit_two_pow_sub_one, Nat.testBit_mod_two_pow,
      Nat.testBit_div_two_pow, Nat.sub_add_cancel hi, Bool.and_comm]
  · simp [hi]

/-- Values of one width that have the same sign and the same bits are equal. -/
theorem toSigned_inj {w x y : Nat} (hx : x < 2 ^ w) (hy : y < 2 ^ w) : toSigned w x = toSigned w y ↔ x = y := by
  constructor
  · intro h
    have hmod := congrArg (· % ((2 ^ w : Nat) : Int)) h
    simp only [toSigned, Int.bmod_emod] at hmod
    rw [Int.emod_eq_of_lt (by omega) (by omega), Int.emod_eq_of_lt (by omega) (by omega)] at hmod
    omega
  · rintro rfl
    rfl

/-- An equality is the same with a sign and without one. -/
theorem eval_cmp_congr {σ : Env} {op : BinOp} (hop : op = .cmpEQ ∨ op = .cmpNE) {a b a' b' : Expr} {signed : Bool}
    (hbits : a.bits = b.bits) (hbits' : a'.bits = b'.bits) (ha : a.eval σ < 2 ^ b.bits) (hb : b.eval σ < 2 ^ b.bits)
    (ha' : a'.eval σ < 2 ^ b'.bits) (hb' : b'.eval σ < 2 ^ b'.bits)
    (h : a.eval σ = b.eval σ ↔ a'.eval σ = b'.eval σ) :
    (binaryOp op a b signed 1).eval σ = (binaryOp op a' b' signed 1).eval σ := by
  have hnat : ((a.eval σ : Int) = b.eval σ) ↔ ((a'.eval σ : Int) = b'.eval σ) := by
    rw [Int.natCast_inj, Int.natCast_inj]
    exact h
  have hint : toSigned b.bits (a.eval σ) = toSigned b.bits (b.eval σ) ↔
      toSigned b'.bits (a'.eval σ) = toSigned b'.bits (b'.eval σ) := by
    rw [toSigned_inj ha hb, toSigned_inj ha' hb']
    exact h
  rcases hop with rfl | rfl
  · simp only [eval, BinOp.eval, BinOp.cmp, hbits, hbits', decide_eq_decide.mpr hnat, decide_eq_decide.mpr hint]
  · simp only [eval, BinOp.eval, BinOp.cmp, hbits, hbits', decide_eq_decide.mpr (not_congr hnat),
      decide_eq_decide.mpr (not_congr hint)]

namespace CmpMaskedShift

/-- The masked value is the constant, moved to the mask, if and only if the shifted value is
the constant. -/
theorem eval_masked {x : Expr} {c : Int} {n width : Nat} {op : BinOp} (hop : op = .cmpEQ ∨ op = .cmpNE) {op₀ : Expr}
    {signed : Bool} (hx : x.WellTyped) (hfit : n + width ≤ x.bits) (hc : 0 ≤ c ∧ c < 2 ^ width)
    (hwidth : width ≤ op₀.bits) {σ : Env} (hop₀ : op₀.eval σ = x.eval σ / 2 ^ n % 2 ^ width) :
    (binaryOp op (.binaryOp .and x (.const ((2 ^ width - 1) * 2 ^ n) x.bits) false x.bits)
        (.const (c * 2 ^ n) x.bits) signed 1).eval σ =
      (binaryOp op op₀ (.const c op₀.bits) signed 1).eval σ := by
  have hpart : ∀ m < 2 ^ width, m * 2 ^ n < 2 ^ x.bits := by
    intro m hm
    calc m * 2 ^ n < 2 ^ width * 2 ^ n := Nat.mul_lt_mul_of_pos_right hm (Nat.two_pow_pos n)
      _ = 2 ^ (n + width) := by rw [← pow_add, Nat.add_comm]
      _ ≤ 2 ^ x.bits := Nat.pow_le_pow_right Nat.two_pos hfit
  have hmask : wrap x.bits ((2 ^ width - 1) * 2 ^ n) = (2 ^ width - 1) * 2 ^ n := by
    have hpow := Nat.two_pow_pos width
    have hcast : ((2 : Int) ^ width - 1) * 2 ^ n = (((2 ^ width - 1) * 2 ^ n : Nat) : Int) := by
      push_cast [Nat.one_le_iff_ne_zero.mpr hpow.ne']
      rfl
    rw [hcast, wrap_natCast, Nat.mod_eq_of_lt (hpart _ (by omega))]
  obtain ⟨k, rfl⟩ := Int.eq_ofNat_of_zero_le hc.1
  have hk : k < 2 ^ width := by
    have := hc.2
    exact_mod_cast this
  have hmoved : wrap x.bits ((k : Int) * 2 ^ n) = k * 2 ^ n := by
    have hcast : (k : Int) * 2 ^ n = ((k * 2 ^ n : Nat) : Int) := by push_cast; rfl
    rw [hcast, wrap_natCast, Nat.mod_eq_of_lt (hpart k hk)]
  have hconst : wrap op₀.bits (k : Int) = k := by
    rw [wrap_natCast]
    exact Nat.mod_eq_of_lt (hk.trans_le (Nat.pow_le_pow_right Nat.two_pos hwidth))
  have hlow : x.eval σ / 2 ^ n % 2 ^ width < 2 ^ width := Nat.mod_lt _ (Nat.two_pow_pos width)
  have hand : (binaryOp .and x (.const ((2 ^ width - 1) * 2 ^ n) x.bits) false x.bits).eval σ =
      x.eval σ / 2 ^ n % 2 ^ width * 2 ^ n := by
    rw [eval_and, eval_const, hmask, and_mask, Nat.mod_eq_of_lt (hpart _ hlow)]
  have hle : 2 ^ width ≤ 2 ^ op₀.bits := Nat.pow_le_pow_right Nat.two_pos hwidth
  refine eval_cmp_congr hop rfl rfl ?_ (wrap_lt _ _) ?_ (wrap_lt _ _) ?_
  · rw [hand]
    exact hpart _ hlow
  · rw [hop₀]
    exact hlow.trans_le hle
  · rw [hand, hop₀, eval_const, eval_const, hmoved, hconst]
    exact Nat.mul_left_inj (Nat.two_pow_pos n).ne'

/-- What was peeled. -/
theorem peel_eq_some {e shifted : Expr} {width : Option Nat} (h : peel e = some (width, shifted)) :
    (∃ fromBits toBits, e = .convert fromBits toBits false shifted ∧ toBits < fromBits ∧ width = some toBits) ∨
      e = shifted ∧ width = none := by
  unfold peel at h
  split at h
  · rename_i fromBits toBits isSigned operand
    split at h
    · cases h
    rename_i hcond
    cases h
    cases isSigned
    · refine .inl ⟨fromBits, toBits, rfl, ?_, rfl⟩
      simpa using hcond
    · exact absurd rfl hcond
  · cases h
    exact .inr ⟨rfl, rfl⟩

theorem optimizeConst_exact {op : BinOp} (hop : op = .cmpEQ ∨ op = .cmpNE) {op₀ new : Expr} {c : Int} {signed : Bool}
    (htyped : op₀.WellTyped) (hfits : op₀.ConstsFit) (h : optimizeConst op op₀ c signed 1 = some new) :
    new.bits = 1 ∧ ∀ σ, new.eval σ = (binaryOp op op₀ (.const c op₀.bits) signed 1).eval σ := by
  unfold optimizeConst at h
  split at h
  · rename_i width x n b s u hpeel
    dsimp only at h
    split at h
    · cases h
    rename_i hn
    split at h
    · cases h
    rename_i hrange
    split at h
    · cases h
    rename_i hc
    cases h
    refine ⟨rfl, fun σ => ?_⟩
    have hshift : ∀ e : Expr, e = .binaryOp .shr x (.const n b) s u → e.WellTyped → e.ConstsFit →
        x.WellTyped ∧ x.bits = u ∧ e.eval σ = x.eval σ / 2 ^ n.toNat := by
      rintro e rfl ⟨hx, -, hu⟩ ⟨-, -, hfit⟩
      have hlt := eval_lt σ x hx
      have hn' := wrap_of_fits hfit
      rw [show x.bits = u from hu] at hlt
      refine ⟨hx, hu, ?_⟩
      rw [eval_shr hlt, eval_const, show wrap b n = n.toNat by omega]
    have hconst : ∀ width : Nat, c / 2 ^ width = 0 → 0 ≤ c ∧ c < 2 ^ width := by
      intro width hzero
      have hpow : (0 : Int) < 2 ^ width := by positivity
      have hdiv := Int.mul_ediv_add_emod c (2 ^ width)
      have hlt := Int.emod_lt_of_pos c hpow
      rw [hzero] at hdiv
      omega
    rcases peel_eq_some hpeel with ⟨fromBits, toBits, rfl, hlt, rfl⟩ | ⟨rfl, rfl⟩
    · obtain ⟨hinner, hfrom⟩ := htyped
      obtain ⟨hx, hu, heval⟩ := hshift _ rfl hinner hfits.2
      have hwidth : ((some toBits).map Int.ofNat).getD (x.bits - n) = toBits := rfl
      rw [hwidth] at hrange hc ⊢
      rw [Int.toNat_natCast] at hc ⊢
      refine eval_masked hop hx (by omega) (hconst toBits (not_not.mp hc)) (Nat.le_refl _) ?_
      exact congrArg (· % 2 ^ toBits) heval
    obtain ⟨hx, hu, heval⟩ := hshift _ rfl htyped hfits
    have hwidth : ((none : Option Nat).map Int.ofNat).getD (x.bits - n) = x.bits - n := rfl
    rw [hwidth] at hrange hc ⊢
    obtain ⟨width, hw⟩ : ∃ width : Nat, (x.bits : Int) - n = width := ⟨(x.bits - n).toNat, by omega⟩
    rw [hw] at hrange hc ⊢
    rw [Int.toNat_natCast] at hc ⊢
    refine eval_masked hop hx (by omega) (hconst width (not_not.mp hc)) (by change width ≤ u; omega) ?_
    rw [heval]
    have hlt := Rotate.div_lt_two_pow (eval_lt σ x hx) (show width + n.toNat = x.bits by omega)
    exact (Nat.mod_eq_of_lt hlt).symm
  · cases h

/-- A comparison has the same result with the mask. -/
theorem optimize_exact {e e' : Expr} (htyped : e.WellTyped) (hfits : e.ConstsFit) (h : optimize e = some e') :
    e'.bits = e.bits ∧ ∀ σ, e'.eval σ = e.eval σ := by
  unfold optimize at h
  split at h
  · rename_i op op₀ op₁ signed bits
    split at h
    · cases h
    rename_i hop
    have hcmp : op = .cmpEQ ∨ op = .cmpNE := by tauto
    obtain ⟨htyped₀, htyped₁, hop'⟩ := htyped
    obtain ⟨-, hfits₀, hfits₁⟩ := hfits
    obtain ⟨hbits, rfl⟩ : op₀.bits = op₁.bits ∧ bits = 1 := by
      rcases hcmp with rfl | rfl <;> exact hop'
    split at h
    · rename_i op' c b heq
      split at heq
      · obtain ⟨rfl, rfl⟩ := Prod.mk.inj heq
        obtain ⟨hnew, heval⟩ := optimizeConst_exact hcmp htyped₁ hfits₁ h
        refine ⟨hnew, fun σ => (heval σ).trans ?_⟩
        have hlt := eval_lt σ op₁ htyped₁
        have hwrap : (const c b).eval σ < 2 ^ op₁.bits := by
          rw [← hbits]
          exact wrap_lt _ _
        have hsame : (const c op₁.bits).eval σ = (const c b).eval σ := by
          rw [← hbits]
          rfl
        refine eval_cmp_congr hcmp rfl hbits hlt (wrap_lt _ _) hwrap hlt ?_
        rw [hsame, eq_comm]
      · obtain ⟨rfl, rfl⟩ := Prod.mk.inj heq
        obtain ⟨hnew, heval⟩ := optimizeConst_exact hcmp htyped₀ hfits₀ h
        refine ⟨hnew, fun σ => (heval σ).trans ?_⟩
        rw [hbits]
        rfl
    · cases h
  · cases h

end CmpMaskedShift

namespace ConvShlShr

/-- The value is preserved in exactly the assignments of `When`. -/
theorem optimize_exact {e e' : Expr} (htyped : e.WellTyped) (hfits : e.ConstsFit) (h : optimize e = some e') (σ : Env) :
    e'.bits = e.bits ∧ (e'.eval σ = e.eval σ ↔ When e σ) := by
  unfold optimize at h
  split at h
  · rename_i m n operand p b s u q b' s' u'
    split at h
    · rename_i hcond
      cases h
      obtain ⟨hle, hlt, hpn⟩ := hcond
      obtain ⟨⟨⟨hoperand, hm⟩, -, hu⟩, -, hu'⟩ := htyped
      obtain ⟨-, ⟨-, -, hp⟩, hq⟩ := hfits
      obtain rfl : n = u := hu
      obtain rfl : n = u' := hu'
      refine ⟨rfl, ?_⟩
      have hp' := wrap_of_fits hp
      have hq' := wrap_of_fits hq
      obtain ⟨p, rfl⟩ := Int.eq_ofNat_of_zero_le hp.1
      obtain ⟨q, rfl⟩ := Int.eq_ofNat_of_zero_le hq.1
      have hy : operand.eval σ < 2 ^ n := by
        have := eval_lt σ operand hoperand
        rw [show operand.bits = m from hm] at this
        exact this.trans (Nat.pow_lt_pow_right (by decide) hlt)
      have hconv : (convert m n false operand).eval σ = operand.eval σ := Nat.mod_eq_of_lt hy
      have hshl : (binaryOp .shl (.convert m n false operand) (.const p b) s n).eval σ =
          operand.eval σ % 2 ^ (n - p) * 2 ^ p := by
        rw [eval_shl, hconv, eval_const, show wrap b p = p by omega,
          Rotate.mul_two_pow_mod (show p + (n - p) = n by omega)]
      have hold : (binaryOp .shr (.binaryOp .shl (.convert m n false operand) (.const p b) s n) (.const q b') s' n).eval σ =
          operand.eval σ % 2 ^ (n - p) / 2 ^ (q - p) := by
        have hsplit : (2 : Nat) ^ q = 2 ^ p * 2 ^ (q - p) := by
          rw [← pow_add, Nat.add_sub_cancel' (by omega)]
        rw [eval_shr (wrap_lt _ _), hshl, eval_const, show wrap b' q = q by omega, hsplit, ← Nat.div_div_eq_div_mul,
          Nat.mul_div_cancel _ (Nat.two_pow_pos p)]
      have hexp : ((n : Int) - p).toNat = n - p := by omega
      have hmask : wrap n (2 ^ (n - p) - 1) = 2 ^ (n - p) - 1 := by
        have hpow := Nat.two_pow_pos (n - p)
        have hle : 2 ^ (n - p) ≤ 2 ^ n := Nat.pow_le_pow_right Nat.two_pos (Nat.sub_le n p)
        have hcast : (2 : Int) ^ (n - p) - 1 = ((2 ^ (n - p) - 1 : Nat) : Int) := by
          push_cast [Nat.one_le_iff_ne_zero.mpr hpow.ne']
          rfl
        rw [hcast, wrap_natCast, Nat.mod_eq_of_lt (by omega)]
      have hlow : operand.eval σ % 2 ^ (n - p) < 2 ^ n := (Nat.mod_le _ _).trans_lt hy
      have hamount : wrap n ((q : Int) - p) = ((q : Int) - p).toNat % 2 ^ n := by
        rw [show (q : Int) - p = ((q - p : Nat) : Int) by omega, wrap_natCast, Int.toNat_natCast]
      have hnew : (binaryOp .shr (.binaryOp .and (.convert m n false operand) (.const (2 ^ ((n : Int) - p).toNat - 1) n)
          false n) (.const (q - p) n) false n).eval σ = operand.eval σ % 2 ^ (n - p) / 2 ^ ((q - p) % 2 ^ n) := by
        rw [eval_shr (wrap_lt _ _), eval_and, hconv, eval_const, eval_const, hexp, hmask, Nat.and_two_pow_sub_one_eq_mod,
          Nat.mod_eq_of_lt hlow, hamount, show ((q : Int) - p).toNat = q - p by omega]
      have hwhen : When (.binaryOp .shr (.binaryOp .shl (.convert m n false operand) (.const p b) s n) (.const q b') s' n) σ ↔
          q - p < 2 ^ n ∨ operand.eval σ % 2 ^ (n - p) < 2 ^ ((q - p) % 2 ^ n) := by
        have hsub : (q : Int) - p = (q - p : Nat) := by omega
        have hmod : (((q - p : Nat) : Int) % 2 ^ n).toNat = (q - p) % 2 ^ n := by
          rw [show ((q - p : Nat) : Int) % 2 ^ n = (((q - p) % 2 ^ n : Nat) : Int) by push_cast; rfl, Int.toNat_natCast]
        have hlt' : ((q - p : Nat) : Int) < 2 ^ n ↔ q - p < 2 ^ n := by
          rw [← Int.ofNat_lt]
          push_cast
          rfl
        change ((q : Int) - p < 2 ^ n ∨
          operand.eval σ % 2 ^ ((n : Int) - p).toNat < 2 ^ (((q : Int) - p) % 2 ^ n).toNat) ↔ _
        rw [hsub, hmod, hexp, hlt']
      rw [hnew, hold, hwhen]
      generalize operand.eval σ % 2 ^ (n - p) = z at *
      by_cases hsmall : q - p < 2 ^ n
      · rw [Nat.mod_eq_of_lt hsmall]
        exact ⟨fun _ => .inl hsmall, fun _ => rfl⟩
      have hzero : z / 2 ^ (q - p) = 0 :=
        RolRorRewriter.div_two_pow_eq_zero hlow (Nat.lt_two_pow_self.le.trans (Nat.le_of_not_lt hsmall))
      rw [hzero, Nat.div_eq_zero_iff]
      have hpow := Nat.two_pow_pos ((q - p) % 2 ^ n)
      constructor
      · rintro (h | h)
        · omega
        · exact .inr h
      · rintro (h | h)
        · exact absurd h hsmall
        · exact .inr h
    · cases h
  · cases h

end ConvShlShr

/-! ## Rotations and masked shifts -/

end Angr.Peephole
