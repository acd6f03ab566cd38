import Vibr.Claripy.Builder

/-!
# If

`If` of `claripy/ast/bool.py`. It does not go through the table of the simplifiers: its
rewriting is part of the constructor. A branch that is an `If` of the same condition, or of
its negation, is replaced by the branch of it that is taken.
-/

namespace Claripy

open Ast

inductive TypeError where
  | ClaripyTypeError (message : String)
deriving DecidableEq, Repr

namespace Ast

/-- A branch where `c` is true and `notC` is false, without the `If` expressions on it that
`c` decides. -/
@[grind =] def trueBranch (c notC : Ast) : Ast → Ast
  | node op args ann =>
    match op, args with
    | .If, [c', a, b] =>
      if c' = c then trueBranch c notC a
      else if c' = notC then trueBranch c notC b
      else node op args ann
    | _, _ => node op args ann

/-- A branch where `c` is false and `notC` is true. -/
@[grind =] def falseBranch (c notC : Ast) : Ast → Ast
  | node op args ann =>
    match op, args with
    | .If, [c', a, b] =>
      if c' = c then falseBranch c notC b
      else if c' = notC then falseBranch c notC a
      else node op args ann
    | _, _ => node op args ann

end Ast

namespace Builder

variable (B : Builder)

/-- `If` after its checks. The recursive calls of the source replace one branch at a time,
first the branch for true. -/
def iteSimplified (cond trueValue falseValue : Ast) : Ast :=
  if cond.isTrue then trueValue.appendAnnotations cond.annotations
  else if cond.isFalse then falseValue.appendAnnotations cond.annotations
  else
    let notCond := B.build .Not [cond]
    let t := trueBranch cond notCond trueValue
    let f := falseBranch cond notCond falseValue
    if t = f then t
    else if t = true_ ∧ f = false_ then cond
    else if t = false_ ∧ f = true_ then notCond
    else B.new .If [] [cond, t, f]

/-- `claripy.If` on expressions. Booleans have no length, bitvectors a positive one. -/
def ite (cond trueValue falseValue : Ast) : Except TypeError Ast :=
  let w := trueValue.length
  if w ≠ 0 ∧ falseValue.length ≠ 0 ∧ w ≠ falseValue.length then
    .error (.ClaripyTypeError "sized arguments to If must have the same length")
  else if w = 0 ∧ falseValue.length ≠ 0 then
    .error (.ClaripyTypeError "can't convert <class 'claripy.ast.bv.BV'> to <class 'claripy.ast.bool.Bool'>")
  else if w ≠ 0 ∧ falseValue.length = 0 then
    -- `BV._from_Bool`
    .ok (B.iteSimplified cond trueValue (B.iteSimplified falseValue (BVV 1 w) (BVV 0 w)))
  else .ok (B.iteSimplified cond trueValue falseValue)

end Builder

/-! ## Types and values -/

variable {P : Ast → Prop}

namespace Ast

theorem eval_If (c a b : Ast) (ann : List Annotation) (ρ : Assignment) :
    (node .If [c, a, b] ann).eval ρ = if (c.eval ρ).toBool then a.eval ρ else b.eval ρ := rfl

theorem ty_If {c a b : Ast} {ann : List Annotation} {t : Ty} :
    (node .If [c, a, b] ann).ty = some t ↔ c.ty = some .bool ∧ a.ty = some t ∧ b.ty = some t := by
  constructor
  · intro h
    simp only [ty, tyList, Option.bind_eq_some_iff, Option.map_eq_some_iff] at h
    obtain ⟨_, ⟨u, hu, _, ⟨v, hv, _, ⟨v', hv', _, hnil, rfl⟩, rfl⟩, rfl⟩, hop⟩ := h
    cases hnil
    cases u with
    | bv w => simp [Op.ty] at hop
    | bool =>
      simp only [Op.ty, Option.ite_none_right_eq_some] at hop
      obtain ⟨rfl, hv''⟩ := hop
      exact ⟨hu, hv.trans hv'', hv'.trans hv''⟩
  · rintro ⟨hc, ha, hb⟩
    simp [ty, tyList, hc, ha, hb, Op.ty]

variable {c notC : Ast} {ρ : Assignment}

theorem eval_trueBranch (hnot : (notC.eval ρ).toBool = !(c.eval ρ).toBool) (hc : (c.eval ρ).toBool = true)
    (t : Ast) : (trueBranch c notC t).eval ρ = t.eval ρ := by
  induction t using Ast.induct with
  | h op args ann ih =>
    unfold trueBranch
    split
    · rename_i c' a b
      split
      · rename_i heq
        rw [ih a (by simp), eval_If, heq, if_pos hc]
      split
      · rename_i heq
        rw [ih b (by simp), eval_If, heq, hnot, hc]
        rfl
      · rfl
    · rfl

theorem eval_falseBranch (hnot : (notC.eval ρ).toBool = !(c.eval ρ).toBool) (hc : (c.eval ρ).toBool = false)
    (t : Ast) : (falseBranch c notC t).eval ρ = t.eval ρ := by
  induction t using Ast.induct with
  | h op args ann ih =>
    unfold falseBranch
    split
    · rename_i c' a b
      split
      · rename_i heq
        rw [ih b (by simp), eval_If, heq, hc]
        rfl
      split
      · rename_i heq
        rw [ih a (by simp), eval_If, heq, hnot, hc]
        rfl
      · rfl
    · rfl

/-- What holds of an expression and passes from an `If` to its branches holds of what is left. -/
theorem trueBranch_induction (hif : ∀ c a b ann, P (node .If [c, a, b] ann) → P a ∧ P b) {t : Ast} (h : P t) :
    P (trueBranch c notC t) := by
  induction t using Ast.induct with
  | h op args ann ih =>
    unfold trueBranch
    split
    · rename_i c' a b
      obtain ⟨ha, hb⟩ := hif c' a b ann h
      split
      · exact ih a (by simp) ha
      · split
        · exact ih b (by simp) hb
        · exact h
    · exact h

theorem falseBranch_induction (hif : ∀ c a b ann, P (node .If [c, a, b] ann) → P a ∧ P b) {t : Ast} (h : P t) :
    P (falseBranch c notC t) := by
  induction t using Ast.induct with
  | h op args ann ih =>
    unfold falseBranch
    split
    · rename_i c' a b
      obtain ⟨ha, hb⟩ := hif c' a b ann h
      split
      · exact ih b (by simp) hb
      · split
        · exact ih a (by simp) ha
        · exact h
    · exact h

end Ast

namespace Builder

variable {B : Builder} {cond trueValue falseValue : Ast} {ρ : Assignment} {t : Ty}

theorem toBool_build_not : ((B.build .Not [cond]).eval ρ).toBool = !(cond.eval ρ).toBool := by
  rw [B.eval_build]
  rfl

theorem eval_iteSimplified (hc : cond.ty = some .bool) :
    (B.iteSimplified cond trueValue falseValue).eval ρ =
      if (cond.eval ρ).toBool then trueValue.eval ρ else falseValue.eval ρ := by
  obtain ⟨b, hb⟩ := exists_bool_of_ty hc ρ
  unfold iteSimplified
  split
  · rename_i htrue
    have hholds := holds_of_isTrue htrue ρ
    rw [eval_appendAnnotations, Value.toBool_eq_true.mpr hholds]
    rfl
  split
  · rename_i hfalse
    rw [eval_appendAnnotations, eval_of_isFalse hfalse ρ]
    rfl
  have hnot : ((B.build .Not [cond]).eval ρ).toBool = !(cond.eval ρ).toBool := toBool_build_not
  have hbranches : (if (cond.eval ρ).toBool then (trueBranch cond (B.build .Not [cond]) trueValue).eval ρ
      else (falseBranch cond (B.build .Not [cond]) falseValue).eval ρ) =
      if (cond.eval ρ).toBool then trueValue.eval ρ else falseValue.eval ρ := by
    split
    · rename_i htrue
      exact eval_trueBranch hnot htrue trueValue
    · rename_i hfalse
      exact eval_falseBranch hnot (Bool.eq_false_of_not_eq_true hfalse) falseValue
  rw [← hbranches]
  dsimp only
  generalize trueBranch cond (B.build .Not [cond]) trueValue = t
  generalize falseBranch cond (B.build .Not [cond]) falseValue = f
  split
  · rename_i heq
    rw [heq, ite_self]
  split
  · rename_i heq
    rw [heq.1, heq.2, hb]
    cases b <;> rfl
  split
  · rename_i heq
    rw [heq.1, heq.2, B.eval_build, hb]
    simp [Ast.eval, evalList, Assignment.leaf, Op.apply, hb, Value.toBool]
    cases b <;> rfl
  · rw [eval_new]
    rfl

/-- The result is one of the values, part of one, the condition, its negation, or a node. -/
theorem iteSimplified_induction (hann : ∀ a ann, P a → P (a.annotate ann))
    (hif : ∀ c a b ann, P (node .If [c, a, b] ann) → P a ∧ P b) (ht : P trueValue) (hf : P falseValue)
    (hcond : P true_ → P cond) (hnot : P true_ → P (B.build .Not [cond]))
    (hnew : ∀ a b, P a → P b → P (B.new .If [] [cond, a, b])) :
    P (B.iteSimplified cond trueValue falseValue) := by
  unfold iteSimplified
  split
  · exact hann _ _ ht
  split
  · exact hann _ _ hf
  have ht' : P (trueBranch cond (B.build .Not [cond]) trueValue) := trueBranch_induction hif ht
  have hf' : P (falseBranch cond (B.build .Not [cond]) falseValue) := falseBranch_induction hif hf
  dsimp only
  split
  · exact ht'
  split
  · rename_i heq
    exact hcond (heq.1 ▸ ht')
  split
  · rename_i heq
    exact hnot (heq.2 ▸ hf')
  · exact hnew _ _ ht' hf'

theorem ty_iteSimplified (hc : cond.ty = some .bool) (ht : trueValue.ty = some t)
    (hf : falseValue.ty = some t) : (B.iteSimplified cond trueValue falseValue).ty = some t := by
  have hbool : true_.ty = some t → t = .bool := fun h => (Option.some.inj h).symm
  refine iteSimplified_induction (P := fun a => a.ty = some t) (fun a ann h => (ty_annotate ann a).trans h)
    (fun c a b ann h => (ty_If.mp h).2) ht hf (fun h => by rw [hc, hbool h]) (fun h => ?_)
    fun a b ha hb => ty_new (ty_If.mpr ⟨hc, ha, hb⟩)
  rw [hbool h]
  exact B.ty_build .Not [cond] .bool (by rw [ty_one, hc]; rfl)

theorem ite_eq (ht : trueValue.ty = some t) (hf : falseValue.ty = some t) :
    B.ite cond trueValue falseValue = .ok (B.iteSimplified cond trueValue falseValue) := by
  have hlen : falseValue.length = trueValue.length :=
    (length_of_ty _ _ hf).trans (length_of_ty _ _ ht).symm
  unfold ite
  dsimp only
  rw [hlen, if_neg (by omega), if_neg (by omega), if_neg (by omega)]

/-- Bitvectors of two lengths are not converted. -/
theorem ite_error {t' : Ty} (ht : trueValue.ty = some t) (hf : falseValue.ty = some t')
    (hsort : t.isBV = t'.isBV) (hne : t ≠ t') : ∃ x, B.ite cond trueValue falseValue = .error x := by
  have hlen := length_of_ty _ _ ht
  have hlen' := length_of_ty _ _ hf
  cases t with
  | bool =>
    cases t' with
    | bool => exact absurd rfl hne
    | bv w => cases hsort
  | bv w =>
    cases t' with
    | bool => cases hsort
    | bv w' =>
      have hw := ty_pos _ _ ht
      have hw' := ty_pos _ _ hf
      have hww : w ≠ w' := fun h => hne (h ▸ rfl)
      simp only [Ty.length] at hlen hlen'
      unfold ite
      dsimp only
      rw [hlen, hlen', if_pos (by omega)]
      exact ⟨_, rfl⟩

/-- On values of one type the constructor succeeds. -/
theorem ite_spec (hc : cond.ty = some .bool) (ht : trueValue.ty = some t) (hf : falseValue.ty = some t) :
    ∃ e, B.ite cond trueValue falseValue = .ok e ∧ e.ty = some t ∧
      ∀ ρ, e.eval ρ = if (cond.eval ρ).toBool then trueValue.eval ρ else falseValue.eval ρ :=
  ⟨_, ite_eq ht hf, ty_iteSimplified hc ht hf, fun _ => eval_iteSimplified hc⟩

end Builder
end Claripy
