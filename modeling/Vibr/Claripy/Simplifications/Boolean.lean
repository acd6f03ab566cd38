import Vibr.Claripy.Algorithm.ReplaceDict
import Vibr.Claripy.Simplifications.Flatten

/-!
# Boolean operations

`boolean_and_simplifier`, `boolean_or_simplifier` and `boolean_not_simplifier` of
`claripy/simplifications.py`. A conjunction of equalities and inequalities of one expression
with constants becomes a single equality. Whether an inequality contradicts an equality is
decided there by the identity of their constants, and two constants of one value are not
identical where their annotations differ.
-/

namespace Claripy

open Ast

namespace Ast

/-- The value of a `BVV`, its first argument in the source. -/
def value? (a : Ast) : Option Nat :=
  match a.op with
  | .BVV v _ => some v
  | _ => none

/-- `x == v && x == v'` for different constants -/
def conflictingEqualities : List Ast → Bool
  | [node .eq [x, c] _, node .eq [y, d] _] => x = y ∧ c.isBVV ∧ d.isBVV ∧ c.value? ≠ d.value?
  | _ => false

/-- The expression that the first two conditions have in common. -/
def targetVar : List Ast → Option Ast
  | node _ [l, r] _ :: node _ [l', r'] _ :: _ =>
    if l.symbolic ∧ (l = l' ∨ l = r') then some l
    else if r.symbolic ∧ (r = l' ∨ r = r') then some r
    else none
  | _ => none

/-- The other side of a condition over `target`. -/
def otherSide (target : Ast) : Ast → Option Ast
  | node _ [l, r] _ => if l = target then some r else if r = target then some l else none
  | _ => none

/-- What `target` is compared with for equality and for inequality, if all conditions are such
comparisons. -/
@[grind =] def comparisons (target : Ast) : List Ast → Option (List Ast × List Ast)
  | [] => some ([], [])
  | a :: as =>
    match target.otherSide a, a.op, target.comparisons as with
    | some other, .eq, some (eqs, nes) => some (other :: eqs, nes)
    | some other, .ne, some (eqs, nes) => some (eqs, other :: nes)
    | _, _, _ => none

end Ast

namespace Builder

variable (B : Builder)

/-- `a >= c && a != c` -/
def strictComparison : List Ast → Option Ast
  | [node .UGE (x :: c :: _) _, node .ne (y :: d :: _) _] =>
    if x = y ∧ c = d then some (B.build .UGT [x, c]) else none
  | _ => none

/-- The end of `boolean_and_simplifier`: a flattened conjunction of conditions over one
expression. -/
def collapseComparisons (flattened : Ast) : Ast :=
  match flattened with
  | node .And [a] _ => a
  | node .And fargs _ =>
    if fargs.any fun a => a.allArgs.length ≠ 2 then flattened
    else
      match targetVar fargs with
      | none => flattened
      | some target =>
        match target.comparisons fargs with
        | some (mustbe :: eqs, nes) =>
          if nes.any (· ∈ mustbe :: eqs) then false_
          else if (mustbe :: eqs).all isBVV ∧ nes.all isBVV then
            if (mustbe :: eqs).any (·.value? ≠ mustbe.value?) then false_
            else B.build .eq [target, mustbe]
          else flattened
        | _ => flattened
  | _ => flattened

def booleanAndSimplifier (args : List Ast) : Option Ast :=
  if args.any (·.op = .BoolV false) then some false_
  else
    -- the source looks for constants a second time further down, when none are left
    match args.filter fun a => !a.isBoolV with
    | [] => some true_
    | [a] => some a
    | args =>
      if conflictingEqualities args then some false_
      else
        match B.strictComparison args with
        | some e => some e
        | none => (B.flattenSimplifier .And deduplicateFilter none args).map B.collapseComparisons

def booleanOrSimplifier (args : List Ast) : Option Ast :=
  if args.any (·.op = .BoolV true) then some true_
  else if args.any isBoolV then
    match args.filter fun a => !a.isBoolV with
    | [] => some false_
    | [a] => some a
    | args => some (B.build .Or args)
  else B.flattenSimplifier .Or deduplicateFilter none args

def booleanNotSimplifier : Ast → Option Ast
  | node .eq [a, b] _ => some (B.build .ne [a, b])
  | node .ne [a, b] _ => some (B.build .eq [a, b])
  | node .Not [a] _ => some a
  | node .SLT [a, b] _ => some (B.build .SGE [a, b])
  | node .SLE [a, b] _ => some (B.build .SGT [a, b])
  | node .SGT [a, b] _ => some (B.build .SLE [a, b])
  | node .SGE [a, b] _ => some (B.build .SLT [a, b])
  | node .ULT [a, b] _ => some (B.build .UGE [a, b])
  | node .ULE [a, b] _ => some (B.build .UGT [a, b])
  | node .UGT [a, b] _ => some (B.build .ULE [a, b])
  | node .UGE [a, b] _ => some (B.build .ULT [a, b])
  | _ => none

/-- The entries of the Boolean operations in the table of the simplifiers. -/
def booleanSimplifier : Op → List Ast → Option Ast
  | .And, args => B.booleanAndSimplifier args
  | .Or, args => B.booleanOrSimplifier args
  | .Not, [a] => B.booleanNotSimplifier a
  | _, _ => none

end Builder

/-! ## Comparisons of one expression with constants -/

variable {cs : List Ast}

namespace Ast

/-- `a` compares `target` with `c`, on either side. -/
def Compares (op : Op) (target c a : Ast) : Prop :=
  ∃ ann, a = node op [target, c] ann ∨ a = node op [c, target] ann

variable {target c a : Ast} {op : Op} {ρ : Assignment}

theorem Compares.op_eq (h : Compares op target c a) : a.op = op := by
  obtain ⟨ann, rfl | rfl⟩ := h <;> rfl

theorem Compares.otherSide (h : Compares op target c a) : target.otherSide a = some c := by
  obtain ⟨ann, rfl | rfl⟩ := h
  · simp [Ast.otherSide]
  rw [Ast.otherSide]
  split
  · rename_i heq
    rw [heq]
  · rw [if_pos rfl]

theorem compares_of_otherSide (h : target.otherSide a = some c) : Compares a.op target c a := by
  unfold Ast.otherSide at h
  split at h
  · rename_i op l r ann
    split at h
    · rename_i heq
      cases h
      exact ⟨ann, .inl (by rw [heq]; rfl)⟩
    split at h
    · rename_i heq
      cases h
      exact ⟨ann, .inr (by rw [heq]; rfl)⟩
    · cases h
  · cases h

theorem Compares.holds_eq_iff (h : Compares .eq target c a) : a.holds ρ ↔ target.eval ρ = c.eval ρ := by
  obtain ⟨ann, rfl | rfl⟩ := h
  · exact holds_node_eq
  · rw [holds_node_eq, eq_comm]

theorem Compares.holds_ne_iff (h : Compares .ne target c a) : a.holds ρ ↔ target.eval ρ ≠ c.eval ρ := by
  obtain ⟨ann, rfl | rfl⟩ := h
  · exact holds_node_ne
  · rw [holds_node_ne, ne_comm]

/-- What the loop over the conditions collects. -/
structure Collected (target : Ast) (cs eqs nes : List Ast) : Prop where
  sides : ∀ a ∈ cs, ∃ k, (k ∈ eqs ∧ Compares .eq target k a) ∨ (k ∈ nes ∧ Compares .ne target k a)
  eqs : ∀ k ∈ eqs, ∃ a ∈ cs, Compares .eq target k a
  nes : ∀ k ∈ nes, ∃ a ∈ cs, Compares .ne target k a

theorem Collected.cons_eq {as eqs nes : List Ast} (h : Collected target as eqs nes)
    (ha : Compares .eq target c a) : Collected target (a :: as) (c :: eqs) nes where
  sides b hb := by
    rcases List.mem_cons.mp hb with rfl | hb
    · exact ⟨c, .inl ⟨List.mem_cons_self, ha⟩⟩
    · exact (h.sides b hb).imp fun k hk => hk.imp_left (.imp_left (List.mem_cons_of_mem _))
  eqs k hk := by
    rcases List.mem_cons.mp hk with rfl | hk
    · exact ⟨a, List.mem_cons_self, ha⟩
    · exact (h.eqs k hk).imp fun b hb => hb.imp_left (List.mem_cons_of_mem _)
  nes k hk := (h.nes k hk).imp fun b hb => hb.imp_left (List.mem_cons_of_mem _)

theorem Collected.cons_ne {as eqs nes : List Ast} (h : Collected target as eqs nes)
    (ha : Compares .ne target c a) : Collected target (a :: as) eqs (c :: nes) where
  sides b hb := by
    rcases List.mem_cons.mp hb with rfl | hb
    · exact ⟨c, .inr ⟨List.mem_cons_self, ha⟩⟩
    · exact (h.sides b hb).imp fun k hk => hk.imp_right (.imp_left (List.mem_cons_of_mem _))
  eqs k hk := (h.eqs k hk).imp fun b hb => hb.imp_left (List.mem_cons_of_mem _)
  nes k hk := by
    rcases List.mem_cons.mp hk with rfl | hk
    · exact ⟨a, List.mem_cons_self, ha⟩
    · exact (h.nes k hk).imp fun b hb => hb.imp_left (List.mem_cons_of_mem _)

variable {cs eqs nes : List Ast}

theorem comparisons_spec (h : target.comparisons cs = some (eqs, nes)) : Collected target cs eqs nes := by
  induction cs generalizing eqs nes with
  | nil =>
    cases h
    exact ⟨by simp, by simp, by simp⟩
  | cons a as ih =>
    unfold comparisons at h
    split at h
    · rename_i hother hop hrest
      cases h
      exact (ih hrest).cons_eq (hop ▸ compares_of_otherSide hother)
    · rename_i hother hop hrest
      cases h
      exact (ih hrest).cons_ne (hop ▸ compares_of_otherSide hother)
    · cases h

theorem Collected.mem_eqs (h : Collected target cs eqs nes) (ha : a ∈ cs) (hc : Compares .eq target c a) : c ∈ eqs := by
  obtain ⟨k, ⟨hk, hka⟩ | ⟨-, hka⟩⟩ := h.sides a ha
  · rwa [Option.some.inj (hc.otherSide.symm.trans hka.otherSide)]
  · exact absurd (hc.op_eq.symm.trans hka.op_eq) (by decide)

theorem Collected.mem_nes (h : Collected target cs eqs nes) (ha : a ∈ cs) (hc : Compares .ne target c a) : c ∈ nes := by
  obtain ⟨k, ⟨-, hka⟩ | ⟨hk, hka⟩⟩ := h.sides a ha
  · exact absurd (hc.op_eq.symm.trans hka.op_eq) (by decide)
  · rwa [Option.some.inj (hc.otherSide.symm.trans hka.otherSide)]

theorem exists_comparisons (h : ∀ a ∈ cs, ∃ k, Compares .eq target k a ∨ Compares .ne target k a) :
    ∃ eqs nes, target.comparisons cs = some (eqs, nes) := by
  induction cs with
  | nil => exact ⟨[], [], rfl⟩
  | cons a as ih =>
    obtain ⟨eqs, nes, hrest⟩ := ih fun b hb => h b (List.mem_cons_of_mem _ hb)
    obtain ⟨k, hk | hk⟩ := h a List.mem_cons_self
    · exact ⟨k :: eqs, nes, by rw [comparisons, hk.otherSide, hk.op_eq, hrest]⟩
    · exact ⟨eqs, k :: nes, by rw [comparisons, hk.otherSide, hk.op_eq, hrest]⟩

/-- A contradiction that the identity of the constants hides: all conditions compare `target`
with constants, the equalities with constants of one value, and an inequality with a constant
`d` of that value, while no constant is in both an equality and an inequality. The assignment
gives `target` that value. -/
structure HiddenContradiction (ρ : Assignment) (cs : List Ast) (target c d : Ast) : Prop where
  symbolic : target.symbolic = true
  constants : ∀ a ∈ cs, ∃ k, k.isBVV = true ∧ (Compares .eq target k a ∨ Compares .ne target k a)
  oneValue : ∀ a ∈ cs, ∀ k, Compares .eq target k a → k.eval ρ = c.eval ρ
  equal : ∃ a ∈ cs, Compares .eq target c a
  unequal : ∃ a ∈ cs, Compares .ne target d a
  same : d.eval ρ = c.eval ρ
  distinct : ∀ a ∈ cs, ∀ b ∈ cs, ∀ k, Compares .eq target k a → ¬ Compares .ne target k b
  reached : target.eval ρ = c.eval ρ

/-- The conditions of a conjunction after nested conjunctions are opened and duplicates are
gone. -/
def flatConditions (args : List Ast) : List Ast :=
  match deduplicateFilter (args.flatMap (opened .And)) with
  | [node .And fargs _] => fargs
  | cs => cs

/-- The conditions that the collapse sees: none where the arguments other than `True` are one
condition only. -/
def conditions (args : List Ast) : List Ast :=
  match args.filter fun a => !(a.op = .BoolV true) with
  | [_] => []
  | args => flatConditions args

/-! ## Constants -/

theorem Compares.reduced (h : Compares op target c a) (ha : a.Reduced) : c.Reduced := by
  obtain ⟨ann, rfl | rfl⟩ := h
  · exact (reduced_node.mp ha).2 _ (by simp)
  · exact (reduced_node.mp ha).2 _ (by simp)

theorem Compares.ty_eq (h : Compares op target c a) (hop : op = .eq ∨ op = .ne) (ha : a.ty = some .bool) :
    ∃ u, target.ty = some u ∧ c.ty = some u := by
  obtain ⟨ann, rfl | rfl⟩ := h
  · exact (ty_of_eq hop ha).2
  · obtain ⟨-, u, hc, htarget⟩ := ty_of_eq hop ha
    exact ⟨u, htarget, hc⟩

/-- Constants of one length have one value where the numbers in them are the same. -/
theorem eval_eq_iff_value {c d : Ast} {u : Ty} (hc : c.isBVV = true) (hd : d.isBVV = true)
    (hcty : c.ty = some u) (hdty : d.ty = some u) (hcred : c.Reduced) (hdred : d.Reduced) :
    c.eval ρ = d.eval ρ ↔ c.value? = d.value? := by
  obtain ⟨op, as, ann⟩ := c
  obtain ⟨op', bs, ann'⟩ := d
  cases op <;> simp [isBVV, Ast.op] at hc
  cases op' <;> simp [isBVV, Ast.op] at hd
  rename_i v w v' w'
  obtain ⟨rfl, -⟩ := ty_BVV hcty
  obtain ⟨hw, -⟩ := ty_BVV hdty
  cases hw
  have hv : v < 2 ^ w := of_decide_eq_true (hcred (.BVV v w) (by simp [ops]))
  have hv' : v' < 2 ^ w := of_decide_eq_true (hdred (.BVV v' w) (by simp [ops]))
  rw [eval_BVV, eval_BVV]
  simp only [Value.bv.injEq, heq_eq_eq, true_and, value?, Ast.op, Option.some.injEq]
  constructor
  · intro h
    have htoNat := congrArg BitVec.toNat h
    rwa [BitVec.toNat_ofNat, BitVec.toNat_ofNat, Nat.mod_eq_of_lt hv, Nat.mod_eq_of_lt hv'] at htoNat
  · rintro rfl
    rfl

theorem not_symbolic_of_isBVV {c : Ast} {u : Ty} (hc : c.isBVV = true) (hty : c.ty = some u) :
    c.symbolic = false := by
  obtain ⟨op, as, ann⟩ := c
  cases op <;> simp [isBVV, Ast.op] at hc
  rcases as with _ | ⟨a, as⟩
  · simp [symbolic, vars, varsList, Op.symbol]
  · simp only [ty, tyList, Option.bind_eq_some_iff, Option.map_eq_some_iff] at hty
    obtain ⟨_, ⟨_, _, _, _, rfl⟩, hop⟩ := hty
    simp [Op.ty] at hop

/-- A condition that compares with a constant names `target` on its symbolic side. -/
theorem targetVar_of_compares {c' a' : Ast} {op op' : Op} {as : List Ast} (htarget : target.symbolic = true)
    (hc : c.symbolic = false) (ha : Compares op target c a) (ha' : Compares op' target c' a') :
    targetVar (a :: a' :: as) = some target := by
  obtain ⟨ann, rfl | rfl⟩ := ha <;> obtain ⟨ann', rfl | rfl⟩ := ha' <;>
    simp [targetVar, htarget, hc]

theorem symbolic_of_targetVar {as : List Ast} (h : targetVar as = some target) : target.symbolic = true := by
  unfold targetVar at h
  split at h
  · split at h
    · rename_i hl
      cases h
      exact hl.1
    split at h
    · rename_i hr
      cases h
      exact hr.1
    · cases h
  · cases h

end Ast

namespace Builder

variable {B : Builder} {ρ : Assignment}

theorem allArgs_of_compares {op : Op} {target c a : Ast} (hop : op = .eq ∨ op = .ne)
    (h : Compares op target c a) : a.allArgs.length = 2 := by
  rcases hop with rfl | rfl <;> obtain ⟨ann, rfl | rfl⟩ := h <;> rfl

theorem eval_eq_iff_holds {e e' : Ast} (he : ∃ b, e.eval ρ = .bool b) (he' : ∃ b, e'.eval ρ = .bool b) :
    e.eval ρ = e'.eval ρ ↔ (e.holds ρ ↔ e'.holds ρ) := by
  obtain ⟨b, hb⟩ := he
  obtain ⟨b', hb'⟩ := he'
  rw [holds, holds, hb, hb']
  cases b <;> cases b' <;> simp

variable {fargs : List Ast}

/-- Two constants that one expression is compared with. -/
theorem compared_eval_iff {target k k' : Ast} (hty : ∀ a ∈ fargs, a.ty = some .bool)
    (hred : ∀ a ∈ fargs, a.Reduced) (hk : ∃ a ∈ fargs, Compares .eq target k a ∨ Compares .ne target k a)
    (hbvv : k.isBVV = true) (hk' : ∃ a ∈ fargs, Compares .eq target k' a ∨ Compares .ne target k' a)
    (hbvv' : k'.isBVV = true) : k.eval ρ = k'.eval ρ ↔ k.value? = k'.value? := by
  have hspec : ∀ k, (∃ a ∈ fargs, Compares .eq target k a ∨ Compares .ne target k a) →
      k.Reduced ∧ ∃ u, target.ty = some u ∧ k.ty = some u := by
    rintro k ⟨a, ha, h | h⟩
    · exact ⟨h.reduced (hred a ha), h.ty_eq (.inl rfl) (hty a ha)⟩
    · exact ⟨h.reduced (hred a ha), h.ty_eq (.inr rfl) (hty a ha)⟩
  obtain ⟨hkred, u, hu, hku⟩ := hspec k hk
  obtain ⟨hkred', u', hu', hku'⟩ := hspec k' hk'
  cases Option.some.inj (hu.symm.trans hu')
  exact eval_eq_iff_value hbvv hbvv' hku hku' hkred hkred'

variable {ann : List Annotation}

/-- Under a hidden contradiction the result is an equality that holds. -/
theorem holds_collapse_of_hidden {target c d : Ast} (hty : ∀ a ∈ fargs, a.ty = some .bool)
    (hred : ∀ a ∈ fargs, a.Reduced) (h : HiddenContradiction ρ fargs target c d) :
    (B.collapseComparisons (node .And fargs ann)).holds ρ := by
  obtain ⟨a₁, ha₁, hc⟩ := h.equal
  obtain ⟨a₂, ha₂, hd⟩ := h.unequal
  obtain ⟨eqs, nes, hcomp⟩ := exists_comparisons fun a ha => (h.constants a ha).imp fun k hk => hk.2
  have hcol := comparisons_spec hcomp
  have hbvv : ∀ k, (∃ a ∈ fargs, Compares .eq target k a ∨ Compares .ne target k a) → k.isBVV = true := by
    rintro k ⟨a, ha, hk⟩
    obtain ⟨k', hbvv, hk'⟩ := h.constants a ha
    have hside : target.otherSide a = some k := hk.elim Compares.otherSide Compares.otherSide
    rwa [Option.some.inj (hside.symm.trans (hk'.elim Compares.otherSide Compares.otherSide))]
  have heqs : ∀ k ∈ eqs, ∃ a ∈ fargs, Compares .eq target k a ∨ Compares .ne target k a := fun k hk =>
    (hcol.eqs k hk).imp fun a ha => ha.imp_right .inl
  have hnes : ∀ k ∈ nes, ∃ a ∈ fargs, Compares .eq target k a ∨ Compares .ne target k a := fun k hk =>
    (hcol.nes k hk).imp fun a ha => ha.imp_right .inr
  have hsame : ∀ k ∈ eqs, k.eval ρ = c.eval ρ := fun k hk => by
    obtain ⟨a, ha, hka⟩ := hcol.eqs k hk
    exact h.oneValue a ha k hka
  have htarget : targetVar fargs = some target := by
    rcases fargs with _ | ⟨f₁, _ | ⟨f₂, rest⟩⟩
    · simp at ha₁
    · rw [List.mem_singleton.mp ha₁] at hc
      rw [List.mem_singleton.mp ha₂] at hd
      exact absurd (hc.op_eq.symm.trans hd.op_eq) (by decide)
    obtain ⟨k₁, hk₁, hf₁⟩ := h.constants f₁ (by simp)
    obtain ⟨k₂, -, hf₂⟩ := h.constants f₂ (by simp)
    have hclosed : k₁.symbolic = false := by
      obtain ⟨u, -, hu⟩ : ∃ u, target.ty = some u ∧ k₁.ty = some u :=
        hf₁.elim (fun hf => hf.ty_eq (.inl rfl) (hty f₁ (by simp)))
          fun hf => hf.ty_eq (.inr rfl) (hty f₁ (by simp))
      exact not_symbolic_of_isBVV hk₁ hu
    rcases hf₁ with hf₁ | hf₁ <;> rcases hf₂ with hf₂ | hf₂ <;>
      exact targetVar_of_compares h.symbolic hclosed hf₁ hf₂
  obtain ⟨mustbe, eqs', rfl⟩ := List.exists_cons_of_ne_nil (List.ne_nil_of_mem (hcol.mem_eqs ha₁ hc))
  have hlen : ¬ fargs.any fun a => a.allArgs.length ≠ 2 := by
    rw [List.any_eq_true]
    rintro ⟨a, ha, hne⟩
    obtain ⟨k, -, hk⟩ := h.constants a ha
    exact of_decide_eq_true hne (hk.elim (allArgs_of_compares (.inl rfl)) (allArgs_of_compares (.inr rfl)))
  have hnone : ¬ nes.any (· ∈ mustbe :: eqs') := by
    rw [List.any_eq_true]
    rintro ⟨k, hk, hkeq⟩
    obtain ⟨b, hb, hkb⟩ := hcol.nes k hk
    obtain ⟨a, ha, hka⟩ := hcol.eqs k (of_decide_eq_true hkeq)
    exact h.distinct a ha b hb k hka hkb
  have hall : (mustbe :: eqs').all isBVV ∧ nes.all isBVV :=
    ⟨List.all_eq_true.mpr fun k hk => hbvv k (heqs k hk), List.all_eq_true.mpr fun k hk => hbvv k (hnes k hk)⟩
  have hvalues : ¬ (mustbe :: eqs').any (·.value? ≠ mustbe.value?) := by
    rw [List.any_eq_true]
    rintro ⟨k, hk, hne⟩
    refine of_decide_eq_true hne ?_
    rw [← compared_eval_iff (ρ := ρ) hty hred (heqs k hk) (hbvv k (heqs k hk)) (heqs mustbe List.mem_cons_self)
      (hbvv mustbe (heqs mustbe List.mem_cons_self)), hsame k hk, hsame mustbe List.mem_cons_self]
  unfold collapseComparisons
  split
  · rename_i a ann' heq
    cases heq
    rw [List.mem_singleton.mp ha₁] at hc
    rw [List.mem_singleton.mp ha₂] at hd
    exact absurd (hc.op_eq.symm.trans hd.op_eq) (by decide)
  · rename_i cs ann' _ heq
    cases heq
    rw [if_neg hlen, htarget]
    dsimp only
    rw [hcomp]
    dsimp only
    rw [if_neg hnone, if_pos hall, if_neg hvalues, holds, B.eval_build]
    exact holds_node_eq.mpr (h.reached.trans (hsame mustbe List.mem_cons_self).symm)
  · rename_i hne
    exact absurd rfl (hne fargs ann)

theorem not_sat_of_hidden {target c d : Ast} (h : HiddenContradiction ρ fargs target c d) : ¬ Sat fargs ρ := by
  intro hsat
  obtain ⟨a, ha, had⟩ := h.unequal
  exact had.holds_ne_iff.mp (hsat a ha) (h.reached.trans h.same.symm)

/-- Without one, the equality with the one constant says all that the conditions say. -/
theorem collapse_sound (hty : ∀ a ∈ fargs, a.ty = some .bool) (hred : ∀ a ∈ fargs, a.Reduced)
    (h : ¬ ∃ target c d, HiddenContradiction ρ fargs target c d) :
    (B.collapseComparisons (node .And fargs ann)).eval ρ = (node .And fargs ann).eval ρ := by
  have hand : ∃ b, (node .And fargs ann).eval ρ = .bool b := ⟨_, rfl⟩
  unfold collapseComparisons
  split
  · rename_i a ann' heq
    cases heq
    obtain ⟨b, hb⟩ := exists_bool_of_ty (hty a (by simp)) ρ
    rw [eval_eq_iff_holds ⟨b, hb⟩ hand, holds_node_and]
    simp [Sat]
  · rename_i cs ann' _ heq
    cases heq
    split
    · rfl
    split
    · rfl
    rename_i target htarget
    split
    · rename_i mustbe eqs nes hcomp
      have hcol := comparisons_spec hcomp
      obtain ⟨a₀, ha₀, hmust⟩ := hcol.eqs mustbe List.mem_cons_self
      split
      · rename_i hany
        obtain ⟨k, hk, hkeq⟩ := List.any_eq_true.mp hany
        obtain ⟨a, ha, hka⟩ := hcol.nes k hk
        obtain ⟨b, hb, hkb⟩ := hcol.eqs k (of_decide_eq_true hkeq)
        rw [eval_eq_iff_holds ⟨false, rfl⟩ hand, holds_node_and]
        refine iff_of_false (not_holds_false ρ) fun hsat => ?_
        exact hka.holds_ne_iff.mp (hsat a ha) (hkb.holds_eq_iff.mp (hsat b hb))
      rename_i hnone
      split
      · rename_i hbvv
        obtain ⟨hebvv, hnbvv⟩ := hbvv
        have hvalue : ∀ k ∈ mustbe :: eqs, k.eval ρ = mustbe.eval ρ ↔ k.value? = mustbe.value? := by
          intro k hk
          obtain ⟨a, ha, hka⟩ := hcol.eqs k hk
          exact compared_eval_iff hty hred ⟨a, ha, .inl hka⟩ (List.all_eq_true.mp hebvv k hk)
            ⟨a₀, ha₀, .inl hmust⟩ (List.all_eq_true.mp hebvv mustbe List.mem_cons_self)
        split
        · rename_i hdiff
          obtain ⟨k, hk, hkne⟩ := List.any_eq_true.mp hdiff
          obtain ⟨a, ha, hka⟩ := hcol.eqs k hk
          rw [eval_eq_iff_holds ⟨false, rfl⟩ hand, holds_node_and]
          refine iff_of_false (not_holds_false ρ) fun hsat => of_decide_eq_true hkne ?_
          rw [← hvalue k hk, ← hka.holds_eq_iff.mp (hsat a ha), hmust.holds_eq_iff.mp (hsat a₀ ha₀)]
        rename_i hsame
        have hone : ∀ k ∈ mustbe :: eqs, k.eval ρ = mustbe.eval ρ := by
          intro k hk
          rw [hvalue k hk]
          by_contra hne
          exact hsame (List.any_eq_true.mpr ⟨k, hk, decide_eq_true hne⟩)
        rw [B.eval_build, eval_eq_iff_holds ⟨_, rfl⟩ hand, holds_node_eq, holds_node_and]
        refine ⟨fun heq a ha => ?_, fun hsat => hmust.holds_eq_iff.mp (hsat a₀ ha₀)⟩
        obtain ⟨k, ⟨hk, hka⟩ | ⟨hk, hka⟩⟩ := hcol.sides a ha
        · rw [hka.holds_eq_iff, heq, hone k hk]
        rw [hka.holds_ne_iff, heq]
        intro hkval
        refine h ⟨target, mustbe, k, symbolic_of_targetVar htarget, fun b hb => ?_, fun b hb k' hkb =>
          hone k' (hcol.mem_eqs hb hkb), ⟨a₀, ha₀, hmust⟩, ⟨a, ha, hka⟩, hkval.symm,
          fun b hb b' hb' k' hkb hkb' => hnone ?_, heq⟩
        · obtain ⟨k', ⟨hk', hkb⟩ | ⟨hk', hkb⟩⟩ := hcol.sides b hb
          · exact ⟨k', List.all_eq_true.mp hebvv k' hk', .inl hkb⟩
          · exact ⟨k', List.all_eq_true.mp hnbvv k' hk', .inr hkb⟩
        · exact List.any_eq_true.mpr ⟨k', hcol.mem_nes hb' hkb', decide_eq_true (hcol.mem_eqs hb hkb)⟩
      · rfl
    · rfl
  · rfl

/-- The collapse loses exactly the hidden contradictions. -/
theorem collapseComparisons_sound_iff (hty : ∀ a ∈ fargs, a.ty = some .bool) (hred : ∀ a ∈ fargs, a.Reduced) :
    (B.collapseComparisons (node .And fargs ann)).eval ρ = (node .And fargs ann).eval ρ ↔
      ¬ ∃ target c d, HiddenContradiction ρ fargs target c d := by
  refine ⟨?_, collapse_sound hty hred⟩
  rintro heq ⟨target, c, d, hidden⟩
  have hholds : (B.collapseComparisons (node .And fargs ann)).holds ρ := holds_collapse_of_hidden hty hred hidden
  rw [holds, heq] at hholds
  exact not_sat_of_hidden hidden (holds_node_and.mp hholds)

/-! ## Flattened connectives -/

variable {a : Ast}

theorem isBVV_of_bool (h : a.ty = some .bool) : a.isBVV = false := by
  obtain ⟨op, as, ann⟩ := a
  cases op <;> try rfl
  obtain ⟨hbv, -⟩ := ty_BVV h
  cases hbv

variable {args : List Ast}

theorem ty_opened {op : Op} (hop : op = .And ∨ op = .Or) (hty : ∀ a ∈ args, a.ty = some .bool) :
    ∀ c ∈ args.flatMap (opened op), c.ty = some .bool := by
  intro c hmem
  obtain ⟨a, ha, hc⟩ := List.mem_flatMap.mp hmem
  unfold opened at hc
  split at hc
  · rename_i hopen
    obtain ⟨op', as, ann⟩ := a
    have hop' : op' = op := hopen.1
    rcases hop with rfl | rfl <;> subst hop'
    · exact ty_of_and (hty _ ha) c hc
    · exact ty_of_or (hty _ ha) c hc
  · rw [List.mem_singleton.mp hc]
    exact hty a ha

theorem reduced_opened {op : Op} (hred : ∀ a ∈ args, a.Reduced) : ∀ c ∈ args.flatMap (opened op), c.Reduced := by
  intro c hc
  obtain ⟨a, ha, hc⟩ := List.mem_flatMap.mp hc
  unfold opened at hc
  split at hc
  · obtain ⟨op', as, ann⟩ := a
    exact (reduced_node.mp (hred _ ha)).2 c hc
  · rw [List.mem_singleton.mp hc]
    exact hred a ha

theorem holds_node_or : (node .Or cs ann).holds ρ ↔ ∃ c ∈ cs, c.holds ρ :=
  show (or cs).holds ρ ↔ _ from holds_or

theorem sat_opened (args : List Ast) : Sat (args.flatMap (opened .And)) ρ ↔ Sat args ρ := by
  have hone : ∀ a, Sat (opened .And a) ρ ↔ a.holds ρ := by
    intro a
    unfold opened
    split
    · rename_i hopen
      obtain ⟨op, as, ann⟩ := a
      cases hopen.1
      exact holds_node_and.symm
    · simp
  simp only [Sat, List.mem_flatMap] at hone ⊢
  refine ⟨fun h a ha => (hone a).mp fun c hc => h c ⟨a, ha, hc⟩, fun h c hc => ?_⟩
  obtain ⟨a, ha, hc⟩ := hc
  exact (hone a).mpr (h a ha) c hc

theorem exists_opened (args : List Ast) :
    (∃ c ∈ args.flatMap (opened .Or), c.holds ρ) ↔ ∃ a ∈ args, a.holds ρ := by
  have hone : ∀ a, (∃ c ∈ opened .Or a, c.holds ρ) ↔ a.holds ρ := by
    intro a
    unfold opened
    split
    · rename_i hopen
      obtain ⟨op, as, ann⟩ := a
      cases hopen.1
      exact holds_node_or.symm
    · simp
  simp only [List.mem_flatMap]
  constructor
  · rintro ⟨c, ⟨a, ha, hc⟩, hholds⟩
    exact ⟨a, ha, (hone a).mp ⟨c, hc, hholds⟩⟩
  · rintro ⟨a, ha, hholds⟩
    obtain ⟨c, hc, hcholds⟩ := (hone a).mpr hholds
    exact ⟨c, ⟨a, ha, hc⟩, hcholds⟩

theorem not_hidden_of_mem (ha : a ∈ cs) (heq : a.op ≠ .eq) (hne : a.op ≠ .ne) :
    ¬ ∃ target c d, HiddenContradiction ρ cs target c d := by
  rintro ⟨target, c, d, h⟩
  obtain ⟨k, -, hk | hk⟩ := h.constants a ha
  · exact heq hk.op_eq
  · exact hne hk.op_eq

theorem not_hidden_of_eqs (h : ∀ a ∈ cs, a.op = .eq) : ¬ ∃ target c d, HiddenContradiction ρ cs target c d := by
  rintro ⟨target, c, d, hidden⟩
  obtain ⟨a, ha, hd⟩ := hidden.unequal
  exact absurd ((h a ha).symm.trans hd.op_eq) (by decide)

theorem not_hidden_singleton (a : Ast) : ¬ ∃ target c d, HiddenContradiction ρ [a] target c d := by
  rintro ⟨target, c, d, h⟩
  obtain ⟨a₁, ha₁, hc⟩ := h.equal
  obtain ⟨a₂, ha₂, hd⟩ := h.unequal
  rw [List.mem_singleton.mp ha₁] at hc
  rw [List.mem_singleton.mp ha₂] at hd
  exact absurd (hc.op_eq.symm.trans hd.op_eq) (by decide)

theorem not_hidden_of_closed (h : (node .And cs []).vars = ∅) :
    ¬ ∃ target c d, HiddenContradiction ρ cs target c d := by
  rintro ⟨target, c, d, hidden⟩
  obtain ⟨a, ha, hc⟩ := hidden.equal
  have htarget : target.vars ⊆ (node .And cs []).vars := by
    refine Finset.Subset.trans ?_ (vars_subset_of_mem ha)
    obtain ⟨ann, rfl | rfl⟩ := hc <;> exact vars_subset_of_mem (by simp)
  refine of_decide_eq_true hidden.symbolic ?_
  exact Finset.subset_empty.mp (h ▸ htarget)

/-- The flattened conjunction, collapsed. -/
theorem flattenAnd_sound_iff {e : Ast} (hty : ∀ a ∈ args, a.ty = some .bool) (hred : ∀ a ∈ args, a.Reduced)
    (h : B.flattenSimplifier .And deduplicateFilter none args = some e) :
    (B.collapseComparisons e).eval ρ = (node .And args []).eval ρ ↔
      ¬ ∃ target c d, HiddenContradiction ρ (flatConditions args) target c d := by
  have hcty : ∀ c ∈ deduplicateFilter (args.flatMap (opened .And)), c.ty = some .bool := fun c hc =>
    ty_opened (.inl rfl) hty c (mem_deduplicateFilter.mp hc)
  have hcred : ∀ c ∈ deduplicateFilter (args.flatMap (opened .And)), c.Reduced := fun c hc =>
    reduced_opened hred c (mem_deduplicateFilter.mp hc)
  have hsat : Sat (deduplicateFilter (args.flatMap (opened .And))) ρ ↔ Sat args ρ := by
    rw [← sat_opened args]
    exact ⟨fun hs c hc => hs c (mem_deduplicateFilter.mpr hc), fun hs c hc => hs c (mem_deduplicateFilter.mp hc)⟩
  have hand : ∀ ann, (node .And (deduplicateFilter (args.flatMap (opened .And))) ann).eval ρ =
      (node .And args []).eval ρ := fun ann => by
    rw [eval_eq_iff_holds ⟨_, rfl⟩ ⟨_, rfl⟩, holds_node_and, holds_node_and, hsat]
  have hcases := flattenSimplifier_cases (fun a ha => isBVV_of_bool (ty_opened (.inl rfl) hty a ha)) h
  generalize hcs : deduplicateFilter (args.flatMap (opened .And)) = cs at *
  rcases hcases with rfl | ⟨hne, ann, rfl⟩
  · -- one condition is left, and it may be a conjunction that was too long to be opened
    have hbool := exists_bool_of_ty (hcty e (by simp)) ρ
    have heval : e.eval ρ = (node .And args []).eval ρ := by
      rw [eval_eq_iff_holds hbool ⟨_, rfl⟩, holds_node_and, ← hsat]
      simp
    obtain ⟨op, fargs, ann⟩ := e
    rw [← heval, flatConditions, hcs]
    split
    · rename_i heq
      cases heq
      exact collapseComparisons_sound_iff (ty_of_and (hcty _ List.mem_cons_self))
        (reduced_node.mp (hcred _ List.mem_cons_self)).2
    rename_i hnand
    rw [iff_true_right (not_hidden_singleton _)]
    unfold collapseComparisons
    split
    · rename_i heq
      exact (hnand _ _ (by rw [heq])).elim
    · rename_i heq
      exact (hnand _ _ (by rw [heq])).elim
    · rfl
  · have hflat : flatConditions args = cs := by
      rw [flatConditions, hcs]
      split
      · exact absurd rfl (hne _)
      · rfl
    rw [hflat, ← hand []]
    obtain hnew | ⟨hclosed, v, ann', hnew⟩ := new_cases (B := B) .And ann cs
    · rw [hnew]
      exact collapseComparisons_sound_iff hcty hcred
    have hlit : B.collapseComparisons (B.new .And ann cs) = B.new .And ann cs := by
      rw [hnew]
      cases v <;> rfl
    rw [hlit, eval_new, iff_true_left rfl]
    exact not_hidden_of_closed hclosed

theorem mem_flatConditions (ha : a ∈ args) (hop : a.op ≠ .And) : a ∈ flatConditions args := by
  have hopened : opened .And a = [a] := by
    rw [opened, if_neg (fun h => hop h.1)]
  have hmem : a ∈ deduplicateFilter (args.flatMap (opened .And)) :=
    mem_deduplicateFilter.mpr (List.mem_flatMap.mpr ⟨a, ha, by simp [hopened]⟩)
  unfold flatConditions
  split
  · rename_i hcs
    rw [hcs, List.mem_singleton] at hmem
    exact absurd (by rw [hmem]; rfl) hop
  · exact hmem

theorem mem_of_mem_flatConditions (hop : ∀ b ∈ args, b.op ≠ .And) (ha : a ∈ flatConditions args) : a ∈ args := by
  have hopened : args.flatMap (opened .And) = args := by
    have hone : ∀ b ∈ args, opened .And b = [b] := fun b hb => by
      rw [opened, if_neg (fun h => hop b hb h.1)]
    rw [List.flatMap_congr hone, List.flatMap_singleton']
  unfold flatConditions at ha
  rw [hopened] at ha
  split at ha
  · rename_i fargs ann hcs
    have hmem : node .And fargs ann ∈ args := mem_deduplicateFilter.mp (by simp [hcs])
    exact absurd rfl (hop _ hmem)
  · exact mem_deduplicateFilter.mp ha

theorem sat_filter_isBoolV (h : ¬ args.any (·.op = .BoolV false)) :
    Sat (args.filter fun a => !a.isBoolV) ρ ↔ Sat args ρ := by
  refine ⟨fun hs a ha => ?_, fun hs a ha => hs a (List.mem_of_mem_filter ha)⟩
  by_cases hb : a.isBoolV = true
  · obtain ⟨op, as, ann⟩ := a
    cases op <;> simp [isBoolV, Ast.op] at hb
    rename_i b
    cases b with
    | true => rfl
    | false => exact absurd (List.any_eq_true.mpr ⟨_, ha, by simp [Ast.op]⟩) h
  · exact hs a (List.mem_filter.mpr ⟨ha, by simpa using hb⟩)

theorem filter_isBoolV (h : ¬ args.any (·.op = .BoolV false)) :
    (args.filter fun a => !(a.op = .BoolV true)) = args.filter fun a => !a.isBoolV := by
  refine List.filter_congr fun a ha => ?_
  obtain ⟨op, as, ann⟩ := a
  cases op <;> simp [isBoolV, Ast.op]
  rename_i b
  cases b with
  | true => rfl
  | false => exact absurd (List.any_eq_true.mpr ⟨_, ha, by simp [Ast.op]⟩) h

theorem eval_compare {op : Op} {f : (w : Nat) → BitVec w → BitVec w → Bool} (hop : op.apply = Value.compare f)
    (hleaf : ∀ ρ : Assignment, ρ.leaf op = none) {a b : Ast} {w : Nat} {u v : BitVec w} (ha : a.eval ρ = .bv w u)
    (hb : b.eval ρ = .bv w v) : (node op [a, b] ann).eval ρ = .bool (f w u v) := by
  simp [Ast.eval, evalList, hleaf, hop, ha, hb, Value.compare, Value.toBV]

/-- `x == c` and `x == d` for different constants -/
theorem conflictingEqualities_sound (hty : ∀ a ∈ args, a.ty = some .bool) (hred : ∀ a ∈ args, a.Reduced)
    (h : conflictingEqualities args = true) :
    false_.eval ρ = (node .And args []).eval ρ ↔
      ¬ ∃ target c d, HiddenContradiction ρ (flatConditions args) target c d := by
  unfold conflictingEqualities at h
  split at h
  · rename_i x c ann y d ann'
    obtain ⟨rfl, hc, hd, hne⟩ := of_decide_eq_true h
    refine iff_of_true ?_ (not_hidden_of_eqs fun a ha => ?_)
    · rw [eval_eq_iff_holds ⟨_, rfl⟩ ⟨_, rfl⟩, holds_node_and]
      refine iff_of_false (not_holds_false ρ) fun hs => hne ?_
      have hcompared : ∃ a ∈ [node .eq [x, c] ann, node .eq [x, d] ann'], Compares .eq x c a ∨ Compares .ne x c a :=
        ⟨node .eq [x, c] ann, List.mem_cons_self, .inl ⟨ann, .inl rfl⟩⟩
      rw [← compared_eval_iff (ρ := ρ) hty hred hcompared hc
        ⟨node .eq [x, d] ann', by simp, .inl ⟨ann', .inl rfl⟩⟩ hd,
        ← holds_node_eq.mp (hs (node .eq [x, c] ann) (by simp)),
        ← holds_node_eq.mp (hs (node .eq [x, d] ann') (by simp))]
    have hmem := mem_of_mem_flatConditions (by simp [Ast.op]) ha
    rcases List.mem_cons.mp hmem with rfl | hmem
    · rfl
    · rw [List.mem_singleton.mp hmem]
      rfl
  · cases h

/-- `x >= c` and `x != c` -/
theorem strictComparison_sound {e : Ast} (hty : ∀ a ∈ args, a.ty = some .bool)
    (h : B.strictComparison args = some e) :
    e.eval ρ = (node .And args []).eval ρ ↔
      ¬ ∃ target c d, HiddenContradiction ρ (flatConditions args) target c d := by
  unfold strictComparison at h
  split at h
  · rename_i x c as ann y d bs ann'
    split at h
    · rename_i hxy
      obtain ⟨rfl, rfl⟩ := hxy
      cases h
      refine iff_of_true ?_ (not_hidden_of_mem (a := node .UGE (x :: c :: as) ann)
        (mem_flatConditions (by simp) (by simp [Ast.op])) (by simp [Ast.op]) (by simp [Ast.op]))
      obtain ⟨_, _, w, ⟨⟩, hx, hc⟩ := ty_of_compare rfl (hty (node .UGE (x :: c :: as) ann) (by simp))
      obtain ⟨_, _, ⟨⟩⟩ := args_of_eq (.inr rfl) (hty (node .ne (x :: c :: bs) ann') (by simp))
      obtain ⟨u, hu⟩ := exists_bv_of_ty hx ρ
      obtain ⟨v, hv⟩ := exists_bv_of_ty hc ρ
      have hgt : (node .UGT [x, c] []).eval ρ = .bool (v.ult u) :=
        eval_compare (f := fun _ a b => b.ult a) rfl (fun _ => rfl) hu hv
      have hge : (node .UGE [x, c] ann).holds ρ ↔ v.toNat ≤ u.toNat := by
        rw [holds, eval_compare (f := fun _ a b => b.ule a) rfl (fun _ => rfl) hu hv]
        simp [BitVec.ule]
      have hne : (node .ne [x, c] ann').holds ρ ↔ u.toNat ≠ v.toNat := by
        rw [holds_node_ne, hu, hv, ne_eq, Value.bv.injEq, ne_eq, BitVec.toNat_inj]
        simp
      rw [B.eval_build, eval_eq_iff_holds ⟨_, hgt⟩ ⟨_, rfl⟩, holds_node_and, sat_cons, sat_cons, hge, hne, holds, hgt]
      simp only [sat_nil, and_true, Value.bool.injEq, BitVec.ult, decide_eq_true_eq]
      omega
    · cases h
  · cases h

theorem booleanAndSimplifier_sound_iff {e : Ast} (hty : ∀ a ∈ args, a.ty = some .bool)
    (hred : ∀ a ∈ args, a.Reduced) (h : B.booleanAndSimplifier args = some e) :
    e.eval ρ = (node .And args []).eval ρ ↔
      ¬ ∃ target c d, HiddenContradiction ρ (conditions args) target c d := by
  unfold booleanAndSimplifier at h
  split at h
  · rename_i hfalse
    cases h
    obtain ⟨a, ha, hop⟩ := List.any_eq_true.mp hfalse
    have hop : a.op = .BoolV false := of_decide_eq_true hop
    have hmem : a ∈ args.filter fun a => !(a.op = .BoolV true) := List.mem_filter.mpr ⟨ha, by simp [hop]⟩
    have hvalue : ¬ a.holds ρ := by
      obtain ⟨op, as, ann⟩ := a
      cases hop
      exact not_holds_false ρ
    refine iff_of_true ?_ ?_
    · rw [eval_eq_iff_holds ⟨_, rfl⟩ ⟨_, rfl⟩, holds_node_and]
      exact iff_of_false (not_holds_false ρ) fun hs => hvalue (hs a ha)
    unfold conditions
    split
    · exact not_hidden_of_eqs (by simp)
    · exact not_hidden_of_mem (mem_flatConditions hmem (by simp [hop])) (by simp [hop]) (by simp [hop])
  rename_i hfalse
  have hsat := sat_filter_isBoolV (ρ := ρ) hfalse
  have hand : ∀ ann, (node .And (args.filter fun a => !a.isBoolV) ann).eval ρ = (node .And args []).eval ρ :=
    fun ann => by rw [eval_eq_iff_holds ⟨_, rfl⟩ ⟨_, rfl⟩, holds_node_and, holds_node_and, hsat]
  have hty' : ∀ a ∈ args.filter (fun a => !a.isBoolV), a.ty = some .bool := fun a ha =>
    hty a (List.mem_of_mem_filter ha)
  have hred' : ∀ a ∈ args.filter (fun a => !a.isBoolV), a.Reduced := fun a ha =>
    hred a (List.mem_of_mem_filter ha)
  unfold conditions
  rw [filter_isBoolV hfalse, ← hand []]
  generalize (args.filter fun a => !a.isBoolV) = args' at *
  rcases args' with _ | ⟨a, _ | ⟨b, rest⟩⟩
  · cases h
    exact iff_of_true rfl (not_hidden_of_eqs (by simp [flatConditions, deduplicateFilter]))
  · cases h
    refine iff_of_true ?_ (not_hidden_of_eqs (by simp))
    rw [eval_eq_iff_holds (exists_bool_of_ty (hty' e List.mem_cons_self) ρ) ⟨_, rfl⟩, holds_node_and]
    simp
  dsimp only at h ⊢
  split at h
  · rename_i hconf
    cases h
    exact conflictingEqualities_sound hty' hred' hconf
  split at h
  · rename_i hstrict
    cases h
    exact strictComparison_sound hty' hstrict
  · obtain ⟨flattened, hflat, rfl⟩ := Option.map_eq_some_iff.mp h
    exact flattenAnd_sound_iff hty' hred' hflat

/-! ## Disjunction and negation -/

theorem exists_filter_isBoolV (h : ¬ args.any (·.op = .BoolV true)) :
    (∃ a ∈ args.filter fun a => !a.isBoolV, a.holds ρ) ↔ ∃ a ∈ args, a.holds ρ := by
  constructor
  · rintro ⟨a, ha, hholds⟩
    exact ⟨a, List.mem_of_mem_filter ha, hholds⟩
  rintro ⟨a, ha, hholds⟩
  refine ⟨a, List.mem_filter.mpr ⟨ha, ?_⟩, hholds⟩
  obtain ⟨op, as, ann⟩ := a
  cases op <;> simp [isBoolV, Ast.op]
  rename_i b
  cases b with
  | true => exact h (List.any_eq_true.mpr ⟨_, ha, by simp [Ast.op]⟩)
  | false => exact not_holds_false ρ hholds

theorem booleanOrSimplifier_sound {e : Ast} (hty : ∀ a ∈ args, a.ty = some .bool)
    (h : B.booleanOrSimplifier args = some e) : e.eval ρ = (node .Or args []).eval ρ := by
  have hor : ∀ {cs : List Ast} {ann}, ((∃ c ∈ cs, c.holds ρ) ↔ ∃ a ∈ args, a.holds ρ) →
      (node .Or cs ann).eval ρ = (node .Or args []).eval ρ := fun hiff => by
    rw [eval_eq_iff_holds ⟨_, rfl⟩ ⟨_, rfl⟩, holds_node_or, holds_node_or, hiff]
  have hone : ∀ {a : Ast}, a.ty = some .bool → ((∃ c ∈ [a], c.holds ρ) ↔ ∃ a ∈ args, a.holds ρ) →
      a.eval ρ = (node .Or args []).eval ρ := fun ha hiff => by
    rw [eval_eq_iff_holds (exists_bool_of_ty ha ρ) ⟨_, rfl⟩, holds_node_or, ← hiff]
    simp
  unfold booleanOrSimplifier at h
  split at h
  · rename_i htrue
    cases h
    obtain ⟨a, ha, hop⟩ := List.any_eq_true.mp htrue
    have hop : a.op = .BoolV true := of_decide_eq_true hop
    obtain ⟨op, as, ann⟩ := a
    cases hop
    rw [eval_eq_iff_holds ⟨_, rfl⟩ ⟨_, rfl⟩, holds_node_or]
    exact iff_of_true (holds_true ρ) ⟨_, ha, rfl⟩
  rename_i htrue
  have hfilter := exists_filter_isBoolV (ρ := ρ) htrue
  split at h
  · split at h
    · rename_i hnil
      cases h
      rw [hnil] at hfilter
      exact show (node .Or [] []).eval ρ = (node .Or args []).eval ρ from hor hfilter
    · rename_i a hsingle
      cases h
      have hmem : e ∈ args := List.mem_of_mem_filter (by rw [hsingle]; exact List.mem_cons_self)
      exact hone (hty e hmem) (hsingle ▸ hfilter)
    · cases h
      rw [B.eval_build]
      exact hor hfilter
  · have hopened : (∃ c ∈ deduplicateFilter (args.flatMap (opened .Or)), c.holds ρ) ↔ ∃ a ∈ args, a.holds ρ := by
      rw [← exists_opened args]
      exact exists_congr fun c => and_congr_left fun _ => mem_deduplicateFilter
    have hcty := ty_opened (.inr rfl) hty
    obtain hsingle | ⟨-, ann, rfl⟩ := flattenSimplifier_cases (fun a ha => isBVV_of_bool (hcty a ha)) h
    · have hmem : e ∈ args.flatMap (opened .Or) := mem_deduplicateFilter.mp (by simp [hsingle])
      exact hone (hcty e hmem) (hsingle ▸ hopened)
    · rw [eval_new]
      exact hor hopened

theorem eval_not (a : Ast) (ann : List Annotation) :
    (node .Not [a] ann).eval ρ = .bool (!(a.eval ρ).toBool) := rfl

theorem ty_of_not {t : Ty} (h : (node .Not [a] ann).ty = some t) : a.ty = some .bool := by
  rw [ty_one, Option.bind_eq_some_iff] at h
  obtain ⟨u, hu, hop⟩ := h
  cases u with
  | bool => exact hu
  | bv w => simp [Op.ty] at hop

/-- A comparison is negated by the opposite comparison of the same sides. -/
theorem negated_comparison {op op' : Op} {f g : (w : Nat) → BitVec w → BitVec w → Bool}
    (hop : op.apply = Value.compare f) (hop' : op'.apply = Value.compare g)
    (hleaf : ∀ ρ : Assignment, ρ.leaf op = none) (hleaf' : ∀ ρ : Assignment, ρ.leaf op' = none)
    (hneg : ∀ w u v, g w u v = !f w u v) {a b : Ast} (hty : op.ty = Ty.compare) {t : Ty}
    (h : (node op [a, b] ann).ty = some t) :
    (B.build op' [a, b]).eval ρ = (node .Not [node op [a, b] ann] []).eval ρ := by
  obtain ⟨_, _, w, ⟨⟩, ha, hb⟩ := ty_of_compare hty h
  obtain ⟨u, hu⟩ := exists_bv_of_ty ha ρ
  obtain ⟨v, hv⟩ := exists_bv_of_ty hb ρ
  rw [B.eval_build, eval_compare hop' hleaf' hu hv, hneg, eval_not, eval_compare hop hleaf hu hv]
  rfl

theorem booleanNotSimplifier_sound {body e : Ast} (hty : body.ty = some .bool)
    (h : B.booleanNotSimplifier body = some e) : e.eval ρ = (node .Not [body] []).eval ρ := by
  have hsigned : ∀ (w : Nat) (u v : BitVec w), v.slt u = !u.sle v := fun w u v => by
    rw [BitVec.sle_eq_not_slt, Bool.not_not]
  have hunsigned : ∀ (w : Nat) (u v : BitVec w), v.ult u = !u.ule v := fun w u v => by
    rw [BitVec.ule_eq_not_ult, Bool.not_not]
  unfold booleanNotSimplifier at h
  split at h
  · rename_i a b ann
    cases h
    rw [B.eval_build, eval_eq_iff_holds ⟨_, rfl⟩ ⟨_, rfl⟩, holds_node_ne, holds_node_not, holds_node_eq]
  · rename_i a b ann
    cases h
    rw [B.eval_build, eval_eq_iff_holds ⟨_, rfl⟩ ⟨_, rfl⟩, holds_node_eq, holds_node_not, holds_node_ne, not_not]
  · rename_i a ann
    cases h
    obtain ⟨b, hb⟩ := exists_bool_of_ty (ty_of_not hty) ρ
    rw [eval_eq_iff_holds ⟨b, hb⟩ ⟨_, rfl⟩, holds_node_not, holds_node_not, not_not]
  · cases h
    exact negated_comparison (f := fun _ a b => a.slt b) (g := fun _ a b => b.sle a) rfl rfl (fun _ => rfl)
      (fun _ => rfl) (fun _ _ _ => BitVec.sle_eq_not_slt) rfl hty
  · cases h
    exact negated_comparison (f := fun _ a b => a.sle b) (g := fun _ a b => b.slt a) rfl rfl (fun _ => rfl)
      (fun _ => rfl) hsigned rfl hty
  · cases h
    exact negated_comparison (f := fun _ a b => b.slt a) (g := fun _ a b => a.sle b) rfl rfl (fun _ => rfl)
      (fun _ => rfl) (fun _ _ _ => BitVec.sle_eq_not_slt) rfl hty
  · cases h
    exact negated_comparison (f := fun _ a b => b.sle a) (g := fun _ a b => a.slt b) rfl rfl (fun _ => rfl)
      (fun _ => rfl) (fun w u v => hsigned w v u) rfl hty
  · cases h
    exact negated_comparison (f := fun _ a b => a.ult b) (g := fun _ a b => b.ule a) rfl rfl (fun _ => rfl)
      (fun _ => rfl) (fun _ u v => BitVec.ule_eq_not_ult v u) rfl hty
  · cases h
    exact negated_comparison (f := fun _ a b => a.ule b) (g := fun _ a b => b.ult a) rfl rfl (fun _ => rfl)
      (fun _ => rfl) hunsigned rfl hty
  · cases h
    exact negated_comparison (f := fun _ a b => b.ult a) (g := fun _ a b => a.ule b) rfl rfl (fun _ => rfl)
      (fun _ => rfl) (fun _ u v => BitVec.ule_eq_not_ult u v) rfl hty
  · cases h
    exact negated_comparison (f := fun _ a b => b.ule a) (g := fun _ a b => a.ult b) rfl rfl (fun _ => rfl)
      (fun _ => rfl) (fun w u v => hunsigned w v u) rfl hty
  · cases h

end Builder
end Claripy
