import Vibr.Claripy.Simplifications.Boolean

/-!
# The constructor And

`And` of `claripy/ast/bool.py`, as `operations.op` makes it from `boolean_and_simplifier`.
What it gives is a well-formed constraint that holds wherever all arguments do, and also
where there is a contradiction that the simplifier hides.
-/

namespace Claripy

open Ast

/-- A Boolean expression that the constructors accept, with reduced constants. -/
structure Ast.IsCondition (a : Ast) : Prop where
  ty : a.ty = some .bool
  reduced : a.Reduced

namespace Builder

variable {B : Builder} {ρ : Assignment}

variable (B) in
/-- `claripy.And` -/
def conjunction (args : List Ast) : Ast := B.construct (B.booleanAndSimplifier args) .And args

/-! ## Conditions -/

theorem isCondition_true : true_.IsCondition := ⟨rfl, by decide⟩

theorem isCondition_false : false_.IsCondition := ⟨rfl, by decide⟩

theorem isCondition_not {c : Ast} (h : c.IsCondition) : (B.build .Not [c]).IsCondition where
  ty := B.ty_build _ _ _ (by rw [ty_one, h.ty]; rfl)
  reduced := B.reduced_build _ _ (reduced_node.mpr ⟨rfl, by simpa using h.reduced⟩)

theorem isCondition_new {cs : List Ast} {ann : List Annotation} (h : ∀ c ∈ cs, c.IsCondition) :
    (B.new .And ann cs).IsCondition where
  ty := ty_new (ty_and fun c hc => (h c hc).ty)
  reduced := reduced_new (reduced_node.mpr ⟨rfl, fun c hc => (h c hc).reduced⟩)

theorem collapseComparisons_cases (fargs : List Ast) (ann : List Annotation) :
    B.collapseComparisons (node .And fargs ann) = node .And fargs ann ∨
      (∃ a, fargs = [a] ∧ B.collapseComparisons (node .And fargs ann) = a) ∨
      B.collapseComparisons (node .And fargs ann) = false_ ∨
      ∃ target k, (∃ a ∈ fargs, Compares .eq target k a) ∧
        B.collapseComparisons (node .And fargs ann) = B.build .eq [target, k] := by
  unfold collapseComparisons
  split
  · rename_i a ann' heq
    cases heq
    exact .inr (.inl ⟨a, rfl, rfl⟩)
  · rename_i cs ann' _ heq
    cases heq
    split
    · exact .inl rfl
    split
    · exact .inl rfl
    rename_i target _
    split
    · rename_i mustbe eqs nes hcomp
      have hmust := (comparisons_spec hcomp).eqs mustbe List.mem_cons_self
      split
      · exact .inr (.inr (.inl rfl))
      split
      · split
        · exact .inr (.inr (.inl rfl))
        · exact .inr (.inr (.inr ⟨target, mustbe, hmust, rfl⟩))
      · exact .inl rfl
    · exact .inl rfl
  · exact .inl rfl

theorem isCondition_collapse {e : Ast} (h : e.IsCondition) : (B.collapseComparisons e).IsCondition := by
  obtain ⟨op, fargs, ann⟩ := e
  by_cases hop : op = .And
  · subst hop
    have hargs : ∀ a ∈ fargs, a.IsCondition := fun a ha =>
      ⟨ty_of_and h.ty a ha, (reduced_node.mp h.reduced).2 a ha⟩
    obtain heq | ⟨a, rfl, heq⟩ | heq | ⟨target, k, ⟨a, ha, hk⟩, heq⟩ := collapseComparisons_cases (B := B) fargs ann
    · rwa [heq]
    · rw [heq]
      exact hargs a List.mem_cons_self
    · rw [heq]
      exact isCondition_false
    rw [heq]
    obtain ⟨u, htarget, hku⟩ := hk.ty_eq (.inl rfl) (hargs a ha).ty
    have hred : ∀ b ∈ a.args, b.Reduced := by
      obtain ⟨op, as, ann'⟩ := a
      exact (reduced_node.mp (hargs _ ha).reduced).2
    refine ⟨B.ty_build _ _ _ ?_, B.reduced_build _ _ (reduced_node.mpr ⟨rfl, ?_⟩)⟩
    · rw [ty_two, htarget, hku]
      simp [Op.ty]
    · obtain ⟨ann', rfl | rfl⟩ := hk <;> simpa [Ast.args, and_comm] using hred
  · have hself : B.collapseComparisons (node op fargs ann) = node op fargs ann := by
      unfold collapseComparisons
      split
      · rename_i heq
        cases heq
        exact absurd rfl hop
      · rename_i heq
        cases heq
        exact absurd rfl hop
      · rfl
    rwa [hself]

variable {args : List Ast}

theorem isCondition_strict {e : Ast} (hargs : ∀ a ∈ args, a.IsCondition) (h : B.strictComparison args = some e) :
    e.IsCondition := by
  unfold strictComparison at h
  split at h
  · rename_i x c as ann y d bs ann'
    split at h
    · cases h
      have hge := hargs (node .UGE (x :: c :: as) ann) List.mem_cons_self
      obtain ⟨_, _, w, ⟨⟩, hx, hc⟩ := ty_of_compare rfl hge.ty
      refine ⟨B.ty_build _ _ _ ?_, B.reduced_build _ _ (reduced_node.mpr ⟨rfl, (reduced_node.mp hge.reduced).2⟩)⟩
      rw [ty_two, hx, hc]
      simp [Op.ty, Ty.compare]
    · cases h
  · cases h

theorem isCondition_booleanAnd {e : Ast} (hargs : ∀ a ∈ args, a.IsCondition)
    (h : B.booleanAndSimplifier args = some e) : e.IsCondition := by
  unfold booleanAndSimplifier at h
  split at h
  · cases h
    exact isCondition_false
  have hargs' : ∀ a ∈ args.filter (fun a => !a.isBoolV), a.IsCondition := fun a ha =>
    hargs a (List.mem_of_mem_filter ha)
  generalize (args.filter fun a => !a.isBoolV) = args' at *
  rcases args' with _ | ⟨a, _ | ⟨b, rest⟩⟩
  · cases h
    exact isCondition_true
  · cases h
    exact hargs' e List.mem_cons_self
  dsimp only at h
  split at h
  · cases h
    exact isCondition_false
  split at h
  · rename_i hstrict
    cases h
    exact isCondition_strict hargs' hstrict
  obtain ⟨flattened, hflat, rfl⟩ := Option.map_eq_some_iff.mp h
  refine isCondition_collapse ?_
  have hopened : ∀ c ∈ (a :: b :: rest).flatMap (opened .And), c.IsCondition := fun c hc =>
    ⟨ty_opened (.inl rfl) (fun a ha => (hargs' a ha).ty) c hc,
      reduced_opened (fun a ha => (hargs' a ha).reduced) c hc⟩
  obtain hsingle | ⟨-, ann, rfl⟩ := flattenSimplifier_cases (fun c hc => isBVV_of_bool (hopened c hc).ty) hflat
  · exact hopened _ (mem_deduplicateFilter.mp (by rw [hsingle]; exact List.mem_cons_self))
  · exact isCondition_new fun c hc => hopened c (mem_deduplicateFilter.mp hc)

theorem isCondition_conjunction (hargs : ∀ a ∈ args, a.IsCondition) : (B.conjunction args).IsCondition := by
  refine construct_induction (isCondition_new hargs) fun e ann he => ?_
  have h := isCondition_booleanAnd hargs he
  exact ⟨(ty_annotate ann e).trans h.ty, reduced_annotate.mpr h.reduced⟩

/-! ## Truth values -/

variable (B) in
/-- The constructor does not take a result of the simplifier that hides a contradiction. -/
def ConjoinsExactly (ρ : Assignment) (args : List Ast) : Prop :=
  B.takes (B.booleanAndSimplifier args) args = true →
    ¬ ∃ target c d, HiddenContradiction ρ (conditions args) target c d

theorem sat_conditions (h : Sat args ρ) : Sat (conditions args) ρ := by
  have hflat : ∀ args, Sat args ρ → Sat (flatConditions args) ρ := by
    intro args h
    have hcs : Sat (deduplicateFilter (args.flatMap (opened .And))) ρ := fun c hc =>
      (sat_opened args).mpr h c (mem_deduplicateFilter.mp hc)
    unfold flatConditions
    split
    · rename_i heq
      rw [heq] at hcs
      exact holds_node_and.mp (hcs _ List.mem_cons_self)
    · exact hcs
  unfold conditions
  split
  · exact sat_nil ρ
  · exact hflat _ (h.mono fun a ha => List.mem_of_mem_filter ha)

theorem conjoinsExactly_of_sat (h : Sat args ρ) : B.ConjoinsExactly ρ args :=
  fun _ ⟨_, _, _, hidden⟩ => not_sat_of_hidden hidden (sat_conditions h)

/-- The result holds where all arguments hold, and where a contradiction is hidden. -/
theorem holds_conjunction_iff (hargs : ∀ a ∈ args, a.IsCondition) :
    (B.conjunction args).holds ρ ↔ Sat args ρ ∨ ¬ B.ConjoinsExactly ρ args := by
  have hbool : ∃ b, (B.conjunction args).eval ρ = .bool b :=
    exists_bool_of_ty (isCondition_conjunction hargs).ty ρ
  obtain ⟨htakes, hnew⟩ | ⟨e, ann, htakes, he, hconstruct⟩ :=
    B.construct_cases (B.booleanAndSimplifier args) .And args
  · have hexact : B.ConjoinsExactly ρ args := fun h => by simp [htakes] at h
    rw [conjunction, hnew, holds, eval_new]
    exact holds_node_and.trans (by simp [hexact])
  have hiff := booleanAndSimplifier_sound_iff (ρ := ρ) (fun a ha => (hargs a ha).ty)
    (fun a ha => (hargs a ha).reduced) he
  have heval : (B.conjunction args).eval ρ = e.eval ρ := by
    rw [conjunction, hconstruct, eval_annotate]
  rw [← heval, eval_eq_iff_holds hbool ⟨_, rfl⟩, holds_node_and] at hiff
  have hexact : B.ConjoinsExactly ρ args ↔
      ¬ ∃ target c d, HiddenContradiction ρ (conditions args) target c d :=
    ⟨fun h => h htakes, fun h _ => h⟩
  rw [← hexact] at hiff
  by_cases h : B.ConjoinsExactly ρ args
  · simp [hiff.mpr h, h]
  have hnsat : ¬ Sat args ρ := fun hs => h (conjoinsExactly_of_sat hs)
  have hne := mt hiff.mp h
  simp only [hnsat, iff_false, not_not] at hne
  simp [hne, h]

end Builder
end Claripy
