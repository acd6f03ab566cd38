import Vibr.Claripy.Algorithm.Replace
import Vibr.Claripy.Bytes
import Vibr.Claripy.Typing

/-!
# Constructors

`operations.op` makes the constructor of an operation: it asks the simplifier of the
operation first, moves annotations to what the simplifier returns, and makes a node
where there is no simpler expression. The simplifiers call constructors in turn. A
`Builder` stands for the constructors that a simplifier calls and carries that they keep
the value, so that what is proved about one simplifier does not depend on how the others
write their results.
-/

namespace Claripy

open Ast

/-- The number in a constant is below what its length allows. -/
def Op.reduced : Op → Bool
  | .BVV v w => v < 2 ^ w
  | _ => true

variable {args : List Ast}

namespace Ast

/-- Every constant in the expression is below what its length allows, as `BVV` sees to. -/
def Reduced (a : Ast) : Prop := ∀ op ∈ a.ops, op.reduced = true

instance (a : Ast) : Decidable a.Reduced := inferInstanceAs (Decidable (∀ op ∈ a.ops, op.reduced = true))

theorem reduced_node {op : Op} {ann : List Annotation} :
    (node op args ann).Reduced ↔ op.reduced = true ∧ ∀ a ∈ args, a.Reduced := by
  simp only [Reduced, ops, List.mem_cons, mem_opsList, forall_eq_or_imp]
  refine and_congr_right fun _ => ⟨fun h a ha op hop => h op ⟨a, ha, hop⟩, fun h op hop => ?_⟩
  obtain ⟨a, ha, hop⟩ := hop
  exact h a ha op hop

theorem ty_annotate (ann : List Annotation) (a : Ast) : (a.annotate ann).ty = a.ty := by
  cases a; rfl

theorem reduced_annotate {ann : List Annotation} {a : Ast} : (a.annotate ann).Reduced ↔ a.Reduced := by
  cases a; rfl

/-- The constant with the value of a well-typed expression has its type. -/
theorem ty_lit_eval {a : Ast} {t : Ty} (h : a.ty = some t) (ρ : Assignment) : (a.eval ρ).lit.ty = some t := by
  cases t with
  | bool =>
    obtain ⟨b, hb⟩ := exists_bool_of_ty h ρ
    rw [hb]
    rfl
  | bv w =>
    obtain ⟨v, hv⟩ := exists_bv_of_ty h ρ
    rw [hv]
    simp [Value.lit, ty, tyList, Op.ty, ty_pos a w h]

theorem reduced_lit (v : Value) : v.lit.Reduced := by
  cases v with
  | bv w v => simpa [Value.lit, reduced_node, Op.reduced] using v.isLt
  | bool b => simp [Value.lit, reduced_node, Op.reduced]

end Ast

/-- The constructors that a simplifier calls, with the rules of the annotations. -/
structure Builder extends AnnotationRules where
  relocatable : Annotation → Bool
  /-- `_handle_annotations`: the annotations of a simplified expression after those of the
  arguments have been relocated, or `none` if one would be lost that must not be -/
  handleAnnotations : Ast → List Ast → Option (List Annotation)
  build : Op → List Ast → Ast
  eval_build : ∀ op args ρ, (build op args).eval ρ = (node op args []).eval ρ
  ty_build : ∀ op args t, (node op args []).ty = some t → (build op args).ty = some t
  reduced_build : ∀ op args, (node op args []).Reduced → (build op args).Reduced

namespace Ast

/-- `claripy.is_true`: the concrete back-end evaluates expressions without variables only. -/
def isTrue (c : Ast) : Bool := c.vars = ∅ ∧ c.eval anyAssignment = .bool true

def isFalse (c : Ast) : Bool := c.vars = ∅ ∧ c.eval anyAssignment = .bool false

theorem holds_of_isTrue {c : Ast} (h : c.isTrue = true) (ρ : Assignment) : c.holds ρ := by
  obtain ⟨hclosed, hval⟩ := of_decide_eq_true h
  rw [holds, eval_closed hclosed ρ anyAssignment, hval]

theorem eval_of_isFalse {c : Ast} (h : c.isFalse = true) (ρ : Assignment) :
    c.eval ρ = .bool false := by
  obtain ⟨hclosed, hval⟩ := of_decide_eq_true h
  rw [eval_closed hclosed ρ anyAssignment, hval]

/-- `append_annotations` -/
def appendAnnotations (ann : List Annotation) (a : Ast) : Ast := a.annotate (a.annotations ++ ann)

@[simp] theorem eval_appendAnnotations (ann : List Annotation) (a : Ast) (ρ : Assignment) :
    (a.appendAnnotations ann).eval ρ = a.eval ρ :=
  eval_annotate _ a ρ

end Ast

namespace Builder

variable (B : Builder)

/-- `Base.__new__`, for operations that always have a value: a node without variables is
folded to its value unless an argument has an annotation that must not be lost. -/
def new (op : Op) (annotations : List Annotation) (args : List Ast) : Ast :=
  let built := node op args (B.inherited annotations args)
  if built.vars ≠ ∅ then built
  else if B.pinned args then built
  else (built.eval anyAssignment).lit.annotate (B.inherited [] args)

/-- What `operations.op` does with the result of the simplifier. -/
def construct (simplified : Option Ast) (op : Op) (args : List Ast) : Ast :=
  match simplified with
  | none => B.new op [] args
  | some simp =>
    match B.handleAnnotations simp args with
    | some ann => simp.annotate ann
    | none => B.new op [] args

/-- The constructor takes what the simplifier returned. -/
def takes (simplified : Option Ast) (args : List Ast) : Bool :=
  simplified.any fun simp => (B.handleAnnotations simp args).isSome

variable {B}

@[simp] theorem eval_new (op : Op) (annotations : List Annotation) (args : List Ast) (ρ : Assignment) :
    (B.new op annotations args).eval ρ = (node op args []).eval ρ := by
  rw [new]
  split
  · rfl
  rename_i hclosed
  split
  · rfl
  · rw [eval_annotate, eval_lit, eval_closed (not_not.mp hclosed) anyAssignment ρ]
    rfl

/-- A constructor gives a node, or what the simplifier returned with other annotations. -/
theorem construct_cases (simplified : Option Ast) (op : Op) (args : List Ast) :
    (B.takes simplified args = false ∧ B.construct simplified op args = B.new op [] args) ∨
      ∃ e ann, B.takes simplified args = true ∧ simplified = some e ∧
        B.construct simplified op args = e.annotate ann := by
  cases simplified with
  | none => exact .inl ⟨rfl, rfl⟩
  | some e =>
    simp only [takes, construct, Option.any_some]
    cases h : B.handleAnnotations e args with
    | none => exact .inl ⟨rfl, rfl⟩
    | some ann => exact .inr ⟨e, ann, rfl, rfl, rfl⟩

theorem ty_new {op : Op} {annotations : List Annotation} {t : Ty} (h : (node op args []).ty = some t) :
    (B.new op annotations args).ty = some t := by
  simp only [new]
  split
  · exact h
  split
  · exact h
  · rw [ty_annotate]
    exact ty_lit_eval h anyAssignment

theorem reduced_new {op : Op} {annotations : List Annotation} (h : (node op args []).Reduced) :
    (B.new op annotations args).Reduced := by
  simp only [new]
  split
  · exact h
  · split
    · exact h
    · exact reduced_annotate.mpr (reduced_lit _)

/-- What holds of a node and of what the simplifier returns holds of what the constructor gives. -/
theorem construct_induction {P : Ast → Prop} {simplified : Option Ast} {op : Op} (hnew : P (B.new op [] args))
    (hsimp : ∀ e ann, simplified = some e → P (e.annotate ann)) : P (B.construct simplified op args) := by
  obtain ⟨-, hconstruct⟩ | ⟨e, ann, -, he, hconstruct⟩ := B.construct_cases simplified op args
  · rwa [hconstruct]
  · rw [hconstruct]
    exact hsimp e ann he

/-- Constructors that fold constants and simplify nothing, with annotations of the default
class: they may be eliminated and are not relocated. -/
def folding : Builder where
  pinned _ := false
  inherited annotations _ := annotations
  relocatable _ := false
  handleAnnotations simp _ := some simp.annotations
  build op args :=
    let built := node op args []
    if built.vars ≠ ∅ then built else (built.eval anyAssignment).lit
  eval_build op args ρ := by
    dsimp only
    split
    · rfl
    · rename_i hclosed
      rw [eval_lit, eval_closed (not_not.mp hclosed) anyAssignment ρ]
  ty_build op args t h := by
    dsimp only
    split
    · exact h
    · exact ty_lit_eval h anyAssignment
  reduced_build op args h := by
    dsimp only
    split
    · exact h
    · exact reduced_lit _

end Builder
end Claripy
