import Vibr.Claripy.Builder

/-!
# Flattening

`_flatten_simplifier` of `claripy/simplifications.py`: the arguments that are applications of
the operation are opened, a filter of the caller drops some of the arguments, and constants
among others are collected into one application at the end.
-/

namespace Claripy

open Ast

namespace Ast

/-- `a.op == "BVV"` -/
def isBVV (a : Ast) : Bool :=
  match a.op with
  | .BVV _ _ => true
  | _ => false

/-- `a.op == "BoolV"` -/
def isBoolV (a : Ast) : Bool :=
  match a.op with
  | .BoolV _ => true
  | _ => false

/-- The arguments of `a` where it is an application of `op` with less than 1000 of them. -/
def opened (op : Op) (a : Ast) : List Ast := if a.op = op ∧ a.args.length < 1000 then a.args else [a]

/-- `_deduplicate_filter`: the first occurrence of every argument. -/
def deduplicateFilter (args : List Ast) : List Ast :=
  args.foldl (fun newArgs a => if a ∈ newArgs then newArgs else newArgs ++ [a]) []

theorem mem_deduplicateFilter {args : List Ast} {a : Ast} : a ∈ deduplicateFilter args ↔ a ∈ args := by
  have hfold : ∀ (args acc : List Ast),
      a ∈ args.foldl (fun newArgs a => if a ∈ newArgs then newArgs else newArgs ++ [a]) acc ↔
        a ∈ acc ∨ a ∈ args := by
    intro args
    induction args with
    | nil => simp
    | cons b bs ih =>
      intro acc
      rw [List.foldl_cons, ih]
      split <;> simp only [List.mem_append, List.mem_cons, List.not_mem_nil, or_false] <;> grind
  rw [deduplicateFilter, hfold]
  simp

end Ast

namespace Builder

variable (B : Builder)

/-- The constants among the arguments are put into one application of the operation at the
end, where there are others and more than one constant. -/
def collectValues (op : Op) (args : List Ast) : List Ast :=
  match args.filter isBVV, args.filter fun a => !a.isBVV with
  | value :: value' :: values, other :: others =>
    (other :: others) ++
      [B.new op (ownAnnotations value (value :: value' :: values)) (value :: value' :: values)]
  | _, _ => args

def flattenSimplifier (op : Op) (filter : List Ast → List Ast) (initialValue : Option Ast)
    (args : List Ast) : Option Ast :=
  if args.any fun a => a.annotations.any fun annotation => !B.relocatable annotation then none
  else
    let newArgs := filter (B.collectValues op (args.flatMap (opened op)))
    match newArgs, initialValue, args with
    | [], some value, _ => some value
    | [a], _, _ => some a
    | _, _, first :: _ => some (B.new op (ownAnnotations first newArgs) newArgs)
    | _, _, [] => none

variable {B}

theorem collectValues_of_no_value {op : Op} {args : List Ast} (h : ∀ a ∈ args, a.isBVV = false) :
    B.collectValues op args = args := by
  have hnil : args.filter isBVV = [] := by
    rw [List.filter_eq_nil_iff]
    intro a ha
    simp [h a ha]
  rw [collectValues, hnil]

/-- Without constants among the arguments, the result is the one argument that is left or an
application of the operation to what is left. -/
theorem flattenSimplifier_cases {op : Op} {filter : List Ast → List Ast} {args : List Ast} {e : Ast}
    (hvalue : ∀ a ∈ args.flatMap (opened op), a.isBVV = false)
    (h : B.flattenSimplifier op filter none args = some e) :
    filter (args.flatMap (opened op)) = [e] ∨
      (∀ a, filter (args.flatMap (opened op)) ≠ [a]) ∧
        ∃ ann, e = B.new op ann (filter (args.flatMap (opened op))) := by
  unfold flattenSimplifier at h
  split at h
  · cases h
  rw [collectValues_of_no_value hvalue] at h
  dsimp only at h
  rcases hcs : filter (args.flatMap (opened op)) with _ | ⟨a, _ | ⟨b, bs⟩⟩
  all_goals rw [hcs] at h
  · rcases args with _ | ⟨first, rest⟩
    · cases h
    · cases h
      exact .inr ⟨by simp, _, rfl⟩
  · cases h
    exact .inl rfl
  · rcases args with _ | ⟨first, rest⟩
    · cases h
    · cases h
      exact .inr ⟨by simp, _, rfl⟩

/-- A node, or a constant where there are no variables. -/
theorem new_cases (op : Op) (annotations : List Annotation) (args : List Ast) :
    B.new op annotations args = node op args (B.inherited annotations args) ∨
      (node op args []).vars = ∅ ∧ ∃ v ann, B.new op annotations args = (Value.lit v).annotate ann := by
  simp only [new]
  split
  · exact .inl rfl
  rename_i hclosed
  split
  · exact .inl rfl
  · exact .inr ⟨not_not.mp hclosed, _, _, rfl⟩

end Builder
end Claripy
