import Vibr.Claripy.Constraints

/-!
# ConstrainedFrontend

`claripy/frontend/constrained_frontend.py`. A front-end keeps the list of its
constraints, the hashes of the constraints stripped of their annotations (here
the stripped trees), and the variables it has seen. Adding skips a constraint
without annotations that is already there.

`claripy.simplify` is a call into the back-ends and is a parameter.
-/

namespace Claripy

structure ConstrainedFrontend where
  constraints : List Ast := []
  /-- `constraints_wo_annotations` -/
  stripped : List Ast := []
  vars : Finset String := ∅
deriving DecidableEq

/-- `claripy.algorithm.simplify`, which keeps the value of an expression and brings
in no new variables. -/
structure Simplifier where
  simplify : Ast → Ast
  eval_simplify : ∀ a ρ, (simplify a).eval ρ = a.eval ρ
  vars_simplify : ∀ a, (simplify a).vars ⊆ a.vars

namespace ConstrainedFrontend

/-- One round of the loop in `_add` that keeps the constraint. -/
def push (f : ConstrainedFrontend) (con : Ast) : ConstrainedFrontend where
  constraints := f.constraints ++ [con]
  stripped := con.clearAnnotations :: f.stripped
  vars := f.vars ∪ con.vars

/-- `_add`: the new front-end and the constraints that were really added. -/
def add (f : ConstrainedFrontend) : List Ast → ConstrainedFrontend × List Ast
  | [] => (f, [])
  | con :: cs =>
    if con.annotations = [] ∧ con ∈ f.stripped then add f cs
    else ((add (f.push con) cs).1, con :: (add (f.push con) cs).2)

/-- The conjuncts of a conjunction, or the expression itself. -/
def conjuncts (a : Ast) : List Ast := if a.op = .And then a.args else [a]

def avoidsSimplification (c : Ast) : Bool := c.annotations.any Annotation.avoidsSimplification

def simplify (S : Simplifier) (f : ConstrainedFrontend) : ConstrainedFrontend :=
  let toSimplify := f.constraints.filter fun c => !avoidsSimplification c
  let noSimplify := f.constraints.filter avoidsSimplification
  if toSimplify = [] then f
  else
    { f with constraints := noSimplify ++ conjuncts (S.simplify (.and toSimplify)) }

/-! ## Invariant -/

/-- What a front-end knows about its own constraints: their variables are among
its variables, and a constraint it would skip follows from them. -/
structure Valid (f : ConstrainedFrontend) : Prop where
  vars_subset : varsOf f.constraints ⊆ f.vars
  stripped_vars : ∀ a ∈ f.stripped, a.vars ⊆ f.vars
  stripped_holds : ∀ a ∈ f.stripped, ∀ ρ, Sat f.constraints ρ → a.holds ρ

theorem valid_blank : Valid {} := ⟨by simp [varsOf, Ast.varsList], by simp, by simp⟩

variable {f : ConstrainedFrontend} {cs : List Ast} {ρ : Assignment}

theorem sat_push {con : Ast} :
    Sat (f.push con).constraints ρ ↔ Sat f.constraints ρ ∧ con.holds ρ := by
  simp [push]

theorem Valid.push (h : f.Valid) (con : Ast) : (f.push con).Valid where
  vars_subset := by
    intro x hx
    simp only [ConstrainedFrontend.push, varsOf_append, Finset.mem_union] at hx ⊢
    refine hx.imp (fun hx => h.vars_subset hx) fun hx => ?_
    obtain ⟨c, hc, hxc⟩ := mem_varsOf.mp hx
    obtain rfl : c = con := by simpa using hc
    exact hxc
  stripped_vars := by
    intro a ha
    rcases List.mem_cons.mp ha with rfl | ha
    · rw [Ast.vars_clearAnnotations]
      exact Finset.subset_union_right
    · exact (h.stripped_vars a ha).trans Finset.subset_union_left
  stripped_holds := by
    intro a ha ρ hρ
    rw [sat_push] at hρ
    rcases List.mem_cons.mp ha with rfl | ha
    · exact Ast.holds_clearAnnotations.mpr hρ.2
    · exact h.stripped_holds a ha ρ hρ.1

theorem Valid.add (h : f.Valid) : (f.add cs).1.Valid := by
  induction cs generalizing f with
  | nil => exact h
  | cons con cs ih =>
    rw [ConstrainedFrontend.add]
    split
    · exact ih h
    · exact ih (h.push con)

theorem add_constraints : (f.add cs).1.constraints = f.constraints ++ (f.add cs).2 := by
  induction cs generalizing f with
  | nil => simp [ConstrainedFrontend.add]
  | cons con cs ih =>
    rw [ConstrainedFrontend.add]
    split
    · exact ih
    · rw [ih]
      simp [ConstrainedFrontend.push]

theorem add_added_subset : ∀ c ∈ (f.add cs).2, c ∈ cs := by
  induction cs generalizing f with
  | nil => simp [ConstrainedFrontend.add]
  | cons con cs ih =>
    rw [ConstrainedFrontend.add]
    split
    · exact fun c hc => List.mem_cons_of_mem _ (ih c hc)
    intro c hc
    rcases List.mem_cons.mp hc with rfl | hc
    · exact List.mem_cons_self
    · exact List.mem_cons_of_mem _ (ih c hc)

theorem add_vars : (f.add cs).1.vars = f.vars ∪ varsOf (f.add cs).2 := by
  induction cs generalizing f with
  | nil => simp [ConstrainedFrontend.add, varsOf, Ast.varsList]
  | cons con cs ih =>
    rw [ConstrainedFrontend.add]
    split
    · exact ih
    · rw [ih, varsOf_cons, ← Finset.union_assoc]
      rfl

/-- Skipped or not, the variables of every constraint handed to `add` are known
afterwards. -/
theorem add_vars_eq (h : f.Valid) : (f.add cs).1.vars = f.vars ∪ varsOf cs := by
  induction cs generalizing f with
  | nil => simp [ConstrainedFrontend.add, varsOf, Ast.varsList]
  | cons con cs ih =>
    rw [ConstrainedFrontend.add]
    split
    · rename_i hskip
      have hsub := h.stripped_vars con hskip.2
      rw [ih h, varsOf_cons, ← Finset.union_assoc, Finset.union_eq_left.mpr hsub]
    · rw [ih (h.push con), varsOf_cons, ← Finset.union_assoc]
      rfl

/-- Skipped or not, every constraint handed to `add` holds afterwards. -/
theorem sat_add (h : f.Valid) :
    Sat (f.add cs).1.constraints ρ ↔ Sat f.constraints ρ ∧ Sat cs ρ := by
  induction cs generalizing f with
  | nil => simp [ConstrainedFrontend.add]
  | cons con cs ih =>
    rw [ConstrainedFrontend.add]
    split
    · rename_i hskip
      rw [ih h, sat_cons]
      exact and_congr_right fun hf => ⟨fun hcs => ⟨h.stripped_holds con hskip.2 ρ hf, hcs⟩,
        fun hcs => hcs.2⟩
    · rw [ih (h.push con), sat_push, sat_cons, and_assoc]

theorem satisfiable_of_add (hsat : Satisfiable (f.add cs).1.constraints) :
    Satisfiable f.constraints := by
  rw [add_constraints] at hsat
  exact hsat.of_append_left

theorem sat_conjuncts (a : Ast) : Sat (conjuncts a) ρ ↔ a.holds ρ := by
  obtain ⟨op, args, annotations⟩ := a
  by_cases h : op = .And
  · subst h
    exact Ast.holds_node_and.symm
  · simp [conjuncts, Ast.op, h]

theorem vars_conjuncts (a : Ast) : varsOf (conjuncts a) ⊆ a.vars := by
  obtain ⟨op, args, annotations⟩ := a
  intro x hx
  obtain ⟨c, hc, hxc⟩ := mem_varsOf.mp hx
  by_cases h : op = .And
  · simp only [conjuncts, Ast.op, Ast.args, h, if_true] at hc
    exact Ast.vars_subset_of_mem hc hxc
  · obtain rfl : c = .node op args annotations := by simpa [conjuncts, Ast.op, h] using hc
    exact hxc

variable (S : Simplifier)

theorem sat_simplify : Sat (f.simplify S).constraints ρ ↔ Sat f.constraints ρ := by
  have hfilter : Sat f.constraints ρ ↔ Sat (f.constraints.filter avoidsSimplification) ρ ∧
      Sat (f.constraints.filter fun c => !avoidsSimplification c) ρ := by
    simp only [Sat, List.mem_filter]
    refine ⟨fun h => ⟨fun c hc => h c hc.1, fun c hc => h c hc.1⟩, fun h c hc => ?_⟩
    cases ha : avoidsSimplification c with
    | true => exact h.1 c ⟨hc, ha⟩
    | false => exact h.2 c ⟨hc, by simp [ha]⟩
  unfold simplify
  dsimp only
  split
  · rfl
  · rw [sat_append, sat_conjuncts, Ast.holds, S.eval_simplify, ← Ast.holds, Ast.holds_and, hfilter]

theorem varsOf_simplify : varsOf (f.simplify S).constraints ⊆ varsOf f.constraints := by
  unfold simplify
  dsimp only
  split
  · exact subset_rfl
  intro x hx
  have hfilter : ∀ {p : Ast → Bool}, varsOf (f.constraints.filter p) ⊆ varsOf f.constraints := by
    intro p y hy
    obtain ⟨c, hc, hyc⟩ := mem_varsOf.mp hy
    exact vars_subset_varsOf (List.mem_of_mem_filter hc) hyc
  rw [varsOf_append, Finset.mem_union] at hx
  rcases hx with hx | hx
  · exact hfilter hx
  have hx' := S.vars_simplify _ (vars_conjuncts _ hx)
  have hand : ∀ cs : List Ast, (Ast.and cs).vars = varsOf cs := fun cs => by
    simp [Ast.and, Ast.vars, Op.symbol, varsOf]
  rw [hand] at hx'
  exact hfilter hx'

theorem simplify_vars : (f.simplify S).vars = f.vars := by
  unfold simplify; dsimp only; split <;> rfl

theorem simplify_stripped : (f.simplify S).stripped = f.stripped := by
  unfold simplify; dsimp only; split <;> rfl

theorem Valid.simplify (h : f.Valid) : (f.simplify S).Valid where
  vars_subset := by
    rw [simplify_vars]
    exact (varsOf_simplify S).trans h.vars_subset
  stripped_vars := by
    rw [simplify_stripped, simplify_vars]
    exact h.stripped_vars
  stripped_holds := by
    intro a ha ρ hρ
    rw [simplify_stripped] at ha
    exact h.stripped_holds a ha ρ ((sat_simplify S).mp hρ)

end ConstrainedFrontend
end Claripy
