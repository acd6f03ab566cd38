import Vibr.Peephole.Expression

/-!
# Statements

A block assigns the values of its expressions one after another. What another statement
does is left to it.
-/

namespace Angr.Peephole

inductive Stmt where
  | assignment (dst src : Expr)
  | other (effect : Env → Env)

def Env.assign (σ : Env) (dst : Expr) (v : Nat) : Env :=
  match dst with
  | .tmp tmpIdx _ => { σ with tmps := Function.update σ.tmps tmpIdx v }
  | .virtualVariable varid _ _ => { σ with vars := Function.update σ.vars varid v }
  | .atom key _ => { σ with atoms := Function.update σ.atoms key v }
  | _ => σ

namespace Stmt

def exec (σ : Env) : Stmt → Env
  | assignment dst src => σ.assign dst (src.eval σ)
  | other effect => effect σ

/-- The widths and the constants of a statement fit; its temporaries have the widths of `Γ`. -/
def WellTyped (Γ : Int → Nat) : Stmt → Prop
  | assignment dst src =>
    src.WellTyped ∧ dst.bits = src.bits ∧ src.ConstsFit ∧ dst.TmpWidths Γ ∧ src.TmpWidths Γ
  | other _ => True

/-- Runs the statements of a block. -/
def run (statements : List Stmt) (σ : Env) : Env := statements.foldl exec σ

/-- A block in which every temporary has one width. -/
def BlockTyped (statements : List Stmt) : Prop := ∃ Γ, ∀ s ∈ statements, s.WellTyped Γ

theorem run_take_succ {statements : List Stmt} {idx : Nat} {s : Stmt} (h : statements[idx]? = some s) (σ : Env) :
    run (statements.take (idx + 1)) σ = s.exec (run (statements.take idx) σ) := by
  rw [run, List.take_add_one, h, List.foldl_append]
  rfl

end Stmt

end Angr.Peephole
