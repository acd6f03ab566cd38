import Vibr.Claripy.Backend.Z3
import Vibr.Claripy.Frontend.Constrained

/-!
# FullFrontend

`claripy/frontend/full_frontend.py`. The front-end hands its constraints to the
back-end's solver before every solve, so the solver is given by the constraints.
Mixins sit on top of this class in one object: the object is a state `σ`, seen
through `FullState`. Where a method calls another one on `self`, the mixin's
version is meant, so `max` and `min` take `satisfiable` and `eval` as arguments.

A method returns its value or the exception it raises, and the state after it.
-/

namespace Claripy

inductive CheckResult where
  | SAT
  | UNSAT
deriving DecidableEq, Repr

/-- What `FullFrontend` uses of the object it is a part of: the constraints, the
back-end's `solve_count`, and the effect of a solve, which runs `_model_hook` on
the models found. -/
class FullState (σ : Type) where
  constraints : σ → List Ast
  count : σ → Nat
  solved : σ → Nat → List Model → σ

namespace FullFrontend

variable {σ : Type} [FullState σ]

/-- The state after a solve, together with a result read off its answer. -/
def finish {α β : Type} (s : σ) (a : Answer α) (result : α → Except Error β) : Except Error β × σ :=
  (result a.value, FullState.solved s a.count a.models)

variable (B : BackendZ3)

def satisfiable (extra : List Ast) (s : σ) : Except Error Bool × σ :=
  finish s (B.satisfiable (FullState.count s) (FullState.constraints s) extra) .ok

/-- The model that `check_satisfiability` makes up for a single constraint
`symbol == constant` or `symbol != constant`, without a solve. -/
def trivialModel : List Ast → Option Model
  | [.node .eq [.node (.BVS x _) _ _, .node (.BVV v w') _ _] _] =>
    some [(x, ⟨v % 2 ^ w', decide (v % 2 ^ w' ≠ 0)⟩)]
  | [.node .ne [.node (.BVS x w) _ _, .node (.BVV v w') _ _] _] =>
    some [(x, ⟨(v % 2 ^ w' + 1) % 2 ^ w, decide ((v % 2 ^ w' + 1) % 2 ^ w ≠ 0)⟩)]
  | _ => none

def checkSatisfiability (extra : List Ast) (s : σ) : Except Error CheckResult × σ :=
  match if extra = [] then trivialModel (FullState.constraints s) else none with
  | some m => (.ok .SAT, FullState.solved s (FullState.count s) [m])
  | none =>
    finish s (B.satisfiable (FullState.count s) (FullState.constraints s) extra)
      fun b => .ok (if b then .SAT else .UNSAT)

def batchEval (exprs : List Ast) (n : Nat) (extra : List Ast) (s : σ) :
    Except Error (List (List Value)) × σ :=
  finish s (B.batchEval exprs extra n (FullState.count s) (FullState.constraints s))
    fun rs => if rs = [] then .error (.UnsatError "unsat") else .ok rs

def eval (e : Ast) (n : Nat) (extra : List Ast) (s : σ) : Except Error (List Value) × σ :=
  finish s (B.batchEval [e] extra n (FullState.count s) (FullState.constraints s))
    fun rs => if rs = [] then .error (.UnsatError "unsat") else .ok (rs.map (·.headD (.bool false)))

/-- The bound that a solution found earlier puts on the extremum. -/
def bound (isMax signed : Bool) (e : Ast) (v : Value) : Ast :=
  .node (match isMax, signed with
    | true, true => .SGE
    | true, false => .UGE
    | false, true => .SLE
    | false, false => .ULE) [e, v.lit] []

/-- The common body of `max` and `min`. -/
def extremum (self_satisfiable : List Ast → σ → Except Error Bool × σ)
    (self_eval : Ast → Nat → List Ast → σ → Except Error (List Value) × σ)
    (isMax : Bool) (messages : String × String) (e : Ast) (extra : List Ast) (signed : Bool)
    (s : σ) : Except Error Int × σ :=
  match self_satisfiable extra s with
  | (.error x, s) => (.error x, s)
  | (.ok false, s) => (.error (.UnsatError messages.1), s)
  | (.ok true, s) =>
    match self_eval e 2 extra s with
    | (.error x, s) => (.error x, s)
    | (.ok [], s) => (.error (.UnsatError messages.2), s)
    | (.ok [v], s) => (.ok v.toNat, s)
    | (.ok (v₀ :: v₁ :: _), s) =>
      finish s (B.extrema isMax signed (FullState.count s) e (FullState.constraints s)
        (extra ++ [bound isMax signed e v₀, bound isMax signed e v₁])) .ok

def max (self_satisfiable : List Ast → σ → Except Error Bool × σ)
    (self_eval : Ast → Nat → List Ast → σ → Except Error (List Value) × σ) :
    Ast → List Ast → Bool → σ → Except Error Int × σ :=
  extremum B self_satisfiable self_eval true ("Unsat during _max()", "unsat during max()")

def min (self_satisfiable : List Ast → σ → Except Error Bool × σ)
    (self_eval : Ast → Nat → List Ast → σ → Except Error (List Value) × σ) :
    Ast → List Ast → Bool → σ → Except Error Int × σ :=
  extremum B self_satisfiable self_eval false ("Unsat during _min()", "unsat during min()")

def solution (e v : Ast) (extra : List Ast) (s : σ) : Except Error Bool × σ :=
  finish s (B.solution (FullState.count s) e v (FullState.constraints s) extra) .ok

/-! ## Exactness -/

variable {B} {s : σ} {extra exprs : List Ast} {e : Ast} {n : Nat}

theorem batchEval_ok {rs : List (List Value)} {s' : σ}
    (h : batchEval B exprs n extra s = (.ok rs, s')) :
    rs = (B.batchEval exprs extra n (FullState.count s) (FullState.constraints s)).value ∧ rs ≠ [] := by
  have h' := congrArg Prod.fst h
  simp only [batchEval, finish] at h'
  split at h'
  · cases h'
  · rename_i hne
    cases h'
    exact ⟨rfl, hne⟩

theorem batchEval_error {x : Error} {s' : σ} (h : batchEval B exprs n extra s = (.error x, s')) :
    x = .UnsatError "unsat" ∧
      (B.batchEval exprs extra n (FullState.count s) (FullState.constraints s)).value = [] := by
  have h' := congrArg Prod.fst h
  simp only [batchEval, finish] at h'
  split at h'
  · rename_i hnil
    cases h'
    exact ⟨rfl, hnil⟩
  · cases h'

theorem eval_ne_nil {vs : List Value} (h : (eval B e n extra s).1 = .ok vs) : vs ≠ [] := by
  simp only [eval, finish] at h
  split at h
  · cases h
  · rename_i hne
    cases h
    simpa using hne

/-- With at least one solution asked for, the enumeration is empty only when there
is none. -/
theorem batchEval_eq_nil (hB : B.Exact) (hn : 0 < n) {t : Nat} {cs : List Ast} :
    (B.batchEval exprs extra n t cs).value = [] ↔ ¬ Satisfiable (cs ++ extra) := by
  have henum := BackendZ3.batchEval_enumerates hB exprs extra n t cs
  constructor
  · rintro hnil ⟨ρ, hρ⟩
    have := henum.exhaustive (by simp [hnil, hn]) _ ⟨ρ, hρ, rfl⟩
    simp [hnil] at this
  intro hun
  refine List.eq_nil_iff_forall_not_mem.mpr fun r hr => ?_
  obtain ⟨ρ, hρ, _⟩ := henum.sound r hr
  exact hun ⟨ρ, hρ⟩

end FullFrontend
end Claripy
