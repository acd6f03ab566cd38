import Vibr.Claripy.Typing
import Vibr.Claripy.Frontend.Full

/-!
# ModelCacheMixin

`claripy/frontend/mixin/model_cache_mixin.py` on top of `FullFrontend`. The mixin
keeps the models that the solver found, answers queries from them as far as it
can, and remembers for which expressions the models it has are all there is to
know: the `exhausted` dictionaries.

A Python set has no order of its own. Iterating over the cached models goes
through `iter`, which may choose any order each time.
-/

namespace Claripy

/-! ## Evaluation in a model -/

namespace Ast

mutual
/-- Some division in the expression has a zero divisor. The concrete back-end raises
`ClaripyZeroDivisionError` there, also below a branch that is not taken. -/
def divByZero (ρ : Assignment) : Ast → Bool
  | node op args _ =>
    (op.isDivision && args.tail.any fun a => (a.eval ρ).toNat = 0) || divByZeroList ρ args

def divByZeroList (ρ : Assignment) : List Ast → Bool
  | [] => false
  | a :: as => a.divByZero ρ || divByZeroList ρ as
end

end Ast

namespace Model

/-- `eval_ast`: `none` stands for the exceptions, a division by zero or, unless
variables may be unconstrained, a variable without a value. -/
def evalAst (m : Model) (allowUnconstrained : Bool) (a : Ast) : Option Value :=
  if (allowUnconstrained ∨ a.vars ⊆ Dict.keys m) ∧ ¬ a.divByZero (m.complete true)
  then some (a.eval (m.complete true)) else none

def evalConstraints (m : Model) (constraints : List Ast) : Bool :=
  constraints.all fun c => m.evalAst true c = some (.bool true)

def evalList (m : Model) (allowUnconstrained : Bool) : List Ast → Option (List Value)
  | [] => some []
  | a :: as => (m.evalAst allowUnconstrained a).bind fun v =>
    (m.evalList allowUnconstrained as).map (v :: ·)

/-- Equality of dictionaries, by which models are kept apart in a set. -/
def same (m m' : Model) : Bool :=
  Dict.keys m = Dict.keys m' ∧ ∀ x ∈ Dict.keys m, Dict.get? m x = Dict.get? m' x

def filter (m : Model) (names : Finset String) : Model := Dict.restrict m (· ∈ names)

/-- `ModelCache.combine`: later models override earlier ones. -/
def combine (ms : List Model) : Model := ms.foldl Dict.update []

/-- Adding to a set of models. -/
def insertInto (m : Model) (ms : List Model) : List Model :=
  if ms.any m.same then ms else ms ++ [m]

variable {m : Model} {a : Ast} {v : Value} {allow : Bool}

theorem evalAst_eq_some :
    m.evalAst allow a = some v ↔ (allow ∨ a.vars ⊆ Dict.keys m) ∧
      ¬ a.divByZero (m.complete true) ∧ a.eval (m.complete true) = v := by
  unfold evalAst
  split <;> simp_all

theorem sat_of_evalConstraints {cs : List Ast} (h : m.evalConstraints cs) :
    Sat cs (m.complete true) := by
  intro c hc
  have hc' := List.all_eq_true.mp h c hc
  simp only [decide_eq_true_eq] at hc'
  exact (evalAst_eq_some.mp hc').2.2

theorem evalList_eq_some {as : List Ast} {r : List Value} (h : m.evalList allow as = some r) :
    r = as.map (Ast.eval (m.complete true)) := by
  induction as generalizing r with
  | nil => simpa [evalList] using h.symm
  | cons a as ih =>
    simp only [evalList, Option.bind_eq_some_iff, Option.map_eq_some_iff] at h
    obtain ⟨v, hv, r', hr', rfl⟩ := h
    rw [ih hr', List.map_cons, (evalAst_eq_some.mp hv).2.2]

theorem get?_filter (names : Finset String) (x : String) :
    Dict.get? (m.filter names) x = if x ∈ names then Dict.get? m x else none := by
  simp [filter, Dict.get?_restrict]

theorem keys_filter (names : Finset String) :
    Dict.keys (m.filter names) = (Dict.keys m).filter (· ∈ names) := by
  simp [filter, Dict.keys_restrict]

/-- Dropping variables outside `names` is not seen inside. -/
theorem filter_agreeOn (names : Finset String) (d : Bool) :
    ((m.filter names).complete d).agreeOn names (m.complete d) :=
  complete_agreeOn fun x hx => by simp [get?_filter, hx]

theorem mem_insertInto {m' : Model} {ms : List Model} (h : m' ∈ m.insertInto ms) :
    m' = m ∨ m' ∈ ms := by
  unfold insertInto at h
  split at h
  · exact .inr h
  · simpa [or_comm] using h

theorem subset_insertInto {ms : List Model} : ∀ m' ∈ ms, m' ∈ m.insertInto ms := by
  intro m' h
  unfold insertInto
  split
  · exact h
  · simp [h]

/-- After inserting, some model of the set reads like the inserted one. -/
theorem exists_same_insertInto (m : Model) (ms : List Model) :
    ∃ m' ∈ m.insertInto ms, m'.complete true = m.complete true ∧ Dict.keys m' = Dict.keys m := by
  unfold insertInto
  split
  · rename_i h
    obtain ⟨m', hm', hsame⟩ := List.any_eq_true.mp h
    simp only [same, decide_eq_true_eq] at hsame
    refine ⟨m', hm', ?_, hsame.1.symm⟩
    have hget : ∀ x, Dict.get? m' x = Dict.get? m x := by
      intro x
      by_cases hx : x ∈ Dict.keys m
      · exact (hsame.2 x hx).symm
      · rw [Dict.get?_eq_none.mpr hx, Dict.get?_eq_none.mpr (hsame.1 ▸ hx)]
    simp [complete, hget]
  · exact ⟨m, by simp, rfl, rfl⟩

end Model

/-! ## The mixin -/

structure ModelCacheMixin where
  front : ConstrainedFrontend := {}
  /-- `solve_count` of the back-end -/
  count : Nat := 0
  models : List Model := []
  evalExhausted : List Ast := []
  maxExhausted : List Ast := []
  minExhausted : List Ast := []
  maxSignedExhausted : List Ast := []
  minSignedExhausted : List Ast := []

/-- The parts that the mixin calls: the solver, and the order in which a set of
models is iterated. -/
structure ModelCacheMixin.Env where
  backend : BackendZ3
  iter : Nat → List Model → List Model
  iter_perm : ∀ t ms, (iter t ms).Perm ms

namespace ModelCacheMixin

/-- `_model_hook`: only the variables under the solver's control are kept, and an
empty model is not. -/
def modelHook (s : ModelCacheMixin) (m : Model) : ModelCacheMixin :=
  let m' := m.filter s.front.vars
  if m' = [] then s else { s with models := m'.insertInto s.models }

instance : FullState ModelCacheMixin where
  constraints s := s.front.constraints
  count := ModelCacheMixin.count
  solved s count ms := ms.foldl modelHook { s with count := count }

variable (E : Env)

def getModels (extra : List Ast) (s : ModelCacheMixin) : List Model :=
  (E.iter s.count s.models).filter (·.evalConstraints extra)

/-- The loop of `_get_batch_solutions` over the models, with the results so far. -/
def collect (asts : List Ast) (limit : Option Nat) (allow : Bool) :
    List Model → List (List Value) → List (List Value)
  | [], results => results
  | m :: ms, results =>
    match m.evalList allow asts with
    | none => collect asts limit allow ms results
    | some r =>
      if limit = some (results.insert r).length then results.insert r
      else collect asts limit allow ms (results.insert r)

def getBatchSolutions (asts : List Ast) (limit : Option Nat) (extra : List Ast) (allow : Bool)
    (s : ModelCacheMixin) : List (List Value) :=
  collect asts limit allow (getModels E extra s) []

def getSolutions (e : Ast) (limit : Option Nat) (extra : List Ast) (allow : Bool)
    (s : ModelCacheMixin) : List Value :=
  (getBatchSolutions E [e] limit extra allow s).map (·.headD (.bool false))

def satisfiable (extra : List Ast) (s : ModelCacheMixin) : Except Error Bool × ModelCacheMixin :=
  if getModels E extra s ≠ [] then (.ok true, s) else FullFrontend.satisfiable E.backend extra s

/-- The constraint that rules out the solutions already known. -/
def excludeAll (asts : List Ast) (results : List (List Value)) : Ast :=
  .and (results.map fun r => .or (List.zipWith (fun a v => .ne a v.lit) asts r))

/-- A single expression recorded as exhausted is answered without the solver. -/
def shortcut (asts : List Ast) (s : ModelCacheMixin) : Bool :=
  match asts with
  | [e] => e ∈ s.evalExhausted
  | _ => false

/-- The end of `batch_eval`: fewer than `n` solutions without extra constraints are
all there are. -/
def markEval (asts : List Ast) (n : Nat) (extra : List Ast) (results : List (List Value))
    (s : ModelCacheMixin) : ModelCacheMixin :=
  if extra = [] ∧ results.length < n then
    { s with evalExhausted := asts.filter (·.vars ⊆ s.front.vars) ++ s.evalExhausted }
  else s

def batchEval (asts : List Ast) (n : Nat) (extra : List Ast) (s : ModelCacheMixin) :
    Except Error (List (List Value)) × ModelCacheMixin :=
  let results := getBatchSolutions E asts (some n) extra true s
  if results.length = n ∨ shortcut asts s then (.ok results, s)
  else
    let constraints := if results = [] then extra else excludeAll asts results :: extra
    match FullFrontend.batchEval E.backend asts (n - results.length) constraints s with
    | (.ok rs, s) => (.ok (results ∪ rs), markEval asts n extra (results ∪ rs) s)
    | (.error (.UnsatError message), s) =>
      if results = [] then (.error (.UnsatError message), s)
      else (.ok results, markEval asts n extra results s)
    | (.error x, s) => (.error x, s)

def eval (e : Ast) (n : Nat) (extra : List Ast) (s : ModelCacheMixin) :
    Except Error (List Value) × ModelCacheMixin :=
  match batchEval E [e] n extra s with
  | (.ok rs, s) => (.ok (rs.map (·.headD (.bool false))), s)
  | (.error x, s) => (.error x, s)

/-- The key of the cached branch of `min` in the signed case. -/
def minSignedKey (e : Ast) (v : Int) : Int := if 0 ≤ v then v else v + 2 ^ e.length

/-- The key of the cached branch of `max` in the signed case. -/
def maxSignedKey (e : Ast) (v : Int) : Int := if v < 2 ^ (e.length - 1) then v else v - 2 ^ e.length

/-- The cached values that `min` and `max` may answer from. -/
def cachedValues (exhausted : List Ast) (e : Ast) (extra : List Ast) (s : ModelCacheMixin) :
    List Int :=
  if e ∈ s.evalExhausted ∨ e ∈ exhausted then
    (getSolutions E e none extra false s).map fun v => (v.toNat : Int)
  else []

/-- The order of the integers, as one that can be executed. -/
@[reducible] def intOrder : Preorder Int := Int.instLinearOrder.toPartialOrder.toPreorder

attribute [local instance] intOrder

def min (e : Ast) (extra : List Ast) (signed : Bool) (s : ModelCacheMixin) :
    Except Error Int × ModelCacheMixin :=
  match (cachedValues E s.minExhausted e extra s).argmin
      (fun v => if signed then minSignedKey e v else v) with
  | some v => (.ok v, s)
  | none =>
    match FullFrontend.min E.backend (satisfiable E) (eval E) e extra signed s with
    | (.ok k, s) => (.ok k,
        if extra = [] then
          if signed then { s with minSignedExhausted := e :: s.minSignedExhausted }
          else { s with minExhausted := e :: s.minExhausted }
        else s)
    | (.error x, s) => (.error x, s)

def max (e : Ast) (extra : List Ast) (signed : Bool) (s : ModelCacheMixin) :
    Except Error Int × ModelCacheMixin :=
  match (cachedValues E s.maxExhausted e extra s).argmax
      (fun v => if signed then maxSignedKey e v else v) with
  | some v => (.ok v, s)
  | none =>
    match FullFrontend.max E.backend (satisfiable E) (eval E) e extra signed s with
    | (.ok k, s) => (.ok k,
        if extra = [] then
          if signed then { s with maxSignedExhausted := e :: s.maxSignedExhausted }
          else { s with maxExhausted := e :: s.maxExhausted }
        else s)
    | (.error x, s) => (.error x, s)

def solution (e v : Ast) (extra : List Ast) (s : ModelCacheMixin) :
    Except Error Bool × ModelCacheMixin :=
  if (getBatchSolutions E [e, v] none extra true s).any (fun r => r.head? = r.tail.head?) then
    (.ok true, s)
  else FullFrontend.solution E.backend e v extra s

/-! ## Adding constraints -/

/-- The symbol and the constant of a constraint `symbol == constant`. -/
def trivialEquality : Ast → Option (Ast × String × Ast)
  | .node .eq [.node (.BVS x w) [] ann, c] _ =>
    if c.depth = 1 ∧ c.vars = ∅ then some (.node (.BVS x w) [] ann, x, c) else none
  | _ => none

/-- `_trivial_model_optimization` -/
def trivialModelOptimization (s : ModelCacheMixin) : ModelCacheMixin :=
  match s.front.constraints.head?.bind trivialEquality with
  | some (e, x, c) =>
    let v := (c.eval (Model.complete [] true)).toNat
    { s with
      models := Model.insertInto [(x, ⟨v, decide (v ≠ 0)⟩)] s.models
      evalExhausted := e :: s.evalExhausted
      maxExhausted := e :: s.maxExhausted
      minExhausted := e :: s.minExhausted
      maxSignedExhausted := e :: s.maxSignedExhausted
      minSignedExhausted := e :: s.minSignedExhausted }
  | none => s

/-- A first and only constraint may give a model right away. -/
def optimize (s : ModelCacheMixin) : ModelCacheMixin :=
  if s.front.constraints.length = 1 ∧ s.models = [] then trivialModelOptimization s else s

/-- The models that survive the added constraints; the `exhausted` dictionaries only
survive when all models do. -/
def invalidate (constraints added : List Ast) (s : ModelCacheMixin) : ModelCacheMixin :=
  let s := if constraints.any (· = Ast.false_) then { s with models := [] } else s
  let stillValid := getModels E added s
  if stillValid.length ≠ s.models.length then
    { s with
      models := stillValid
      evalExhausted := []
      maxExhausted := []
      minExhausted := []
      maxSignedExhausted := []
      minSignedExhausted := [] }
  else s

def add (constraints : List Ast) (invalidateCache : Bool) (s : ModelCacheMixin) :
    List Ast × ModelCacheMixin :=
  let oldVars := s.front.vars
  let (front, added) := s.front.add constraints
  let s := { s with front := front }
  if added = [] then (added, s)
  else if added.any (fun a => ¬ a.vars ⊆ oldVars) ∨ invalidateCache then
    (added, invalidate E constraints added (optimize s))
  else (added, optimize s)

end ModelCacheMixin
end Claripy
