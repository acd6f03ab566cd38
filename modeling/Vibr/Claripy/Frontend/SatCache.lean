import Vibr.Lib.Runs
import Vibr.Claripy.Frontend.Full
import Vibr.Claripy.Backend.Exhaustive

/-!
# SatCacheMixin

`claripy/frontend/mixin/sat_cache_mixin.py` on top of `FullFrontend`. The mixin
keeps a verdict about the current constraints and updates it from the outcome of
the queries. The verdict stays right in every run in which `solution` is not asked
of an unsatisfiable front-end without a cached verdict and no query asks for zero
solutions.
-/

namespace Claripy

structure SatCacheMixin where
  front : ConstrainedFrontend := {}
  /-- `solve_count` of the back-end -/
  count : Nat := 0
  cachedSatness : Option Bool := none
  cachedUnsatCore : Option (Ast × List Ast) := none

instance : FullState SatCacheMixin where
  constraints s := s.front.constraints
  count := SatCacheMixin.count
  solved s count _ := { s with count := count }

/-- The parts that the mixin calls: the solver, `claripy.simplify`, and
`claripy.is_false`, which only says yes to expressions that are never true. -/
structure SatCacheMixin.Env where
  backend : BackendZ3
  simplifier : Simplifier
  isFalse : Ast → Bool
  isFalse_sound : ∀ c, isFalse c = true → ∀ ρ, ¬ c.holds ρ

namespace SatCacheMixin

variable (E : Env)

/-- The verdict that `_add` reaches on its own: a constraint `false` was added, or a
single constraint that contradicts one of the few there are. -/
def contradiction (front : ConstrainedFrontend) (added : List Ast) :
    Option (Option (Ast × List Ast)) :=
  if added.any (· = Ast.false_) then some none
  else match added with
    | [a] =>
      if front.constraints.length < 5 then
        (front.constraints.find? fun con =>
          E.isFalse (.and [con.clearAnnotations, a.clearAnnotations])).map
            fun con => some (con, added)
      else none
    | _ => none

/-- `_add` -/
def add' (constraints : List Ast) (s : SatCacheMixin) : List Ast × SatCacheMixin :=
  let (front, added) := s.front.add constraints
  match contradiction E front added with
  | some core =>
    (added, { s with
      front := front
      cachedSatness := some false
      cachedUnsatCore := core.or s.cachedUnsatCore })
  | none =>
    (added, { s with
      front := front
      cachedSatness := if s.cachedSatness = some true then none else s.cachedSatness })

/-- `Frontend.add` does nothing for an empty list. -/
def add (constraints : List Ast) (s : SatCacheMixin) : List Ast × SatCacheMixin :=
  if constraints = [] then ([], s) else add' E constraints s

def simplify (s : SatCacheMixin) : List Ast × SatCacheMixin :=
  let front := s.front.simplify E.simplifier
  (front.constraints, { s with
    front := front
    cachedSatness :=
      if front.constraints.any (· = Ast.false_) then some false else s.cachedSatness })

def satisfiable (extra : List Ast) (s : SatCacheMixin) : Except Error Bool × SatCacheMixin :=
  if s.cachedSatness = some false then (.ok false, s)
  else if s.cachedSatness = some true ∧ extra = [] then (.ok true, s)
  else match FullFrontend.satisfiable E.backend extra s with
    | (.ok r, s) => (.ok r, if extra = [] then { s with cachedSatness := some r } else s)
    | (.error x, s) => (.error x, s)

def checkSatisfiability (extra : List Ast) (s : SatCacheMixin) : Except Error CheckResult × SatCacheMixin :=
  if s.cachedSatness = some false then (.ok .UNSAT, s)
  else if s.cachedSatness = some true ∧ extra = [] then (.ok .SAT, s)
  else FullFrontend.checkSatisfiability E.backend extra s

/-- The frame around the five queries that raise `UnsatError`: what the wrapped
front-end returns or raises is taken for a verdict. -/
def guarded {α : Type} (extra : List Ast) (query : SatCacheMixin → Except Error α × SatCacheMixin)
    (s : SatCacheMixin) : Except Error α × SatCacheMixin :=
  if s.cachedSatness = some false then (.error (.UnsatError "cached unsat"), s)
  else match query s with
    | (.ok r, s) => (.ok r, { s with cachedSatness := some true })
    | (.error (.UnsatError message), s) =>
      (.error (.UnsatError message), if extra = [] then { s with cachedSatness := some false } else s)
    | (.error x, s) => (.error x, s)

def eval (e : Ast) (n : Nat) (extra : List Ast) :
    SatCacheMixin → Except Error (List Value) × SatCacheMixin :=
  guarded extra (FullFrontend.eval E.backend e n extra)

def batchEval (exprs : List Ast) (n : Nat) (extra : List Ast) :
    SatCacheMixin → Except Error (List (List Value)) × SatCacheMixin :=
  guarded extra (FullFrontend.batchEval E.backend exprs n extra)

def max (e : Ast) (extra : List Ast) (signed : Bool) : SatCacheMixin → Except Error Int × SatCacheMixin :=
  guarded extra (FullFrontend.max E.backend (satisfiable E) (eval E) e extra signed)

def min (e : Ast) (extra : List Ast) (signed : Bool) : SatCacheMixin → Except Error Int × SatCacheMixin :=
  guarded extra (FullFrontend.min E.backend (satisfiable E) (eval E) e extra signed)

def solution (e v : Ast) (extra : List Ast) : SatCacheMixin → Except Error Bool × SatCacheMixin :=
  guarded extra (FullFrontend.solution E.backend e v extra)

/-! ## Runs -/

inductive Call where
  | add (constraints : List Ast)
  | simplify
  | satisfiable (extra : List Ast)
  | checkSatisfiability (extra : List Ast)
  | eval (e : Ast) (n : Nat) (extra : List Ast)
  | batchEval (exprs : List Ast) (n : Nat) (extra : List Ast)
  | max (e : Ast) (extra : List Ast) (signed : Bool)
  | min (e : Ast) (extra : List Ast) (signed : Bool)
  | solution (e v : Ast) (extra : List Ast)
  | isTrue (e : Ast) (extra : List Ast)
  | isFalse (e : Ast) (extra : List Ast)

/-- The state after a call. `is_true` and `is_false` are not overridden by the mixin
and only look at the expression. -/
def step (s : SatCacheMixin) : Call → SatCacheMixin
  | .add constraints => (add E constraints s).2
  | .simplify => (simplify E s).2
  | .satisfiable extra => (satisfiable E extra s).2
  | .checkSatisfiability extra => (checkSatisfiability E extra s).2
  | .eval e n extra => (eval E e n extra s).2
  | .batchEval exprs n extra => (batchEval E exprs n extra s).2
  | .max e extra signed => (max E e extra signed s).2
  | .min e extra signed => (min E e extra signed s).2
  | .solution e v extra => (solution E e v extra s).2
  | .isTrue _ _ | .isFalse _ _ => s

/-- The cached verdict is right about the current constraints. -/
structure Sound (s : SatCacheMixin) : Prop where
  sat : s.cachedSatness = some true → Satisfiable s.front.constraints
  unsat : s.cachedSatness = some false → ¬ Satisfiable s.front.constraints

/-- The calls after which the verdict can be trusted: `solution` wants a cached
"unsatisfiable" or satisfiable constraints, and a query for zero solutions wants
extra constraints or unsatisfiable ones. -/
def Admissible (s : SatCacheMixin) : Call → Prop
  | .solution _ _ _ => s.cachedSatness = some false ∨ Satisfiable s.front.constraints
  | .eval _ n extra | .batchEval _ n extra =>
    0 < n ∨ extra ≠ [] ∨ ¬ Satisfiable s.front.constraints
  | _ => True

structure Inv (s : SatCacheMixin) : Prop extends Sound s where
  valid : s.front.Valid

variable {E} {s : SatCacheMixin}

theorem contradiction_sound {front : ConstrainedFrontend} {added : List Ast}
    {core : Option (Ast × List Ast)} (hsub : ∀ a ∈ added, a ∈ front.constraints)
    (h : contradiction E front added = some core) : ¬ Satisfiable front.constraints := by
  unfold contradiction at h
  split at h
  · rename_i hany
    obtain ⟨c, hc, hfalse⟩ := List.any_eq_true.mp hany
    obtain rfl : c = Ast.false_ := by simpa using hfalse
    exact not_satisfiable_of_false_mem (hsub _ hc)
  split at h
  · rename_i a _
    split at h
    · obtain ⟨con, hcon, _⟩ := Option.map_eq_some_iff.mp h
      rintro ⟨ρ, hρ⟩
      have hfalse := List.find?_some hcon
      refine E.isFalse_sound _ hfalse ρ ?_
      simp only [Ast.holds_and, sat_cons, sat_nil, and_true, Ast.holds_clearAnnotations]
      exact ⟨hρ _ (List.mem_of_find?_eq_some hcon), hρ _ (hsub a (by simp))⟩
    · cases h
  · cases h

theorem Inv.add (h : Inv s) (constraints : List Ast) : Inv (add E constraints s).2 := by
  have hvalid : (s.front.add constraints).1.Valid := h.valid.add
  have hsub : ∀ a ∈ (s.front.add constraints).2, a ∈ (s.front.add constraints).1.constraints := by
    intro a ha
    rw [ConstrainedFrontend.add_constraints]
    exact List.mem_append_right _ ha
  unfold SatCacheMixin.add
  split
  · exact h
  unfold SatCacheMixin.add'
  dsimp only
  split
  · rename_i core hcon
    exact ⟨⟨by simp, fun _ => contradiction_sound hsub hcon⟩, hvalid⟩
  refine ⟨⟨?_, ?_⟩, hvalid⟩ <;> dsimp only <;> split
  · simp
  · rename_i hne; exact fun he => absurd he hne
  · simp
  · exact fun he hsat => h.unsat he (ConstrainedFrontend.satisfiable_of_add hsat)

theorem Inv.simplify (h : Inv s) : Inv (simplify E s).2 := by
  have hiff : Satisfiable (s.front.simplify E.simplifier).constraints ↔
      Satisfiable s.front.constraints :=
    exists_congr fun ρ => ConstrainedFrontend.sat_simplify E.simplifier
  unfold SatCacheMixin.simplify
  refine ⟨⟨?_, ?_⟩, h.valid.simplify _⟩ <;> dsimp only <;> split
  · simp
  · exact fun he => hiff.mpr (h.sat he)
  · rename_i hany
    obtain ⟨c, hc, hfalse⟩ := List.any_eq_true.mp hany
    obtain rfl : c = Ast.false_ := by simpa using hfalse
    exact fun _ => not_satisfiable_of_false_mem hc
  · exact fun he hsat => h.unsat he (hiff.mp hsat)

/-- The two verdicts that a query can leave behind. -/
theorem Inv.verdict (h : Inv s) {r : Bool} (hr : r = true ↔ Satisfiable s.front.constraints)
    (count : Nat) : Inv { s with count := count, cachedSatness := some r } := by
  refine ⟨⟨fun he => hr.mp (by simpa using he), fun he hsat => ?_⟩, h.valid⟩
  have := hr.mpr hsat
  simp_all

theorem Inv.count (h : Inv s) (count : Nat) : Inv { s with count := count } :=
  ⟨⟨h.sat, h.unsat⟩, h.valid⟩

/-- `satisfiable` answers as the uncached solver does, and leaves the constraints alone. -/
theorem satisfiable_spec (hB : E.backend.Exact) (h : Inv s) (extra : List Ast) :
    ∃ r, (satisfiable E extra s).1 = .ok r ∧
      (r = true ↔ Satisfiable (s.front.constraints ++ extra)) ∧
      Inv (satisfiable E extra s).2 ∧ (satisfiable E extra s).2.front = s.front := by
  unfold satisfiable
  split
  · rename_i hc
    exact ⟨false, rfl, by simpa using mt Satisfiable.of_append_left (h.unsat hc), h, rfl⟩
  split
  · rename_i hc
    exact ⟨true, rfl, by simpa [hc.2] using h.sat hc.1, h, rfl⟩
  have hval := BackendZ3.satisfiable_value hB s.count s.front.constraints extra
  refine ⟨_, rfl, hval, ?_, ?_⟩
  · dsimp only [FullFrontend.satisfiable, FullFrontend.finish]
    split
    · rename_i he
      subst he
      rw [List.append_nil] at hval
      exact h.verdict hval _
    · exact h.count _
  · dsimp only [FullFrontend.satisfiable, FullFrontend.finish]
    split <;> rfl

theorem Inv.checkSatisfiability (h : Inv s) (extra : List Ast) :
    Inv (checkSatisfiability E extra s).2 := by
  unfold SatCacheMixin.checkSatisfiability
  split
  · exact h
  split
  · exact h
  unfold FullFrontend.checkSatisfiability
  split
  · exact h.count _
  · exact h.count _

/-- What a query must tell for its frame to be right: success only on satisfiable
constraints, `UnsatError` without extra constraints only on unsatisfiable ones. -/
structure Informative {α : Type} (extra : List Ast) (s : SatCacheMixin) (r : Except Error α × SatCacheMixin) :
    Prop where
  inv : Inv r.2
  front : r.2.front = s.front
  ok : ∀ a, r.1 = .ok a → Satisfiable s.front.constraints
  error : ∀ message, r.1 = .error (.UnsatError message) → extra = [] →
    ¬ Satisfiable s.front.constraints

variable {extra : List Ast}

theorem Inv.guarded {α : Type} {query : SatCacheMixin → Except Error α × SatCacheMixin} (h : Inv s)
    (hq : s.cachedSatness ≠ some false → Informative extra s (query s)) :
    Informative extra s (guarded extra query s) := by
  unfold SatCacheMixin.guarded
  split
  · rename_i hc
    exact ⟨h, rfl, by simp, fun _ _ _ => h.unsat hc⟩
  rename_i hc
  obtain ⟨hinv, hfront, hok, herr⟩ := hq hc
  split
  · rename_i a s' heq
    simp only [heq] at hinv hfront hok herr
    have hsat : Satisfiable s'.front.constraints := hfront ▸ hok a rfl
    exact ⟨hinv.verdict (by simpa using hsat) s'.count, hfront, fun _ _ => hok a rfl, by simp⟩
  · rename_i message s' heq
    simp only [heq] at hinv hfront hok herr
    refine ⟨?_, ?_, by simp, fun m _ he => herr message rfl he⟩
    · dsimp only
      split
      · rename_i he
        have hun : ¬ Satisfiable s'.front.constraints := hfront ▸ herr message rfl he
        exact hinv.verdict (by simpa using hun) s'.count
      · exact hinv
    · dsimp only
      split <;> exact hfront
  · rename_i x s' hx heq
    simp only [heq] at hinv hfront hok herr
    exact ⟨hinv, hfront, by simp, fun m hm => herr m hm⟩

theorem guarded_ok {α : Type} {query : SatCacheMixin → Except Error α × SatCacheMixin} {a : α}
    (h : (guarded extra query s).1 = .ok a) : (query s).1 = .ok a := by
  unfold guarded at h
  split at h
  · cases h
  · split at h <;> simp_all

theorem batchEval_informative {exprs extra : List Ast} {n : Nat} {β : Type} (hB : E.backend.Exact)
    (h : Inv s) (hn : 0 < n ∨ extra ≠ [] ∨ ¬ Satisfiable s.front.constraints)
    (g : List (List Value) → β) :
    Informative extra s (FullFrontend.finish s
      (E.backend.batchEval exprs extra n s.count s.front.constraints)
      fun rs => if rs = [] then .error (.UnsatError "unsat") else .ok (g rs)) := by
  refine ⟨h.count _, rfl, fun a ha => ?_, fun message ha he => ?_⟩
  · dsimp only [FullFrontend.finish] at ha
    split at ha
    · cases ha
    rename_i hne
    obtain ⟨r, hr⟩ := List.exists_mem_of_ne_nil _ hne
    obtain ⟨ρ, hρ, _⟩ := (BackendZ3.batchEval_enumerates hB _ _ _ _ _).sound r hr
    exact ⟨ρ, (sat_append.mp hρ).1⟩
  rcases hn with hn | hn | hn
  · dsimp only [FullFrontend.finish] at ha
    split at ha
    · rename_i hnil
      simpa [he] using (FullFrontend.batchEval_eq_nil hB hn).mp hnil
    · cases ha
  · exact absurd he hn
  · exact hn

theorem eval_informative {e : Ast} (extra : List Ast) {n : Nat} (hB : E.backend.Exact) (h : Inv s)
    (hn : 0 < n ∨ extra ≠ [] ∨ ¬ Satisfiable s.front.constraints) :
    Informative extra s (eval E e n extra s) :=
  h.guarded fun _ => batchEval_informative hB h hn _

theorem extremum_informative {e : Ast} {isMax signed : Bool} {messages : String × String} (hB : E.backend.Exact)
    (h : Inv s) :
    Informative extra s (FullFrontend.extremum E.backend (satisfiable E) (eval E) isMax messages
      e extra signed s) := by
  obtain ⟨r, hr, hiff, hinv₁, hfront₁⟩ := satisfiable_spec hB h extra
  unfold FullFrontend.extremum
  rw [show satisfiable E extra s = (.ok r, (satisfiable E extra s).2) by rw [← hr]]
  generalize (satisfiable E extra s).2 = s₁ at hinv₁ hfront₁
  cases r with
  | false =>
    have hun : ¬ Satisfiable (s.front.constraints ++ extra) := by simpa using hiff
    exact ⟨hinv₁, hfront₁, by simp, fun _ _ he => by simpa [he] using hun⟩
  | true =>
    have hsat : Satisfiable s.front.constraints := (hiff.mp rfl).of_append_left
    obtain ⟨hinv₂, hfront₂, -, herr₂⟩ := eval_informative (e := e) (n := 2) extra hB
      hinv₁ (.inl (by simp))
    generalize hev : eval E e 2 extra s₁ = r₂ at hinv₂ hfront₂ herr₂
    obtain ⟨v, s₂⟩ := r₂
    have hfront : s₂.front = s.front := hfront₂.trans hfront₁
    simp only [hev]
    rcases v with x | _ | ⟨v₀, _ | ⟨v₁, vs⟩⟩
    · exact ⟨hinv₂, hfront, by simp, fun m hm he => hfront₁ ▸ herr₂ m (by simpa using hm) he⟩
    · exact absurd rfl (FullFrontend.eval_ne_nil (guarded_ok (by rw [← eval, hev])))
    · exact ⟨hinv₂, hfront, fun _ _ => hsat, by simp⟩
    · exact ⟨hinv₂.count _, hfront, fun _ _ => hsat, by simp [FullFrontend.finish]⟩

theorem Inv.solution (h : Inv s) (e v : Ast) (extra : List Ast)
    (hok : s.cachedSatness = some false ∨ Satisfiable s.front.constraints) :
    Inv (solution E e v extra s).2 := by
  refine (h.guarded fun hc => ?_).inv
  have hsat := hok.resolve_left hc
  exact ⟨h.count _, rfl, fun _ _ => hsat, by simp [FullFrontend.solution, FullFrontend.finish]⟩

theorem step_inv (hB : E.backend.Exact) (c : Call) (h : Inv s) (hok : Admissible s c) :
    Inv (step E s c) := by
  cases c with
  | add constraints => exact h.add constraints
  | simplify => exact h.simplify
  | satisfiable extra =>
    obtain ⟨_, -, -, hinv, -⟩ := satisfiable_spec hB h extra
    exact hinv
  | checkSatisfiability extra => exact h.checkSatisfiability extra
  | eval e n extra => exact (eval_informative extra hB h hok).inv
  | batchEval exprs n extra => exact (h.guarded fun _ => batchEval_informative hB h hok id).inv
  | max e extra signed => exact (h.guarded fun _ => extremum_informative hB h).inv
  | min e extra signed => exact (h.guarded fun _ => extremum_informative hB h).inv
  | solution e v extra => exact h.solution e v extra hok
  | isTrue => exact h
  | isFalse => exact h

theorem reach_inv (hB : E.backend.Exact) (h : Runs.Reach (step E) Admissible {} s) : Inv s :=
  h.invariant Inv ⟨⟨by simp, by simp⟩, ConstrainedFrontend.valid_blank⟩
    fun _ c hs hok => step_inv hB c hs hok

/-- In every run of admissible calls the cached verdict is right, and `satisfiable`
answers as an uncached solver does. -/
theorem cachedSatness_exact (hB : E.backend.Exact) (h : Runs.Reach (step E) Admissible {} s) :
    Sound s ∧ ∀ extra, (satisfiable E extra s).1 = .ok true ∧ Satisfiable (s.front.constraints ++ extra) ∨
      (satisfiable E extra s).1 = .ok false ∧ ¬ Satisfiable (s.front.constraints ++ extra) := by
  have hinv := reach_inv hB h
  refine ⟨hinv.toSound, fun extra => ?_⟩
  obtain ⟨r, hr, hiff, -, -⟩ := satisfiable_spec hB hinv extra
  cases r with
  | true => exact .inl ⟨hr, hiff.mp rfl⟩
  | false => exact .inr ⟨hr, by simpa using hiff⟩

/-- The exhaustive solver, no simplification, and an `is_false` that knows the constant. -/
def exampleEnv : Env where
  backend := .exhaustive
  simplifier := ⟨id, fun _ _ => rfl, fun _ => subset_rfl⟩
  isFalse c := c = Ast.false_
  isFalse_sound c hc ρ := by
    obtain rfl : c = Ast.false_ := by simpa using hc
    exact Ast.not_holds_false ρ

def x : Ast := .node (.BVS "x" 2) [] []
def equals (k : Nat) : Ast := .eq x (.node (.BVV k 2) [] [])

theorem cachedSatness_exact_example :
    let s := step exampleEnv (step exampleEnv {} (.add [equals 1])) (.eval x 3 [])
    Sound s ∧ s.cachedSatness = some true := by
  intro s
  have hrun : Runs.Reach (step exampleEnv) Admissible {} s :=
    .tail (i := Call.eval x 3 []) (.tail (i := Call.add [equals 1]) .refl trivial) (Or.inl (by decide))
  exact ⟨(cachedSatness_exact BackendZ3.exhaustive_exact hrun).1, by decide⟩

/-- `add(x == 1, x == 2)` leaves the verdict open; `solution(x, 1)` answers `False` and
still records "satisfiable", which `satisfiable()` then repeats. -/
theorem solution_poisons_cache :
    let s := step exampleEnv (step exampleEnv {} (.add [equals 1, equals 2]))
      (.solution x (.node (.BVV 1 2) [] []) [])
    Runs.Reach (step exampleEnv) (fun _ _ => True) {} s ∧ s.cachedSatness = some true ∧
      ¬ Satisfiable s.front.constraints ∧ (satisfiable exampleEnv [] s).1 = .ok true := by
  refine ⟨(Runs.Reach.refl.tail trivial).tail trivial, by decide, ?_, by decide⟩
  rintro ⟨ρ, hρ⟩
  have h1 : (equals 1).holds ρ := hρ _ (by decide)
  have h2 : (equals 2).holds ρ := hρ _ (by decide)
  simp only [equals, Ast.holds_eq] at h1 h2
  have := h1.symm.trans h2
  simp [Ast.eval, Assignment.leaf, Op.apply] at this

end SatCacheMixin
end Claripy
