import Vibr.Claripy.Backend.Exhaustive

/-!
# The solver object

A Z3 solver keeps a stack of assertions. `check` takes further assumptions, which it does not assert, and leaves a model
behind when they can be satisfied; `_extrema` is a sequence of such calls. It is followed here call by call, with the list of
constraints that it changes, and compared with the search over constraint sets.
-/

namespace Claripy.BackendZ3

/-- The state of a solver and of the back-end: the assertion stack, its newest level first, the model of the last check,
how many checks there were, the solves that the back-end counts, and the models that were handed to the callback. -/
structure Session where
  stack : List (List Ast)
  model : Option Model := none
  checks : Nat := 0
  solveCount : Nat := 0
  handed : List Model := []

namespace Session

def push (s : Session) : Session := { s with stack := [] :: s.stack }

def pop (s : Session) : Session := { s with stack := s.stack.tail }

def add (s : Session) (cs : List Ast) : Session :=
  match s.stack with
  | [] => { s with stack := [cs] }
  | level :: levels => { s with stack := (level ++ cs) :: levels }

/-- What is asserted, oldest first. -/
def assertions (s : Session) : List Ast := s.stack.reverse.flatten

/-- `z3_solver_sat`, on a solver that does not give up. -/
def check (B : BackendZ3) (s : Session) (assumptions : List Ast) : Bool × Session :=
  match B.check s.checks (s.assertions ++ assumptions) with
  | some m => (true, { s with model := some m, checks := s.checks + 1 })
  | none => (false, { s with model := none, checks := s.checks + 1 })

/-- The model of the last check, to the callback if there is one. -/
def callback (s : Session) (callback : Bool) : Session :=
  if callback then { s with handed := s.handed ++ s.model.toList } else s

end Session

variable (B : BackendZ3)

/-- The loop of `_extrema`; `constraints` is the list to which the window is appended for one check. -/
def extremaSearch (isMax signed : Bool) (expr : Ast) (constraints : List Ast) (modelCallback : Bool) (lo hi : Int)
    (s : Session) : (Int × Int) × Session :=
  if hi - lo > 1 then
    let middle := (lo + hi) / 2
    let window := if isMax then Ast.and [GE signed expr middle, LE signed expr hi]
      else Ast.and [GE signed expr lo, LE signed expr middle]
    let s := { s with solveCount := s.solveCount + 1 }
    let (sat, s) := s.check B (constraints ++ [window])
    let s := if sat then s.callback modelCallback else s
    if sat = isMax then extremaSearch isMax signed expr constraints modelCallback middle hi s
    else extremaSearch isMax signed expr constraints modelCallback lo middle s
  else ((lo, hi), s)
termination_by (hi - lo).toNat

/-- `_extrema` -/
def extremaSession (isMax signed : Bool) (expr : Ast) (extraConstraints : List Ast) (modelCallback : Bool)
    (s : Session) : Int × Session :=
  let ((lo, hi), s) := extremaSearch B isMax signed expr extraConstraints modelCallback
    (loBound signed expr.length) (hiBound signed expr.length) s
  let (sat, s) := s.check B (extraConstraints ++ [.eq expr (intLit expr (if isMax then hi else lo))])
  let s := if sat then s.callback modelCallback else s
  (if sat = isMax then hi else lo, s)

/-! ## Calls to the solver -/

variable {B} {s : Session} {e : Ast} {isMax signed modelCallback : Bool} {cs assumptions : List Ast} {lo hi : Int}
  {m : Model}

theorem Session.check_sat (h : B.check s.checks (s.assertions ++ assumptions) = some m) :
    s.check B assumptions = (true, { s with model := some m, checks := s.checks + 1 }) := by
  unfold Session.check
  rw [h]

theorem Session.check_unsat (h : B.check s.checks (s.assertions ++ assumptions) = none) :
    s.check B assumptions = (false, { s with model := none, checks := s.checks + 1 }) := by
  unfold Session.check
  rw [h]

/-- A session has come from one to another by checks, in which the models were found. -/
structure Runs (modelCallback : Bool) (s s' : Session) (checks : Nat) (models : List Model) : Prop where
  stack : s'.stack = s.stack
  checks : s'.checks = checks
  handed : s'.handed = s.handed ++ if modelCallback then models else []

theorem Runs.assertions {s' : Session} {checks : Nat} {models : List Model}
    (h : Runs modelCallback s s' checks models) : s'.assertions = s.assertions := by
  unfold Session.assertions
  rw [h.stack]

theorem Runs.refl (s : Session) : Runs modelCallback s s s.checks [] := by
  refine ⟨rfl, rfl, ?_⟩
  cases modelCallback <;> exact (List.append_nil _).symm

theorem Runs.trans {s' s'' : Session} {n n' : Nat} {models models' : List Model}
    (h : Runs modelCallback s s' n models) (h' : Runs modelCallback s' s'' n' models') :
    Runs modelCallback s s'' n' (models ++ models') where
  stack := h'.stack.trans h.stack
  checks := h'.checks
  handed := by
    rw [h'.handed, h.handed, List.append_assoc]
    cases modelCallback <;> rfl

/-- A check whose assumptions are satisfied hands its model over, and one whose assumptions are not hands over none. -/
theorem check_runs (modelCallback : Bool) (s : Session) (assumptions : List Ast) :
    let r := s.check B assumptions
    (r.1 = (B.check s.checks (s.assertions ++ assumptions)).isSome) ∧
      Runs modelCallback s (if r.1 then r.2.callback modelCallback else r.2) (s.checks + 1)
        (B.check s.checks (s.assertions ++ assumptions)).toList := by
  cases hc : B.check s.checks (s.assertions ++ assumptions) with
  | some m =>
    rw [Session.check_sat hc]
    refine ⟨rfl, ?_⟩
    cases modelCallback with
    | true => exact ⟨rfl, rfl, rfl⟩
    | false => exact ⟨rfl, rfl, (List.append_nil _).symm⟩
  | none =>
    rw [Session.check_unsat hc]
    refine ⟨rfl, rfl, rfl, ?_⟩
    cases modelCallback <;> exact (List.append_nil _).symm

/-! ## The search -/

/-- The window of a round of the search. -/
def roundWindow (isMax signed : Bool) (e : Ast) (lo hi : Int) : Ast :=
  if isMax then Ast.and [GE signed e ((lo + hi) / 2), LE signed e hi]
  else Ast.and [GE signed e lo, LE signed e ((lo + hi) / 2)]

/-- The bounds after a round of the search. -/
def roundBounds (isMax sat : Bool) (lo hi : Int) : Int × Int :=
  if sat = isMax then ((lo + hi) / 2, hi) else (lo, (lo + hi) / 2)

theorem extremaSearch_done (hle : ¬ hi - lo > 1) (s : Session) :
    extremaSearch B isMax signed e cs modelCallback lo hi s = ((lo, hi), s) := by
  rw [extremaSearch, if_neg hle]

theorem extremaSearch_step (hgt : hi - lo > 1) (s : Session) :
    let r := Session.check B { s with solveCount := s.solveCount + 1 } (cs ++ [roundWindow isMax signed e lo hi])
    extremaSearch B isMax signed e cs modelCallback lo hi s =
      extremaSearch B isMax signed e cs modelCallback (roundBounds isMax r.1 lo hi).1 (roundBounds isMax r.1 lo hi).2
        (if r.1 then r.2.callback modelCallback else r.2) := by
  intro r
  rw [extremaSearch, if_pos hgt]
  show (if r.1 = isMax then _ else _) = _
  unfold roundBounds
  split <;> rfl

theorem extremaLoop_step {fuel t : Nat} (hgt : hi - lo > 1) :
    let found := B.check t (cs ++ [roundWindow isMax signed e lo hi])
    let bounds := roundBounds isMax found.isSome lo hi
    let rest := B.extremaLoop isMax signed e cs fuel (t + 1) bounds.1 bounds.2
    B.extremaLoop isMax signed e cs (fuel + 1) t lo hi = { rest with models := found.toList ++ rest.models } := by
  intro found bounds rest
  rw [extremaLoop, if_pos hgt]
  have hfound : B.check t (cs ++ [roundWindow isMax signed e lo hi]) = found := rfl
  unfold roundWindow at hfound
  dsimp only
  rw [hfound]
  unfold rest bounds
  cases found <;> cases isMax <;> rfl

theorem roundBounds_le {fuel : Nat} {sat : Bool} (hfuel : hi - lo ≤ 2 ^ (fuel + 1)) :
    (roundBounds isMax sat lo hi).2 - (roundBounds isMax sat lo hi).1 ≤ 2 ^ fuel := by
  unfold roundBounds
  split <;> dsimp only <;> omega

/-- The calls to the solver find the window that the search over constraint sets finds, and keep the stack. -/
theorem extremaSearch_eq (isMax signed modelCallback : Bool) (e : Ast) (cs : List Ast) {fuel : Nat} (hfuel : hi - lo ≤ 2 ^ fuel) (s : Session) :
    let r := extremaSearch B isMax signed e cs modelCallback lo hi s
    let a := B.extremaLoop isMax signed e (s.assertions ++ cs) fuel s.checks lo hi
    r.1 = a.value ∧ Runs modelCallback s r.2 a.count a.models := by
  induction fuel generalizing lo hi s with
  | zero =>
    intro r a
    have hle : ¬ hi - lo > 1 := by simpa using hfuel
    unfold r
    rw [extremaSearch_done hle]
    exact ⟨rfl, Runs.refl s⟩
  | succ fuel ih =>
    intro r a
    by_cases hgt : hi - lo > 1
    · unfold r a
      rw [extremaSearch_step hgt, extremaLoop_step hgt, List.append_assoc]
      have hbegin : Runs modelCallback s { s with solveCount := s.solveCount + 1 } s.checks [] :=
        ⟨rfl, rfl, (Runs.refl s).handed⟩
      obtain ⟨hsat, hcheck⟩ := check_runs (B := B) modelCallback { s with solveCount := s.solveCount + 1 }
        (cs ++ [roundWindow isMax signed e lo hi])
      have hround := hbegin.trans hcheck
      rw [hsat]
      rw [hsat] at hround
      -- the state after the check
      generalize (if (B.check _ _).isSome = true then _ else _ : Session) = s' at hround ⊢
      obtain ⟨hvalue, hrest⟩ := ih (roundBounds_le hfuel) s'
      rw [hround.assertions, hround.checks] at hvalue hrest
      exact ⟨hvalue, hround.trans hrest⟩
    · unfold r a
      rw [extremaSearch_done hgt, extremaLoop, if_neg hgt]
      exact ⟨rfl, Runs.refl s⟩

theorem extrema_eq (isMax signed : Bool) (t : Nat) (e : Ast) (cs extra : List Ast) :
    let window := B.extremaLoop isMax signed e (cs ++ extra) e.length t (loBound signed e.length) (hiBound signed e.length)
    let found := B.check window.count
      (cs ++ extra ++ [.eq e (intLit e (if isMax then window.value.2 else window.value.1))])
    B.extrema isMax signed t e cs extra = ⟨if found.isSome = isMax then window.value.2 else window.value.1,
      window.models ++ found.toList, window.count + 1⟩ := by
  intro window found
  unfold extrema
  dsimp only
  have hfound : B.check window.count
      (cs ++ extra ++ [.eq e (intLit e (if isMax then window.value.2 else window.value.1))]) = found := rfl
  rw [hfound]
  cases found with
  | some m => cases isMax <;> rfl
  | none =>
    rw [Option.toList_none, List.append_nil]
    cases isMax <;> rfl

/-- The calls to the solver return what the search over constraint sets returns, and keep the stack. -/
theorem extremaSession_eq (isMax signed modelCallback : Bool) (cs : List Ast) (s : Session) (he : 0 < e.length) :
    let r := extremaSession B isMax signed e cs modelCallback s
    let a := B.extrema isMax signed s.checks e s.assertions cs
    r.1 = a.value ∧ Runs modelCallback s r.2 a.count a.models := by
  intro r a
  obtain ⟨hvalue, hruns⟩ := extremaSearch_eq (B := B) isMax signed modelCallback e cs (bounds_width e.length he) s
  unfold r a
  rw [extrema_eq, ← hvalue]
  have hsession : extremaSession B isMax signed e cs modelCallback s =
      let search := extremaSearch B isMax signed e cs modelCallback (loBound signed e.length) (hiBound signed e.length) s
      let last := search.2.check B (cs ++ [.eq e (intLit e (if isMax then search.1.2 else search.1.1))])
      (if last.1 = isMax then search.1.2 else search.1.1, if last.1 then last.2.callback modelCallback else last.2) := rfl
  rw [hsession]
  generalize extremaSearch B isMax signed e cs modelCallback (loBound signed e.length) (hiBound signed e.length) s = search
    at hruns ⊢
  obtain ⟨hsat, hcheck⟩ := check_runs (B := B) modelCallback search.2
    (cs ++ [.eq e (intLit e (if isMax then search.1.2 else search.1.1))])
  rw [hruns.assertions, hruns.checks] at hsat hcheck
  dsimp only
  rw [List.append_assoc, hsat]
  rw [hsat] at hcheck
  exact ⟨rfl, hruns.trans hcheck⟩

/-- The search returns the extremum of the expression over what is asserted and the extra constraints, and leaves the
assertion stack as it was. -/
theorem extrema_exact (hB : B.Exact) (he : e.IsBV) (s : Session) (hsat : Satisfiable (s.assertions ++ cs)) :
    IsExtremum isMax signed e (s.assertions ++ cs) (extremaSession B isMax signed e cs modelCallback s).1 ∧
      (extremaSession B isMax signed e cs modelCallback s).2.stack = s.stack := by
  obtain ⟨hvalue, hruns⟩ := extremaSession_eq (B := B) isMax signed modelCallback cs s he.length_pos
  rw [hvalue]
  exact ⟨(extrema_spec hB he isMax signed s.checks hsat).1, hruns.stack⟩

/-- The least signed value of a symbol of two bits that is not zero. -/
theorem extrema_exact_example :
    let x := Ast.node (.BVS "x" 2) [] []
    let s : Session := { stack := [[.ne x (.node (.BVV 0 2) [] [])]] }
    exhaustive.Exact ∧ x.IsBV ∧ Satisfiable (s.assertions ++ []) ∧
      IsExtremum false true x (s.assertions ++ []) (extremaSession exhaustive false true x [] true s).1 ∧
      (extremaSession exhaustive false true x [] true s).2.stack = s.stack := by
  intro x s
  have hx : x.IsBV := ⟨by decide, fun ρ => ⟨_, rfl⟩⟩
  have hsat : Satisfiable (s.assertions ++ []) := ⟨⟨fun _ => 1, fun _ => false⟩, by decide⟩
  exact ⟨exhaustive_exact, hx, hsat, extrema_exact exhaustive_exact hx s hsat⟩

end Claripy.BackendZ3
