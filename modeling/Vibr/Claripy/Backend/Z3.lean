import Vibr.Claripy.Constraints

/-!
# The Z3 back-end

`claripy/backends/backend_z3.py` drives an external solver through one call,
`solver.check`, followed by `solver.model()`. That call is the oracle `check`
here; everything built on it (`satisfiable`, `batchEval`, `extrema`, `solution`)
follows the source. Every solve counts up `solve_count`, which the oracle sees:
the same question may be answered by another model the next time.

The models that the source hands to `model_callback` are returned in order.
-/

namespace Claripy

structure BackendZ3 where
  check : Nat → List Ast → Option Model

/-- What a call leaves behind: its value, the models handed to the callback, and
the new `solve_count`. -/
structure Answer (α : Type) where
  value : α
  models : List Model
  count : Nat

/-- A model that the solver found for `cs`: however the variables it leaves open
are chosen, `cs` is satisfied. -/
def ModelOf (cs : List Ast) (m : Model) : Prop := ∀ ρ, m.Fits ρ → Sat cs ρ

variable {cs : List Ast} {m : Model}

theorem ModelOf.sat_complete (h : ModelOf cs m) (d : Bool) : Sat cs (m.complete d) :=
  h _ (m.fits_complete d)

theorem ModelOf.sat (h : ModelOf cs m) : Sat cs (m.complete false) :=
  h.sat_complete false

variable {cs ds : List Ast}

theorem ModelOf.mono (h : ModelOf cs m) (hsub : ∀ d ∈ ds, d ∈ cs) : ModelOf ds m :=
  fun ρ hρ => (h ρ hρ).mono hsub

namespace BackendZ3

/-- The solver decides every constraint set. The constants that a model of its
does not interpret are don't-cares: any value does for them. -/
structure Exact (B : BackendZ3) : Prop where
  sound : ∀ {t cs m}, B.check t cs = some m → ModelOf cs m
  complete : ∀ {t cs}, B.check t cs = none → ¬ Satisfiable cs

/-- The models interpret every constant of the formulas. -/
def Total (B : BackendZ3) : Prop := ∀ {t cs m}, B.check t cs = some m → varsOf cs ⊆ Dict.keys m

/-- A model that a solve of the constraints `cs`, maybe with others, handed over. -/
def Checked (B : BackendZ3) (cs : List Ast) (m : Model) : Prop :=
  ∃ t ds, B.check t ds = some m ∧ ∀ c ∈ cs, c ∈ ds

variable {B : BackendZ3}

theorem Checked.mono (h : B.Checked cs m) (hsub : ∀ d ∈ ds, d ∈ cs) : B.Checked ds m := by
  obtain ⟨t, es, hm, hes⟩ := h
  exact ⟨t, es, hm, fun d hd => hes d (hsub d hd)⟩

theorem Checked.of_append_left (h : B.Checked (cs ++ ds) m) : B.Checked cs m :=
  h.mono fun _ hd => List.mem_append_left _ hd

theorem Checked.modelOf (h : B.Checked cs m) (hB : B.Exact) : ModelOf cs m := by
  obtain ⟨t, ds, hm, hsub⟩ := h
  exact (hB.sound hm).mono hsub

theorem Checked.total (h : B.Checked cs m) (hB : B.Total) : varsOf cs ⊆ Dict.keys m := by
  obtain ⟨t, ds, hm, hsub⟩ := h
  intro x hx
  obtain ⟨c, hc, hxc⟩ := mem_varsOf.mp hx
  exact hB hm (mem_varsOf.mpr ⟨c, hsub c hc, hxc⟩)

variable (B : BackendZ3)

def satisfiable (t : Nat) (cs extra : List Ast) : Answer Bool :=
  match B.check t (cs ++ extra) with
  | some m => ⟨true, [m], t + 1⟩
  | none => ⟨false, [], t + 1⟩

/-- The constraint that keeps the solver from returning the solution `r` again. -/
def exclude (exprs : List Ast) (r : List Value) : Ast :=
  match exprs, r with
  | [e], [v] => .ne e v.lit
  | _, _ => .not (.and (List.zipWith (fun e v => .eq e v.lit) exprs r))

@[grind =] def batchEval (exprs extra : List Ast) : Nat → Nat → List Ast → Answer (List (List Value))
  | 0, t, _ => ⟨[], [], t⟩
  | n + 1, t, cs =>
    match B.check t (cs ++ extra) with
    | none => ⟨[], [], t + 1⟩
    | some m =>
      let r := exprs.map (Ast.eval (m.complete false))
      let rest := batchEval exprs extra n (t + 1) (cs ++ [exclude exprs r])
      ⟨r :: rest.value, m :: rest.models, rest.count⟩

/-- A Python integer as a constant of the expression's length. -/
def intLit (e : Ast) (k : Int) : Ast := .node (.BVV (BitVec.ofInt e.length k).toNat e.length) [] []

def GE (signed : Bool) (e : Ast) (k : Int) : Ast :=
  .node (if signed then .SGE else .UGE) [e, intLit e k] []

def LE (signed : Bool) (e : Ast) (k : Int) : Ast :=
  .node (if signed then .SLE else .ULE) [e, intLit e k] []

/-- The bisection of `_extrema`. The window halves in every round, so the length
of the expression bounds their number. -/
@[grind =] def extremaLoop (isMax signed : Bool) (e : Ast) (cs : List Ast) :
    Nat → Nat → Int → Int → Answer (Int × Int)
  | 0, t, lo, hi => ⟨(lo, hi), [], t⟩
  | fuel + 1, t, lo, hi =>
    if hi - lo > 1 then
      let middle := (lo + hi) / 2
      let window := if isMax then Ast.and [GE signed e middle, LE signed e hi]
        else Ast.and [GE signed e lo, LE signed e middle]
      match B.check t (cs ++ [window]) with
      | some m =>
        let rest := if isMax then extremaLoop isMax signed e cs fuel (t + 1) middle hi
          else extremaLoop isMax signed e cs fuel (t + 1) lo middle
        { rest with models := m :: rest.models }
      | none =>
        if isMax then extremaLoop isMax signed e cs fuel (t + 1) lo middle
        else extremaLoop isMax signed e cs fuel (t + 1) middle hi
    else ⟨(lo, hi), [], t⟩

def loBound (signed : Bool) (w : Nat) : Int := if signed then -2 ^ (w - 1) else 0
def hiBound (signed : Bool) (w : Nat) : Int := if signed then 2 ^ (w - 1) - 1 else 2 ^ w - 1

def extrema (isMax signed : Bool) (t : Nat) (e : Ast) (cs extra : List Ast) : Answer Int :=
  let window := B.extremaLoop isMax signed e (cs ++ extra) e.length t
    (loBound signed e.length) (hiBound signed e.length)
  let lo := window.value.1
  let hi := window.value.2
  match B.check window.count (cs ++ extra ++ [.eq e (intLit e (if isMax then hi else lo))]) with
  | some m => ⟨if isMax then hi else lo, window.models ++ [m], window.count + 1⟩
  | none => ⟨if isMax then lo else hi, window.models, window.count + 1⟩

def solution (t : Nat) (e v : Ast) (cs extra : List Ast) : Answer Bool :=
  B.satisfiable t cs (.eq e v :: extra)

/-! ## Exactness of satisfiability and enumeration -/

variable {B} {t n : Nat} {cs extra exprs : List Ast}

theorem satisfiable_value (hB : B.Exact) (t : Nat) (cs extra : List Ast) :
    (B.satisfiable t cs extra).value = true ↔ Satisfiable (cs ++ extra) := by
  unfold satisfiable
  split
  · rename_i m hm
    simp only [true_iff]
    exact ⟨_, (hB.sound hm).sat⟩
  · rename_i hm
    simpa using hB.complete hm

theorem satisfiable_checked (hm : m ∈ (B.satisfiable t cs extra).models) : B.Checked (cs ++ extra) m := by
  unfold satisfiable at hm
  split at hm
  · rename_i m' hm'
    obtain rfl : m = m' := by simpa using hm
    exact ⟨t, _, hm', fun _ hc => hc⟩
  · simp at hm

theorem holds_exclude {r : List Value} (hlen : r.length = exprs.length) (ρ : Assignment) :
    (exclude exprs r).holds ρ ↔ exprs.map (Ast.eval ρ) ≠ r := by
  have hzip : ∀ (es : List Ast) (vs : List Value), vs.length = es.length →
      (Sat (List.zipWith (fun e v => .eq e v.lit) es vs) ρ ↔ es.map (Ast.eval ρ) = vs) := by
    intro es
    induction es with
    | nil => intro vs hvs; cases vs <;> simp_all
    | cons e es ih =>
      intro vs hvs
      cases vs with
      | nil => simp at hvs
      | cons v vs => simp [ih vs (by simpa using hvs)]
  unfold exclude
  split
  · simp
  · rw [Ast.holds_not, Ast.holds_and, hzip _ _ hlen]

theorem batchEval_enumerates (hB : B.Exact) (exprs extra : List Ast) (n t : Nat) (cs : List Ast) :
    Enumerates (cs ++ extra) exprs n (B.batchEval exprs extra n t cs).value := by
  induction n generalizing t cs with
  | zero => exact ⟨by simp [batchEval], by simp [batchEval], by simp [batchEval], by simp⟩
  | succ n ih =>
    rw [batchEval]
    split
    · rename_i hm
      refine ⟨by simp, by simp, by simp, fun _ r ⟨ρ, hρ, _⟩ => absurd ⟨ρ, hρ⟩ (hB.complete hm)⟩
    rename_i m hm
    -- The recursive call enumerates the solutions other than `r`.
    set r := exprs.map (Ast.eval (m.complete false)) with hr
    have hex : ∀ ρ, (exclude exprs r).holds ρ ↔ exprs.map (Ast.eval ρ) ≠ r :=
      holds_exclude (by simp [hr])
    have hsat : ∀ ρ, Sat (cs ++ [exclude exprs r] ++ extra) ρ ↔
        Sat (cs ++ extra) ρ ∧ exprs.map (Ast.eval ρ) ≠ r := by
      intro ρ
      simp only [sat_append, sat_cons, sat_nil, and_true, hex]
      tauto
    obtain ⟨hle, hnd, hs, hall⟩ : Enumerates (cs ++ [exclude exprs r] ++ extra) exprs n
        (B.batchEval exprs extra n (t + 1) (cs ++ [exclude exprs r])).value := ih _ _
    constructor
    · simpa using hle
    · refine List.nodup_cons.mpr ⟨fun hmem => ?_, hnd⟩
      obtain ⟨ρ, hρ, he⟩ := hs r hmem
      exact ((hsat ρ).mp hρ).2 he
    · intro r' hr'
      rcases List.mem_cons.mp hr' with rfl | hr'
      · exact ⟨_, (hB.sound hm).sat, hr.symm⟩
      · obtain ⟨ρ, hρ, he⟩ := hs r' hr'
        exact ⟨ρ, ((hsat ρ).mp hρ).1, he⟩
    rintro hlt r' ⟨ρ, hρ, rfl⟩
    by_cases he : exprs.map (Ast.eval ρ) = r
    · exact he ▸ List.mem_cons_self
    · exact List.mem_cons_of_mem _
        (hall (by simpa using hlt) _ ⟨ρ, (hsat ρ).mpr ⟨hρ, he⟩, rfl⟩)

theorem batchEval_checked (hm : m ∈ (B.batchEval exprs extra n t cs).models) : B.Checked (cs ++ extra) m := by
  induction n generalizing t cs with
  | zero => simp [batchEval] at hm
  | succ n ih =>
    rw [batchEval] at hm
    split at hm
    · simp at hm
    rename_i m' hm'
    rcases List.mem_cons.mp hm with rfl | hm
    · exact ⟨t, _, hm', fun _ hc => hc⟩
    · refine (ih hm).mono fun d hd => ?_
      rcases List.mem_append.mp hd with hd | hd <;> simp [hd]

/-- Every solution returned is the value in one of the models handed over. -/
theorem batchEval_realized {r : List Value}
    (hr : r ∈ (B.batchEval exprs extra n t cs).value) :
    ∃ m ∈ (B.batchEval exprs extra n t cs).models,
      r = exprs.map (Ast.eval (m.complete false)) := by
  induction n generalizing t cs with
  | zero => simp [batchEval] at hr
  | succ n ih =>
    rw [batchEval] at hr ⊢
    split at hr
    · simp at hr
    rename_i m hm
    rcases List.mem_cons.mp hr with rfl | hr
    · exact ⟨m, by simp, rfl⟩
    · obtain ⟨m', hm', he⟩ := ih hr
      exact ⟨m', by simp [hm'], he⟩

/-! ## Exactness of the extremum search -/

variable {e : Ast} {signed isMax : Bool} {k lo hi : Int}

@[simp] theorem eval_intLit (ρ : Assignment) :
    (intLit e k).eval ρ = .bv e.length (BitVec.ofInt e.length k) := by
  simp only [intLit, Ast.eval, Assignment.leaf, Op.apply, Option.getD, BitVec.ofNat_toNat,
    BitVec.setWidth_eq]

theorem toInt_ofInt {w : Nat} (hw : 0 < w) (hlo : loBound signed w ≤ k) (hhi : k ≤ hiBound signed w) :
    Value.toInt signed (.bv w (BitVec.ofInt w k)) = k := by
  have hpow : (2 : Int) ^ w = 2 * 2 ^ (w - 1) := by
    rw [← pow_succ', Nat.sub_add_cancel hw]
  cases signed with
  | true =>
    simp only [loBound, hiBound, if_true] at hlo hhi
    simp only [Value.toInt, if_true, BitVec.toInt_ofInt]
    apply Int.bmod_eq_of_le <;> push_cast <;> omega
  | false =>
    simp only [loBound, hiBound, Bool.false_eq_true, if_false] at hlo hhi
    simp only [Value.toInt, Bool.false_eq_true, if_false, BitVec.toNat_ofInt]
    push_cast
    rw [Int.emod_eq_of_lt hlo (by omega)]
    omega

theorem toInt_bounds (signed : Bool) {w : Nat} (v : BitVec w) :
    loBound signed w ≤ Value.toInt signed (.bv w v) ∧
      Value.toInt signed (.bv w v) ≤ hiBound signed w := by
  cases signed with
  | true =>
    have h1 := v.le_toInt
    have h2 := v.toInt_lt
    simp only [loBound, hiBound, Value.toInt, if_true]
    omega
  | false =>
    have h2 : (v.toNat : Int) < 2 ^ w := by exact_mod_cast v.isLt
    simp only [loBound, hiBound, Value.toInt, Bool.false_eq_true, if_false]
    omega

theorem holds_GE (he : e.IsBV) (hlo : loBound signed e.length ≤ k)
    (hhi : k ≤ hiBound signed e.length) (ρ : Assignment) :
    (GE signed e k).holds ρ ↔ k ≤ (e.eval ρ).toInt signed := by
  have hk := toInt_ofInt he.length_pos hlo hhi
  obtain ⟨v, hv⟩ := he.eval_bv ρ
  cases signed with
  | true =>
    simp only [Value.toInt, if_true] at hk
    simp [GE, Ast.holds, Ast.eval, Assignment.leaf, Op.apply, hv, Value.compare, Value.toBV,
      BitVec.sle_iff_toInt_le, Value.toInt, hk]
  | false =>
    simp only [Value.toInt, Bool.false_eq_true, if_false] at hk
    simp only [GE, Ast.holds, Ast.eval, Assignment.leaf, Op.apply, hv, Value.compare, Value.toBV,
      Value.toInt, Ast.evalList, eval_intLit, Option.getD, Value.bool.injEq,
      BitVec.ule_iff_toNat_le, BitVec.setWidth_eq, Bool.false_eq_true, if_false]
    omega

theorem holds_LE (he : e.IsBV) (hlo : loBound signed e.length ≤ k)
    (hhi : k ≤ hiBound signed e.length) (ρ : Assignment) :
    (LE signed e k).holds ρ ↔ (e.eval ρ).toInt signed ≤ k := by
  have hk := toInt_ofInt he.length_pos hlo hhi
  obtain ⟨v, hv⟩ := he.eval_bv ρ
  cases signed with
  | true =>
    simp only [Value.toInt, if_true] at hk
    simp [LE, Ast.holds, Ast.eval, Assignment.leaf, Op.apply, hv, Value.compare, Value.toBV,
      BitVec.sle_iff_toInt_le, Value.toInt, hk]
  | false =>
    simp only [Value.toInt, Bool.false_eq_true, if_false] at hk
    simp only [LE, Ast.holds, Ast.eval, Assignment.leaf, Op.apply, hv, Value.compare, Value.toBV,
      Value.toInt, Ast.evalList, eval_intLit, Option.getD, Value.bool.injEq,
      BitVec.ule_iff_toNat_le, BitVec.setWidth_eq, Bool.false_eq_true, if_false]
    omega

theorem holds_eq_intLit (he : e.IsBV) (hlo : loBound signed e.length ≤ k)
    (hhi : k ≤ hiBound signed e.length) (ρ : Assignment) :
    (Ast.eq e (intLit e k)).holds ρ ↔ (e.eval ρ).toInt signed = k := by
  have hk := toInt_ofInt he.length_pos hlo hhi
  obtain ⟨v, hv⟩ := he.eval_bv ρ
  rw [Ast.holds_eq, hv, eval_intLit]
  constructor
  · intro h; rw [h, hk]
  · intro h
    rw [← h]
    cases signed <;> simp [Value.toInt]

theorem sat_window (he : e.IsBV) {ρ : Assignment} (hlo : loBound signed e.length ≤ lo)
    (hlo' : lo ≤ hiBound signed e.length) (hhi : loBound signed e.length ≤ hi)
    (hhi' : hi ≤ hiBound signed e.length) :
    Sat (cs ++ [Ast.and [GE signed e lo, LE signed e hi]]) ρ ↔
      Sat cs ρ ∧ lo ≤ (e.eval ρ).toInt signed ∧ (e.eval ρ).toInt signed ≤ hi := by
  simp [holds_GE he hlo hlo', holds_LE he hhi hhi']

/-- The window `[lo, hi]` of the search: the extremum lies in it, and its far end
is reached by some solution. -/
structure Bracket (isMax signed : Bool) (e : Ast) (cs : List Ast) (lo hi : Int) : Prop where
  lo_ge : loBound signed e.length ≤ lo
  hi_le : hi ≤ hiBound signed e.length
  bound : ∀ ρ, Sat cs ρ →
    if isMax then (e.eval ρ).toInt signed ≤ hi else lo ≤ (e.eval ρ).toInt signed
  reached : ∃ ρ, Sat cs ρ ∧
    if isMax then lo ≤ (e.eval ρ).toInt signed else (e.eval ρ).toInt signed ≤ hi

/-- A model handed over that reaches `k` in the direction of the search. -/
def Reaches (isMax signed : Bool) (e : Ast) (k : Int) (m : Model) : Prop :=
  if isMax then k ≤ (e.eval (m.complete false)).toInt signed
  else (e.eval (m.complete false)).toInt signed ≤ k

/-- The far end of a window. -/
def far (isMax : Bool) (lo hi : Int) : Int := if isMax then lo else hi

theorem Bracket.lo_le_hi (h : Bracket isMax signed e cs lo hi) : lo ≤ hi := by
  obtain ⟨ρ, hρ, hr⟩ := h.reached
  have hb := h.bound ρ hρ
  cases isMax <;> simp only [if_true, if_false, Bool.false_eq_true] at hr hb <;> omega

theorem extremaLoop_checked {fuel : Nat} (hm : m ∈ (B.extremaLoop isMax signed e cs fuel t lo hi).models) :
    B.Checked cs m := by
  induction fuel generalizing t lo hi with
  | zero => simp [extremaLoop] at hm
  | succ fuel ih =>
    rw [extremaLoop] at hm
    split at hm
    · dsimp only at hm
      split at hm
      · rename_i m' hm'
        rcases List.mem_cons.mp hm with rfl | hm
        · exact ⟨t, _, hm', fun _ hc => List.mem_append_left _ hc⟩
        · split at hm <;> exact ih hm
      · split at hm <;> exact ih hm
    · simp at hm

/-- The search keeps the bracket, closes it to at most two values, and hands over
a model that reaches the far end whenever it moved. -/
theorem extremaLoop_spec (hB : B.Exact) (he : e.IsBV) (fuel : Nat)
    (h : Bracket isMax signed e cs lo hi) (hfuel : hi - lo ≤ 2 ^ fuel) :
    let a := B.extremaLoop isMax signed e cs fuel t lo hi
    Bracket isMax signed e cs a.value.1 a.value.2 ∧ a.value.2 - a.value.1 ≤ 1 ∧
      (far isMax a.value.1 a.value.2 = far isMax lo hi ∨
        ∃ m ∈ a.models, Reaches isMax signed e (far isMax a.value.1 a.value.2) m) := by
  induction fuel generalizing t lo hi with
  | zero => exact ⟨h, by simpa [extremaLoop] using hfuel, .inl rfl⟩
  | succ fuel ih =>
    intro a
    by_cases hgt : hi - lo > 1
    swap
    · have ha : a = ⟨(lo, hi), [], t⟩ := by simp [a, extremaLoop, hgt]
      rw [ha]
      exact ⟨h, by simpa using hgt, .inl rfl⟩
    set middle := (lo + hi) / 2 with hmid
    have h1 : lo < middle := by omega
    have h2 : middle < hi := by omega
    have hlo := h.lo_ge
    have hhi := h.hi_le
    cases isMax with
    | true =>
      have hw : ∀ ρ, Sat (cs ++ [Ast.and [GE signed e middle, LE signed e hi]]) ρ ↔
          Sat cs ρ ∧ middle ≤ (e.eval ρ).toInt signed ∧ (e.eval ρ).toInt signed ≤ hi :=
        fun ρ => sat_window he (by omega) (by omega) (by omega) (by omega)
      cases hc : B.check t (cs ++ [Ast.and [GE signed e middle, LE signed e hi]]) with
      | some m =>
        have hm := (hw _).mp (hB.sound hc).sat
        have hbr : Bracket true signed e cs middle hi :=
          ⟨by omega, hhi, h.bound, ⟨_, hm.1, hm.2.1⟩⟩
        have ha : a = { B.extremaLoop true signed e cs fuel (t + 1) middle hi with
            models := m :: (B.extremaLoop true signed e cs fuel (t + 1) middle hi).models } := by
          simp [a, extremaLoop, hgt, ← hmid, hc]
        obtain ⟨hbr', hcl, hreach⟩ := ih (t := t + 1) hbr (by omega)
        rw [ha]
        refine ⟨hbr', hcl, .inr ?_⟩
        rcases hreach with heq | ⟨m', hm', hr⟩
        · have hr : Reaches true signed e (far true middle hi) m := by
            simpa [far, Reaches] using hm.2.1
          exact ⟨m, by simp, heq ▸ hr⟩
        · exact ⟨m', by simp [hm'], hr⟩
      | none =>
        have hun : ∀ ρ, Sat cs ρ → (e.eval ρ).toInt signed ≤ middle := by
          intro ρ hρ
          have hb := h.bound ρ hρ
          by_contra hcon
          exact hB.complete hc ⟨ρ, (hw ρ).mpr ⟨hρ, by omega, hb⟩⟩
        have hbr : Bracket true signed e cs lo middle := ⟨hlo, by omega, hun, h.reached⟩
        have ha : a = B.extremaLoop true signed e cs fuel (t + 1) lo middle := by
          simp [a, extremaLoop, hgt, ← hmid, hc]
        rw [ha]
        exact ih (t := t + 1) hbr (by omega)
    | false =>
      have hw : ∀ ρ, Sat (cs ++ [Ast.and [GE signed e lo, LE signed e middle]]) ρ ↔
          Sat cs ρ ∧ lo ≤ (e.eval ρ).toInt signed ∧ (e.eval ρ).toInt signed ≤ middle :=
        fun ρ => sat_window he (by omega) (by omega) (by omega) (by omega)
      cases hc : B.check t (cs ++ [Ast.and [GE signed e lo, LE signed e middle]]) with
      | some m =>
        have hm := (hw _).mp (hB.sound hc).sat
        have hbr : Bracket false signed e cs lo middle :=
          ⟨hlo, by omega, h.bound, ⟨_, hm.1, hm.2.2⟩⟩
        have ha : a = { B.extremaLoop false signed e cs fuel (t + 1) lo middle with
            models := m :: (B.extremaLoop false signed e cs fuel (t + 1) lo middle).models } := by
          simp [a, extremaLoop, hgt, ← hmid, hc]
        obtain ⟨hbr', hcl, hreach⟩ := ih (t := t + 1) hbr (by omega)
        rw [ha]
        refine ⟨hbr', hcl, .inr ?_⟩
        rcases hreach with heq | ⟨m', hm', hr⟩
        · have hr : Reaches false signed e (far false lo middle) m := by
            simpa [far, Reaches] using hm.2.2
          exact ⟨m, by simp, heq ▸ hr⟩
        · exact ⟨m', by simp [hm'], hr⟩
      | none =>
        have hun : ∀ ρ, Sat cs ρ → middle ≤ (e.eval ρ).toInt signed := by
          intro ρ hρ
          have hb := h.bound ρ hρ
          by_contra hcon
          exact hB.complete hc ⟨ρ, (hw ρ).mpr ⟨hρ, hb, by omega⟩⟩
        have hbr : Bracket false signed e cs middle hi := ⟨by omega, hhi, hun, h.reached⟩
        have ha : a = B.extremaLoop false signed e cs fuel (t + 1) middle hi := by
          simp [a, extremaLoop, hgt, ← hmid, hc]
        rw [ha]
        exact ih (t := t + 1) hbr (by omega)

/-- `k` is the extremum of `e` over the assignments satisfying `cs`. -/
structure IsExtremum (isMax signed : Bool) (e : Ast) (cs : List Ast) (k : Int) : Prop where
  attained : ∃ ρ, Sat cs ρ ∧ (e.eval ρ).toInt signed = k
  bound : ∀ ρ, Sat cs ρ →
    if isMax then (e.eval ρ).toInt signed ≤ k else k ≤ (e.eval ρ).toInt signed

theorem extrema_checked (hm : m ∈ (B.extrema isMax signed t e cs extra).models) : B.Checked (cs ++ extra) m := by
  unfold extrema at hm
  dsimp only at hm
  split at hm
  · rename_i m' hm'
    rcases List.mem_append.mp hm with hm | hm
    · exact extremaLoop_checked hm
    · obtain rfl : m = m' := by simpa using hm
      exact ⟨_, _, hm', fun _ hc => List.mem_append_left _ hc⟩
  · exact extremaLoop_checked hm

theorem bracket_start (he : e.IsBV) (hsat : Satisfiable cs) :
    Bracket isMax signed e cs (loBound signed e.length) (hiBound signed e.length) := by
  have hb : ∀ ρ, loBound signed e.length ≤ (e.eval ρ).toInt signed ∧
      (e.eval ρ).toInt signed ≤ hiBound signed e.length := by
    intro ρ
    obtain ⟨v, hv⟩ := he.eval_bv ρ
    rw [hv]
    exact toInt_bounds signed v
  obtain ⟨ρ, hρ⟩ := hsat
  refine ⟨le_refl _, le_refl _, fun ρ _ => ?_, ⟨ρ, hρ, ?_⟩⟩
  · cases isMax
    · exact (hb ρ).1
    · exact (hb ρ).2
  · cases isMax
    · exact (hb ρ).2
    · exact (hb ρ).1

theorem bounds_width (w : Nat) (hw : 0 < w) : hiBound signed w - loBound signed w ≤ 2 ^ w := by
  have hpow : (2 : Int) ^ w = 2 * 2 ^ (w - 1) := by
    rw [← pow_succ', Nat.sub_add_cancel hw]
  cases signed
  · simp [hiBound, loBound]
  · simp only [hiBound, loBound, if_true]
    omega

/-- The search returns the extremum, and hands over a model that attains it unless
it is the far end of the whole range. -/
theorem extrema_spec (hB : B.Exact) (he : e.IsBV) (isMax signed : Bool) (t : Nat)
    (hsat : Satisfiable (cs ++ extra)) :
    let a := B.extrema isMax signed t e cs extra
    IsExtremum isMax signed e (cs ++ extra) a.value ∧
      (a.value = far isMax (loBound signed e.length) (hiBound signed e.length) ∨
        ∃ m ∈ a.models, (e.eval (m.complete false)).toInt signed = a.value) := by
  intro a
  have hstart : Bracket isMax signed e (cs ++ extra)
      (loBound signed e.length) (hiBound signed e.length) := bracket_start he hsat
  obtain ⟨hbr, hcl, hreach⟩ :=
    extremaLoop_spec (t := t) hB he e.length hstart (bounds_width _ he.length_pos)
  set w := B.extremaLoop isMax signed e (cs ++ extra) e.length t
    (loBound signed e.length) (hiBound signed e.length) with hw
  have hle := hbr.lo_le_hi
  have hlo := hbr.lo_ge
  have hhi := hbr.hi_le
  obtain ⟨ρ₀, hρ₀, hr₀⟩ := hbr.reached
  have hb₀ := hbr.bound ρ₀ hρ₀
  have heq : ∀ ρ, (Ast.eq e (intLit e (if isMax then w.value.2 else w.value.1))).holds ρ ↔
      (e.eval ρ).toInt signed = if isMax then w.value.2 else w.value.1 := by
    intro ρ
    refine holds_eq_intLit he ?_ ?_ ρ <;> cases isMax <;> simp <;> omega
  cases hc : B.check w.count
      (cs ++ extra ++ [.eq e (intLit e (if isMax then w.value.2 else w.value.1))]) with
  | some m =>
    have ha : a = ⟨if isMax then w.value.2 else w.value.1, w.models ++ [m], w.count + 1⟩ := by
      simp only [a, extrema, ← hw, hc]
    have hm := sat_append.mp (hB.sound hc).sat
    have hval := (heq _).mp (sat_cons.mp hm.2).1
    rw [ha]
    refine ⟨⟨⟨_, hm.1, hval⟩, fun ρ hρ => ?_⟩, .inr ⟨m, by simp, hval⟩⟩
    have hb := hbr.bound ρ hρ
    cases isMax <;> simpa using hb
  | none =>
    have ha : a = ⟨if isMax then w.value.1 else w.value.2, w.models, w.count + 1⟩ := by
      simp only [a, extrema, ← hw, hc]
    -- The near end is not taken, so every solution lies at or beyond the far end.
    have hne : ∀ ρ, Sat (cs ++ extra) ρ →
        (e.eval ρ).toInt signed ≠ if isMax then w.value.2 else w.value.1 := by
      intro ρ hρ hcon
      exact hB.complete hc ⟨ρ, sat_append.mpr ⟨hρ, by simpa using (heq ρ).mpr hcon⟩⟩
    have hfar : ∀ ρ, Sat (cs ++ extra) ρ →
        if isMax then (e.eval ρ).toInt signed ≤ w.value.1
        else w.value.2 ≤ (e.eval ρ).toInt signed := by
      intro ρ hρ
      have hb := hbr.bound ρ hρ
      have hn := hne ρ hρ
      cases isMax <;> simp only [if_true, if_false, Bool.false_eq_true] at hb hn ⊢ <;> omega
    rw [ha]
    refine ⟨⟨⟨ρ₀, hρ₀, ?_⟩, fun ρ hρ => ?_⟩, ?_⟩
    · have hf := hfar ρ₀ hρ₀
      cases isMax <;> simp only [if_true, if_false, Bool.false_eq_true] at hf hr₀ ⊢ <;> omega
    · have hf := hfar ρ hρ
      cases isMax <;> simpa using hf
    rcases hreach with hsame | ⟨m, hm, hr⟩
    · left
      cases isMax <;> simpa [far] using hsame
    right
    refine ⟨m, hm, ?_⟩
    have hf := hfar _ ((extremaLoop_checked hm).modelOf hB).sat
    cases isMax <;>
      simp only [if_true, if_false, Bool.false_eq_true, Reaches, far] at hf hr ⊢ <;> omega

end BackendZ3
end Claripy
