import Mathlib

/-!
# Linear equations

`extended_euclid` and `diop_natural_solution_linear` of the strided intervals. The solutions of `a * x + b * y = c`
are on a line that is cut by the axes; the solution that is taken is the one next to the cut. A
`none` stands for an exception.
-/

namespace Claripy.Vsa

/-- Coefficients of the greatest common divisor, and the divisor. -/
def extendedEuclid (a b : Nat) : Int × Int × Nat :=
  if _h : b = 0 then (1, 0, a)
  else
    let (x0, y0, d) := extendedEuclid b (a % b)
    (y0, x0 - (a / b : Nat) * y0, d)
termination_by b
decreasing_by exact Nat.mod_lt a (Nat.pos_of_ne_zero _h)

def sign (a : Int) : Int := if a < 0 then -1 else 1

inductive Direction where
  | ge
  | le
  deriving DecidableEq

/-- A bound of the parameter, possibly infinite. -/
inductive Bound where
  | negInf
  | val (q : Rat)
  | posInf
  deriving DecidableEq

namespace Bound

def leZero : Bound → Bool
  | negInf => true
  | val q => q ≤ 0
  | posInf => false

def zeroLe : Bound → Bool
  | negInf => false
  | val q => 0 ≤ q
  | posInf => true

def isInfinite : Bound → Bool
  | val _ => false
  | _ => true

/-- `abs(x) < abs(y)`. -/
def absLt : Bound → Bound → Bool
  | val p, val q => p.abs < q.abs
  | val _, _ => true
  | _, _ => false

def floor : Bound → Option Int
  | val q => some q.floor
  | _ => none

def ceil : Bound → Option Int
  | val q => some q.ceil
  | _ => none

end Bound

/-- The parameters in two ranges; without any, comparing them raises an error. -/
def getIntersection (a b : Rat) (aDir bDir : Direction) : Option (Bound × Bound) :=
  match aDir, bDir with
  | .ge, .ge => some (.val (max b a), .posInf)
  | .le, .ge => if a > b then some (.val b, .val a) else none
  | .ge, .le => if b > a then some (.val a, .val b) else none
  | .le, .le => some (.negInf, .val (min b a))

/-- The bound that the first solution is next to. -/
def closestBound (lb ub : Bound) : Bound :=
  if lb.leZero && ub.zeroLe then if ub.absLt lb then ub else lb
  else if lb.isInfinite then ub
  else if ub.isInfinite then lb
  else if ub.absLt lb then ub else lb

/-- The outer option is for exceptions, and the inner one for equations without solutions. -/
def diopNaturalSolutionLinear (c a b : Int) : Option (Option (Int × Int)) :=
  let d : Int := Int.gcd (Int.gcd a b) c
  if d = 0 then none
  else
    let a := a / d
    let b := b / d
    let c := c / d
    if c = 0 then some (some (0, 0))
    else
      let (x0, y0, d) := extendedEuclid a.natAbs b.natAbs
      let x0 := x0 * sign a
      let y0 := y0 * sign b
      if c % d = 0 then
        if b = 0 ∨ a = 0 then none
        else do
          let t0 : Rat := ((-c * x0 : Int) : Rat) / (b : Rat)
          let t1 : Rat := ((c * y0 : Int) : Rat) / (a : Rat)
          let t0Dir : Direction := if b < 0 then .le else .ge
          let t1Dir : Direction := if a < 0 then .ge else .le
          let (lb, ub) ← getIntersection t0 t1 t0Dir t1Dir
          let t := closestBound lb ub
          let t ← if t = ub then t.floor else t.ceil
          return some (c * x0 + b * t, c * y0 - a * t)
      else some none

/-! ## The greatest common divisor -/

theorem extendedEuclid_spec (a b : Nat) : a * (extendedEuclid a b).1 + b * (extendedEuclid a b).2.1 =
    (extendedEuclid a b).2.2 ∧ (extendedEuclid a b).2.2 = Nat.gcd a b := by
  induction b using Nat.strong_induction_on generalizing a with
  | _ b ih =>
    rw [extendedEuclid]
    split
    · next hb =>
        rw [hb]
        simp
    next hb =>
      obtain ⟨hsum, hgcd⟩ := ih (a % b) (Nat.mod_lt a (Nat.pos_of_ne_zero hb)) b
      refine ⟨?_, ?_⟩
      · dsimp only
        rw [← hsum]
        have hdiv : (a : Int) = b * (a / b : Nat) + (a % b : Nat) := by exact_mod_cast (Nat.div_add_mod a b).symm
        linear_combination (extendedEuclid b (a % b)).2.1 * hdiv
      · dsimp only
        rw [hgcd, Nat.gcd_comm, ← Nat.gcd_rec, Nat.gcd_comm]

/-! ## The first solution -/

/-- A solution in natural numbers, and the one with the least of them. -/
def FirstSolution (c a e x y : Int) : Prop :=
  a * x - e * y = c ∧ 0 ≤ x ∧ 0 ≤ y ∧ ∀ x' y', a * x' - e * y' = c → 0 ≤ x' → 0 ≤ y' → x ≤ x'

variable {a c e x0 y0 : Int}

/-- The parameter of the first solution is the greatest one that is not beyond an axis. -/
theorem firstSolution_floor (ha : 0 < a) (he : 0 < e) (hone : a * x0 + e * y0 = 1) :
    let t0 : Rat := ((-c * x0 : Int) : Rat) / ((-e : Int) : Rat)
    let t1 : Rat := ((c * -y0 : Int) : Rat) / (a : Rat)
    FirstSolution c a e (c * x0 + -e * (min t1 t0).floor) (c * -y0 - a * (min t1 t0).floor) := by
  intro t0 t1
  have hpar : ∀ t : Int, t ≤ (min t1 t0).floor ↔ e * t ≤ c * x0 ∧ a * t ≤ c * -y0 := by
    intro t
    have ha' : (0 : Rat) < a := by exact_mod_cast ha
    have he' : (0 : Rat) < e := by exact_mod_cast he
    rw [Rat.le_floor_iff, le_min_iff, le_div_iff₀ ha', and_comm]
    have ht0 : t0 = ((c * x0 : Int) : Rat) / e := by
      simp only [t0, Int.neg_mul, Int.cast_neg, neg_div_neg_eq]
    rw [ht0, le_div_iff₀ he', mul_comm (t : Rat), mul_comm (t : Rat)]
    norm_cast
  generalize (min t1 t0).floor = t at hpar
  obtain ⟨hx, hy⟩ := (hpar t).mp (Int.le_refl t)
  refine ⟨?_, ?_, ?_, ?_⟩
  · linear_combination c * hone
  · have : -e * t = -(e * t) := by ring
    omega
  · omega
  intro x' y' hsol hx' hy'
  -- every solution has a parameter
  obtain ⟨k, hk⟩ : ∃ k, k = x0 * (y' + c * y0) + y0 * (x' - c * x0) := ⟨_, rfl⟩
  have hxk : x' = c * x0 + e * k := by
    rw [hk]
    linear_combination (-x') * hone + x0 * hsol
  have hyk : e * y' = e * (c * -y0 + a * k) := by
    linear_combination a * hxk - hsol + c * hone
  have hyk' := Int.eq_of_mul_eq_mul_left (by omega) hyk
  have hle := (hpar (-k)).mpr ⟨by linarith, by linarith⟩
  have hmul : e * -k ≤ e * t := Int.mul_le_mul_of_nonneg_left hle (by omega)
  linarith

theorem closestBound_negInf (q : Rat) : closestBound .negInf (.val q) = .val q := by
  unfold closestBound
  split <;> rfl

/-- An equation that is divided by a common factor. -/
theorem FirstSolution.scale {g x y : Int} (hg : 0 < g) (h : FirstSolution c a e x y) :
    FirstSolution (g * c) (g * a) (g * e) x y := by
  obtain ⟨hsol, hx, hy, hfirst⟩ := h
  refine ⟨?_, hx, hy, fun x' y' hsol' => hfirst x' y' ?_⟩
  · linear_combination g * hsol
  · refine Int.eq_of_mul_eq_mul_left (by omega : g ≠ 0) ?_
    linear_combination hsol'

/-- If there is a solution in integers, the first natural one is found. -/
theorem diopNaturalSolutionLinear_spec (ha : 0 < a) (he : 0 < e) (hdvd : (Int.gcd a e : Int) ∣ c) :
    ∃ x y, diopNaturalSolutionLinear c a (-e) = some (some (x, y)) ∧ FirstSolution c a e x y := by
  have hg : (Int.gcd (Int.gcd a (-e)) c : Int) = Int.gcd a e := by
    rw [Int.gcd_neg]
    exact Int.gcd_eq_left (Int.natCast_nonneg _) hdvd
  have hgpos : (0 : Int) < Int.gcd a e := by exact_mod_cast Int.gcd_pos_of_ne_zero_left e (by omega)
  have hcoprime := Int.gcd_ediv_gcd_ediv_gcd (i := a) (j := e) (by omega)
  obtain ⟨a', ha'⟩ := Int.gcd_dvd_left a e
  obtain ⟨e', he'⟩ := Int.gcd_dvd_right a e
  obtain ⟨c', hc'⟩ := hdvd
  unfold diopNaturalSolutionLinear
  rw [hg]
  generalize (Int.gcd a e : Int) = g at *
  have hadiv : a / g = a' := by rw [ha', Int.mul_ediv_cancel_left _ (by omega)]
  have hediv : e / g = e' := by rw [he', Int.mul_ediv_cancel_left _ (by omega)]
  have hneg : -e / g = -e' := by rw [he', ← Int.mul_neg, Int.mul_ediv_cancel_left _ (by omega)]
  have hcdiv : c / g = c' := by rw [hc', Int.mul_ediv_cancel_left _ (by omega)]
  have ha0 : 0 < a' := by
    rw [ha'] at ha
    exact Int.pos_of_mul_pos_right ha (by omega)
  have he0 : 0 < e' := by
    rw [he'] at he
    exact Int.pos_of_mul_pos_right he (by omega)
  rw [hadiv, hediv] at hcoprime
  rw [if_neg (by omega), hadiv, hneg, hcdiv, ha', he', hc']
  dsimp only
  split
  · next hzero =>
      refine ⟨0, 0, rfl, ?_⟩
      rw [hzero, Int.mul_zero]
      exact ⟨by ring, Int.le_refl 0, Int.le_refl 0, fun x' _ _ hx' _ => hx'⟩
  obtain ⟨hsum, hd⟩ := extendedEuclid_spec a'.natAbs (-e').natAbs
  rw [Int.natAbs_neg, Int.natAbs_of_nonneg (by omega), Int.natAbs_of_nonneg (by omega)] at hsum
  rw [Int.natAbs_neg] at hd
  rw [Int.natAbs_neg]
  generalize extendedEuclid a'.natAbs e'.natAbs = result at hsum hd
  obtain ⟨x0, y0, d⟩ := result
  dsimp only at hsum hd ⊢
  have hd1 : d = 1 := hd.trans hcoprime
  subst hd1
  have hsign : sign a' = 1 := if_neg (by omega)
  have hsign' : sign (-e') = -1 := if_pos (by omega)
  rw [hsign, hsign', Int.natCast_one, if_pos (Int.emod_one c'), if_neg (by omega), if_pos (by omega : -e' < 0),
    if_neg (by omega : ¬ a' < 0), Int.mul_one, Int.mul_neg_one]
  refine ⟨_, _, ?_, (firstSolution_floor ha0 he0 hsum).scale hgpos⟩
  show (if closestBound .negInf (.val _) = .val _ then _ else _) = _
  rw [closestBound_negInf, if_pos rfl]
  rfl

end Claripy.Vsa
