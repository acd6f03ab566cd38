import Mathlib.Algebra.BigOperators.Intervals
import Vibr.Peephole.Expression

/-!
# Tidy stack addresses

A tree of additions and subtractions is consolidated into the terms of a sum. The constants
of the sum are put into the offsets of its stack addresses, the other terms are added again.
-/

namespace Angr.Peephole.TidyStackAddr

open Expr

/-- A term of a sum, with true for `+` and false for `-`. -/
abbrev Term := Bool × Expr

/-- A Python integer does not fit the 128 bits that an offset is set with. -/
structure OverflowError where

/-- Sign-extends the low bits of `v`. -/
def toSignedI (v : Int) (bits : Nat) : Int :=
  if bits = 0 ∨ 128 ≤ bits then v
  else
    let masked := v % 2 ^ bits
    if 2 ^ (bits - 1) ≤ masked then masked - 2 ^ bits else masked

/-- The offset that a stack address of `bits` bits has once it was set to `v`. -/
def setOffset (v : Int) (bits : Nat) : Except OverflowError Int :=
  if -2 ^ 127 ≤ v ∧ v < 2 ^ 127 then .ok (Int.bmod (toSignedI v bits) (2 ^ 64)) else .error ⟨⟩

def size : Expr → Nat
  | .binaryOp .add operand₀ operand₁ _ _ | .binaryOp .sub operand₀ operand₁ _ _ => size operand₀ + size operand₁ + 1
  | _ => 1

theorem size_pos (e : Expr) : 0 < size e := by
  unfold size
  split <;> omega

/-- Consolidates all expressions on the stack into a list of expressions with their signs. -/
def consolidate (stack : List Term) (allOperands : List Term) : List Term :=
  match stack with
  | [] => allOperands
  | (sign, .binaryOp .add operand₀ operand₁ _ _) :: rest =>
    consolidate ((sign, operand₁) :: (sign, operand₀) :: rest) allOperands
  | (sign, .binaryOp .sub operand₀ operand₁ _ _) :: rest =>
    consolidate ((!sign, operand₁) :: (sign, operand₀) :: rest) allOperands
  | item :: rest => consolidate rest (item :: allOperands)
termination_by (stack.map fun t => size t.2).sum
decreasing_by
  · simp [size]
    omega
  · simp [size]
    omega
  · simpa using size_pos item.2

def isStackBase : Expr → Bool
  | .stackBaseOffset _ _ => true
  | _ => false

def isConst : Expr → Bool
  | .const _ _ => true
  | _ => false

/-- The constant with its sign at an index. -/
def constAt (allOperands : List Term) (j : Nat) : Option Int :=
  match allOperands[j]? with
  | some (true, .const value _) => some value
  | some (false, .const value _) => some (-value)
  | _ => none

def stackBaseIndices (allOperands : List Term) : List Nat :=
  (List.range allOperands.length).filter fun idx => (allOperands[idx]?.map fun t => isStackBase t.2).getD false

/-- The index after the constants that the stack address `i` takes. -/
def nextIndex (allOperands : List Term) (i : Nat) : Nat :=
  (stackBaseIndices allOperands).getD (i + 1) allOperands.length

/-- The constants that the stack address `i` takes. -/
def collectedConsts (allOperands : List Term) (i : Nat) : List Int :=
  (List.range' (i + 1) (nextIndex allOperands i - (i + 1))).filterMap (constAt allOperands)

/-- The stack address `i`, at an index, with its constants. -/
def collect (allOperands : List Term) (i idx : Nat) : Except OverflowError Term :=
  match allOperands.getD idx (true, .const 0 0) with
  | (sign, .stackBaseOffset offset bits) =>
    let const := (collectedConsts allOperands i).sum
    if const ≠ 0 then
      (setOffset (offset + if sign then const else -const) bits).map fun offset => (sign, .stackBaseOffset offset bits)
    else .ok (sign, .stackBaseOffset offset bits)
  | item => .ok item

def stackBaseObjs (allOperands : List Term) : Except OverflowError (List Term) :=
  (stackBaseIndices allOperands).zipIdx.mapM fun p => collect allOperands p.2 p.1

def hasChanges (allOperands : List Term) : Bool :=
  (List.range (stackBaseIndices allOperands).length).any fun i => !(collectedConsts allOperands i).isEmpty

/-- Adds a stack address to the sum, the first one with its sign. -/
def addStackBase (newExpr : Option Expr) (t : Term) : Option Expr :=
  match newExpr with
  | none => some (if t.1 then t.2 else .unaryOp .neg t.2 t.2.bits)
  | some e => some (.binaryOp (if t.1 then .add else .sub) e t.2 false e.bits)

/-- Adds any other term. -/
def addOperand (newExpr : Option Expr) (t : Term) : Option Expr :=
  match newExpr with
  | none => some t.2
  | some e => some (.binaryOp (if t.1 then .add else .sub) e t.2 false e.bits)

def isBinaryOp : Expr → Bool
  | .binaryOp _ _ _ _ _ => true
  | _ => false

/-- `_optimize_add_sub`, of the operands of an addition or a subtraction. -/
def optimizeAddSub (expr : Expr) : Except OverflowError (Option Expr) :=
  match expr with
  | .binaryOp op operand₀ operand₁ _ _ =>
    if op ≠ .add ∧ op ≠ .sub then .ok none
    else if !isBinaryOp operand₀ && !isBinaryOp operand₁ then .ok none
    else if isStackBase operand₀ && isConst operand₁ then .ok none
    else
      let allOperands := consolidate [(true, expr)] []
      if (stackBaseIndices allOperands).isEmpty then .ok none
      else
        (stackBaseObjs allOperands).map fun objs =>
          if hasChanges allOperands then
            let rest := allOperands.filter fun t => !isStackBase t.2 && !isConst t.2
            rest.foldl addOperand (objs.foldl addStackBase none)
          else none
  | _ => .ok none

/-! ## Counting -/

/-- The number of stack addresses that take a constant at the index `j`. -/
def timesCollected (allOperands : List Term) (j : Nat) : Nat :=
  ((List.range (stackBaseIndices allOperands).length).filter fun i => i < j ∧ j < nextIndex allOperands i).length

/-- What the constants are counted too often or too seldom. -/
def miscounted (allOperands : List Term) : Int :=
  ((List.range allOperands.length).map fun j =>
    ((timesCollected allOperands j : Int) - 1) * (constAt allOperands j).getD 0).sum

/-! ## Sums -/

def value (σ : Env) (t : Term) : Int := if t.1 then t.2.eval σ else -(t.2.eval σ : Int)

def sum (σ : Env) (ts : List Term) : Int := (ts.map (value σ)).sum

/-- The terms of a sum of one width. -/
def Fits (w : Nat) (ts : List Term) : Prop := ∀ t ∈ ts, t.2.WellTyped ∧ t.2.bits = w

variable {σ : Env} {w : Nat}

@[simp] theorem sum_nil : sum σ [] = 0 := rfl

@[simp] theorem sum_cons (t : Term) (ts : List Term) : sum σ (t :: ts) = value σ t + sum σ ts := by
  simp [sum]

theorem Fits.tail {t : Term} {ts : List Term} (h : Fits w (t :: ts)) : Fits w ts :=
  fun u hu => h u (List.mem_cons_of_mem t hu)

theorem Fits.cons {t : Term} {ts : List Term} (ht : t.2.WellTyped ∧ t.2.bits = w) (h : Fits w ts) :
    Fits w (t :: ts) := by
  intro u hu
  rcases List.mem_cons.mp hu with rfl | hu
  · exact ht
  · exact h u hu

/-- The value of an addition or a subtraction with a sign. -/
theorem value_add {operand₀ operand₁ : Expr} {signed : Bool} (sign : Bool) :
    value σ (sign, .binaryOp .add operand₀ operand₁ signed w) ≡
      value σ (sign, operand₁) + value σ (sign, operand₀) [ZMOD 2 ^ w] := by
  have hmod := wrap_modEq w (operand₀.eval σ + operand₁.eval σ : Int)
  cases sign
  · have hsum : value σ (false, operand₁) + value σ (false, operand₀) = -(operand₀.eval σ + operand₁.eval σ : Int) := by
      simp [value]
    rw [hsum]
    exact hmod.neg
  · have hsum : value σ (true, operand₁) + value σ (true, operand₀) = (operand₀.eval σ + operand₁.eval σ : Int) :=
      Int.add_comm _ _
    rw [hsum]
    exact hmod

theorem value_sub {operand₀ operand₁ : Expr} {signed : Bool} (sign : Bool) :
    value σ (sign, .binaryOp .sub operand₀ operand₁ signed w) ≡
      value σ (!sign, operand₁) + value σ (sign, operand₀) [ZMOD 2 ^ w] := by
  have hmod := wrap_modEq w (operand₀.eval σ - operand₁.eval σ : Int)
  cases sign
  · have hsum : value σ (!false, operand₁) + value σ (false, operand₀) = -(operand₀.eval σ - operand₁.eval σ : Int) := by
      simp [value]
      ring
    rw [hsum]
    exact hmod.neg
  · have hsum : value σ (!true, operand₁) + value σ (true, operand₀) = (operand₀.eval σ - operand₁.eval σ : Int) := by
      simp [value]
      ring
    rw [hsum]
    exact hmod

/-- The terms have the sum of what was on the stack. -/
theorem sum_consolidate {stack acc : List Term} (hstack : Fits w stack) (hacc : Fits w acc) :
    Fits w (consolidate stack acc) ∧ sum σ (consolidate stack acc) ≡ sum σ stack + sum σ acc [ZMOD 2 ^ w] := by
  induction stack, acc using consolidate.induct with
  | case1 acc =>
    rw [consolidate, sum_nil, zero_add]
    exact ⟨hacc, .rfl⟩
  | case2 acc sign operand₀ operand₁ signed bits rest ih =>
    obtain ⟨⟨htyped₀, htyped₁, hbits₀, hbits₁⟩, hw⟩ := hstack _ List.mem_cons_self
    obtain rfl : bits = w := hw
    obtain ⟨hfits, hsum⟩ := ih (.cons ⟨htyped₁, hbits₁⟩ (.cons ⟨htyped₀, hbits₀⟩ hstack.tail)) hacc
    rw [consolidate]
    refine ⟨hfits, hsum.trans ?_⟩
    simp only [sum_cons]
    rw [← add_assoc]
    exact ((value_add sign).symm.add_right _).add_right _
  | case3 acc sign operand₀ operand₁ signed bits rest ih =>
    obtain ⟨⟨htyped₀, htyped₁, hbits₀, hbits₁⟩, hw⟩ := hstack _ List.mem_cons_self
    obtain rfl : bits = w := hw
    obtain ⟨hfits, hsum⟩ := ih (.cons ⟨htyped₁, hbits₁⟩ (.cons ⟨htyped₀, hbits₀⟩ hstack.tail)) hacc
    rw [consolidate]
    refine ⟨hfits, hsum.trans ?_⟩
    simp only [sum_cons]
    rw [← add_assoc]
    exact ((value_sub sign).symm.add_right _).add_right _
  | case4 acc item rest hadd hsub ih =>
    obtain ⟨hfits, hsum⟩ := ih hstack.tail (.cons (hstack item List.mem_cons_self) hacc)
    have hmove : sum σ (item :: rest) + sum σ acc = sum σ rest + sum σ (item :: acc) := by
      simp only [sum_cons]
      ring
    rw [consolidate, hmove]
    · exact ⟨hfits, hsum⟩
    · exact hadd
    · exact hsub

/-! ## The new sum -/

theorem addStackBase_some (e : Expr) (ts : List Term) :
    ts.foldl addStackBase (some e) = ts.foldl addOperand (some e) := by
  induction ts generalizing e with
  | nil => rfl
  | cons t ts ih => exact ih _

theorem eval_addOperand {e : Expr} (he : e.WellTyped ∧ e.bits = w) {ts : List Term} (hts : Fits w ts) :
    ∃ e', ts.foldl addOperand (some e) = some e' ∧ (e'.WellTyped ∧ e'.bits = w) ∧
      (e'.eval σ : Int) ≡ e.eval σ + sum σ ts [ZMOD 2 ^ w] := by
  induction ts generalizing e with
  | nil =>
    refine ⟨e, rfl, he, ?_⟩
    rw [sum_nil, add_zero]
  | cons t ts ih =>
    obtain ⟨sign, obj⟩ := t
    obtain ⟨htyped, hbits⟩ := hts _ List.mem_cons_self
    have hstep : ∃ op, addOperand (some e) (sign, obj) = some (.binaryOp op e obj false e.bits) ∧
        ((op = .add ∧ value σ (sign, obj) = obj.eval σ) ∨ (op = .sub ∧ value σ (sign, obj) = -(obj.eval σ : Int))) := by
      cases sign
      · exact ⟨.sub, rfl, .inr ⟨rfl, rfl⟩⟩
      · exact ⟨.add, rfl, .inl ⟨rfl, rfl⟩⟩
    obtain ⟨op, hadd, hop⟩ := hstep
    have htypedOp : op.Typed e.bits e.bits obj.bits := by
      rcases hop with ⟨rfl, -⟩ | ⟨rfl, -⟩ <;> exact ⟨rfl, hbits.trans he.2.symm⟩
    have hmod : ((binaryOp op e obj false e.bits).eval σ : Int) ≡ e.eval σ + value σ (sign, obj) [ZMOD 2 ^ w] := by
      rw [← he.2]
      rcases hop with ⟨rfl, hvalue⟩ | ⟨rfl, hvalue⟩
      · rw [hvalue]
        exact wrap_modEq _ _
      · rw [hvalue, ← sub_eq_add_neg]
        exact wrap_modEq _ _
    obtain ⟨e', hfold, htyped', hsum⟩ := ih (e := binaryOp op e obj false e.bits)
      ⟨⟨he.1, htyped, htypedOp⟩, he.2⟩ hts.tail
    refine ⟨e', ?_, htyped', hsum.trans ?_⟩
    · rw [List.foldl_cons, hadd]
      exact hfold
    · rw [sum_cons, ← add_assoc]
      exact hmod.add_right _

/-- The stack addresses and the rest are added to each other. -/
theorem eval_build {objs rest : List Term} (hobjs : Fits w objs) (hne : objs ≠ []) (hrest : Fits w rest) :
    ∃ e', rest.foldl addOperand (objs.foldl addStackBase none) = some e' ∧ (e'.WellTyped ∧ e'.bits = w) ∧
      (e'.eval σ : Int) ≡ sum σ objs + sum σ rest [ZMOD 2 ^ w] := by
  cases objs with
  | nil => exact absurd rfl hne
  | cons t objs =>
    obtain ⟨sign, obj⟩ := t
    obtain ⟨htyped, hbits⟩ := hobjs _ List.mem_cons_self
    have hfirst : ∃ e, addStackBase none (sign, obj) = some e ∧ (e.WellTyped ∧ e.bits = w) ∧
        (e.eval σ : Int) ≡ value σ (sign, obj) [ZMOD 2 ^ w] := by
      cases sign
      · refine ⟨.unaryOp .neg obj obj.bits, rfl, ⟨⟨htyped, rfl⟩, hbits⟩, ?_⟩
        rw [← show obj.bits = w from hbits]
        exact wrap_modEq _ _
      · exact ⟨obj, rfl, ⟨htyped, hbits⟩, .rfl⟩
    obtain ⟨e, hadd, he, hvalue⟩ := hfirst
    obtain ⟨e₁, hfold₁, he₁, hsum₁⟩ := eval_addOperand (σ := σ) he hobjs.tail
    obtain ⟨e₂, hfold₂, he₂, hsum₂⟩ := eval_addOperand (σ := σ) he₁ hrest
    refine ⟨e₂, ?_, he₂, ?_⟩
    · rw [List.foldl_cons, hadd, addStackBase_some, hfold₁, hfold₂]
    · rw [sum_cons]
      exact hsum₂.trans ((hsum₁.trans (hvalue.add_right _)).add_right _)

/-! ## The offsets -/

theorem toSignedI_modEq (v : Int) (bits : Nat) : toSignedI v bits ≡ v [ZMOD 2 ^ bits] := by
  unfold toSignedI
  dsimp only
  split
  · exact .rfl
  split
  · have hmod := (Int.mod_modEq v (2 ^ bits)).sub (Int.modEq_zero_iff_dvd.mpr (dvd_refl (2 ^ bits : Int)))
    rwa [sub_zero] at hmod
  · exact Int.mod_modEq v _

/-- An offset is set up to multiples of the values of its width. -/
theorem setOffset_modEq {v offset : Int} {bits : Nat} (hbits : bits ≤ 64) (h : setOffset v bits = .ok offset) :
    offset ≡ v [ZMOD 2 ^ bits] := by
  unfold setOffset at h
  split at h
  · cases h
    refine Int.ModEq.trans ?_ (toSignedI_modEq v bits)
    have hdvd : (2 : Int) ^ bits ∣ ((2 ^ 64 : Nat) : Int) := by
      push_cast
      exact pow_dvd_pow 2 hbits
    refine Int.ModEq.of_dvd hdvd ?_
    exact Int.bmod_emod ..
  · cases h

variable {ops : List Term}

theorem value_collect {i idx : Nat} {t : Term}
    (hfits : (ops.getD idx (true, .const 0 0)).2.WellTyped ∧ (ops.getD idx (true, .const 0 0)).2.bits = w)
    (hbase : isStackBase (ops.getD idx (true, .const 0 0)).2) (h : collect ops i idx = .ok t) :
    (t.2.WellTyped ∧ t.2.bits = w) ∧
      value σ t ≡ value σ (ops.getD idx (true, .const 0 0)) + (collectedConsts ops i).sum [ZMOD 2 ^ w] := by
  unfold collect at h
  generalize ops.getD idx (true, .const 0 0) = item at *
  obtain ⟨sign, obj⟩ := item
  cases obj with
  | stackBaseOffset offset bits =>
    obtain ⟨hle, rfl⟩ : bits ≤ 64 ∧ bits = w := hfits
    dsimp only at h
    by_cases hzero : (collectedConsts ops i).sum = 0
    · rw [if_neg (not_not_intro hzero)] at h
      cases h
      rw [hzero, add_zero]
      exact ⟨⟨hle, rfl⟩, .rfl⟩
    rw [if_pos hzero] at h
    cases hset : setOffset (offset + if sign then (collectedConsts ops i).sum else -(collectedConsts ops i).sum) bits with
    | error err =>
      rw [hset] at h
      cases h
    | ok offset' =>
      rw [hset] at h
      cases h
      refine ⟨⟨hle, rfl⟩, ?_⟩
      have hmod := setOffset_modEq hle hset
      have hnew := (wrap_modEq bits (σ.stackBase + offset')).trans (hmod.add_left σ.stackBase)
      have hold := wrap_modEq bits (σ.stackBase + offset)
      cases sign
      · have hsum := (hold.neg.add_right (collectedConsts ops i).sum).symm
        refine hnew.neg.trans (Int.ModEq.trans ?_ hsum)
        have heq : -(σ.stackBase + (offset + -(collectedConsts ops i).sum)) =
            -(σ.stackBase + offset) + (collectedConsts ops i).sum := by ring
        exact congrArg (· % 2 ^ bits) heq
      · have hsum := (hold.add_right (collectedConsts ops i).sum).symm
        refine hnew.trans (Int.ModEq.trans ?_ hsum)
        exact congrArg (· % 2 ^ bits) (add_assoc σ.stackBase offset _).symm
  | const | tmp | virtualVariable | atom | unaryOp | binaryOp | convert | ite | insert => cases hbase

theorem sum_collect
    (hops : ∀ idx ∈ stackBaseIndices ops, ((ops.getD idx (true, .const 0 0)).2.WellTyped ∧ (ops.getD idx (true, .const 0 0)).2.bits = w) ∧ isStackBase (ops.getD idx (true, .const 0 0)).2)
    {ps : List (Nat × Nat)} (hps : ∀ p ∈ ps, p.1 ∈ stackBaseIndices ops) {objs : List Term}
    (h : ps.mapM (fun p => collect ops p.2 p.1) = .ok objs) :
    Fits w objs ∧ objs.length = ps.length ∧
      sum σ objs ≡ (ps.map fun p => value σ (ops.getD p.1 (true, .const 0 0)) + (collectedConsts ops p.2).sum).sum
        [ZMOD 2 ^ w] := by
  induction ps generalizing objs with
  | nil =>
    cases h
    exact ⟨fun t ht => absurd ht List.not_mem_nil, rfl, .rfl⟩
  | cons p ps ih =>
    rw [List.mapM_cons] at h
    cases hcollect : collect ops p.2 p.1 with
    | error err =>
      rw [hcollect] at h
      cases h
    | ok t =>
      rw [hcollect] at h
      cases hrest : ps.mapM fun p => collect ops p.2 p.1 with
      | error err =>
        rw [hrest] at h
        cases h
      | ok ts =>
        rw [hrest] at h
        cases h
        obtain ⟨hfits, hbase⟩ := hops p.1 (hps p List.mem_cons_self)
        obtain ⟨ht, hvalue⟩ := value_collect (σ := σ) hfits hbase hcollect
        obtain ⟨hts, hlen, hsum⟩ := ih (fun q hq => hps q (List.mem_cons_of_mem p hq)) hrest
        refine ⟨hts.cons ht, congrArg (· + 1) hlen, ?_⟩
        rw [sum_cons, List.map_cons, List.sum_cons]
        exact hvalue.add hsum

/-! ## Indices -/

theorem sum_eq_range (f : Term → Int) (ops : List Term) :
    (ops.map f).sum = ∑ j ∈ Finset.range ops.length, f (ops.getD j (true, .const 0 0)) := by
  have hlist : ops.map f = (List.range ops.length).map fun j => f (ops.getD j (true, .const 0 0)) := by
    apply List.ext_getElem
    · simp
    · intro j hj₁ hj₂
      have hj : j < ops.length := by simpa using hj₁
      simp [List.getD_eq_getElem?_getD, hj]
  rw [hlist]
  rfl

theorem sum_filter_eq (p : Nat → Bool) (f : Nat → Int) (n : Nat) :
    (((List.range n).filter p).map f).sum = ∑ j ∈ Finset.range n, if p j then f j else 0 := by
  have hp : (fun a => decide (p a = true)) = p := by
    funext a
    exact Bool.decide_eq_true
  rw [← Finset.sum_filter]
  conv_lhs => rw [← hp]
  rfl

theorem sum_filterMap (f : Nat → Option Int) (l : List Nat) :
    (l.filterMap f).sum = (l.map fun j => (f j).getD 0).sum := by
  induction l with
  | nil => rfl
  | cons j l ih =>
    cases hf : f j with
    | none => simp [hf, ih]
    | some c => simp [hf, ih]

theorem mem_stackBaseIndices {idx : Nat} : idx ∈ stackBaseIndices ops ↔
    idx < ops.length ∧ isStackBase (ops.getD idx (true, .const 0 0)).2 := by
  simp only [stackBaseIndices, List.mem_filter, List.mem_range]
  refine and_congr_right fun hlt => ?_
  simp [List.getD_eq_getElem?_getD, hlt]

theorem nextIndex_le (ops : List Term) (i : Nat) : nextIndex ops i ≤ ops.length := by
  unfold nextIndex
  rw [List.getD_eq_getElem?_getD]
  cases hget : (stackBaseIndices ops)[i + 1]? with
  | none => exact Nat.le_refl _
  | some idx => exact Nat.le_of_lt (mem_stackBaseIndices.mp (List.mem_of_getElem? hget)).1

/-- A constant is added as often as it is collected. -/
theorem sum_collectedConsts (ops : List Term) :
    ∑ i ∈ Finset.range (stackBaseIndices ops).length, (collectedConsts ops i).sum =
      ∑ j ∈ Finset.range ops.length, (timesCollected ops j : Int) * (constAt ops j).getD 0 := by
  have hone : ∀ i, (collectedConsts ops i).sum =
      ∑ j ∈ Finset.range ops.length, if i < j ∧ j < nextIndex ops i then (constAt ops j).getD 0 else 0 := by
    intro i
    have hset : (Finset.range ops.length).filter (fun j => i < j ∧ j < nextIndex ops i) =
        Finset.Ico (i + 1) (nextIndex ops i) := by
      ext j
      have := nextIndex_le ops i
      simp only [Finset.mem_filter, Finset.mem_range, Finset.mem_Ico]
      omega
    rw [← Finset.sum_filter, hset]
    exact sum_filterMap _ _
  simp only [hone]
  rw [Finset.sum_comm]
  refine Finset.sum_congr rfl fun j _ => ?_
  rw [← Finset.sum_filter, Finset.sum_const, nsmul_eq_mul]
  rfl

/-- A constant with its sign, of a term. -/
def constValue (t : Term) : Int :=
  match t with
  | (true, .const value _) => value
  | (false, .const value _) => -value
  | _ => 0

theorem constAt_getD (ops : List Term) (j : Nat) :
    (constAt ops j).getD 0 = constValue (ops.getD j (true, .const 0 0)) := by
  unfold constAt
  rw [List.getD_eq_getElem?_getD]
  cases ops[j]? with
  | none => rfl
  | some t =>
    obtain ⟨sign, obj⟩ := t
    cases obj <;> cases sign <;> rfl

/-- The terms are the stack addresses, the constants, and the rest. -/
theorem sum_split (hops : Fits w ops) :
    sum σ ops ≡ (ops.map fun t => if isStackBase t.2 then value σ t else 0).sum + (ops.map constValue).sum +
      sum σ (ops.filter fun t => !isStackBase t.2 && !isConst t.2) [ZMOD 2 ^ w] := by
  induction ops with
  | nil => exact .rfl
  | cons t ops ih =>
    have hrest := ih hops.tail
    obtain ⟨sign, obj⟩ := t
    rw [sum_cons, List.map_cons, List.sum_cons, List.map_cons, List.sum_cons]
    generalize (ops.map fun t => if isStackBase t.2 then value σ t else 0).sum = bases at *
    generalize (ops.map constValue).sum = consts at *
    have hmove : ∀ base const rest : Int, base + const + rest ≡ value σ (sign, obj) [ZMOD 2 ^ w] →
        value σ (sign, obj) + sum σ ops ≡ base + bases + (const + consts) +
          (rest + sum σ (ops.filter fun t => !isStackBase t.2 && !isConst t.2)) [ZMOD 2 ^ w] := by
      intro base const rest hvalue
      have heq : ∀ other : Int, base + bases + (const + consts) + (rest + other) =
          base + const + rest + (bases + consts + other) := by
        intro other
        ring
      rw [heq]
      exact hvalue.symm.add hrest
    by_cases hbase : isStackBase obj = true
    · have hconst : constValue (sign, obj) = 0 := by
        cases obj <;> cases sign <;> first | rfl | cases hbase
      have := hmove (value σ (sign, obj)) 0 0 (by simp)
      simpa [hbase, hconst] using this
    by_cases hc : isConst obj = true
    · have hmod : constValue (sign, obj) ≡ value σ (sign, obj) [ZMOD 2 ^ w] := by
        cases obj with
        | const v bits =>
          obtain rfl : bits = w := (hops _ List.mem_cons_self).2
          have hwrap := wrap_modEq bits v
          cases sign
          · exact hwrap.symm.neg
          · exact hwrap.symm
        | _ => cases hc
      have := hmove 0 (constValue (sign, obj)) 0 (by simpa using hmod)
      simpa [hbase, hc] using this
    · have hconst : constValue (sign, obj) = 0 := by
        cases obj <;> cases sign <;> first | rfl | exact absurd rfl hc
      have := hmove 0 0 (value σ (sign, obj)) (by simp)
      simpa [hbase, hc, hconst] using this

theorem miscounted_eq (ops : List Term) : miscounted ops =
    ∑ j ∈ Finset.range ops.length, (timesCollected ops j : Int) * (constAt ops j).getD 0 - (ops.map constValue).sum := by
  rw [sum_eq_range, ← Finset.sum_sub_distrib]
  have hsum : miscounted ops =
      ∑ j ∈ Finset.range ops.length, ((timesCollected ops j : Int) - 1) * (constAt ops j).getD 0 := rfl
  rw [hsum]
  refine Finset.sum_congr rfl fun j _ => ?_
  rw [← constAt_getD]
  ring

/-! ## The address -/

theorem isOk_of_map {α β ε : Type} {x : Except ε α} {f : α → β} {y : β} (h : x.map f = .ok y) :
    ∃ a, x = .ok a ∧ f a = y := by
  cases x with
  | error err => cases h
  | ok a => exact ⟨a, rfl, Except.ok.inj h⟩

/-- What an expression was rewritten to. -/
theorem optimizeAddSub_eq_ok {e e' : Expr} (h : optimizeAddSub e = .ok (some e')) :
    ∃ objs, stackBaseObjs (consolidate [(true, e)] []) = .ok objs ∧
      stackBaseIndices (consolidate [(true, e)] []) ≠ [] ∧
      ((consolidate [(true, e)] []).filter fun t => !isStackBase t.2 && !isConst t.2).foldl addOperand
        (objs.foldl addStackBase none) = some e' := by
  unfold optimizeAddSub at h
  split at h
  · split at h
    · cases h
    split at h
    · cases h
    split at h
    · cases h
    dsimp only at h
    split at h
    · cases h
    rename_i hne
    obtain ⟨objs, hobjs, hbuild⟩ := isOk_of_map h
    refine ⟨objs, hobjs, fun hnil => hne (by rw [hnil]; rfl), ?_⟩
    split at hbuild
    · exact hbuild
    · cases hbuild
  · cases h

/-- What the new sum is off by. -/
theorem eval_optimizeAddSub {e e' : Expr} (htyped : e.WellTyped) (h : optimizeAddSub e = .ok (some e')) (σ : Env) :
    (e'.WellTyped ∧ e'.bits = e.bits) ∧
      (e'.eval σ : Int) ≡ e.eval σ + miscounted (consolidate [(true, e)] []) [ZMOD 2 ^ e.bits] := by
  obtain ⟨objs, hobjs, hne, hbuild⟩ := optimizeAddSub_eq_ok h
  have hstack : Fits e.bits [(true, e)] := by
    intro t ht
    rw [List.mem_singleton.mp ht]
    exact ⟨htyped, rfl⟩
  have hnil : Fits e.bits [] := fun t ht => absurd ht List.not_mem_nil
  obtain ⟨hops, hsum⟩ := sum_consolidate (σ := σ) hstack hnil
  generalize hall : consolidate [(true, e)] [] = ops at *
  have hbases : ∀ idx ∈ stackBaseIndices ops,
      ((ops.getD idx (true, .const 0 0)).2.WellTyped ∧ (ops.getD idx (true, .const 0 0)).2.bits = e.bits) ∧
        isStackBase (ops.getD idx (true, .const 0 0)).2 := by
    intro idx hidx
    obtain ⟨hlt, hbase⟩ := mem_stackBaseIndices.mp hidx
    refine ⟨?_, hbase⟩
    rw [List.getD_eq_getElem?_getD, List.getElem?_eq_getElem hlt]
    exact hops _ (List.getElem_mem hlt)
  have hmem : ∀ p ∈ (stackBaseIndices ops).zipIdx, p.1 ∈ stackBaseIndices ops :=
    fun p hp => List.fst_mem_of_mem_zipIdx hp
  obtain ⟨hfits, hlen, hcollect⟩ := sum_collect (σ := σ) hbases hmem hobjs
  have hobjsNe : objs ≠ [] := by
    intro hnil
    rw [hnil, List.length_zipIdx] at hlen
    exact hne (List.length_eq_zero_iff.mp hlen.symm)
  have hrest : Fits e.bits (ops.filter fun t => !isStackBase t.2 && !isConst t.2) :=
    fun t ht => hops t (List.mem_of_mem_filter ht)
  obtain ⟨e₁, hfold, hbits, hnew⟩ := eval_build (σ := σ) hfits hobjsNe hrest
  obtain rfl : e₁ = e' := Option.some.inj (hfold.symm.trans hbuild)
  refine ⟨hbits, hnew.trans ?_⟩
  -- the stack addresses are those of the sum with the constants that they take
  have hsplit : ((stackBaseIndices ops).zipIdx.map fun p =>
        value σ (ops.getD p.1 (true, .const 0 0)) + (collectedConsts ops p.2).sum).sum =
      (ops.map fun t => if isStackBase t.2 then value σ t else 0).sum +
        ∑ j ∈ Finset.range ops.length, (timesCollected ops j : Int) * (constAt ops j).getD 0 := by
    have hfst : ((stackBaseIndices ops).zipIdx.map fun p => value σ (ops.getD p.1 (true, .const 0 0))) =
        (stackBaseIndices ops).map fun idx => value σ (ops.getD idx (true, .const 0 0)) := by
      conv_rhs => rw [← List.zipIdx_map_fst 0 (stackBaseIndices ops), List.map_map]
      rfl
    have hsnd : ((stackBaseIndices ops).zipIdx.map fun p => (collectedConsts ops p.2).sum) =
        (List.range (stackBaseIndices ops).length).map fun i => (collectedConsts ops i).sum := by
      rw [List.range_eq_range', ← List.zipIdx_map_snd 0 (stackBaseIndices ops), List.map_map]
      rfl
    have hconsts : ((List.range (stackBaseIndices ops).length).map fun i => (collectedConsts ops i).sum).sum =
        ∑ i ∈ Finset.range (stackBaseIndices ops).length, (collectedConsts ops i).sum := rfl
    rw [List.sum_map_add, hfst, hsnd, hconsts, sum_collectedConsts, sum_eq_range]
    congr 1
    rw [stackBaseIndices, sum_filter_eq]
    refine Finset.sum_congr rfl fun j hj => ?_
    have hlt := Finset.mem_range.mp hj
    simp [List.getD_eq_getElem?_getD, hlt]
  have hvalue : sum σ [(true, e)] + sum σ [] = e.eval σ := by
    simp [value]
  rw [hvalue] at hsum
  rw [hsplit] at hcollect
  have hold := (sum_split (σ := σ) hops).symm.trans hsum
  rw [miscounted_eq]
  generalize (ops.map fun t => if isStackBase t.2 then value σ t else 0).sum = bases at *
  generalize (ops.map constValue).sum = consts at *
  generalize ∑ j ∈ Finset.range ops.length, (timesCollected ops j : Int) * (constAt ops j).getD 0 = counted at *
  generalize sum σ (ops.filter fun t => !isStackBase t.2 && !isConst t.2) = rest at *
  refine (hcollect.add_right rest).trans (Int.ModEq.trans ?_ (hold.add_right (counted - consts)))
  have heq : bases + counted + rest = bases + consts + rest + (counted - consts) := by ring
  exact congrArg (· % 2 ^ e.bits) heq

/-- The address is preserved if and only if what the constants are counted too often and
too seldom is nothing. -/
theorem optimizeAddSub_exact {e e' : Expr} (htyped : e.WellTyped) (h : optimizeAddSub e = .ok (some e')) :
    (∀ σ, e'.eval σ = e.eval σ) ↔ (2 ^ e.bits : Int) ∣ miscounted (consolidate [(true, e)] []) := by
  constructor
  · intro hsame
    have hmod := (eval_optimizeAddSub htyped h (.const 0)).2
    rw [hsame (.const 0)] at hmod
    have hzero := hmod.symm.sub (Int.ModEq.refl (e.eval (.const 0) : Int))
    rw [add_sub_cancel_left, sub_self] at hzero
    exact Int.modEq_zero_iff_dvd.mp hzero
  · intro hdvd σ
    obtain ⟨⟨htyped', hbits⟩, hmod⟩ := eval_optimizeAddSub htyped h σ
    have hsame : (e'.eval σ : Int) ≡ e.eval σ [ZMOD 2 ^ e.bits] := by
      have hzero := (Int.modEq_zero_iff_dvd.mpr hdvd).add_left (e.eval σ : Int)
      rw [add_zero] at hzero
      exact hmod.trans hzero
    have hlt := eval_lt σ e htyped
    have hlt' := eval_lt σ e' htyped'
    rw [hbits] at hlt'
    have hnat : e'.eval σ ≡ e.eval σ [MOD 2 ^ e.bits] := by
      refine Int.natCast_modEq_iff.mp ?_
      push_cast
      exact hsame
    exact Nat.ModEq.eq_of_lt_of_lt hnat hlt' hlt

/-- The constant behind a stack address and another term is added to the address. -/
theorem optimizeAddSub_exact_sum :
    (binaryOp .add (.stackBaseOffset 8 64) (.atom 0 64) false 64).eval (.const 7) =
      (binaryOp .add (.binaryOp .add (.stackBaseOffset 0 64) (.atom 0 64) false 64) (.const 8 64) false 64).eval
        (.const 7) := by
  have hall : consolidate [(true, .binaryOp .add (.binaryOp .add (.stackBaseOffset 0 64) (.atom 0 64) false 64)
      (.const 8 64) false 64)] [] = [(true, .stackBaseOffset 0 64), (true, .atom 0 64), (true, .const 8 64)] := by
    simp [consolidate]
  refine (optimizeAddSub_exact (e := .binaryOp .add (.binaryOp .add (.stackBaseOffset 0 64) (.atom 0 64) false 64)
    (.const 8 64) false 64) ⟨⟨Nat.le_refl 64, trivial, rfl, rfl⟩, trivial, rfl, rfl⟩ ?_).mpr ?_ (.const 7)
  · simp only [optimizeAddSub, hall]
    rfl
  · rw [hall]
    exact ⟨0, rfl⟩

/-- The constant in front of the stack address is lost. -/
theorem leading_const_dropped : ¬ ∀ (e e' : Expr) (σ : Env), e.WellTyped → optimizeAddSub e = .ok (some e') →
    e'.eval σ = e.eval σ := by
  intro h
  have hall : consolidate [(true, .binaryOp .add (.binaryOp .add (.const 8 64) (.stackBaseOffset 0 64) false 64)
      (.const 4 64) false 64)] [] = [(true, .const 8 64), (true, .stackBaseOffset 0 64), (true, .const 4 64)] := by
    simp [consolidate]
  have hlost := h (.binaryOp .add (.binaryOp .add (.const 8 64) (.stackBaseOffset 0 64) false 64) (.const 4 64) false 64)
    (.stackBaseOffset 4 64) (.const 0) ⟨⟨trivial, Nat.le_refl 64, rfl, rfl⟩, trivial, rfl, rfl⟩ (by
      simp only [optimizeAddSub, hall]
      rfl)
  exact absurd hlost (by decide)

end Angr.Peephole.TidyStackAddr
