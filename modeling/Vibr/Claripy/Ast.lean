import Mathlib.Data.Finset.Option
import Mathlib.Data.BitVec
import Vibr.Lib.Bytes
import Vibr.Lib.Dict

/-!
# Expressions

The bitvector and Boolean part of `claripy/ast`. A node of the source carries an
operation, its arguments and its annotations; integer arguments (the bounds of
`Extract`, the amount of `ZeroExt`) are part of the operation here. The hash of a
node is a function of these three, so equality of trees stands for equality of
hashes and, by hash consing, for identity (`is`).
-/

namespace Claripy

/-- The concrete values of expressions. A Python integer that is the value of an
expression of length `w` is kept together with `w`. -/
inductive Value where
  | bv (w : Nat) (v : BitVec w)
  | bool (b : Bool)
deriving DecidableEq, Repr

structure Annotation where
  name : String
  /-- an instance of `SimplificationAvoidanceAnnotation` -/
  avoidsSimplification : Bool
deriving DecidableEq, Repr

inductive Op where
  -- leaves
  | BVS (name : String) (length : Nat)
  | BVV (value : Nat) (length : Nat)
  | BoolS (name : String)
  | BoolV (b : Bool)
  -- arithmetic
  | add | sub | mul | floordiv | mod | SDiv | SMod | neg
  -- bitwise
  | invert | and | or | xor | lshift | rshift | LShR | RotateLeft | RotateRight | Reverse
  -- changes of length
  | Concat | Extract (high low : Nat) | ZeroExt (amount : Nat) | SignExt (amount : Nat)
  -- comparisons
  | eq | ne | UGT | UGE | ULT | ULE | SGT | SGE | SLT | SLE
  -- Boolean
  | And | Or | Not
  | If
deriving DecidableEq, Repr

inductive Ast where
  | node (op : Op) (args : List Ast) (annotations : List Annotation)

namespace Value

def toBool : Value → Bool
  | bool b => b
  | bv _ _ => false

def toNat : Value → Nat
  | bv _ v => v.toNat
  | bool b => b.toNat

/-- The integer a bitvector stands for in the signed or the unsigned reading. -/
def toInt (signed : Bool) : Value → Int
  | bv _ v => if signed then v.toInt else v.toNat
  | bool b => b.toNat

def toBV (w : Nat) : Value → BitVec w
  | bv _ v => v.setWidth w
  | bool b => BitVec.ofNat w b.toNat

def lift₁ (f : (w : Nat) → BitVec w → BitVec w) : List Value → Value
  | [bv w a] => bv w (f w a)
  | _ => bool false

def lift₂ (f : (w : Nat) → BitVec w → BitVec w → BitVec w) : Value → Value → Value
  | bv w a, b => bv w (f w a (b.toBV w))
  | bool b, _ => bool b

/-- Left fold of a binary operation, for the operations claripy flattens. -/
def fold (f : (w : Nat) → BitVec w → BitVec w → BitVec w) : List Value → Value
  | [] => bool false
  | v :: vs => vs.foldl (lift₂ f) v

def compare (f : (w : Nat) → BitVec w → BitVec w → Bool) : List Value → Value
  | [bv w a, b] => bool (f w a (b.toBV w))
  | _ => bool false

def concat : Value → Value → Value
  | bv w a, bv w' b => bv (w + w') (a ++ b)
  | a, _ => a

@[simp] theorem toBool_eq_true {v : Value} : v.toBool = true ↔ v = bool true := by
  cases v <;> simp [toBool]

end Value

namespace Op

/-- The name of the variable a leaf stands for. -/
def symbol : Op → Option String
  | BVS name _ => some name
  | BoolS name => some name
  | _ => none

def isDivision : Op → Bool
  | floordiv | mod | SDiv | SMod => true
  | _ => false

/-- The SMT-LIB meaning of an operation on the values of its arguments. Symbols
have none of their own: their value comes from the assignment. -/
@[grind =] def apply : Op → List Value → Value
  | BVS _ w, _ => .bv w 0
  | BoolS _, _ => .bool false
  | BVV v w, _ => .bv w (BitVec.ofNat w v)
  | BoolV b, _ => .bool b
  | add, vs => .fold (fun _ a b => a + b) vs
  | sub, vs => .fold (fun _ a b => a - b) vs
  | mul, vs => .fold (fun _ a b => a * b) vs
  | floordiv, vs => .fold (fun _ a b => a.smtUDiv b) vs
  | mod, vs => .fold (fun _ a b => a % b) vs
  | SDiv, vs => .fold (fun _ a b => a.smtSDiv b) vs
  | SMod, vs => .fold (fun _ a b => a.srem b) vs
  | neg, vs => .lift₁ (fun _ a => -a) vs
  | invert, vs => .lift₁ (fun _ a => ~~~a) vs
  | and, vs => .fold (fun _ a b => a &&& b) vs
  | or, vs => .fold (fun _ a b => a ||| b) vs
  | xor, vs => .fold (fun _ a b => a ^^^ b) vs
  | lshift, vs => .fold (fun _ a b => a <<< b.toNat) vs
  | rshift, vs => .fold (fun _ a b => a.sshiftRight b.toNat) vs
  | LShR, vs => .fold (fun _ a b => a >>> b.toNat) vs
  | RotateLeft, vs => .fold (fun _ a b => a.rotateLeft b.toNat) vs
  | RotateRight, vs => .fold (fun _ a b => a.rotateRight b.toNat) vs
  | Reverse, vs => .lift₁ (fun w a => BitVec.ofNat w (Bytes.reverseBytes (w / 8) a.toNat)) vs
  | Concat, [] => .bool false
  | Concat, v :: vs => vs.foldl .concat v
  | Extract high low, [.bv _ a] => .bv (high + 1 - low) (a.extractLsb' low (high + 1 - low))
  | ZeroExt n, [.bv w a] => .bv (w + n) (a.setWidth (w + n))
  | SignExt n, [.bv w a] => .bv (w + n) (a.signExtend (w + n))
  | eq, [a, b] => .bool (a = b)
  | ne, [a, b] => .bool (a ≠ b)
  | UGT, vs => .compare (fun _ a b => b.ult a) vs
  | UGE, vs => .compare (fun _ a b => b.ule a) vs
  | ULT, vs => .compare (fun _ a b => a.ult b) vs
  | ULE, vs => .compare (fun _ a b => a.ule b) vs
  | SGT, vs => .compare (fun _ a b => b.slt a) vs
  | SGE, vs => .compare (fun _ a b => b.sle a) vs
  | SLT, vs => .compare (fun _ a b => a.slt b) vs
  | SLE, vs => .compare (fun _ a b => a.sle b) vs
  | And, vs => .bool (vs.all Value.toBool)
  | Or, vs => .bool (vs.any Value.toBool)
  | Not, [a] => .bool (!a.toBool)
  | If, [c, a, b] => if c.toBool then a else b
  | _, _ => .bool false

/-- `calc_length` of the operation, from the lengths of the arguments. -/
@[grind =] def length : Op → List Nat → Nat
  | BVS _ w, _ | BVV _ w, _ => w
  | BoolS _, _ | BoolV _, _ => 0
  | eq, _ | ne, _ | UGT, _ | UGE, _ | ULT, _ | ULE, _ | SGT, _ | SGE, _ | SLT, _ | SLE, _ => 0
  | And, _ | Or, _ | Not, _ => 0
  | Concat, ws => ws.sum
  | Extract high low, _ => high + 1 - low
  | ZeroExt n, ws | SignExt n, ws => ws.headD 0 + n
  | If, ws => ws.tail.headD 0
  | _, ws => ws.headD 0

end Op

/-- A value for every variable, for its use as a bitvector and as a Boolean. -/
structure Assignment where
  bv : String → Nat
  bool : String → Bool

variable {ρ ρ' : Assignment} {x : String}

namespace Assignment

/-- The value of a leaf symbol; other operations are computed from their arguments. -/
@[grind =] def leaf (ρ : Assignment) : Op → Option Value
  | .BVS name w => some (.bv w (BitVec.ofNat w (ρ.bv name)))
  | .BoolS name => some (.bool (ρ.bool name))
  | _ => none

def agreeOn (names : Finset String) (ρ ρ' : Assignment) : Prop :=
  ∀ x ∈ names, ρ.bv x = ρ'.bv x ∧ ρ.bool x = ρ'.bool x

theorem agreeOn.trans {names : Finset String} {ρ₁ ρ₂ ρ₃ : Assignment} (h₁ : agreeOn names ρ₁ ρ₂)
    (h₂ : agreeOn names ρ₂ ρ₃) : agreeOn names ρ₁ ρ₃ :=
  fun x hx => ⟨(h₁ x hx).1.trans (h₂ x hx).1, (h₁ x hx).2.trans (h₂ x hx).2⟩

theorem agreeOn.mono {names names' : Finset String} (h : agreeOn names ρ ρ') (hsub : names' ⊆ names) :
    agreeOn names' ρ ρ' :=
  fun x hx => h x (hsub hx)

theorem leaf_isSome (ρ : Assignment) (op : Op) : (ρ.leaf op).isSome = op.symbol.isSome := by
  cases op <;> rfl

theorem leaf_congr {op : Op} (hop : op.symbol = some x) (h : ρ.bv x = ρ'.bv x ∧ ρ.bool x = ρ'.bool x) :
    ρ.leaf op = ρ'.leaf op := by
  cases op <;> simp_all [leaf, Op.symbol]

end Assignment

/-! ## Trees -/

namespace Ast

def op : Ast → Op
  | node op _ _ => op

def args : Ast → List Ast
  | node _ args _ => args

def annotations : Ast → List Annotation
  | node _ _ annotations => annotations

def clearAnnotations : Ast → Ast
  | node op args _ => node op args []

/-- Induction over trees, with the hypothesis for every argument. -/
theorem induct {P : Ast → Prop}
    (h : ∀ op args annotations, (∀ a ∈ args, P a) → P (node op args annotations)) : ∀ a, P a
  | node op args annotations => h op args annotations (go args)
where
  go : ∀ (args : List Ast), ∀ a ∈ args, P a
    | b :: bs, a, ha =>
      match List.mem_cons.mp ha with
      | .inl e => e ▸ induct h b
      | .inr hb => go bs a hb

mutual
private def decEq : (a b : Ast) → Decidable (a = b)
  | node op args ann, node op' args' ann' =>
    match decEqList args args' with
    | isTrue h => decidable_of_iff (op = op' ∧ ann = ann') (by simp [h])
    | isFalse h => isFalse (by simp [h])

private def decEqList : (as bs : List Ast) → Decidable (as = bs)
  | [], [] => isTrue rfl
  | [], _ :: _ => isFalse (by simp)
  | _ :: _, [] => isFalse (by simp)
  | a :: as, b :: bs =>
    match decEq a b, decEqList as bs with
    | isTrue h, isTrue hs => isTrue (by rw [h, hs])
    | isFalse h, _ => isFalse (by simp [h])
    | _, isFalse hs => isFalse (by simp [hs])
end

instance : DecidableEq Ast := decEq

mutual
def vars : Ast → Finset String
  | node op args _ => op.symbol.toFinset ∪ varsList args

def varsList : List Ast → Finset String
  | [] => ∅
  | a :: as => a.vars ∪ varsList as
end

theorem mem_varsList {as : List Ast} : x ∈ varsList as ↔ ∃ a ∈ as, x ∈ a.vars := by
  induction as with
  | nil => simp [varsList]
  | cons a as ih => simp [varsList, ih]

theorem vars_subset_of_mem {op : Op} {args : List Ast} {annotations : List Annotation}
    {a : Ast} (h : a ∈ args) : a.vars ⊆ (node op args annotations).vars := by
  intro x hx
  simp only [vars, Finset.mem_union]
  exact .inr (mem_varsList.mpr ⟨a, h, hx⟩)

mutual
/-- The variables in the order in which a walk over the tree meets them. -/
def varList : Ast → List String
  | node op args _ => op.symbol.toList ∪ varListArgs args

def varListArgs : List Ast → List String
  | [] => []
  | a :: as => a.varList ∪ varListArgs as
end

mutual
theorem mem_varList : {a : Ast} → (x ∈ a.varList ↔ x ∈ a.vars)
  | node op args _ => by
    rw [varList, vars, List.mem_union_iff, Finset.mem_union, mem_varListArgs]
    simp

theorem mem_varListArgs : {as : List Ast} → (x ∈ varListArgs as ↔ x ∈ varsList as)
  | [] => by simp [varListArgs, varsList]
  | a :: as => by
    rw [varListArgs, varsList, List.mem_union_iff, Finset.mem_union, mem_varList, mem_varListArgs]
end

/-- An expression with a variable in it. -/
def symbolic (a : Ast) : Bool := a.vars ≠ ∅

mutual
/-- The length in bits that the constructors of the source compute; Boolean
expressions have none and get `0`. -/
@[grind =] def length : Ast → Nat
  | node op args _ => op.length (lengthList args)

@[grind =] def lengthList : List Ast → List Nat
  | [] => []
  | a :: as => a.length :: lengthList as
end

mutual
def depth : Ast → Nat
  | node _ args _ => depthList args + 1

def depthList : List Ast → Nat
  | [] => 0
  | a :: as => max a.depth (depthList as)
end

mutual
/-- The value of an expression under an assignment. -/
@[grind =] def eval (ρ : Assignment) : Ast → Value
  | node op args _ => (ρ.leaf op).getD (op.apply (evalList ρ args))

@[grind =] def evalList (ρ : Assignment) : List Ast → List Value
  | [] => []
  | a :: as => a.eval ρ :: evalList ρ as
end

@[simp] theorem evalList_eq_map (ρ : Assignment) (as : List Ast) :
    evalList ρ as = as.map (eval ρ) := by
  induction as with
  | nil => rfl
  | cons a as ih => simp [evalList, ih]

mutual
/-- The operations of all nodes. -/
def ops : Ast → List Op
  | node op args _ => op :: opsList args

def opsList : List Ast → List Op
  | [] => []
  | a :: as => a.ops ++ opsList as
end

theorem mem_opsList {as : List Ast} {op : Op} : op ∈ opsList as ↔ ∃ a ∈ as, op ∈ a.ops := by
  induction as with
  | nil => simp [opsList]
  | cons a as ih => simp [opsList, ih]

theorem mem_vars_of_mem_ops {a : Ast} {op : Op} (hop : op ∈ a.ops) (hx : op.symbol = some x) : x ∈ a.vars := by
  induction a using induct with
  | h op' args annotations ih =>
    simp only [ops, List.mem_cons, mem_opsList] at hop
    rcases hop with rfl | ⟨b, hb, hop⟩
    · simp [vars, hx]
    · exact vars_subset_of_mem hb (ih b hb hop)

/-- The value of an expression only depends on the values of its leaves. -/
theorem eval_congr_leaf (a : Ast) (h : ∀ op ∈ a.ops, ρ.leaf op = ρ'.leaf op) : a.eval ρ = a.eval ρ' := by
  induction a using induct with
  | h op args annotations ih =>
    have hargs : args.map (eval ρ) = args.map (eval ρ') :=
      List.map_congr_left fun a ha => ih a ha fun op hop =>
        h op (by simp only [ops, List.mem_cons, mem_opsList]; exact .inr ⟨a, ha, hop⟩)
    simp only [eval, evalList_eq_map, hargs, h op (by simp [ops])]

/-- The value of an expression only depends on its variables. -/
theorem eval_congr (a : Ast) (h : ρ.agreeOn a.vars ρ') : a.eval ρ = a.eval ρ' := by
  refine eval_congr_leaf a fun op hop => ?_
  cases hx : op.symbol with
  | some x => exact Assignment.leaf_congr hx (h x (mem_vars_of_mem_ops hop hx))
  | none =>
    have hl : ∀ ρ : Assignment, ρ.leaf op = none := fun ρ => by
      rw [← Option.not_isSome_iff_eq_none, ρ.leaf_isSome, hx]; simp
    rw [hl, hl]

/-- An expression without variables has the same value under every assignment. -/
theorem eval_closed {a : Ast} (h : a.vars = ∅) (ρ ρ' : Assignment) :
    a.eval ρ = a.eval ρ' :=
  eval_congr a (by simp [h, Assignment.agreeOn])

/-- A bitvector expression: it has a positive length, and a value of that length
under every assignment. -/
structure IsBV (e : Ast) : Prop where
  length_pos : 0 < e.length
  eval_bv : ∀ ρ, ∃ v : BitVec e.length, e.eval ρ = .bv e.length v

/-- A constraint holds when its value is `True`. -/
def holds (ρ : Assignment) (c : Ast) : Prop := c.eval ρ = .bool true

instance (ρ : Assignment) (c : Ast) : Decidable (c.holds ρ) :=
  inferInstanceAs (Decidable (_ = _))

theorem holds_congr {c : Ast} (h : ρ.agreeOn c.vars ρ') : c.holds ρ ↔ c.holds ρ' := by
  rw [holds, holds, eval_congr c h]

end Ast
end Claripy
