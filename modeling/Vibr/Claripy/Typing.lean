import Vibr.Claripy.Ast

/-!
# Types

The argument types and the `extra_check` of `claripy/operations.py`, as a partial
function from the types of the arguments to the type of the result. An expression
that passes the checks has a value of its type under every assignment.
-/

namespace Claripy

inductive Ty where
  | bool
  | bv (length : Nat)
deriving DecidableEq, Repr

def Value.ty : Value → Ty
  | .bool _ => .bool
  | .bv w _ => .bv w

namespace Ty

def isBV : Ty → Bool
  | bv _ => true
  | bool => false

def length : Ty → Nat
  | bv w => w
  | bool => 0

/-- `length_same_check` on bitvectors, one at least. -/
def same : List Ty → Option Ty
  | bv w :: ts => if ts.all (· = bv w) then some (bv w) else none
  | _ => none

/-- The check of a comparison. -/
def compare : List Ty → Option Ty
  | [bv w, bv w'] => if w = w' then some bool else none
  | _ => none

def concat : List Ty → Option Ty
  | [] => none
  | t :: ts => if (t :: ts).all isBV then some (bv ((t :: ts).map length).sum) else none

end Ty

variable {t : Ty} {op : Op} {ts : List Ty}

namespace Op

@[grind =] def ty : Op → List Ty → Option Ty
  | BVS _ w, [] | BVV _ w, [] => if 0 < w then some (.bv w) else none
  | BoolS _, [] | BoolV _, [] => some .bool
  | add, ts | sub, ts | mul, ts | floordiv, ts | mod, ts | SDiv, ts | SMod, ts
  | and, ts | or, ts | xor, ts | lshift, ts | rshift, ts | LShR, ts
  | RotateLeft, ts | RotateRight, ts => Ty.same ts
  | neg, [.bv w] | invert, [.bv w] | Reverse, [.bv w] => some (.bv w)
  | Concat, ts => Ty.concat ts
  | Extract high low, [.bv w] => if low ≤ high ∧ high < w then some (.bv (high + 1 - low)) else none
  | ZeroExt n, [.bv w] | SignExt n, [.bv w] => some (.bv (w + n))
  | eq, [t, t'] | ne, [t, t'] => if t = t' then some .bool else none
  | UGT, ts | UGE, ts | ULT, ts | ULE, ts | SGT, ts | SGE, ts | SLT, ts | SLE, ts => Ty.compare ts
  | And, ts | Or, ts => if ts.all (· = .bool) then some .bool else none
  | Not, [.bool] => some .bool
  | If, [.bool, t, t'] => if t = t' then some t else none
  | _, _ => none

variable {vs : List Value}

theorem fold_ty {f : (w : Nat) → BitVec w → BitVec w → BitVec w} (h : Ty.same (vs.map Value.ty) = some t) :
    (Value.fold f vs).ty = t := by
  cases vs with
  | nil => simp [Ty.same] at h
  | cons v vs =>
    cases v with
    | bool b => simp [Ty.same, Value.ty] at h
    | bv w a =>
      have hfold : ∀ (vs : List Value) (a : BitVec w),
          (vs.foldl (Value.lift₂ f) (.bv w a)).ty = .bv w := by
        intro vs
        induction vs with
        | nil => intro a; rfl
        | cons v vs ih => intro a; exact ih _
      simp only [Ty.same, List.map_cons, Value.ty] at h
      split at h
      · cases h; exact hfold vs a
      · simp at h

theorem compare_ty {f : (w : Nat) → BitVec w → BitVec w → Bool} (h : Ty.compare (vs.map Value.ty) = some t) :
    (Value.compare f vs).ty = t := by
  rcases vs with _ | ⟨_ | _, _ | ⟨_ | _, _ | _⟩⟩ <;> simp_all [Ty.compare, Value.ty, Value.compare]

theorem concat_ty (h : Ty.concat (vs.map Value.ty) = some t) : (Op.apply .Concat vs).ty = t := by
  cases vs with
  | nil => simp [Ty.concat] at h
  | cons v vs =>
    have hfold : ∀ (vs : List Value) (w : Nat) (a : BitVec w), (vs.map Value.ty).all Ty.isBV →
        (vs.foldl Value.concat (.bv w a)).ty = .bv (w + ((vs.map Value.ty).map Ty.length).sum) := by
      intro vs
      induction vs with
      | nil => intro w a _; simp [Value.ty]
      | cons v vs ih =>
        intro w a hall
        cases v with
        | bool b => simp [Value.ty, Ty.isBV] at hall
        | bv w' b =>
          simp only [List.map_cons, List.all_cons, Bool.and_eq_true] at hall
          simp only [List.foldl_cons, Value.concat, List.map_cons, List.sum_cons]
          rw [ih _ _ hall.2]
          simp [Value.ty, Ty.length, Nat.add_assoc]
    cases v with
    | bool b => simp [Ty.concat, Value.ty, Ty.isBV] at h
    | bv w a =>
      simp only [Ty.concat, List.map_cons] at h
      split at h
      · rename_i hall
        simp only [List.all_cons, Bool.and_eq_true] at hall
        cases h
        exact hfold vs w a hall.2
      · simp at h

theorem ite_ty : (vs : List Value) → Op.ty .If (vs.map Value.ty) = some t →
    (Op.apply .If vs).ty = t
  | [.bool c, a, b], h => by
    have hab : (if a.ty = b.ty then some a.ty else none) = some t := h
    split at hab
    · cases hab
      cases c <;> simp_all [apply, Value.toBool]
    · cases hab
  | [], h | [_], h | [_, _], h | .bv _ _ :: _, h | _ :: _ :: _ :: _ :: _, h => by
    simp [ty, Value.ty] at h

/-- The value of an operation on values of the checked types has the type of the
result. Symbols are left to the assignment. -/
theorem apply_ty (h : op.ty (vs.map Value.ty) = some t) : (op.apply vs).ty = t := by
  cases op with
  | add | sub | mul | floordiv | mod | SDiv | SMod | and | or | xor | lshift | rshift | LShR
  | RotateLeft | RotateRight => exact fold_ty h
  | UGT | UGE | ULT | ULE | SGT | SGE | SLT | SLE => rw [apply]; exact compare_ty h
  | Concat => exact concat_ty h
  | neg | invert | Reverse =>
    rcases vs with _ | ⟨_ | _, _ | _⟩ <;> simp_all [ty, Value.ty, apply, Value.lift₁]
  | Extract | ZeroExt | SignExt =>
    rcases vs with _ | ⟨_ | _, _ | _⟩ <;> simp_all [ty, Value.ty, apply]
  | eq | ne => rcases vs with _ | ⟨_, _ | ⟨_, _ | _⟩⟩ <;> simp_all [ty, apply, Value.ty]
  | And | Or => simp_all [ty, apply, Value.ty]
  | BVS | BVV | BoolS | BoolV => cases vs <;> simp_all [ty, apply, Value.ty]
  | Not => rcases vs with _ | ⟨_ | _, _ | _⟩ <;> simp_all [ty, Value.ty, apply]
  | If => exact ite_ty vs h

/-- `calc_length` of an operation is the length of its type. -/
theorem ty_length (h : op.ty ts = some t) : op.length (ts.map Ty.length) = t.length := by
  have hsame : ∀ ts : List Ty, Ty.same ts = some t → (ts.map Ty.length).headD 0 = t.length := by
    intro ts hts
    rcases ts with _ | ⟨_ | w, ts⟩ <;> simp only [Ty.same, reduceCtorEq] at hts
    split at hts <;> cases hts
    rfl
  have hcompare : ∀ ts : List Ty, Ty.compare ts = some t → t = .bool := by
    intro ts hts
    rcases ts with _ | ⟨_ | w, _ | ⟨_ | w', _ | _⟩⟩ <;> simp_all [Ty.compare]
  cases op with
  | add | sub | mul | floordiv | mod | SDiv | SMod | and | or | xor | lshift | rshift | LShR
  | RotateLeft | RotateRight => exact hsame ts h
  | UGT | UGE | ULT | ULE | SGT | SGE | SLT | SLE => rw [hcompare ts h]; rfl
  | Concat =>
    rcases ts with _ | ⟨u, ts⟩ <;> simp only [ty, Ty.concat, reduceCtorEq] at h
    split at h <;> cases h
    rfl
  | neg | invert | Reverse | Extract | ZeroExt | SignExt | Not =>
    rcases ts with _ | ⟨_ | _, _ | _⟩ <;> grind [ty, length, Ty.length]
  | eq | ne => rcases ts with _ | ⟨_, _ | ⟨_, _ | _⟩⟩ <;> grind [ty, length, Ty.length]
  | And | Or =>
    simp only [ty, Option.ite_none_right_eq_some] at h
    rw [← Option.some.inj h.2]
    rfl
  | BVS | BVV | BoolS | BoolV => cases ts <;> grind [ty, length, Ty.length]
  | If => rcases ts with _ | ⟨_ | _, _ | ⟨_, _ | ⟨_, _ | _⟩⟩⟩ <;> grind [ty, length, Ty.length]

theorem ty_pos {w : Nat} (hts : ∀ u, Ty.bv u ∈ ts → 0 < u) (h : op.ty ts = some (.bv w)) : 0 < w := by
  have hsame : Ty.same ts = some (.bv w) → 0 < w := by
    intro hts'
    rcases ts with _ | ⟨_ | w', ts⟩ <;> simp only [Ty.same, reduceCtorEq] at hts'
    split at hts' <;> cases hts'
    exact hts w List.mem_cons_self
  have hcompare : Ty.compare ts ≠ some (.bv w) := by
    rcases ts with _ | ⟨_ | w, _ | ⟨_ | w', _ | _⟩⟩ <;> simp [Ty.compare]
  cases op with
  | add | sub | mul | floordiv | mod | SDiv | SMod | and | or | xor | lshift | rshift | LShR
  | RotateLeft | RotateRight => exact hsame h
  | UGT | UGE | ULT | ULE | SGT | SGE | SLT | SLE => exact absurd h hcompare
  | Concat =>
    rcases ts with _ | ⟨_ | u, ts⟩ <;> simp only [ty, Ty.concat, reduceCtorEq] at h
    · simp [Ty.isBV] at h
    · split at h <;> cases h
      have hu : 0 < u := hts u List.mem_cons_self
      exact Nat.lt_of_lt_of_le hu (Nat.le_add_right u _)
  | neg | invert | Reverse | Extract | ZeroExt | SignExt | Not =>
    rcases ts with _ | ⟨_ | _, _ | _⟩ <;> simp_all [ty] <;> omega
  | eq | ne => rcases ts with _ | ⟨_, _ | ⟨_, _ | _⟩⟩ <;> simp_all [ty]
  | And | Or => simp_all [ty]
  | BVS | BVV | BoolS | BoolV => cases ts <;> simp_all [ty] <;> omega
  | If => rcases ts with _ | ⟨_ | _, _ | ⟨_, _ | ⟨_, _ | _⟩⟩⟩ <;> simp_all [ty]

end Op

namespace Ast

mutual
/-- The type of an expression that the constructors accept. -/
@[grind =] def ty : Ast → Option Ty
  | node op args _ => (tyList args).bind op.ty

@[grind =] def tyList : List Ast → Option (List Ty)
  | [] => some []
  | a :: as => (a.ty).bind fun t => (tyList as).map (t :: ·)
end

theorem leaf_ty {ρ : Assignment} {v : Value} (hv : ρ.leaf op = some v) (h : op.ty ts = some t) : v.ty = t := by
  cases op <;> simp only [Assignment.leaf, Option.some.injEq, reduceCtorEq] at hv <;> subst hv <;>
    cases ts <;> simp_all [Op.ty, Value.ty]

mutual
/-- Type soundness of evaluation. -/
theorem eval_ty (ρ : Assignment) : (a : Ast) → (t : Ty) → a.ty = some t → (a.eval ρ).ty = t
  | node op args _, t, h => by
    rw [ty, Option.bind_eq_some_iff] at h
    obtain ⟨ts, hts, hop⟩ := h
    have hargs := evalList_ty ρ args ts hts
    rw [eval]
    cases hl : ρ.leaf op with
    | some v => exact leaf_ty hl hop
    | none => exact Op.apply_ty (by rw [hargs, hop])

theorem evalList_ty (ρ : Assignment) : (as : List Ast) → (ts : List Ty) → tyList as = some ts →
    (evalList ρ as).map Value.ty = ts
  | [], ts, h => by simpa [tyList, evalList] using h
  | a :: as, ts, h => by
    simp only [tyList, Option.bind_eq_some_iff, Option.map_eq_some_iff] at h
    obtain ⟨t, ht, ts', hts, rfl⟩ := h
    rw [evalList, List.map_cons, eval_ty ρ a t ht, evalList_ty ρ as ts' hts]
end

variable {args : List Ast} {annotations : List Annotation}

theorem ty_BVS {x : String} {w : Nat} (h : (node (.BVS x w) args annotations).ty = some t) : t = .bv w ∧ 0 < w := by
  rw [ty, Option.bind_eq_some_iff] at h
  obtain ⟨ts, -, hop⟩ := h
  cases ts <;> simp_all [Op.ty]

theorem ty_BVV {v w : Nat} (h : (node (.BVV v w) args annotations).ty = some t) : t = .bv w ∧ 0 < w := by
  rw [ty, Option.bind_eq_some_iff] at h
  obtain ⟨ts, -, hop⟩ := h
  cases ts <;> simp_all [Op.ty]

/-- Both sides of an equality have one type. -/
theorem ty_of_eq (hop : op = .eq ∨ op = .ne) {a b : Ast} (h : (node op [a, b] annotations).ty = some t) :
    t = .bool ∧ ∃ u, a.ty = some u ∧ b.ty = some u := by
  simp only [ty, tyList, Option.bind_eq_some_iff, Option.map_eq_some_iff] at h
  obtain ⟨ts, ⟨u, hu, _, ⟨u', hu', _, hnil, rfl⟩, rfl⟩, hts⟩ := h
  cases hnil
  have hsame : (if u = u' then some Ty.bool else none) = some t := by
    rcases hop with rfl | rfl <;> exact hts
  split at hsame
  · rename_i heq
    cases hsame
    exact ⟨rfl, u, hu, heq ▸ hu'⟩
  · cases hsame

/-- A comparison is one of two bitvectors of one length. -/
theorem ty_of_compare (hop : op.ty = Ty.compare) (h : (node op args annotations).ty = some t) :
    ∃ a b w, args = [a, b] ∧ a.ty = some (.bv w) ∧ b.ty = some (.bv w) := by
  rw [ty, hop, Option.bind_eq_some_iff] at h
  obtain ⟨ts, hts, hcompare⟩ := h
  rcases ts with _ | ⟨_ | w, _ | ⟨_ | w', _ | _⟩⟩ <;> simp only [Ty.compare, reduceCtorEq] at hcompare
  split at hcompare
  · rename_i heq
    subst heq
    rcases args with _ | ⟨a, _ | ⟨b, _ | ⟨c, cs⟩⟩⟩ <;>
      simp [tyList, Option.bind_eq_some_iff, Option.map_eq_some_iff] at hts
    exact ⟨a, b, w, rfl, hts⟩
  · cases hcompare

theorem args_of_eq (hop : op = .eq ∨ op = .ne) (h : (node op args annotations).ty = some t) : ∃ a b, args = [a, b] := by
  rw [ty, Option.bind_eq_some_iff] at h
  obtain ⟨ts, hts, hpair⟩ := h
  rcases args with _ | ⟨a, _ | ⟨b, _ | ⟨c, cs⟩⟩⟩
  · cases hts
    rcases hop with rfl | rfl <;> simp [Op.ty] at hpair
  · simp only [tyList, Option.bind_eq_some_iff, Option.map_eq_some_iff] at hts
    obtain ⟨_, _, _, ⟨⟩, rfl⟩ := hts
    rcases hop with rfl | rfl <;> simp [Op.ty] at hpair
  · exact ⟨a, b, rfl⟩
  · simp only [tyList, Option.bind_eq_some_iff, Option.map_eq_some_iff] at hts
    obtain ⟨_, _, _, ⟨_, _, _, ⟨_, _, _, _, rfl⟩, rfl⟩, rfl⟩ := hts
    rcases hop with rfl | rfl <;> simp [Op.ty] at hpair

/-- The conjuncts of a conjunction are constraints. -/
theorem ty_of_and (h : (node .And args annotations).ty = some t) : ∀ a ∈ args, a.ty = some .bool := by
  rw [ty, Option.bind_eq_some_iff] at h
  obtain ⟨ts, hts, hop⟩ := h
  simp only [Op.ty, Option.ite_none_right_eq_some] at hop
  have hall := hop.1
  clear hop
  induction args generalizing ts with
  | nil => simp
  | cons a as ih =>
    simp only [tyList, Option.bind_eq_some_iff, Option.map_eq_some_iff] at hts
    obtain ⟨u, hu, us, hus, rfl⟩ := hts
    simp only [List.all_cons, Bool.and_eq_true, decide_eq_true_eq] at hall
    intro b hb
    rcases List.mem_cons.mp hb with rfl | hb
    · rw [hu, hall.1]
    · exact ih us hus hall.2 b hb

mutual
/-- The constructors compute the length of the type. -/
theorem length_of_ty : (a : Ast) → (t : Ty) → a.ty = some t → a.length = t.length
  | node op args _, t, h => by
    rw [ty, Option.bind_eq_some_iff] at h
    obtain ⟨ts, hts, hop⟩ := h
    rw [length, lengthList_of_ty args ts hts, Op.ty_length hop]

theorem lengthList_of_ty : (as : List Ast) → (ts : List Ty) → tyList as = some ts →
    lengthList as = ts.map Ty.length
  | [], ts, h => by
    cases h
    rfl
  | a :: as, ts, h => by
    simp only [tyList, Option.bind_eq_some_iff, Option.map_eq_some_iff] at h
    obtain ⟨t, ht, ts', hts, rfl⟩ := h
    rw [lengthList, length_of_ty a t ht, lengthList_of_ty as ts' hts, List.map_cons]
end

theorem exists_bv_of_ty {a : Ast} {w : Nat} (h : a.ty = some (.bv w)) (ρ : Assignment) :
    ∃ v : BitVec w, a.eval ρ = .bv w v := by
  have hty := eval_ty ρ a _ h
  cases hv : a.eval ρ with
  | bool b => simp [hv, Value.ty] at hty
  | bv w' v =>
    rw [hv] at hty
    cases hty
    exact ⟨v, rfl⟩

theorem exists_bool_of_ty {a : Ast} (h : a.ty = some .bool) (ρ : Assignment) :
    ∃ b : Bool, a.eval ρ = .bool b := by
  have hty := eval_ty ρ a _ h
  cases hv : a.eval ρ with
  | bool b => exact ⟨b, rfl⟩
  | bv w' v => simp [hv, Value.ty] at hty

theorem exists_ty_of_mem {as : List Ast} (h : tyList as = some ts) : ∀ a ∈ as, ∃ t ∈ ts, a.ty = some t := by
  induction as generalizing ts with
  | nil => simp
  | cons a as ih =>
    simp only [tyList, Option.bind_eq_some_iff, Option.map_eq_some_iff] at h
    obtain ⟨t, ht, ts', hts, rfl⟩ := h
    intro b hb
    rcases List.mem_cons.mp hb with rfl | hb
    · exact ⟨t, List.mem_cons_self, ht⟩
    · obtain ⟨u, hu, hbu⟩ := ih hts b hb
      exact ⟨u, List.mem_cons_of_mem _ hu, hbu⟩

mutual
/-- The constructors accept no bitvector without bits. -/
theorem ty_pos : (a : Ast) → (w : Nat) → a.ty = some (.bv w) → 0 < w
  | node op args _, w, h => by
    rw [ty, Option.bind_eq_some_iff] at h
    obtain ⟨ts, hts, hop⟩ := h
    exact Op.ty_pos (tyList_pos args ts hts) hop

theorem tyList_pos : (as : List Ast) → (ts : List Ty) → tyList as = some ts → ∀ u, .bv u ∈ ts → 0 < u
  | [], ts, h, u, hu => by
    cases h
    simp at hu
  | a :: as, ts, h, u, hu => by
    simp only [tyList, Option.bind_eq_some_iff, Option.map_eq_some_iff] at h
    obtain ⟨t, ht, ts', hts, rfl⟩ := h
    rcases List.mem_cons.mp hu with rfl | hu
    · exact ty_pos a u ht
    · exact tyList_pos as ts' hts u hu
end

theorem ty_one (op : Op) (a : Ast) (annotations : List Annotation) :
    (node op [a] annotations).ty = a.ty.bind fun t => op.ty [t] := by
  cases h : a.ty <;> simp [ty, tyList, h]

theorem ty_two (op : Op) (a b : Ast) (annotations : List Annotation) :
    (node op [a, b] annotations).ty = a.ty.bind fun t => b.ty.bind fun u => op.ty [t, u] := by
  cases h : a.ty <;> cases h' : b.ty <;> simp [ty, tyList, h, h']

/-- The arguments of an operation on bitvectors of one length have the type of the result. -/
theorem ty_of_same (hop : op.ty = Ty.same) (h : (node op args annotations).ty = some t) :
    ∀ a ∈ args, a.ty = some t := by
  rw [ty, Option.bind_eq_some_iff, hop] at h
  obtain ⟨ts, hts, hsame⟩ := h
  have hall : ∀ u ∈ ts, u = t := by
    rcases ts with _ | ⟨_ | w, ts⟩ <;> simp only [Ty.same, reduceCtorEq] at hsame
    split at hsame <;> cases hsame
    rename_i hall
    simpa using hall
  intro a ha
  obtain ⟨u, hu, hau⟩ := exists_ty_of_mem hts a ha
  rw [hau, hall u hu]

theorem tyList_of_forall {as : List Ast} (h : ∀ a ∈ as, a.ty = some t) :
    tyList as = some (List.replicate as.length t) := by
  induction as with
  | nil => rfl
  | cons a as ih =>
    rw [tyList, h a List.mem_cons_self, ih fun b hb => h b (List.mem_cons_of_mem _ hb)]
    rfl

theorem ty_and (h : ∀ a ∈ args, a.ty = some .bool) : (node .And args annotations).ty = some .bool := by
  rw [ty, tyList_of_forall h]
  simp [Op.ty]

theorem ty_of_or (h : (node .Or args annotations).ty = some t) : ∀ a ∈ args, a.ty = some .bool :=
  ty_of_and (show (node .And args annotations).ty = some t from h)

end Ast

/-- A constraint that the constructors accept. -/
abbrev Constraint := { c : Ast // c.ty = some .bool }

end Claripy
