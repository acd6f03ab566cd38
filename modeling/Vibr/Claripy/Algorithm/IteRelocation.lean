import Vibr.Claripy.If
import Vibr.Lib.Fuel
import Vibr.Lib.LabelledTree

/-!
# Burrowing If expressions

`burrow_ite` of `claripy/algorithm/ite_relocation.py`. An `If` over two expressions of the
same operation becomes that operation, with an `If` in the place of the first argument in
which the two differ. The results are kept in a weak dictionary from expressions to
expressions that all calls share.
-/

namespace Claripy

open Ast

/-- An error of the constructor `If`, or of a node that is built again. -/
abbrev BurrowError := TypeError ⊕ Error

/-- The integers among the arguments, which come before the expressions. -/
def Op.ints : Op → List Nat
  | .Extract high low => [high, low]
  | .ZeroExt n | .SignExt n => [n]
  | _ => []

/-- Operations of one name, whatever their integers are. The names of leaves do not matter. -/
def Op.sameName : Op → Op → Bool
  | .Extract _ _, .Extract _ _ | .ZeroExt _, .ZeroExt _ | .SignExt _, .SignExt _ => true
  | op, op' => op = op'

/-- `is` on the integer arguments of two expressions: identical integers are equal, but equal
integers above 256 need not be identical. -/
structure IntIdentity where
  same : Ast → Ast → Nat → Bool
  eq_of_same : ∀ a b i, same a b i = true → a.op.ints[i]? = b.op.ints[i]?

namespace Ast

/-- `args` of the source -/
def sourceArgs (a : Ast) : List (Nat ⊕ Ast) := a.op.ints.map .inl ++ a.args.map .inr

def isLeaf (a : Ast) : Bool := a.args.isEmpty

end Ast

abbrev BurrowCache := Dict Ast Ast

/-- What a call gives if it has enough fuel: a result or an error, and the cache. -/
abbrev BurrowOutcome (α : Type) := Except Fuel.OutOfFuel (Except BurrowError α × BurrowCache)

def BurrowOutcome.andThen {α β : Type} (out : BurrowOutcome α) (f : α → BurrowCache → BurrowOutcome β) :
    BurrowOutcome β :=
  match out with
  | .error x => .error x
  | .ok (.error x, cache) => .ok (.error x, cache)
  | .ok (.ok a, cache) => f a cache

namespace Builder

variable (B : Builder) (I : IntIdentity)

/-- `old_true.args[i] is old_false.args[i]` -/
def argIs (oldTrue oldFalse : Ast) (i : Nat) : Bool :=
  match oldTrue.sourceArgs[i]?, oldFalse.sourceArgs[i]? with
  | some (.inl _), some (.inl _) => I.same oldTrue oldFalse i
  | some (.inr a), some (.inr b) => a = b
  | _, _ => false

/-- The argument into which `_burrow_ite` pushes an `If`, or `none` where it gives up. -/
def differentIdx (cond oldTrue oldFalse : Ast) : Option Nat :=
  if ¬ oldTrue.op.sameName oldFalse.op ∨ oldTrue.sourceArgs.length ≠ oldFalse.sourceArgs.length then none
  else if oldTrue.op = .If then none
  else if cond.isLeaf ∨ oldTrue.isLeaf ∨ oldFalse.isLeaf then none
  else
    let matched := (List.range oldTrue.sourceArgs.length).map (argIs I oldTrue oldFalse)
    if matched.count true ≠ 1 ∨ matched.all id then none
    else some (matched.idxOf false)

/-- `claripy.If` on two arguments of the source -/
def innerIf (cond oldTrue oldFalse : Ast) (i : Nat) : Except BurrowError Ast :=
  match oldTrue.sourceArgs[i]?, oldFalse.sourceArgs[i]? with
  | some (.inr a), some (.inr b) => (B.ite cond a b).mapError .inl
  | _, _ => .error (.inl (.ClaripyTypeError "true/false clause of If must have bearable types"))

/-- `new_args[i] = a`, with the integers left where they are. -/
def replaceArg (old : Ast) (i : Nat) (a : Ast) : List Ast := old.args.set (i - old.op.ints.length) a

/-- `make_like` with other arguments. Leaves are not folded. -/
def rebuild (expr : Ast) (args : List Ast) : Except BurrowError Ast :=
  if expr.isLeaf then .ok (node expr.op [] (B.inherited expr.annotations []))
  else (makeLike B.toAnnotationRules expr args).mapError .inr

variable (burrow : Ast → BurrowCache → BurrowOutcome Ast)

def burrowArgs : List Ast → BurrowCache → BurrowOutcome (List Ast)
  | [], cache => .ok (.ok [], cache)
  | a :: as, cache =>
    (burrow a cache).andThen fun a' cache =>
      (burrowArgs as cache).andThen fun as' cache => .ok (.ok (a' :: as'), cache)

/-- `_burrow_ite` -/
def burrowOnce (expr : Ast) (cache : BurrowCache) : BurrowOutcome Ast :=
  match expr with
  | node .If [cond, oldTrue, oldFalse] ann =>
    match differentIdx I cond oldTrue oldFalse with
    | none => .ok (.ok (node .If [cond, oldTrue, oldFalse] ann), cache)
    | some i =>
      match B.innerIf cond oldTrue oldFalse i with
      | .error x => .ok (.error x, cache)
      | .ok inner =>
        (burrow inner cache).andThen fun a cache =>
          -- a node of the same class, without the annotations of `old_true`
          .ok (B.rebuild (node oldTrue.op oldTrue.args []) (replaceArg oldTrue i a), cache)
  | node op args ann =>
    (burrowArgs burrow args cache).andThen fun args' cache =>
      .ok (B.rebuild (node op args ann) args', cache)

/-- `burrow_ite`. The dictionary holds its values weakly: `alive` says which entries are still
there when they are looked up. -/
def burrowIte (alive : BurrowCache → Ast → Bool) : Nat → Ast → BurrowCache → BurrowOutcome Ast
  | 0, _, _ => .error .outOfFuel
  | n + 1, expr, cache =>
    match (cache.restrict (alive cache)).get? expr with
    | some burrowed => .ok (.ok burrowed, cache)
    | none =>
      (burrowOnce B I (burrowIte alive n) expr cache).andThen fun burrowed cache =>
        .ok (.ok burrowed, (cache.set burrowed burrowed).set expr burrowed)

/-! ## The condition -/

/-- The expressions that a call of `burrow_ite` calls it on again. -/
def visited (expr : Ast) : List Ast :=
  match expr with
  | node .If [cond, oldTrue, oldFalse] _ =>
    match differentIdx I cond oldTrue oldFalse with
    | none => []
    | some i => (B.innerIf cond oldTrue oldFalse i).toOption.toList
  | node _ args _ => args

/-- The nodes that a call builds, before the arguments are burrowed into. -/
def rebuilt (expr : Ast) : List Ast :=
  match expr with
  | node .If [cond, oldTrue, oldFalse] _ =>
    match differentIdx I cond oldTrue oldFalse with
    | none => []
    | some i =>
      (B.innerIf cond oldTrue oldFalse i).toOption.toList.map fun inner =>
        node oldTrue.op (replaceArg oldTrue i inner) []
  | node op args ann => [node op args ann]

/-- A division of constants, whatever variables are in them, and one of them by zero. -/
def DividesByZero (a : Ast) : Prop :=
  a.op.isDivision ∧ (∀ arg ∈ a.args, ∀ ρ ρ', arg.eval ρ = arg.eval ρ') ∧
    ∃ d ∈ a.args.tail, (d.eval anyAssignment).toNat = 0

/-- Of three arguments or more, two differ where one agrees. -/
def PushesOne (expr : Ast) : Prop :=
  match expr with
  | node .If [cond, oldTrue, oldFalse] _ =>
    ∀ i, differentIdx I cond oldTrue oldFalse = some i →
      oldTrue.sourceArgs.length = 2 ∧ oldTrue.op.ints.length ≤ i
  | _ => True

/-- No call on the way pushes an `If` past a difference, into an integer, or makes a division
by zero. -/
def Burrows (expr : Ast) : Prop :=
  ∀ e, Relation.ReflTransGen (fun e e' => e' ∈ B.visited I e) expr e →
    PushesOne I e ∧ ∀ d ∈ B.rebuilt I e, ¬ DividesByZero d

end Builder

/-! ## Types of arguments -/

variable {op : Op} {ts : List Ty} {t : Ty}

namespace Op

def takesBV : Op → Bool
  | .And | .Or | .Not => false
  | _ => true

theorem isBV_of_ty (heq : op ≠ .eq) (hne : op ≠ .ne) (hIf : op ≠ .If) (h : op.ty ts = some t) :
    ∀ u ∈ ts, u.isBV = op.takesBV := by
  have hsame : Ty.same ts = some t → ∀ u ∈ ts, u.isBV = true := by
    intro hts u hu
    rcases ts with _ | ⟨_ | w, ts⟩ <;> simp only [Ty.same, Option.ite_none_right_eq_some, reduceCtorEq] at hts
    obtain rfl | hu := List.mem_cons.mp hu
    · rfl
    · rw [of_decide_eq_true (List.all_eq_true.mp hts.1 u hu)]
      rfl
  have hcompare : Ty.compare ts = some t → ∀ u ∈ ts, u.isBV = true := by
    intro hts
    rcases ts with _ | ⟨_ | w, _ | ⟨_ | w', _ | _⟩⟩ <;> simp_all [Ty.compare, Ty.isBV]
  cases op with
  | add | sub | mul | floordiv | mod | SDiv | SMod | and | or | xor | lshift | rshift | LShR
  | RotateLeft | RotateRight => exact hsame h
  | UGT | UGE | ULT | ULE | SGT | SGE | SLT | SLE => exact hcompare h
  | Concat =>
    rcases ts with _ | ⟨u, ts⟩ <;> simp only [ty, Ty.concat, Option.ite_none_right_eq_some, reduceCtorEq] at h
    exact List.all_eq_true.mp h.1
  | neg | invert | Reverse | Extract | ZeroExt | SignExt | Not =>
    rcases ts with _ | ⟨_ | _, _ | _⟩ <;> grind [ty, Ty.isBV, takesBV]
  | And | Or =>
    simp only [ty, Option.ite_none_right_eq_some, List.all_eq_true, decide_eq_true_eq] at h
    exact fun u hu => by rw [h.1 u hu]; rfl
  | BVS | BVV | BoolS | BoolV => cases ts <;> simp_all [ty]
  | eq => exact absurd rfl heq
  | ne => exact absurd rfl hne
  | If => exact absurd rfl hIf

theorem eq_of_ty_eq (hop : op = .eq ∨ op = .ne) (h : op.ty ts = some t) : ∀ u ∈ ts, ∀ v ∈ ts, u = v := by
  have hpair : ∃ u, ts = [u, u] := by
    rcases hop with rfl | rfl <;> rcases ts with _ | ⟨u, _ | ⟨v, _ | _⟩⟩ <;>
      simp only [ty, Option.ite_none_right_eq_some, reduceCtorEq] at h <;> exact ⟨u, by rw [h.1]⟩
  obtain ⟨u, rfl⟩ := hpair
  simp

theorem sum_length_set {j : Nat} {u : Ty} (hu : ts[j]? = some u) (u' : Ty) :
    ((ts.set j u').map Ty.length).sum + u.length = (ts.map Ty.length).sum + u'.length := by
  induction ts generalizing j with
  | nil => simp at hu
  | cons t ts ih =>
    cases j with
    | zero =>
      obtain rfl : t = u := by simpa using hu
      simp only [List.set_cons_zero, List.map_cons, List.sum_cons]
      omega
    | succ j =>
      have := ih (j := j) (by simpa using hu)
      simp only [List.set_cons_succ, List.map_cons, List.sum_cons]
      omega

/-- The other arguments and the type of the result determine the type of an argument. -/
theorem ty_set {t u u' : Ty} {j : Nat} (hop : ∀ high low, op ≠ .Extract high low) (hIf : op ≠ .If)
    (h : op.ty ts = some t) (h' : op.ty (ts.set j u') = some t) (hu : ts[j]? = some u) : u = u' := by
  have hsame : ∀ ts : List Ty, Ty.same ts = some t → ∀ u ∈ ts, u = t := by
    intro ts hts u hu
    rcases ts with _ | ⟨_ | w, ts⟩ <;> simp only [Ty.same, Option.ite_none_right_eq_some, reduceCtorEq] at hts
    obtain rfl | hu := List.mem_cons.mp hu
    · exact Option.some.inj hts.2
    · rw [of_decide_eq_true (List.all_eq_true.mp hts.1 u hu)]
      exact Option.some.inj hts.2
  have hcompare : ∀ ts : List Ty, Ty.compare ts = some t → ∃ v, ts = [v, v] := by
    intro ts hts
    rcases ts with _ | ⟨_ | w, _ | ⟨_ | w', _ | _⟩⟩ <;>
      simp only [Ty.compare, Option.ite_none_right_eq_some, reduceCtorEq] at hts
    exact ⟨.bv w, by rw [hts.1]⟩
  have hpair : ∀ v v' : Ty, ts = [v, v] → ts.set j u' = [v', v'] → u = u' := by
    rintro v v' rfl hset
    rcases j with _ | _ | j <;> simp_all
  have hmem : u ∈ ts := List.mem_of_getElem? hu
  have hmem' : u' ∈ ts.set j u' := List.mem_set (List.getElem?_eq_some_iff.mp hu).1 u'
  cases op with
  | add | sub | mul | floordiv | mod | SDiv | SMod | and | or | xor | lshift | rshift | LShR
  | RotateLeft | RotateRight => exact (hsame _ h u hmem).trans (hsame _ h' u' hmem').symm
  | UGT | UGE | ULT | ULE | SGT | SGE | SLT | SLE =>
    obtain ⟨v, hv⟩ := hcompare _ h
    obtain ⟨v', hv'⟩ := hcompare _ h'
    exact hpair v v' hv hv'
  | eq | ne =>
    rcases ts with _ | ⟨_, _ | ⟨_, _ | _⟩⟩ <;> rcases j with _ | _ | j <;> grind [ty]
  | Concat =>
    have hconcat : ∀ ts : List Ty, Ty.concat ts = some t →
        (∀ u ∈ ts, u.isBV = true) ∧ t = .bv (ts.map Ty.length).sum := by
      intro ts hts
      rcases ts with _ | ⟨u, ts⟩ <;>
        simp only [Ty.concat, Option.ite_none_right_eq_some, reduceCtorEq] at hts
      exact ⟨List.all_eq_true.mp hts.1, (Option.some.inj hts.2).symm⟩
    obtain ⟨hall, ht⟩ := hconcat _ h
    obtain ⟨hall', ht'⟩ := hconcat _ h'
    have hsum := sum_length_set hu u'
    have hbv := hall u hmem
    have hbv' := hall' u' hmem'
    cases u with
    | bool => cases hbv
    | bv w =>
      cases u' with
      | bool => cases hbv'
      | bv w' =>
        have := Ty.bv.inj (ht.symm.trans ht')
        simp only [Ty.length] at hsum this
        rw [show w = w' by omega]
  | neg | invert | Reverse | ZeroExt | SignExt | Not =>
    rcases ts with _ | ⟨_ | _, _ | _⟩ <;> rcases j with _ | j <;> cases u' <;> grind [ty]
  | Extract high low => exact absurd rfl (hop high low)
  | And | Or =>
    simp only [ty, Option.ite_none_right_eq_some, List.all_eq_true, decide_eq_true_eq] at h h'
    rw [h.1 u hmem, h'.1 u' hmem']
  | BVS | BVV | BoolS | BoolV => cases ts <;> simp_all [ty]
  | If => exact absurd rfl hIf

end Op

namespace Ast

theorem tyList_eq_some {as : List Ast} : tyList as = some ts ↔ as.map Ast.ty = ts.map some := by
  induction as generalizing ts with
  | nil => cases ts <;> simp [tyList]
  | cons a as ih =>
    simp only [tyList, Option.bind_eq_some_iff, Option.map_eq_some_iff, List.map_cons]
    constructor
    · rintro ⟨t, ht, ts', hts', rfl⟩
      rw [List.map_cons, ht, ih.mp hts']
    intro h
    rcases ts with _ | ⟨t, ts⟩
    · cases h
    · obtain ⟨ht, hts⟩ := List.cons.inj h
      exact ⟨t, ht, ts, ih.mpr hts, rfl⟩

theorem ty_arg {e a : Ast} {k : Nat} (he : e.ty = some t) (ha : e.args[k]? = some a) :
    ∃ ts u, tyList e.args = some ts ∧ e.op.ty ts = some t ∧ ts[k]? = some u ∧ a.ty = some u := by
  obtain ⟨op, args, ann⟩ := e
  obtain ⟨ts, hts, hop⟩ := Option.bind_eq_some_iff.mp he
  have hmap := congrArg (fun l : List (Option Ty) => l[k]?) (tyList_eq_some.mp hts)
  simp only [List.getElem?_map] at hmap
  rw [show args[k]? = some a from ha, Option.map_some] at hmap
  obtain ⟨u, hu, heq⟩ := Option.map_eq_some_iff.mp hmap.symm
  exact ⟨ts, u, hts, hop, hu, heq.symm⟩

end Ast

/-! ## Weights -/

variable {ann : List Annotation}

namespace Ast

mutual
/-- The weights of the operations in an expression, added up. -/
def weigh (weight : Op → Nat) : Ast → Nat
  | node op args _ => weight op + weighList weight args

def weighList (weight : Op → Nat) : List Ast → Nat
  | [] => 0
  | a :: as => a.weigh weight + weighList weight as
end

variable {weight : Op → Nat}

theorem weigh_le_of_mem {a : Ast} {as : List Ast} (h : a ∈ as) : a.weigh weight ≤ weighList weight as := by
  induction as with
  | nil => cases h
  | cons b as ih =>
    rw [weighList]
    obtain rfl | h := List.mem_cons.mp h
    · exact Nat.le_add_right _ _
    · exact (ih h).trans (Nat.le_add_left _ _)

theorem weigh_arg {a : Ast} {args : List Ast} (h : a ∈ args) :
    a.weigh weight + weight op ≤ (node op args ann).weigh weight := by
  have : a.weigh weight ≤ weighList weight args := weigh_le_of_mem h
  rw [weigh]
  omega

@[simp] theorem weigh_annotate (ann : List Annotation) (a : Ast) : (a.annotate ann).weigh weight = a.weigh weight := by
  cases a
  rfl

theorem weigh_If (c a b : Ast) (ann : List Annotation) :
    (node .If [c, a, b] ann).weigh weight = weight .If + c.weigh weight + a.weigh weight + b.weigh weight := by
  simp only [weigh, weighList]
  omega

theorem weigh_trueBranch (c notC t : Ast) : (trueBranch c notC t).weigh weight ≤ t.weigh weight :=
  trueBranch_induction (P := fun a => a.weigh weight ≤ t.weigh weight)
    (fun c a b ann h => by rw [weigh_If] at h; omega) le_rfl

theorem weigh_falseBranch (c notC t : Ast) : (falseBranch c notC t).weigh weight ≤ t.weigh weight :=
  falseBranch_induction (P := fun a => a.weigh weight ≤ t.weigh weight)
    (fun c a b ann h => by rw [weigh_If] at h; omega) le_rfl

/-- The expressions that are smaller in weight, or in size and not greater in weight. -/
def Lighter (weight : Op → Nat) (a b : Ast) : Prop :=
  a.weigh weight < b.weigh weight ∨
    a.weigh weight ≤ b.weigh weight ∧ a.weigh (fun _ => 1) < b.weigh fun _ => 1

theorem lighter_wf (weight : Op → Nat) : WellFounded (Lighter weight) := by
  refine Subrelation.wf ?_ (InvImage.wf (fun a : Ast => (a.weigh weight, a.weigh fun _ => 1))
    (WellFounded.prod_lex wellFounded_lt wellFounded_lt))
  rintro a b (hlt | ⟨hle, hlt⟩)
  · exact Prod.lex_def.mpr (.inl hlt)
  · obtain hlt' | heq := hle.lt_or_eq
    · exact Prod.lex_def.mpr (.inl hlt')
    · exact Prod.lex_def.mpr (.inr ⟨heq, hlt⟩)

end Ast

/-- Constructors with weights of the operations. `If` weighs something, and the constructor `Not`,
which simplifies comparisons, makes a condition no heavier. -/
structure WeighedBuilder extends Builder where
  weight : Op → Nat
  weight_If : 0 < weight .If
  weigh_not : ∀ c, (build .Not [c]).weigh weight ≤ c.weigh weight

variable {i : Nat}

namespace Builder

variable {B : Builder} {I : IntIdentity}

/-- `If` makes no expression that is heavier than its node, or a negation. -/
theorem weigh_iteSimplified {cond : Ast} (trueValue falseValue : Ast) (hc : cond.ty = some .bool) :
    B.iteSimplified cond trueValue falseValue = B.build .Not [cond] ∨
      ∀ weight, (B.iteSimplified cond trueValue falseValue).weigh weight ≤
        (node .If [cond, trueValue, falseValue] []).weigh weight := by
  unfold iteSimplified
  split
  · exact .inr fun weight => by rw [appendAnnotations, weigh_annotate, weigh_If]; omega
  rename_i htrue
  split
  · exact .inr fun weight => by rw [appendAnnotations, weigh_annotate, weigh_If]; omega
  rename_i hfalse
  have ht : ∀ weight, (trueBranch cond (B.build .Not [cond]) trueValue).weigh weight ≤ trueValue.weigh weight :=
    fun weight => weigh_trueBranch cond _ trueValue
  have hf : ∀ weight, (falseBranch cond (B.build .Not [cond]) falseValue).weigh weight ≤ falseValue.weigh weight :=
    fun weight => weigh_falseBranch cond _ falseValue
  dsimp only
  split
  · exact .inr fun weight => by rw [weigh_If]; have := ht weight; omega
  split
  · exact .inr fun weight => by rw [weigh_If]; omega
  split
  · exact .inl rfl
  -- a condition without variables would be true or false
  have hopen : cond.vars ≠ ∅ := by
    intro hclosed
    obtain ⟨b, hb⟩ := exists_bool_of_ty hc anyAssignment
    cases b
    · exact hfalse (decide_eq_true ⟨hclosed, hb⟩)
    · exact htrue (decide_eq_true ⟨hclosed, hb⟩)
  refine .inr fun weight => ?_
  have := ht weight
  have := hf weight
  rw [new, if_pos, weigh_If, weigh_If]
  · omega
  · exact fun h => hopen (Finset.subset_empty.mp (h ▸ vars_subset_of_mem List.mem_cons_self))

/-! ## The argument that differs -/

theorem sourceArgs_expr {e a : Ast} :
    e.sourceArgs[i]? = some (.inr a) ↔ e.op.ints.length ≤ i ∧ e.args[i - e.op.ints.length]? = some a := by
  unfold sourceArgs
  by_cases hi : i < e.op.ints.length
  · rw [List.getElem?_append_left (by simpa using hi)]
    simp [Nat.not_le.mpr hi]
  · rw [List.getElem?_append_right (by simpa using hi)]
    simp [Nat.not_lt.mp hi]

theorem ints_of_sameName {op op' : Op} (h : op.sameName op' = true) :
    op.ints.length = op'.ints.length ∧ (op.ints = op'.ints → op = op') ∧
      op'.takesBV = op.takesBV ∧ (op.ints = [] → op = op') := by
  unfold Op.sameName at h
  split at h
  · exact ⟨rfl, by simp [Op.ints], rfl, by simp [Op.ints]⟩
  · exact ⟨rfl, by simp [Op.ints], rfl, by simp [Op.ints]⟩
  · exact ⟨rfl, by simp [Op.ints], rfl, by simp [Op.ints]⟩
  · obtain rfl := of_decide_eq_true h
    exact ⟨rfl, fun _ => rfl, rfl, fun _ => rfl⟩

/-- What `_burrow_ite` has checked when it pushes an `If`. -/
structure Differs (I : IntIdentity) (oldTrue oldFalse : Ast) (i : Nat) : Prop where
  name : oldTrue.op.sameName oldFalse.op = true
  length : oldTrue.sourceArgs.length = oldFalse.sourceArgs.length
  bound : i < oldTrue.sourceArgs.length
  notIf : oldTrue.op ≠ .If
  different : argIs I oldTrue oldFalse i = false
  one : ∃ j < oldTrue.sourceArgs.length, j ≠ i ∧ argIs I oldTrue oldFalse j = true

theorem differs_of_differentIdx {cond oldTrue oldFalse : Ast} (h : differentIdx I cond oldTrue oldFalse = some i) :
    Differs I oldTrue oldFalse i := by
  unfold differentIdx at h
  split at h
  · cases h
  rename_i hsame
  obtain ⟨hname, hlen⟩ := not_or.mp hsame
  split at h
  · cases h
  rename_i hnotIf
  split at h
  · cases h
  dsimp only at h
  split at h
  · cases h
  rename_i hmatched
  obtain ⟨hcount, hall⟩ := not_or.mp hmatched
  cases h
  generalize hm : (List.range oldTrue.sourceArgs.length).map (argIs I oldTrue oldFalse) = matched at *
  have hget : ∀ j b, matched[j]? = some b → j < oldTrue.sourceArgs.length ∧ argIs I oldTrue oldFalse j = b := by
    intro j b hj
    rw [← hm, List.getElem?_map, Option.map_eq_some_iff] at hj
    obtain ⟨k, hk, hb⟩ := hj
    obtain ⟨hlt, hk⟩ := List.getElem?_eq_some_iff.mp hk
    rw [List.getElem_range] at hk
    exact ⟨by simpa using hlt, hk ▸ hb⟩
  have hfalse : false ∈ matched := by
    by_contra hne
    exact hall (List.all_eq_true.mpr fun b hb => by cases b; exacts [absurd hb hne, rfl])
  have htrue : true ∈ matched := List.count_pos_iff.mp (by omega)
  obtain ⟨hi, hdiff⟩ := hget (matched.idxOf false) false (List.getElem?_idxOf hfalse)
  obtain ⟨j, hj⟩ := List.mem_iff_getElem?.mp htrue
  obtain ⟨hjlt, hjtrue⟩ := hget j true hj
  refine ⟨by simpa using hname, not_not.mp hlen, hi, hnotIf, hdiff, j, hjlt, ?_, hjtrue⟩
  rintro rfl
  rw [hdiff] at hjtrue
  cases hjtrue

/-- Arguments that are one object are equal. -/
theorem eq_of_argIs {oldTrue oldFalse : Ast} (h : argIs I oldTrue oldFalse i = true) :
    oldTrue.sourceArgs[i]? = oldFalse.sourceArgs[i]? := by
  have hint : ∀ (e : Ast) n, e.sourceArgs[i]? = some (.inl n) → e.op.ints[i]? = some n := by
    intro e n hn
    unfold sourceArgs at hn
    by_cases hi : i < e.op.ints.length
    · rw [List.getElem?_append_left (by simpa using hi)] at hn
      simpa using hn
    · rw [List.getElem?_append_right (by simpa using hi)] at hn
      simp at hn
  unfold argIs at h
  split at h
  · rename_i m n hm hn
    have heq := I.eq_of_same _ _ _ h
    rw [hint _ _ hm, hint _ _ hn] at heq
    rw [hm, hn, Option.some.inj heq]
  · rename_i a b ha hb
    rw [ha, hb, of_decide_eq_true h]
  · cases h

/-- The arguments of the source determine the integers and the expressions. -/
theorem args_of_sourceArgs {e e' : Ast} (hints : e.op.ints.length = e'.op.ints.length) (k : Nat) :
    (k < e.op.ints.length → e.sourceArgs[k]? = e'.sourceArgs[k]? → e.op.ints[k]? = e'.op.ints[k]?) ∧
      (e.sourceArgs[e.op.ints.length + k]? = e'.sourceArgs[e.op.ints.length + k]? →
        e.args[k]? = e'.args[k]?) := by
  unfold sourceArgs
  constructor
  · intro hk h
    rw [List.getElem?_append_left (by simpa using hk), List.getElem?_append_left (by simpa [← hints] using hk),
      List.getElem?_map, List.getElem?_map] at h
    exact Option.map_injective Sum.inl_injective h
  intro h
  rw [List.getElem?_append_right (by simp), List.getElem?_append_right (by simp [hints]),
    List.getElem?_map, List.getElem?_map] at h
  simpa [hints] using Option.map_injective Sum.inr_injective h

/-- With two arguments, the expressions are equal but for the one that is pushed into. -/
theorem replaceArg_of_differs {oldTrue oldFalse a b : Ast} (h : Differs I oldTrue oldFalse i)
    (htwo : oldTrue.sourceArgs.length = 2) (ha : oldTrue.sourceArgs[i]? = some (.inr a))
    (hb : oldFalse.sourceArgs[i]? = some (.inr b)) :
    oldFalse.op = oldTrue.op ∧ oldFalse.args = replaceArg oldTrue i b := by
  obtain ⟨hints, hop, -, -⟩ := ints_of_sameName h.name
  obtain ⟨hle, hargs⟩ := sourceArgs_expr.mp ha
  obtain ⟨-, hbargs⟩ := sourceArgs_expr.mp hb
  obtain ⟨j, hj, hne, hsame⟩ := h.one
  have hbound := h.bound
  have hagree : ∀ k ≠ i, oldTrue.sourceArgs[k]? = oldFalse.sourceArgs[k]? := by
    intro k hk
    by_cases hlt : k < oldTrue.sourceArgs.length
    · obtain rfl : k = j := by omega
      exact eq_of_argIs hsame
    · rw [List.getElem?_eq_none (by omega), List.getElem?_eq_none (by rw [← h.length]; omega)]
  constructor
  · refine (hop (List.ext_getElem? fun k => ?_)).symm
    by_cases hk : k < oldTrue.op.ints.length
    · exact (args_of_sourceArgs hints k).1 hk (hagree k (by omega))
    · rw [List.getElem?_eq_none (by omega), List.getElem?_eq_none (by omega)]
  refine List.ext_getElem? fun k => ?_
  rw [replaceArg, List.getElem?_set]
  split
  · rename_i hk
    rw [if_pos (List.getElem?_eq_some_iff.mp hargs).1, ← hk, hints, hbargs]
  · rename_i hk
    exact ((args_of_sourceArgs hints k).2 (hagree _ (by omega))).symm

/-- The arguments that `claripy.If` gets are both Boolean or both bitvectors, and have one
type if there is only one more argument. -/
theorem types_of_differs {oldTrue oldFalse a b : Ast} (h : Differs I oldTrue oldFalse i)
    (hT : oldTrue.ty = some t) (hF : oldFalse.ty = some t) (ha : oldTrue.sourceArgs[i]? = some (.inr a))
    (hb : oldFalse.sourceArgs[i]? = some (.inr b)) :
    ∃ u u', a.ty = some u ∧ b.ty = some u' ∧ u.isBV = u'.isBV ∧
      (oldTrue.sourceArgs.length = 2 → u = u') := by
  obtain ⟨hints, -, htakes, hsameop⟩ := ints_of_sameName h.name
  obtain ⟨hle, hargs⟩ := sourceArgs_expr.mp ha
  obtain ⟨-, hbargs⟩ := sourceArgs_expr.mp hb
  obtain ⟨ts, u, hts, hop, hu, haty⟩ := ty_arg hT hargs
  obtain ⟨us, u', hus, hop', hu', hbty⟩ := ty_arg hF hbargs
  have hopEq : oldTrue.op.ints = [] ∨ oldFalse.op.ints = [] → oldTrue.op = oldFalse.op := by
    rintro (h | h)
    · exact hsameop h
    · exact hsameop (List.length_eq_zero_iff.mp (hints.trans (by rw [h]; rfl)))
  refine ⟨u, u', haty, hbty, ?_, fun htwo => ?_⟩
  · by_cases heq : oldTrue.op = .eq ∨ oldTrue.op = .ne
    · -- the other side is one expression, and has the type of both
      have hnil : oldTrue.op.ints = [] := by rcases heq with heq | heq <;> rw [heq] <;> rfl
      obtain ⟨j, hj, -, hsame⟩ := h.one
      have hother : oldTrue.args[j]? = oldFalse.args[j]? :=
        (args_of_sourceArgs hints j).2 (by rw [hnil, List.length_nil, Nat.zero_add]; exact eq_of_argIs hsame)
      have hlt : j < oldTrue.args.length := by simpa [sourceArgs, hnil] using hj
      obtain ⟨ts', v, hts', -, hv, hvty⟩ := ty_arg hT (List.getElem?_eq_getElem hlt)
      obtain ⟨us', v', hus', -, hv', hvty'⟩ := ty_arg hF (hother.symm.trans (List.getElem?_eq_getElem hlt))
      obtain rfl := Option.some.inj (hts.symm.trans hts')
      obtain rfl := Option.some.inj (hus.symm.trans hus')
      obtain rfl := Option.some.inj (hvty.symm.trans hvty')
      rw [← hopEq (.inl hnil)] at hop'
      rw [Op.eq_of_ty_eq heq hop u (List.mem_of_getElem? hu) v (List.mem_of_getElem? hv),
        Op.eq_of_ty_eq heq hop' u' (List.mem_of_getElem? hu') v (List.mem_of_getElem? hv')]
    · have hnot : ∀ op : Op, op.ints = [] → oldTrue.op ≠ op → oldFalse.op ≠ op := fun op hnil hne h =>
        hne ((hopEq (.inr (h ▸ hnil))).trans h)
      rw [Op.isBV_of_ty (fun h => heq (.inl h)) (fun h => heq (.inr h)) h.notIf hop u (List.mem_of_getElem? hu),
        Op.isBV_of_ty (hnot .eq rfl fun h => heq (.inl h)) (hnot .ne rfl fun h => heq (.inr h))
          (hnot .If rfl h.notIf) hop' u' (List.mem_of_getElem? hu'), htakes]
  · obtain ⟨hopeq, hreplace⟩ := replaceArg_of_differs h htwo ha hb
    have hset : us = ts.set (i - oldTrue.op.ints.length) u' := by
      have hmap := tyList_eq_some.mp hus
      rw [hreplace, replaceArg, List.map_set, tyList_eq_some.mp hts, hbty, ← List.map_set] at hmap
      exact (List.map_injective_iff.mpr (Option.some_injective _) hmap).symm
    rw [hopeq, hset] at hop'
    refine Op.ty_set (fun high low hext => ?_) h.notIf hop hop' hu
    -- the two bounds leave no place for an expression
    have hlen : oldTrue.sourceArgs.length = oldTrue.args.length + 2 := by simp [sourceArgs, hext, Op.ints]
    obtain ⟨hlt, -⟩ := List.getElem?_eq_some_iff.mp hargs
    omega

/-- `claripy.If` makes an expression from the two arguments, if they have one type. -/
theorem innerIf_spec {cond oldTrue oldFalse : Ast} (hty : (node .If [cond, oldTrue, oldFalse] ann).ty = some t)
    (hdiff : differentIdx I cond oldTrue oldFalse = some i) :
    (¬ (oldTrue.sourceArgs.length = 2 ∧ oldTrue.op.ints.length ≤ i) ∧
        ∃ x, B.innerIf cond oldTrue oldFalse i = .error x) ∨
      ∃ a b u, oldTrue.sourceArgs[i]? = some (.inr a) ∧ oldFalse.sourceArgs[i]? = some (.inr b) ∧
        a.ty = some u ∧ b.ty = some u ∧
        B.innerIf cond oldTrue oldFalse i = .ok (B.iteSimplified cond a b) := by
  obtain ⟨hcond, hT, hF⟩ := ty_If.mp hty
  have h := differs_of_differentIdx hdiff
  have hints := (ints_of_sameName h.name).1
  unfold innerIf
  split
  · rename_i a b ha hb
    obtain ⟨u, u', hau, hbu, hsort, htwo⟩ := types_of_differs h hT hF ha hb
    by_cases heq : u = u'
    · subst heq
      exact .inr ⟨a, b, u, ha, hb, hau, hbu, by rw [ite_eq hau hbu]; rfl⟩
    · refine .inl ⟨fun hone => heq (htwo hone.1), ?_⟩
      obtain ⟨x, hx⟩ : ∃ x, B.ite cond a b = .error x := ite_error hau hbu hsort heq
      exact ⟨.inl x, by rw [hx]; rfl⟩
  rename_i hne
  refine .inl ⟨fun hone => ?_, _, rfl⟩
  have hlen : ∀ e : Ast, e.sourceArgs.length = e.op.ints.length + e.args.length := fun e => by
    simp [sourceArgs]
  have hbound := h.bound
  have hlength := h.length
  rw [hlen] at hbound hlength
  rw [hlen] at hlength
  exact hne _ _ (sourceArgs_expr.mpr ⟨hone.2, List.getElem?_eq_getElem (by omega)⟩)
    (sourceArgs_expr.mpr ⟨hints ▸ hone.2, List.getElem?_eq_getElem (by omega)⟩)

/-! ## Nodes that are built again -/

end Builder

/-- An expression of the same type with the same value. -/
structure Ast.Equivalent (a b : Ast) : Prop where
  ty : b.ty = a.ty
  eval : ∀ ρ, b.eval ρ = a.eval ρ

namespace Ast

theorem Equivalent.refl (a : Ast) : a.Equivalent a := ⟨rfl, fun _ => rfl⟩

theorem equivalent_node {args args' : List Ast} {ann ann' : List Annotation}
    (h : List.Forall₂ Equivalent args args') : (node op args ann).Equivalent (node op args' ann') := by
  have hty : tyList args' = tyList args := by
    induction h with
    | nil => rfl
    | cons hab _ ih => rw [tyList, tyList, hab.ty, ih]
  have heval : ∀ ρ, evalList ρ args' = evalList ρ args := by
    intro ρ
    clear hty
    induction h with
    | nil => rfl
    | cons hab _ ih => rw [evalList, evalList, hab.eval, ih]
  exact ⟨by rw [ty, ty, hty], fun ρ => by rw [eval, eval, heval]⟩

end Ast

namespace Builder

variable {B : Builder} {I : IntIdentity}

theorem new_of_makeLike {a b : Ast} {args : List Ast} (h : makeLike B.toAnnotationRules a args = .ok b) :
    b = B.new a.op (ownAnnotations a args) args := by
  unfold makeLike at h
  dsimp only at h
  rw [new]
  split at h
  · rename_i hopen
    rw [if_pos hopen]
    exact (Except.ok.inj h).symm
  rename_i hclosed
  rw [if_neg hclosed]
  split at h
  · cases h
  split at h
  · rename_i hpinned
    rw [if_pos hpinned]
    exact (Except.ok.inj h).symm
  · rename_i hpinned
    rw [if_neg hpinned]
    exact (Except.ok.inj h).symm

/-- A node with other arguments of the same values, unless it divides by zero. -/
theorem rebuild_spec {args args' : List Ast} (hty : (node op args ann).ty = some t)
    (hargs : List.Forall₂ Equivalent args args') (hdiv : ¬ DividesByZero (node op args ann)) (old : List Ast)
    (hleaf : old = [] ↔ args = []) (ann' : List Annotation) :
    ∃ e, B.rebuild (node op old ann') args' = .ok e ∧ (node op args ann).Equivalent e := by
  unfold rebuild
  split
  · rename_i h
    obtain rfl : args = [] := hleaf.mp (List.isEmpty_iff.mp h)
    cases hargs
    exact ⟨_, rfl, equivalent_node .nil⟩
  have hnode : (node op args ann).Equivalent (node op args' []) := equivalent_node hargs
  obtain ⟨e, he⟩ : ∃ e, makeLike B.toAnnotationRules (node op old ann') args' = .ok e := by
    refine makeLike_total fun hop hclosed d' hd' hzero => hdiv ⟨hop, fun a ha ρ ρ' => ?_, ?_⟩
    · obtain ⟨a', ha', heq⟩ := LabelledTree.forall₂_left hargs a ha
      have hopen : a'.vars = ∅ := Finset.subset_empty.mp (hclosed ▸ vars_subset_of_mem ha')
      rw [← heq.eval, ← heq.eval, eval_closed hopen]
    have htail : List.Forall₂ Equivalent args.tail args'.tail := by
      cases hargs
      exacts [.nil, by assumption]
    obtain ⟨d, hd, heq⟩ := LabelledTree.forall₂_right htail d' hd'
    exact ⟨d, hd, by rw [← heq.eval, hzero]⟩
  refine ⟨e, by rw [he]; rfl, ?_⟩
  obtain rfl := new_of_makeLike he
  exact ⟨(ty_new (hnode.ty.trans hty)).trans hty.symm, fun ρ => (eval_new ..).trans (hnode.eval ρ)⟩

/-! ## Calls with enough fuel -/

variable (B I) in
/-- Whatever has been burrowed into before, what the cache has for an expression that burrows
is equivalent to it. -/
def CacheSound (cache : BurrowCache) : Prop :=
  ∀ expr burrowed, cache.get? expr = some burrowed → ∀ t, expr.ty = some t → B.Burrows I expr →
    expr.Equivalent burrowed

theorem cacheSound_empty : B.CacheSound I [] := fun _ _ h => by cases h

theorem CacheSound.set {cache : BurrowCache} {expr burrowed : Ast} (h : B.CacheSound I cache)
    (heq : B.Burrows I expr → expr.Equivalent burrowed) : B.CacheSound I (cache.set expr burrowed) := by
  intro e e' hget t hty hburrows
  rw [Dict.get?_set] at hget
  split at hget
  · rename_i hkey
    subst hkey
    cases hget
    exact heq hburrows
  · exact h e e' hget t hty hburrows

variable (B I) in
/-- From fuel `N` on a call does not depend on the fuel and keeps the cache sound; if `good`
holds it gives a result with `P`. -/
def Settles {α : Type} (N : Nat) (f : Nat → BurrowCache → BurrowOutcome α) (good : Prop) (P : α → Prop) : Prop :=
  ∀ cache, B.CacheSound I cache → ∃ out cache', (∀ n ≥ N, f n cache = .ok (out, cache')) ∧
    B.CacheSound I cache' ∧ (good → ∃ a, out = .ok a ∧ P a)

variable {α β : Type} {N M : Nat} {good : Prop} {P : α → Prop} {Q : β → Prop}

theorem Settles.pure {out : Except BurrowError α} (h : good → ∃ a, out = .ok a ∧ P a) :
    B.Settles I 0 (fun _ cache => .ok (out, cache)) good P :=
  fun cache hcache => ⟨out, cache, fun _ _ => rfl, hcache, h⟩

theorem Settles.andThen {f : Nat → BurrowCache → BurrowOutcome α} {g : Nat → α → BurrowCache → BurrowOutcome β}
    (hf : B.Settles I N f good P) (hg : ∀ a, B.Settles I M (fun n => g n a) (good ∧ P a) Q) :
    B.Settles I (max N M) (fun n cache => (f n cache).andThen (g n)) good Q := by
  intro cache hcache
  obtain ⟨out, cache₁, hrun, hcache₁, hout⟩ := hf cache hcache
  cases out with
  | error x =>
    refine ⟨.error x, cache₁, fun n hn => ?_, hcache₁, fun h => ?_⟩
    · dsimp only
      rw [hrun n (by omega)]
      rfl
    · obtain ⟨a, ha, -⟩ := hout h
      cases ha
  | ok a =>
    obtain ⟨out, cache₂, hrun₂, hcache₂, hout₂⟩ := hg a cache₁ hcache₁
    refine ⟨out, cache₂, fun n hn => ?_, hcache₂, fun h => ?_⟩
    · dsimp only
      rw [hrun n (by omega)]
      exact hrun₂ n (by omega)
    · obtain ⟨a', ha', hP⟩ := hout h
      cases ha'
      exact hout₂ ⟨h, hP⟩

theorem Settles.imp {f : Nat → BurrowCache → BurrowOutcome α} {good' : Prop} {P' : α → Prop}
    (h : B.Settles I N f good P) (hgood : good' → good) (hP : good' → ∀ a, P a → P' a) :
    B.Settles I N f good' P' := by
  intro cache hcache
  obtain ⟨out, cache', hrun, hcache', hout⟩ := h cache hcache
  refine ⟨out, cache', hrun, hcache', fun hg => ?_⟩
  obtain ⟨a, ha, hPa⟩ := hout (hgood hg)
  exact ⟨a, ha, hP hg a hPa⟩

theorem settles_burrowArgs {burrow : Nat → Ast → BurrowCache → BurrowOutcome Ast} {args : List Ast} {ok : Ast → Prop}
    (h : ∀ a ∈ args, ∃ N, B.Settles I N (fun n => burrow n a) (ok a) a.Equivalent) :
    ∃ N, B.Settles I N (fun n => burrowArgs (burrow n) args) (∀ a ∈ args, ok a) (List.Forall₂ Equivalent args) := by
  induction args with
  | nil => exact ⟨0, .pure fun _ => ⟨[], rfl, .nil⟩⟩
  | cons a as ih =>
    obtain ⟨N, ha⟩ := h a List.mem_cons_self
    obtain ⟨M, has⟩ := ih fun b hb => h b (List.mem_cons_of_mem a hb)
    refine ⟨_, .andThen (ha.imp (fun hok => hok a List.mem_cons_self) fun _ _ => id) fun a' =>
      .andThen (has.imp (fun hok b hb => hok.1 b (List.mem_cons_of_mem a hb)) fun _ _ => id) fun as' =>
        .pure fun hok => ⟨a' :: as', rfl, .cons hok.1.2 hok.2⟩⟩

/-- The call that looks into the cache first. -/
theorem settles_burrowIte {alive : BurrowCache → Ast → Bool} {expr : Ast} (hty : expr.ty = some t)
    (h : B.Settles I N (fun n => burrowOnce B I (burrowIte B I alive n) expr) (B.Burrows I expr) expr.Equivalent) :
    B.Settles I (N + 1) (fun n => burrowIte B I alive n expr) (B.Burrows I expr) expr.Equivalent := by
  intro cache hcache
  cases hget : (cache.restrict (alive cache)).get? expr with
  | some burrowed =>
    have hcached : cache.get? expr = some burrowed := by
      rw [Dict.get?_restrict] at hget
      split at hget
      · exact hget
      · cases hget
    refine ⟨.ok burrowed, cache, fun n hn => ?_, hcache, fun hok =>
      ⟨burrowed, rfl, hcache expr burrowed hcached t hty hok⟩⟩
    obtain ⟨m, rfl⟩ : ∃ m, n = m + 1 := ⟨n - 1, by omega⟩
    dsimp only
    rw [burrowIte, hget]
  | none =>
    obtain ⟨out, cache₁, hrun, hcache₁, hout⟩ := h cache hcache
    have hstep : ∀ m ≥ N, burrowIte B I alive (m + 1) expr cache = BurrowOutcome.andThen (.ok (out, cache₁))
        fun burrowed cache => .ok (.ok burrowed, (cache.set burrowed burrowed).set expr burrowed) := by
      intro m hm
      rw [burrowIte, hget, ← hrun m hm]
    cases out with
    | error x =>
      refine ⟨.error x, cache₁, fun n hn => ?_, hcache₁, fun hok => ?_⟩
      · obtain ⟨m, rfl⟩ : ∃ m, n = m + 1 := ⟨n - 1, by omega⟩
        exact hstep m (by omega)
      · obtain ⟨a, ha, -⟩ := hout hok
        cases ha
    | ok burrowed =>
      have hequiv : B.Burrows I expr → expr.Equivalent burrowed := fun hok => by
        obtain ⟨a, ha, heq⟩ := hout hok
        cases ha
        exact heq
      refine ⟨.ok burrowed, (cache₁.set burrowed burrowed).set expr burrowed, fun n hn => ?_,
        (hcache₁.set fun _ => .refl burrowed).set hequiv, fun hok => ⟨burrowed, rfl, hequiv hok⟩⟩
      obtain ⟨m, rfl⟩ : ∃ m, n = m + 1 := ⟨n - 1, by omega⟩
      exact hstep m (by omega)

/-! ## One call -/

/-- An expression that is not an `If` is built again from its arguments. -/
theorem not_If_cases (expr : Ast) :
    (∃ cond oldTrue oldFalse ann, expr = node .If [cond, oldTrue, oldFalse] ann) ∨
      (∀ (B : Builder) I burrow cache, burrowOnce B I burrow expr cache =
          (burrowArgs burrow expr.args cache).andThen fun args cache => .ok (B.rebuild expr args, cache)) ∧
        (∀ (B : Builder) I, B.visited I expr = expr.args ∧ B.rebuilt I expr = [expr]) := by
  obtain ⟨op, args, ann⟩ := expr
  by_cases h : ∃ c a b, op = .If ∧ args = [c, a, b]
  · obtain ⟨c, a, b, rfl, rfl⟩ := h
    exact .inl ⟨c, a, b, ann, rfl⟩
  have hne : ∀ c a b, op = .If → args = [c, a, b] → False := fun c a b hop hargs => h ⟨c, a, b, hop, hargs⟩
  refine .inr ⟨fun B I burrow cache => ?_, fun B I => ⟨?_, ?_⟩⟩
  · rw [burrowOnce]
    · rfl
    · exact hne
  · rw [visited]
    · rfl
    · exact hne
  · rw [rebuilt]
    exact hne

theorem burrows_iff {e : Ast} : B.Burrows I e ↔
    (PushesOne I e ∧ ∀ d ∈ B.rebuilt I e, ¬ DividesByZero d) ∧ ∀ e' ∈ B.visited I e, B.Burrows I e' := by
  refine ⟨fun h => ⟨h e .refl, fun e' h' _ hreach => h _ (.head h' hreach)⟩, fun ⟨hhere, hvisited⟩ e' hreach => ?_⟩
  obtain rfl | ⟨e₁, hstep, hrest⟩ := hreach.cases_head
  · exact hhere
  · exact hvisited e₁ hstep e' hrest

theorem Burrows.visited {e e' : Ast} (h : B.Burrows I e) (h' : e' ∈ B.visited I e) : B.Burrows I e' :=
  (burrows_iff.mp h).2 e' h'

theorem Burrows.here {e : Ast} (h : B.Burrows I e) : PushesOne I e ∧ ∀ d ∈ B.rebuilt I e, ¬ DividesByZero d :=
  (burrows_iff.mp h).1

/-- The operation with the `If` pushed into the only argument that differs. -/
theorem equivalent_pushed {cond oldTrue oldFalse a b inner : Ast} {t u : Ty}
    (hty : (node .If [cond, oldTrue, oldFalse] ann).ty = some t) (hop : oldFalse.op = oldTrue.op)
    (hargs : oldFalse.args = replaceArg oldTrue i b) (ha : oldTrue.args[i - oldTrue.op.ints.length]? = some a)
    (hau : a.ty = some u) (hinner : inner.ty = some u)
    (heval : ∀ ρ, inner.eval ρ = if (cond.eval ρ).toBool then a.eval ρ else b.eval ρ) :
    (node .If [cond, oldTrue, oldFalse] ann).Equivalent (node oldTrue.op (replaceArg oldTrue i inner) []) := by
  obtain ⟨opT, argsT, annT⟩ := oldTrue
  obtain ⟨opF, argsF, annF⟩ := oldFalse
  obtain rfl : opF = opT := hop
  obtain rfl : argsF = replaceArg (node opF argsT annT) i b := hargs
  unfold replaceArg at hty ⊢
  simp only [Ast.op, Ast.args] at ha hty ⊢
  generalize i - opF.ints.length = k at *
  obtain ⟨-, hT, -⟩ := ty_If.mp hty
  obtain ⟨hlt, hget⟩ := List.getElem?_eq_some_iff.mp ha
  constructor
  · have hlist : tyList (argsT.set k inner) = tyList argsT := by
      have hmap : (argsT.set k inner).map Ast.ty = argsT.map Ast.ty := by
        rw [List.map_set, hinner, ← hau, ← List.map_set, ← hget, List.set_getElem_self]
      ext1 ts
      exact (tyList_eq_some.trans (by rw [hmap])).trans tyList_eq_some.symm
    rw [hty, ← hT, ty, ty, hlist]
  intro ρ
  have hset : ∀ x : Ast, ∀ ann', (node opF (argsT.set k x) ann').eval ρ =
      (ρ.leaf opF).getD (opF.apply ((evalList ρ argsT).set k (x.eval ρ))) := fun x ann' => by
    rw [eval, evalList_eq_map, evalList_eq_map, List.map_set]
  rw [eval_If, hset, hset, heval]
  split
  · rw [← hset a [], ← hget, List.set_getElem_self]
    rfl
  · rfl

theorem forall₂_replaceArg {old a b : Ast} (h : a.Equivalent b) :
    List.Forall₂ Equivalent (replaceArg old i a) (replaceArg old i b) := by
  unfold replaceArg
  generalize i - old.op.ints.length = k
  induction old.args generalizing k with
  | nil => exact .nil
  | cons c cs ih =>
    cases k with
    | zero => exact .cons h (LabelledTree.forall₂_self fun c _ => .refl c)
    | succ k => exact .cons (.refl c) (ih k)

/-- One call, if the calls that it makes settle. -/
theorem settles_burrowOnce {burrow : Nat → Ast → BurrowCache → BurrowOutcome Ast} {expr : Ast}
    (hty : expr.ty = some t)
    (h : ∀ e ∈ B.visited I expr, ∃ N, B.Settles I N (fun n => burrow n e) (B.Burrows I e) e.Equivalent) :
    ∃ N, B.Settles I N (fun n => burrowOnce B I (burrow n) expr) (B.Burrows I expr) expr.Equivalent := by
  obtain ⟨cond, oldTrue, oldFalse, ann, rfl⟩ | ⟨hother, hshape⟩ := not_If_cases expr
  · cases hdiff : differentIdx I cond oldTrue oldFalse with
    | none =>
      refine ⟨0, fun cache hcache => ⟨.ok (node .If [cond, oldTrue, oldFalse] ann), cache, fun n _ => ?_, hcache,
        fun _ => ⟨_, rfl, .refl _⟩⟩⟩
      dsimp only
      rw [burrowOnce, hdiff]
    | some i =>
      obtain ⟨hnot, x, hx⟩ | ⟨a, b, u, ha, hb, hau, hbu, hinner⟩ := innerIf_spec (B := B) hty hdiff
      · refine ⟨0, fun cache hcache => ⟨.error x, cache, fun n _ => ?_, hcache,
          fun hok => absurd (hok.here.1 i hdiff) hnot⟩⟩
        dsimp only
        rw [burrowOnce, hdiff]
        simp only [hx]
      have hcond := (ty_If.mp hty).1
      have hvisit : B.iteSimplified cond a b ∈ B.visited I (node .If [cond, oldTrue, oldFalse] ann) := by
        simp [visited, hdiff, hinner, Except.toOption]
      obtain ⟨N, hN⟩ := h _ hvisit
      have hrun : (fun n => burrowOnce B I (burrow n) (node .If [cond, oldTrue, oldFalse] ann)) = fun n cache =>
          (burrow n (B.iteSimplified cond a b) cache).andThen fun burrowed cache =>
            .ok (B.rebuild (node oldTrue.op oldTrue.args []) (replaceArg oldTrue i burrowed), cache) := by
        funext n cache
        rw [burrowOnce, hdiff]
        simp only [hinner]
      rw [hrun]
      refine ⟨_, .andThen (hN.imp (fun hok => hok.visited hvisit) fun _ _ => id) fun burrowed => .pure fun hok => ?_⟩
      obtain ⟨hok, hequiv⟩ := hok
      obtain ⟨hop, hargs⟩ := replaceArg_of_differs (differs_of_differentIdx hdiff) (hok.here.1 i hdiff).1 ha hb
      have hpushed := equivalent_pushed hty hop hargs (sourceArgs_expr.mp ha).2 hau
        (ty_iteSimplified hcond hau hbu) fun ρ => eval_iteSimplified (B := B) hcond
      have hdiv := hok.here.2 (node oldTrue.op (replaceArg oldTrue i (B.iteSimplified cond a b)) [])
        (by simp [rebuilt, hdiff, hinner, Except.toOption])
      obtain ⟨e, he, heq⟩ := rebuild_spec (B := B) (hpushed.ty.trans hty) (forall₂_replaceArg hequiv) hdiv
        oldTrue.args (by simp [replaceArg]) []
      exact ⟨e, he, heq.ty.trans hpushed.ty, fun ρ => (heq.eval ρ).trans (hpushed.eval ρ)⟩
  · obtain ⟨hvisited, hrebuilt⟩ := hshape B I
    rw [hvisited] at h
    obtain ⟨N, hN⟩ := settles_burrowArgs h
    have hrun : (fun n => burrowOnce B I (burrow n) expr) = fun n cache =>
        (burrowArgs (burrow n) expr.args cache).andThen fun args cache => .ok (B.rebuild expr args, cache) := by
      funext n cache
      exact hother B I (burrow n) cache
    rw [hrun]
    refine ⟨_, .andThen (hN.imp (fun hok a ha => hok.visited (hvisited ▸ ha)) fun _ _ => id) fun args' =>
      .pure fun hok => ?_⟩
    obtain ⟨op, args, ann⟩ := expr
    exact rebuild_spec hty hok.2 (hok.1.here.2 _ (by rw [hrebuilt]; exact List.mem_cons_self)) args Iff.rfl ann

end Builder

namespace WeighedBuilder

variable {B : WeighedBuilder} {I : IntIdentity}

/-- The calls that a call makes are on lighter expressions. -/
theorem lighter_of_visited {e e' : Ast} (hty : e.ty = some t) (h : e' ∈ B.visited I e) :
    Lighter B.weight e' e ∧ ∃ u, e'.ty = some u := by
  obtain ⟨cond, oldTrue, oldFalse, ann, rfl⟩ | ⟨-, hshape⟩ := Builder.not_If_cases e
  · cases hdiff : Builder.differentIdx I cond oldTrue oldFalse with
    | none => simp [Builder.visited, hdiff] at h
    | some i =>
      obtain ⟨-, x, hx⟩ | ⟨a, b, u, ha, hb, hau, hbu, hinner⟩ := Builder.innerIf_spec (B := B.toBuilder) hty hdiff
      · simp [Builder.visited, hdiff, hx, Except.toOption] at h
      obtain rfl : e' = B.iteSimplified cond a b := by
        simpa [Builder.visited, hdiff, hinner, Except.toOption] using h
      have hcond := (ty_If.mp hty).1
      refine ⟨?_, u, Builder.ty_iteSimplified hcond hau hbu⟩
      have hmemT : a ∈ oldTrue.args := List.mem_of_getElem? (Builder.sourceArgs_expr.mp ha).2
      have hmemF : b ∈ oldFalse.args := List.mem_of_getElem? (Builder.sourceArgs_expr.mp hb).2
      have hT : ∀ weight, a.weigh weight + weight oldTrue.op ≤ oldTrue.weigh weight := fun weight => by
        cases oldTrue
        exact weigh_arg hmemT
      have hF : ∀ weight, b.weigh weight + weight oldFalse.op ≤ oldFalse.weigh weight := fun weight => by
        cases oldFalse
        exact weigh_arg hmemF
      obtain hnot | hle := Builder.weigh_iteSimplified (B := B.toBuilder) a b hcond
      · have := B.weigh_not cond
        have := B.weight_If
        left
        rw [hnot, weigh_If]
        omega
      right
      have hw := hle B.weight
      have h1 := hle fun _ => 1
      have := hT B.weight
      have := hF B.weight
      have := hT fun _ => 1
      have := hF fun _ => 1
      simp only [weigh_If] at hw h1 ⊢
      omega
  · rw [(hshape B.toBuilder I).1] at h
    obtain ⟨op, args, ann⟩ := e
    obtain ⟨k, hk⟩ := List.mem_iff_getElem?.mp h
    obtain ⟨ts, u, -, -, -, hu⟩ := ty_arg hty hk
    refine ⟨.inr ⟨?_, ?_⟩, u, hu⟩
    · have hle : e'.weigh B.weight + B.weight op ≤ (node op args ann).weigh B.weight := weigh_arg h
      exact Nat.le_of_add_right_le hle
    · have hlt : e'.weigh (fun _ => 1) + 1 ≤ (node op args ann).weigh fun _ => 1 := weigh_arg h
      exact hlt

/-- Every call ends, leaves the cache sound and keeps the value of an expression that burrows. -/
theorem burrowIte_settles (alive : BurrowCache → Ast → Bool) {e : Ast} (hty : e.ty = some t) :
    ∃ N, B.Settles I N (fun n => Builder.burrowIte B.toBuilder I alive n e) (B.Burrows I e) e.Equivalent := by
  induction e using (lighter_wf B.weight).induction generalizing t with
  | _ e ih =>
    have hvisited : ∀ e' ∈ B.visited I e, ∃ N, B.Settles I N
        (fun n => Builder.burrowIte B.toBuilder I alive n e') (B.Burrows I e') e'.Equivalent := fun e' h => by
      obtain ⟨hlighter, u, hu⟩ := lighter_of_visited hty h
      exact ih e' hlighter hu
    obtain ⟨N, hN⟩ := Builder.settles_burrowOnce hty hvisited
    exact ⟨N + 1, Builder.settles_burrowIte hty hN⟩

/-! ## Runs -/

variable (B I) in
/-- The caches after any calls on any expressions, also after those that raised. -/
inductive Reachable : BurrowCache → Prop where
  | empty : Reachable []
  | call {cache cache' : BurrowCache} {expr : Ast} {t : Ty} {out : Except BurrowError Ast} (alive : BurrowCache → Ast → Bool) :
      Reachable cache → expr.ty = some t →
      Fuel.Returns (fun n => Builder.burrowIte B.toBuilder I alive n expr cache) (out, cache') → Reachable cache'

theorem Reachable.sound {cache : BurrowCache} (h : Reachable B I cache) : B.CacheSound I cache := by
  induction h with
  | empty => exact Builder.cacheSound_empty
  | @call cache cache' expr t out alive _ hty hreturns ih =>
    obtain ⟨N, hN⟩ := burrowIte_settles (B := B) (I := I) alive hty
    obtain ⟨out', cache₁, hrun, hcache₁, -⟩ := hN cache ih
    cases hreturns.unique ⟨N, hrun⟩
    exact hcache₁

/-- Integers that are identical whenever they are equal. -/
def sharedInts : IntIdentity where
  same a b i := a.op.ints[i]? = b.op.ints[i]?
  eq_of_same _ _ _ h := of_decide_eq_true h

/-- The folding constructors, with the number of `If` operations as the weight. -/
def counting : WeighedBuilder where
  toBuilder := Builder.folding
  weight op := if op = .If then 1 else 0
  weight_If := Nat.one_pos
  weigh_not c := by
    simp only [Builder.folding]
    split
    · simp [weigh, weighList]
    · cases (node .Not [c] []).eval anyAssignment <;> exact Nat.zero_le _

end WeighedBuilder
end Claripy
