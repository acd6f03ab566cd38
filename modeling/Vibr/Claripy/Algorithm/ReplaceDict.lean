import Vibr.Claripy.Algorithm.Replace
import Vibr.Claripy.Bytes
import Vibr.Lib.StackWalk

/-!
# The loop of replace_dict

`replace_dict` walks over an expression with three stacks instead of a recursion. Arguments
that are not expressions stay as they are. The dictionary of the caller receives the results,
so that later calls with it find them.
-/

namespace Claripy

/-- How many arguments of a node are not expressions: the name and the length of a symbol,
the bounds of `Extract`. In the source they come before the others. -/
def Op.params : Op → Nat
  | .BVS _ _ | .BVV _ _ | .Extract _ _ => 2
  | .BoolS _ | .BoolV _ | .ZeroExt _ | .SignExt _ => 1
  | _ => 0

inductive ReplaceError where
  | raised (x : Error)
  | AssertionError
deriving DecidableEq, Repr

namespace Ast

/-- The arguments of a node in the source, with `none` for those that are not expressions. -/
def allArgs (a : Ast) : List (Option Ast) := List.replicate a.op.params none ++ a.args.map some

variable (P : AnnotationRules) (variableSet : Finset String) (leafOperation : Ast → Ast)

/-- The body of the loop of `replace_dict`. -/
def replaceWalk : StackWalk (Option Ast) (Option Ast) (Dict Ast Ast) Error where
  children
    | none => []
    | some a => a.allArgs
  visit replacements
    | none => some (none, replacements)
    | some a =>
      match replacements.get? a with
      | some repl => some (some repl, replacements)
      | none =>
        if variableSet ⊆ a.vars then
          if a.depth = 1 then
            let repl := leafOperation a
            some (some repl, if repl ≠ a then replacements.set a repl else replacements)
          else if 1 < a.depth then none
          else some (some a, replacements)
        else some (some a, replacements)
  combine replacements
    | none, _ => (.ok none, replacements)
    | some a, args =>
      if (a.allArgs.zip args).any fun p => p.1 ≠ p.2 then
        match makeLike P a args.reduceOption with
        | .ok repl => (.ok (some repl), replacements.set a repl)
        | .error x => (.error x, replacements)
      else (.ok (some a), replacements)

/-- `replace_dict`: the loop, and the assertions about the stacks after it. -/
def replaceDictLoop (fuel : Nat) (expr : Ast) (replacements : Dict Ast Ast) :
    Except Fuel.OutOfFuel (Except ReplaceError Ast × Dict Ast Ast) :=
  ((replaceWalk P variableSet leafOperation).run fuel { iters := [[some expr]] } replacements).map fun
    | (.error x, replacements) => (.error (.raised x), replacements)
    | (.ok { iters := [], nodes := [], results := [some repl] }, replacements) => (.ok repl, replacements)
    | (.ok _, replacements) => (.error .AssertionError, replacements)

/-- Calls with one dictionary, each with an expression and a set of variables of its own. -/
def replaceDicts (fuel : Nat) : List (Ast × Finset String) → Dict Ast Ast →
    Except Fuel.OutOfFuel (List (Except ReplaceError Ast) × Dict Ast Ast)
  | [], replacements => .ok ([], replacements)
  | call :: calls, replacements => do
    let (result, replacements) ← replaceDictLoop P call.2 id fuel call.1 replacements
    let (results, replacements) ← replaceDicts fuel calls replacements
    return (result :: results, replacements)

/-! ## Substitution -/

mutual
/-- The value of an expression whose topmost keys have the values of their replacements. -/
def substEval (R : Dict Ast Ast) (ρ : Assignment) : Ast → Value
  | node op args ann =>
    match R.get? (node op args ann) with
    | some repl => repl.eval ρ
    | none => (ρ.leaf op).getD (op.apply (substEvalList R ρ args))

def substEvalList (R : Dict Ast Ast) (ρ : Assignment) : List Ast → List Value
  | [] => []
  | a :: as => a.substEval R ρ :: substEvalList R ρ as
end

variable {R C : Dict Ast Ast} {ρ : Assignment}

theorem substEvalList_eq_map (as : List Ast) : substEvalList R ρ as = as.map (substEval R ρ) := by
  induction as with
  | nil => rfl
  | cons a as ih => rw [substEvalList, List.map_cons, ih]

theorem substEval_of_key {a repl : Ast} (h : R.get? a = some repl) : substEval R ρ a = repl.eval ρ := by
  obtain ⟨op, args, ann⟩ := a
  rw [substEval, h]

variable {a : Ast}

theorem substEval_of_not_key (h : R.get? a = none) :
    substEval R ρ a = (ρ.leaf a.op).getD (a.op.apply (a.args.map (substEval R ρ))) := by
  obtain ⟨op, args, ann⟩ := a
  rw [substEval, h, substEvalList_eq_map]
  rfl

/-- Where a variable that all keys have does not occur, there is no key. -/
theorem substEval_of_pruned {V : Finset String} (hV : ∀ k ∈ R.keys, V ⊆ k.vars) (a : Ast) (h : ¬V ⊆ a.vars) :
    substEval R ρ a = a.eval ρ := by
  induction a using induct with
  | h op args ann ih =>
    have hnone : R.get? (node op args ann) = none := Dict.get?_eq_none.mpr fun hk => h (hV _ hk)
    have hargs : args.map (substEval R ρ) = args.map (eval ρ) :=
      List.map_congr_left fun b hb => ih b hb fun hsub => h (hsub.trans (vars_subset_of_mem hb))
    rw [substEval_of_not_key hnone, eval, evalList_eq_map]
    exact congrArg (fun vs => (ρ.leaf op).getD (op.apply vs)) hargs

theorem eval_eq_args (a : Ast) : a.eval ρ = (ρ.leaf a.op).getD (a.op.apply (a.args.map (eval ρ))) := by
  obtain ⟨op, args, ann⟩ := a
  rw [eval, evalList_eq_map]
  rfl

theorem le_depthList {as : List Ast} (h : a ∈ as) : a.depth ≤ depthList as := by
  induction as with
  | nil => cases h
  | cons b as ih =>
    rw [depthList]
    rcases List.mem_cons.mp h with rfl | h
    · exact le_max_left _ _
    · exact (ih h).trans (le_max_right _ _)

theorem depth_pos (a : Ast) : 1 ≤ a.depth := by
  obtain ⟨op, args, ann⟩ := a
  rw [depth]
  omega

theorem depth_lt_of_mem {a b : Ast} (h : b ∈ a.args) : b.depth < a.depth := by
  obtain ⟨op, args, ann⟩ := a
  rw [depth]
  exact Nat.lt_succ_of_le (le_depthList h)

theorem args_eq_nil_of_depth (h : a.depth = 1) : a.args = [] := by
  refine List.eq_nil_iff_forall_not_mem.mpr fun b hb => ?_
  have hlt := depth_lt_of_mem hb
  have hpos := depth_pos b
  omega

/-- The dictionary has the replacements and results of substituting them. -/
structure Cached (R C : Dict Ast Ast) : Prop where
  keeps : ∀ k v, R.get? k = some v → C.get? k = some v
  value : ∀ k v, C.get? k = some v → ∀ ρ, v.eval ρ = substEval R ρ k

theorem Cached.refl (R : Dict Ast Ast) : Cached R R :=
  ⟨fun _ _ h => h, fun _ _ h _ => (substEval_of_key h).symm⟩

theorem Cached.not_key (h : Cached R C) (hnone : C.get? a = none) : R.get? a = none := by
  cases hget : R.get? a with
  | none => rfl
  | some v => rw [h.keeps a v hget] at hnone; cases hnone

theorem Cached.set (h : Cached R C) {a repl : Ast} (hnone : R.get? a = none)
    (hvalue : ∀ ρ, repl.eval ρ = substEval R ρ a) : Cached R (C.set a repl) where
  keeps k v hk := by
    rw [Dict.get?_set, if_neg]
    · exact h.keeps k v hk
    · rintro rfl
      rw [hnone] at hk
      cases hk
  value k v hk := by
    rw [Dict.get?_set] at hk
    split at hk
    · rename_i heq
      subst heq
      cases hk
      exact hvalue
    · exact h.value k v hk

variable (R) in
/-- The result of a node: an expression with the value of the substituted node. -/
def Substituted : Option Ast → Option Ast → Prop
  | none, r => r = none
  | some a, r => ∃ b, r = some b ∧ ∀ ρ, b.eval ρ = substEval R ρ a

variable (R) in
/-- A division all of whose arguments become concrete, with a divisor that becomes zero. -/
def DividesByZero (e : Ast) : Prop :=
  ∃ d ∈ e.subterms, d.op.isDivision ∧ ∃ c ∈ d.args.tail, ∀ ρ, (substEval R ρ c).toNat = 0

theorem mem_subterms_self (a : Ast) : a ∈ a.subterms := by
  obtain ⟨op, args, ann⟩ := a
  exact List.mem_cons_self

theorem mem_subtermsList {as : List Ast} {d : Ast} : d ∈ subtermsList as ↔ ∃ a ∈ as, d ∈ a.subterms := by
  induction as with
  | nil => simp [subtermsList]
  | cons a as ih => simp [subtermsList, ih]

theorem subterms_trans {e d c : Ast} (hd : d ∈ e.subterms) (hc : c ∈ d.subterms) : c ∈ e.subterms := by
  induction e using induct with
  | h op args ann ih =>
    rcases List.mem_cons.mp hd with rfl | hd
    · exact hc
    · obtain ⟨a, ha, hd⟩ := mem_subtermsList.mp hd
      exact List.mem_cons_of_mem _ (mem_subtermsList.mpr ⟨a, ha, ih a ha hd⟩)

theorem arg_mem_subterms {e a c : Ast} (ha : a ∈ e.subterms) (hc : c ∈ a.args) : c ∈ e.subterms := by
  refine subterms_trans ha ?_
  obtain ⟨op, args, ann⟩ := a
  exact List.mem_cons_of_mem _ (mem_subtermsList.mpr ⟨c, hc, mem_subterms_self c⟩)

/-- The results of the arguments of a node: what is no expression stays, the others are substituted. -/
theorem substituted_args {n : Nat} {as : List Ast} {rs : List (Option Ast)}
    (h : List.Forall₂ (Substituted R) (List.replicate n none ++ as.map some) rs) :
    ∃ bs, rs = List.replicate n none ++ bs.map some ∧
      List.Forall₂ (fun a b => ∀ ρ, b.eval ρ = substEval R ρ a) as bs := by
  induction n generalizing rs with
  | zero =>
    rw [List.replicate_zero, List.nil_append] at h
    induction as generalizing rs with
    | nil =>
      cases h
      exact ⟨[], rfl, .nil⟩
    | cons a as ih =>
      cases h with
      | cons hhead htail =>
        obtain ⟨b, rfl, hb⟩ := hhead
        obtain ⟨bs, rfl, hbs⟩ := ih htail
        exact ⟨b :: bs, rfl, .cons hb hbs⟩
  | succ n ih =>
    cases h with
    | cons hhead htail =>
      obtain ⟨bs, rfl, hbs⟩ := ih htail
      exact ⟨bs, congrArg (· :: _) hhead, hbs⟩

theorem reduceOption_args (n : Nat) (bs : List Ast) :
    (List.replicate n none ++ bs.map some).reduceOption = bs := by
  rw [List.reduceOption_append, List.reduceOption_replicate_none, List.nil_append]
  induction bs with
  | nil => rfl
  | cons b bs ih => rw [List.map_cons, List.reduceOption_cons_of_some, ih]

theorem any_zip_ne {α : Type} [DecidableEq α] {as bs : List α} (h : as.length = bs.length) :
    ((as.zip bs).any fun p => p.1 ≠ p.2) = decide (as ≠ bs) := by
  induction as generalizing bs with
  | nil =>
    cases bs with
    | nil => rfl
    | cons b bs => cases h
  | cons a as ih =>
    cases bs with
    | nil => cases h
    | cons b bs =>
      rw [List.zip_cons_cons, List.any_cons, ih (Nat.succ.inj h)]
      by_cases hab : a = b <;> simp [hab]

variable {P}

theorem makeLike_error {args : List Ast} {x : Error} (h : makeLike P a args = .error x) :
    x = .ClaripyZeroDivisionError ∧ a.op.isDivision ∧ (node a.op args []).vars = ∅ ∧
      ∃ d ∈ args.tail, (d.eval anyAssignment).toNat = 0 := by
  unfold makeLike at h
  dsimp only at h
  split at h
  · cases h
  rename_i hclosed
  split at h
  · rename_i hdiv
    cases h
    exact ⟨rfl, hdiv.1, not_not.mp hclosed, hdiv.2⟩
  · split at h <;> cases h

/-- Building a node from its substituted arguments. -/
theorem makeLike_substituted {bs : List Ast} (hnone : R.get? a = none)
    (hbs : List.Forall₂ (fun a b => ∀ ρ, b.eval ρ = substEval R ρ a) a.args bs) :
    (∀ b, makeLike P a bs = .ok b → ∀ ρ, b.eval ρ = substEval R ρ a) ∧
      ∀ x, makeLike P a bs = .error x → x = .ClaripyZeroDivisionError ∧ a.op.isDivision ∧
        ∃ c ∈ a.args.tail, ∀ ρ, (substEval R ρ c).toNat = 0 := by
  have hvalues : ∀ ρ, bs.map (eval ρ) = a.args.map (substEval R ρ) := by
    intro ρ
    refine (List.forall₂_eq_eq_eq ▸ ?_ : bs.map (eval ρ) = a.args.map (substEval R ρ))
    rw [List.forall₂_map_left_iff, List.forall₂_map_right_iff]
    exact hbs.flip.imp fun _ _ h => h ρ
  constructor
  · intro b hb ρ
    rw [(makeLike_ok hb).1, eval_eq_args, substEval_of_not_key hnone, ← hvalues]
    rfl
  intro x hx
  obtain ⟨rfl, hdiv, hclosed, d, hd, hzero⟩ := makeLike_error hx
  obtain ⟨i, hi, rfl⟩ := List.getElem_of_mem hd
  have hlength := hbs.length_eq
  have hi' : i + 1 < bs.length := by simpa [Nat.lt_sub_iff_add_lt] using hi
  refine ⟨rfl, hdiv, a.args[i + 1], ?_, fun ρ => ?_⟩
  · rw [List.mem_iff_getElem]
    exact ⟨i, by rw [List.length_tail]; omega, by rw [List.getElem_tail]⟩
  have hvalue := hbs.get (show i + 1 < a.args.length by omega) hi' ρ
  simp only [List.get_eq_getElem] at hvalue
  have hd' : bs[i + 1].vars = ∅ :=
    Finset.subset_empty.mp (hclosed ▸ vars_subset_of_mem (List.getElem_mem hi'))
  rw [← hvalue, eval_closed hd' ρ anyAssignment]
  rwa [List.getElem_tail] at hzero

/-! ## The loop -/

theorem mem_allArgs {c : Option Ast} (h : c ∈ a.allArgs) : c = none ∨ ∃ b ∈ a.args, c = some b := by
  rcases List.mem_append.mp h with h | h
  · exact .inl (List.eq_of_mem_replicate h)
  · obtain ⟨b, hb, rfl⟩ := List.mem_map.mp h
    exact .inr ⟨b, hb, rfl⟩

/-- The arguments of a node are less deep. -/
theorem wf_allArgs : WellFounded fun c a : Option Ast => c ∈ (replaceWalk P variableSet leafOperation).children a := by
  refine Subrelation.wf ?_ (measure fun a : Option Ast => (a.map depth).getD 0).wf
  intro c a hc
  cases a with
  | none => cases hc
  | some a =>
    rcases mem_allArgs hc with rfl | ⟨b, hb, rfl⟩
    · exact depth_pos a
    · exact depth_lt_of_mem hb

theorem visit_some {C : Dict Ast Ast} :
    (replaceWalk P variableSet id).visit C (some a) =
      match C.get? a with
      | some repl => some (some repl, C)
      | none => if variableSet ⊆ a.vars ∧ a.depth ≠ 1 then none else some (some a, C) := by
  simp only [replaceWalk, id, ne_eq, not_true_eq_false, if_false]
  cases C.get? a with
  | some repl => rfl
  | none =>
    have hpos := depth_pos a
    by_cases hsub : variableSet ⊆ a.vars
    · by_cases hleaf : a.depth = 1
      · simp [hsub, hleaf]
      · have hdeep : 1 < a.depth := by omega
        simp [hsub, hleaf, hdeep]
    · simp [hsub]

/-- What the walk keeps: the dictionary caches substitutions, and the results are substitutions. -/
theorem replaceWalk_rule {e : Ast} (hV : ∀ k ∈ R.keys, variableSet ⊆ k.vars) :
    (replaceWalk P variableSet id).Rule (fun a => ∀ b, a = some b → b ∈ e.subterms) (Cached R) (Substituted R)
      fun x => x = .ClaripyZeroDivisionError ∧ DividesByZero R e where
  wf := wf_allArgs variableSet id
  dom a ha c hc := by
    rintro b rfl
    cases a with
    | none => cases hc
    | some a =>
      rcases mem_allArgs hc with hnone | ⟨b', hb', heq⟩
      · cases hnone
      · cases heq
        exact arg_mem_subterms (ha a rfl) hb'
  visit C a r C' hC _ hvisit := by
    cases a with
    | none =>
      cases hvisit
      exact ⟨hC, rfl⟩
    | some a =>
      rw [visit_some] at hvisit
      cases hget : C.get? a with
      | some repl =>
        rw [hget] at hvisit
        cases hvisit
        exact ⟨hC, repl, rfl, hC.value a repl hget⟩
      | none =>
        rw [hget] at hvisit
        have hkey := hC.not_key hget
        dsimp only at hvisit
        split at hvisit
        · cases hvisit
        rename_i hstop
        cases hvisit
        refine ⟨hC, a, rfl, fun ρ => ?_⟩
        by_cases hsub : variableSet ⊆ a.vars
        · have hleaf := args_eq_nil_of_depth (not_not.mp fun hdeep => hstop ⟨hsub, hdeep⟩)
          rw [eval_eq_args, substEval_of_not_key hkey, hleaf]
          rfl
        · exact (substEval_of_pruned hV a hsub).symm
  combine C₀ C a rs hC₀ hC ha hvisit hrs := by
    cases a with
    | none => cases hvisit
    | some a =>
      have hget : C₀.get? a = none := by
        rw [visit_some] at hvisit
        cases hget : C₀.get? a with
        | none => rfl
        | some repl => rw [hget] at hvisit; cases hvisit
      have hkey := hC₀.not_key hget
      obtain ⟨bs, rfl, hbs⟩ := substituted_args hrs
      obtain ⟨hok, herror⟩ := makeLike_substituted (P := P) hkey hbs
      have hlength : a.allArgs.length = (List.replicate a.op.params none ++ bs.map some).length := hrs.length_eq
      simp only [replaceWalk, any_zip_ne hlength, reduceOption_args]
      split
      · cases hmake : makeLike P a bs with
        | ok repl =>
          refine ⟨hC.set hkey (hok repl hmake), fun r hr => ?_, fun x hx => ?_⟩
          · cases hr
            exact ⟨repl, rfl, hok repl hmake⟩
          · cases hx
        | error x =>
          refine ⟨hC, fun r hr => ?_, fun x' hx => ?_⟩
          · cases hr
          · cases hx
            obtain ⟨hx, hdiv, hzero⟩ := herror x hmake
            exact ⟨hx, a, ha a rfl, hdiv, hzero⟩
      · rename_i hsame
        have hargs : a.allArgs = List.replicate a.op.params none ++ bs.map some := by simpa using hsame
        have hargs : a.args = bs := by
          rw [← reduceOption_args a.op.params bs, ← hargs, allArgs, reduceOption_args]
        refine ⟨hC, fun r hr => ?_, fun x hx => ?_⟩
        · cases hr
          refine ⟨a, rfl, fun ρ => ?_⟩
          have hvalues : a.args.map (eval ρ) = a.args.map (substEval R ρ) := by
            subst hargs
            refine List.map_congr_left fun b hb => ?_
            obtain ⟨i, hi, rfl⟩ := List.getElem_of_mem hb
            exact hbs.get hi hi ρ
          rw [eval_eq_args, substEval_of_not_key hkey, hvalues]
        · cases hx

/-- A call returns the substituted expression, or divides by zero. -/
theorem replaceDictLoop_spec (P : AnnotationRules) {variableSet : Finset String}
    (hV : ∀ k ∈ R.keys, variableSet ⊆ k.vars) (hC : Cached R C) (e : Ast) :
    ∃ result C', Fuel.Returns (fun fuel => replaceDictLoop P variableSet id fuel e C) (result, C') ∧ Cached R C' ∧
      ((∃ e', result = .ok e' ∧ ∀ ρ, e'.eval ρ = substEval R ρ e) ∨
        result = .error (.raised .ClaripyZeroDivisionError) ∧ DividesByZero R e) := by
  obtain ⟨out, C', ⟨N, hrun⟩, hC', ⟨r, ⟨e', rfl, he'⟩, rfl⟩ | ⟨x, ⟨rfl, hzero⟩, rfl⟩⟩ :=
    (replaceWalk_rule (P := P) (e := e) variableSet hV).run (a := some e) (s := C)
      (fun b hb => Option.some.inj hb ▸ mem_subterms_self e) hC
  · refine ⟨.ok e', C', ⟨N, fun n hn => ?_⟩, hC', .inl ⟨e', rfl, he'⟩⟩
    exact congrArg (Except.map _) (hrun n hn)
  · refine ⟨.error (.raised .ClaripyZeroDivisionError), C', ⟨N, fun n hn => ?_⟩, hC', .inr ⟨rfl, hzero⟩⟩
    exact congrArg (Except.map _) (hrun n hn)

/-- Calls that share a dictionary: the walk ends with one result on its stacks, and that is the
expression with its topmost keys replaced, unless a node that has become concrete divides by zero. -/
theorem replaceDicts_substitute (P : AnnotationRules) (R : Dict Ast Ast) (calls : List (Ast × Finset String))
    (hV : ∀ call ∈ calls, ∀ k ∈ R.keys, call.2 ⊆ k.vars) :
    ∃ results C', Fuel.Returns (fun fuel => replaceDicts P fuel calls R) (results, C') ∧ Cached R C' ∧
      List.Forall₂ (fun call result =>
        (∃ e', result = .ok e' ∧ ∀ ρ, e'.eval ρ = substEval R ρ call.1) ∨
          result = .error (.raised .ClaripyZeroDivisionError) ∧ DividesByZero R call.1) calls results := by
  suffices h : ∀ C, Cached R C → ∃ results C', Fuel.Returns (fun fuel => replaceDicts P fuel calls C) (results, C') ∧
      Cached R C' ∧ List.Forall₂ (fun call result =>
        (∃ e', result = .ok e' ∧ ∀ ρ, e'.eval ρ = substEval R ρ call.1) ∨
          result = .error (.raised .ClaripyZeroDivisionError) ∧ DividesByZero R call.1) calls results from
    h R (.refl R)
  induction calls with
  | nil => exact fun C hC => ⟨[], C, .of_forall fun _ => rfl, hC, .nil⟩
  | cons call calls ih =>
    intro C hC
    obtain ⟨result, C₁, hrun₁, hC₁, hresult⟩ :=
      replaceDictLoop_spec P (hV call List.mem_cons_self) hC call.1
    obtain ⟨results, C', hrun, hC', hresults⟩ :=
      ih (fun call' h => hV call' (List.mem_cons_of_mem call h)) C₁ hC₁
    exact ⟨result :: results, C', hrun₁.bind (hrun.bind (.of_forall fun _ => rfl)), hC', .cons hresult hresults⟩

def BVS (name : String) (length : Nat) : Ast := node (.BVS name length) [] []

/-- Expressions without annotations. -/
def noAnnotations : AnnotationRules := ⟨fun _ => false, fun _ _ => []⟩

theorem replaceDicts_of_symbol :
    ∃ results C', Fuel.Returns (fun fuel => replaceDicts noAnnotations fuel
        [(node .add [BVS "x" 8, BVS "y" 8] [], {"x"})] [(BVS "x" 8, BVS "z" 8)]) (results, C') ∧
      Cached [(BVS "x" 8, BVS "z" 8)] C' ∧ List.Forall₂ (fun (call : Ast × Finset String) result =>
        (∃ e', result = .ok e' ∧ ∀ ρ, e'.eval ρ = substEval [(BVS "x" 8, BVS "z" 8)] ρ call.1) ∨
          result = .error (.raised .ClaripyZeroDivisionError) ∧ DividesByZero [(BVS "x" 8, BVS "z" 8)] call.1)
        [(node .add [BVS "x" 8, BVS "y" 8] [], {"x"})] results := by
  refine replaceDicts_substitute noAnnotations _ _ fun call hcall k hk => ?_
  rw [List.mem_singleton.mp hcall, Finset.mem_singleton.mp hk]
  decide

/-- Dividing by a replaced zero raises; and below a node that is pruned because it lacks one of
two variables, the other variable stays. -/
theorem replaced_zero_divides_and_pruned_symbol_stays :
    replaceDictLoop noAnnotations ∅ id 9 (node .floordiv [BVV 1 8, BVS "y" 8] []) [(BVS "y" 8, BVV 0 8)] =
        .ok (.error (.raised .ClaripyZeroDivisionError), [(BVS "y" 8, BVV 0 8)]) ∧
      ∃ e' C', replaceDictLoop noAnnotations {"x", "y"} id 20 (node .add [node .neg [BVS "x" 8] [], BVS "y" 8] [])
          [(BVS "x" 8, BVV 1 8), (BVS "y" 8, BVV 2 8)] = .ok (.ok e', C') ∧
        e'.eval anyAssignment ≠ substEval [(BVS "x" 8, BVV 1 8), (BVS "y" 8, BVV 2 8)] anyAssignment
          (node .add [node .neg [BVS "x" 8] [], BVS "y" 8] []) := by
  refine ⟨by rfl, node .add [node .neg [BVS "x" 8] [], BVV 2 8] [], _, by rfl, by decide⟩

end Ast
end Claripy
