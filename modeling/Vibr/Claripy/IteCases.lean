import Vibr.Claripy.If
import Vibr.Claripy.Simplifications.Conjunction

/-!
# Tables of If expressions

`ite_dict`, `ite_cases` and `reverse_ite_cases` of `claripy/ast/bool.py`. A small table
becomes a chain of `If` expressions, a large one a search tree over its sorted keys. The
cases of an expression are collected by a queue of expressions with their conditions; the
conditions are conjunctions, made by the constructor `And` with its simplifier.
-/

namespace Claripy

open Ast

/-- A dictionary with integer keys: its items in the order of insertion, every key once. -/
structure Table where
  items : List (Nat × Ast)
  nodup : (items.map Prod.fst).Nodup

namespace Table

def filter (d : Table) (p : Nat → Bool) : Table where
  items := d.items.filter fun item => p item.1
  nodup := d.nodup.sublist (List.filter_sublist.map Prod.fst)

/-- `keys[(len(keys) - 1) // 2]` of the sorted keys -/
def splitVal (d : Table) : Nat :=
  (((d.items.map Prod.fst).mergeSort (· ≤ ·))[(d.items.length - 1) / 2]?).getD 0

theorem splitVal_spec (d : Table) (h : 2 ≤ d.items.length) :
    (∃ item ∈ d.items, ¬ d.splitVal < item.1) ∧ ∃ item ∈ d.items, d.splitVal < item.1 := by
  have hperm := List.mergeSort_perm (d.items.map Prod.fst) (· ≤ ·)
  have hsorted : ((d.items.map Prod.fst).mergeSort (· ≤ ·)).Pairwise (· < ·) :=
    (List.sortedLE_mergeSort.sortedLT_of_nodup (hperm.nodup_iff.mpr d.nodup)).pairwise
  have hlen : ((d.items.map Prod.fst).mergeSort (· ≤ ·)).length = d.items.length := by simp
  have hitem : ∀ k ∈ (d.items.map Prod.fst).mergeSort (· ≤ ·), ∃ item ∈ d.items, item.1 = k := fun k hk => by
    simpa using hperm.mem_iff.mp hk
  unfold splitVal
  generalize (d.items.map Prod.fst).mergeSort (· ≤ ·) = keys at *
  have hmid : (d.items.length - 1) / 2 < keys.length - 1 := by omega
  rw [List.getElem?_eq_getElem (by omega), Option.getD_some]
  constructor
  · obtain ⟨item, hmem, heq⟩ := hitem _ (List.getElem_mem (show (d.items.length - 1) / 2 < keys.length by omega))
    exact ⟨item, hmem, by rw [heq]; exact lt_irrefl _⟩
  obtain ⟨item, hmem, heq⟩ := hitem _ (List.getElem_mem (show keys.length - 1 < keys.length by omega))
  refine ⟨item, hmem, ?_⟩
  rw [heq]
  exact List.pairwise_iff_getElem.mp hsorted _ _ _ _ hmid

theorem length_filter_lt {d : Table} {p : Nat → Bool} (h : ∃ item ∈ d.items, ¬ p item.1) :
    (d.filter p).items.length < d.items.length := by
  obtain ⟨item, hmem, hp⟩ := h
  exact List.length_filter_lt_length_iff_exists.mpr ⟨item, hmem, hp⟩

end Table

namespace Builder

variable (B : Builder)

/-- `ite_cases` -/
def iteCases : List (Ast × Ast) → Ast → Except TypeError Ast
  | [], default => .ok default
  | (c, v) :: cases, default =>
    (iteCases cases default).bind fun sofar =>
      if (B.build .eq [v, sofar]).isTrue then .ok sofar else B.ite c v sofar

/-- `ite_dict` -/
def iteDict (i : Ast) (d : Table) (default : Ast) : Except TypeError Ast :=
  if d.items.length < 4 then
    B.iteCases (d.items.map fun item => (B.build .eq [i, BVV item.1 i.length], item.2)) default
  else
    (iteDict i (d.filter fun key => key ≤ d.splitVal) default).bind fun valLow =>
      (iteDict i (d.filter fun key => d.splitVal < key) default).bind fun valHigh =>
        B.ite (B.build .ULE [i, BVV d.splitVal i.length]) valLow valHigh
termination_by d.items.length
decreasing_by
  · obtain ⟨-, item, hmem, hlt⟩ := d.splitVal_spec (by omega)
    exact Table.length_filter_lt ⟨item, hmem, by simpa using hlt⟩
  · obtain ⟨⟨item, hmem, hle⟩, -⟩ := d.splitVal_spec (by omega)
    exact Table.length_filter_lt ⟨item, hmem, by simpa using hle⟩

/-- The loop of `reverse_ite_cases`, with the pairs that it yields. -/
def reverseIteCases : Nat → List (Ast × Ast) → Except Fuel.OutOfFuel (List (Ast × Ast))
  | _, [] => .ok []
  | 0, _ :: _ => .error .outOfFuel
  | n + 1, (condition, ast) :: queue =>
    match ast with
    | node .If [c, a, b] _ =>
      reverseIteCases n (queue ++
        [(B.conjunction [condition, c], a), (B.conjunction [condition, B.build .Not [c]], b)])
    | _ => (reverseIteCases n queue).map ((condition, ast) :: ·)

/-! ## Case lists and tables -/

variable {B} {t : Ty}

/-- The value of the first case whose condition holds. -/
def firstTrue (ρ : Assignment) (cases : List (Ast × Ast)) (default : Ast) : Ast :=
  ((cases.find? fun case => case.1.holds ρ).map Prod.snd).getD default

theorem iteCases_spec {cases : List (Ast × Ast)} {default : Ast}
    (hcases : ∀ case ∈ cases, case.1.ty = some .bool ∧ case.2.ty = some t) (hdefault : default.ty = some t) :
    ∃ e, B.iteCases cases default = .ok e ∧ e.ty = some t ∧
      ∀ ρ, e.eval ρ = (firstTrue ρ cases default).eval ρ := by
  induction cases with
  | nil => exact ⟨default, rfl, hdefault, fun _ => rfl⟩
  | cons case cases ih =>
    obtain ⟨c, v⟩ := case
    obtain ⟨hc, hv⟩ := hcases (c, v) List.mem_cons_self
    obtain ⟨sofar, hsofar, hty, hval⟩ := ih fun case h => hcases case (List.mem_cons_of_mem _ h)
    have hfirst : ∀ ρ, (firstTrue ρ ((c, v) :: cases) default).eval ρ =
        if (c.eval ρ).toBool then v.eval ρ else sofar.eval ρ := by
      intro ρ
      rw [hval, firstTrue, List.find?_cons]
      by_cases hholds : c.holds ρ
      · rw [decide_eq_true hholds, if_pos (Value.toBool_eq_true.mpr hholds)]
        rfl
      · rw [decide_eq_false hholds, if_neg (fun h => hholds (Value.toBool_eq_true.mp h))]
        rfl
    rw [iteCases, hsofar]
    simp only [Except.bind]
    split
    · rename_i heq
      refine ⟨sofar, rfl, hty, fun ρ => ?_⟩
      have hveq := holds_of_isTrue heq ρ
      rw [holds, B.eval_build] at hveq
      rw [hfirst, holds_node_eq.mp hveq, ite_self]
    · obtain ⟨e, he, hety, heval⟩ := ite_spec (B := B) hc hv hty
      exact ⟨e, he, hety, fun ρ => by rw [heval, hfirst]⟩

/-- A comparison of the index with a key that its length can hold. -/
theorem index_compare {i : Ast} {w key : Nat} (hi : i.ty = some (.bv w)) (hkey : key < 2 ^ w) :
    (B.build .eq [i, BVV key i.length]).ty = some .bool ∧
      (B.build .ULE [i, BVV key i.length]).ty = some .bool ∧
      ∀ ρ, ((B.build .eq [i, BVV key i.length]).holds ρ ↔ (i.eval ρ).toNat = key) ∧
        ((B.build .ULE [i, BVV key i.length]).holds ρ ↔ (i.eval ρ).toNat ≤ key) := by
  have hlen : i.length = w := length_of_ty i _ hi
  have hconst : (BVV key w).ty = some (.bv w) := by
    simp [BVV, ty, tyList, Op.ty, ty_pos i w hi]
  rw [hlen]
  refine ⟨B.ty_build _ _ _ ?_, B.ty_build _ _ _ ?_, fun ρ => ?_⟩
  · rw [ty_two, hi, hconst]
    simp [Op.ty]
  · rw [ty_two, hi, hconst]
    simp [Op.ty, Ty.compare]
  obtain ⟨v, hv⟩ := exists_bv_of_ty hi ρ
  rw [holds, holds, B.eval_build, B.eval_build]
  constructor
  · change (node .eq [i, BVV key w] []).holds ρ ↔ _
    rw [holds_node_eq, hv, BVV, eval_BVV, Value.bv.injEq, Value.toNat]
    simp only [heq_eq_eq, true_and]
    rw [← BitVec.toNat_inj, BitVec.toNat_ofNat, Nat.mod_eq_of_lt hkey]
  · rw [eval_compare (f := fun _ a b => a.ule b) rfl (fun _ => rfl) hv rfl, hv, Value.toNat]
    simp [BitVec.ule, Nat.mod_eq_of_lt hkey]

/-- What the table gives for the value of the index. -/
def lookup (ρ : Assignment) (i : Ast) (d : Table) (default : Ast) : Ast :=
  (Dict.get? d.items (i.eval ρ).toNat).getD default

theorem firstTrue_items {i default : Ast} {w : Nat} (hi : i.ty = some (.bv w)) (items : List (Nat × Ast))
    (hkeys : ∀ item ∈ items, item.1 < 2 ^ w) (ρ : Assignment) :
    firstTrue ρ (items.map fun item => (B.build .eq [i, BVV item.1 i.length], item.2)) default =
      (Dict.get? items (i.eval ρ).toNat).getD default := by
  induction items with
  | nil => rfl
  | cons item items ih =>
    have hrest := ih fun item h => hkeys item (List.mem_cons_of_mem _ h)
    have heq := ((index_compare (B := B) hi (hkeys item List.mem_cons_self)).2.2 ρ).1
    unfold firstTrue at hrest ⊢
    rw [List.map_cons, List.find?_cons, Dict.get?_cons]
    by_cases hkey : (i.eval ρ).toNat = item.1
    · rw [decide_eq_true (heq.mpr hkey), if_pos hkey.symm]
      rfl
    · rw [decide_eq_false (fun h => hkey (heq.mp h)), if_neg (Ne.symm hkey)]
      exact hrest

theorem iteDict_spec {i default : Ast} {w : Nat} (hi : i.ty = some (.bv w)) (hdefault : default.ty = some t)
    (d : Table) (hd : ∀ item ∈ d.items, item.1 < 2 ^ w ∧ item.2.ty = some t) :
    ∃ e, B.iteDict i d default = .ok e ∧ e.ty = some t ∧
      ∀ ρ, e.eval ρ = (lookup ρ i d default).eval ρ := by
  induction hn : d.items.length using Nat.strong_induction_on generalizing d with
  | _ n ih =>
    subst hn
    rw [iteDict]
    split
    · have hcases : ∀ case ∈ d.items.map fun item => (B.build .eq [i, BVV item.1 i.length], item.2),
          case.1.ty = some .bool ∧ case.2.ty = some t := fun case hcase => by
        obtain ⟨item, hitem, rfl⟩ := List.mem_map.mp hcase
        exact ⟨(index_compare hi (hd item hitem).1).1, (hd item hitem).2⟩
      obtain ⟨e, he, hty, hval⟩ := iteCases_spec (B := B) hcases hdefault
      exact ⟨e, he, hty, fun ρ => by rw [hval, firstTrue_items hi d.items (fun item h => (hd item h).1), lookup]⟩
    rename_i hlarge
    obtain ⟨⟨low, hlow, hle⟩, ⟨high, hhigh, hlt⟩⟩ := d.splitVal_spec (by omega)
    have hsub : ∀ p, ∀ item ∈ (d.filter p).items, item.1 < 2 ^ w ∧ item.2.ty = some t := fun p item h =>
      hd item (List.mem_of_mem_filter h)
    obtain ⟨valLow, hvalLow, hlowty, hlowval⟩ := ih _ (Table.length_filter_lt
      (p := fun key => key ≤ d.splitVal) ⟨high, hhigh, by simpa using hlt⟩) (d.filter _) (hsub _) rfl
    obtain ⟨valHigh, hvalHigh, hhighty, hhighval⟩ := ih _ (Table.length_filter_lt
      (p := fun key => d.splitVal < key) ⟨low, hlow, by simpa using hle⟩) (d.filter _) (hsub _) rfl
    have hsplit : d.splitVal < 2 ^ w := Nat.lt_trans hlt (hd high hhigh).1
    obtain ⟨-, hcond, hcmp⟩ := index_compare (B := B) hi hsplit
    obtain ⟨e, he, hty, hval⟩ := ite_spec (B := B) hcond hlowty hhighty
    rw [hvalLow, hvalHigh]
    refine ⟨e, he, hty, fun ρ => ?_⟩
    rw [hval, hlowval, hhighval]
    have hget : ∀ p : Nat → Bool, lookup ρ i (d.filter p) default =
        (if p (i.eval ρ).toNat then Dict.get? d.items (i.eval ρ).toNat else none).getD default := fun p =>
      congrArg (Option.getD · default) (Dict.get?_restrict d.items p _)
    rw [hget, hget, lookup]
    by_cases hle : (i.eval ρ).toNat ≤ d.splitVal
    · rw [if_pos (Value.toBool_eq_true.mpr ((hcmp ρ).2.mpr hle)), if_pos (by simpa using hle)]
    · rw [if_neg (fun h => hle ((hcmp ρ).2.mp (Value.toBool_eq_true.mp h))), if_pos (by simpa using hle)]

/-! ## The cases of an expression -/

variable (B) in
/-- On the way from an expression with its condition to its cases, no conjunction hides a
contradiction. -/
def PathsExact (ρ : Assignment) : Ast → Ast → Prop
  | condition, node op args _ =>
    match op, args with
    | .If, [c, a, b] =>
      let notC := B.build .Not [c]
      (B.ConjoinsExactly ρ [condition, c] ∧ PathsExact ρ (B.conjunction [condition, c]) a) ∧
        B.ConjoinsExactly ρ [condition, notC] ∧ PathsExact ρ (B.conjunction [condition, notC]) b
    | _, _ => True

/-- The number of expressions that the queue sees for one. -/
def steps : Ast → Nat
  | node op args _ =>
    match op, args with
    | .If, [_, a, b] => steps a + steps b + 1
    | _, _ => 1

variable (B) in
/-- The pairs of `reverse_ite_cases`, depth first. -/
def casesOf : Ast → Ast → List (Ast × Ast)
  | condition, node op args ann =>
    match op, args with
    | .If, [c, a, b] =>
      casesOf (B.conjunction [condition, c]) a ++ casesOf (B.conjunction [condition, B.build .Not [c]]) b
    | op, args => [(condition, node op args ann)]

/-- What an expression is, as the queue sees it. -/
theorem cases_If (e : Ast) :
    (∃ c a b ann, e = node .If [c, a, b] ann) ∨
      (∀ (B : Builder) n condition queue, B.reverseIteCases (n + 1) ((condition, e) :: queue) =
          (B.reverseIteCases n queue).map ((condition, e) :: ·)) ∧
        (∀ (B : Builder) condition, B.casesOf condition e = [(condition, e)]) ∧
        (∀ (B : Builder) ρ condition, B.PathsExact ρ condition e) ∧ steps e = 1 := by
  obtain ⟨op, args, ann⟩ := e
  by_cases h : ∃ c a b, op = .If ∧ args = [c, a, b]
  · obtain ⟨c, a, b, rfl, rfl⟩ := h
    exact .inl ⟨c, a, b, ann, rfl⟩
  have hne : ∀ c a b, op = .If → args = [c, a, b] → False := fun c a b hop hargs => h ⟨c, a, b, hop, hargs⟩
  refine .inr ⟨fun B n condition queue => ?_, fun B condition => ?_, fun B ρ condition => ?_, ?_⟩
  · rw [reverseIteCases]
    exact fun c a b ann' heq => by
      cases heq
      exact hne c a b rfl rfl
  · rw [casesOf]
    exact hne
  · simp only [PathsExact]
  · rw [steps]
    exact hne

theorem steps_pos (e : Ast) : 0 < steps e := by
  obtain ⟨c, a, b, ann, rfl⟩ | ⟨-, -, -, h⟩ := cases_If e
  · exact Nat.succ_pos _
  · exact h ▸ Nat.one_pos

/-- With enough fuel the queue gives the cases of its expressions, in some order. -/
theorem reverseIteCases_perm (N : Nat) (queue : List (Ast × Ast))
    (hN : (queue.map fun item => steps item.2).sum ≤ N) :
    ∃ pairs, (∀ n ≥ N, B.reverseIteCases n queue = .ok pairs) ∧
      pairs.Perm (queue.flatMap fun item => B.casesOf item.1 item.2) := by
  induction N generalizing queue with
  | zero =>
    rcases queue with _ | ⟨⟨condition, e⟩, queue⟩
    · exact ⟨[], fun n _ => by rw [reverseIteCases], .rfl⟩
    · have := steps_pos e
      simp only [List.map_cons, List.sum_cons] at hN
      omega
  | succ N ih =>
    rcases queue with _ | ⟨⟨condition, e⟩, queue⟩
    · exact ⟨[], fun n _ => by rw [reverseIteCases], .rfl⟩
    simp only [List.map_cons, List.sum_cons] at hN
    obtain ⟨c, a, b, ann, rfl⟩ | ⟨hstep, hcases, -, hsteps⟩ := cases_If e
    · obtain ⟨pairs, hpairs, hperm⟩ := ih (queue ++ [(B.conjunction [condition, c], a),
        (B.conjunction [condition, B.build .Not [c]], b)]) (by
          simp only [steps, List.map_append, List.map_cons, List.map_nil, List.sum_append, List.sum_cons,
            List.sum_nil] at hN ⊢
          omega)
      refine ⟨pairs, fun n hn => ?_, hperm.trans ?_⟩
      · obtain ⟨m, rfl⟩ : ∃ m, n = m + 1 := ⟨n - 1, by omega⟩
        exact hpairs m (by omega)
      · simp only [List.flatMap_append, List.flatMap_cons, List.flatMap_nil, List.append_nil, casesOf]
        exact List.perm_append_comm
    · obtain ⟨pairs, hpairs, hperm⟩ := ih queue (by omega)
      refine ⟨(condition, e) :: pairs, fun n hn => ?_, ?_⟩
      · obtain ⟨m, rfl⟩ : ∃ m, n = m + 1 := ⟨n - 1, by omega⟩
        rw [hstep, hpairs m (by omega)]
        rfl
      · rw [List.flatMap_cons, hcases]
        exact hperm.cons _

variable (B) in
/-- The cases whose conditions hold. -/
def trueCases (ρ : Assignment) (condition e : Ast) : List (Ast × Ast) :=
  (B.casesOf condition e).filter fun case => case.1.holds ρ

theorem trueCases_If (ρ : Assignment) (condition c a b : Ast) (ann : List Annotation) :
    B.trueCases ρ condition (node .If [c, a, b] ann) =
      B.trueCases ρ (B.conjunction [condition, c]) a ++
        B.trueCases ρ (B.conjunction [condition, B.build .Not [c]]) b := by
  simp only [trueCases, casesOf, List.filter_append]

theorem holds_build_not {c : Ast} {ρ : Assignment} : (B.build .Not [c]).holds ρ ↔ ¬ c.holds ρ := by
  rw [holds, B.eval_build]
  exact holds_node_not

/-- The two conditions that an `If` expression puts into the queue. -/
theorem split_condition {condition c : Ast} (hcondition : condition.IsCondition) (hc : c.IsCondition) (ρ : Assignment) :
    (B.conjunction [condition, c]).IsCondition ∧ (B.conjunction [condition, B.build .Not [c]]).IsCondition ∧
      ((B.conjunction [condition, c]).holds ρ ↔
        condition.holds ρ ∧ c.holds ρ ∨ ¬ B.ConjoinsExactly ρ [condition, c]) ∧
      ((B.conjunction [condition, B.build .Not [c]]).holds ρ ↔
        condition.holds ρ ∧ ¬ c.holds ρ ∨ ¬ B.ConjoinsExactly ρ [condition, B.build .Not [c]]) := by
  have hpair : ∀ d : Ast, d.IsCondition → ∀ a ∈ [condition, d], a.IsCondition := fun d hd => by
    simpa using ⟨hcondition, hd⟩
  refine ⟨isCondition_conjunction (hpair c hc), isCondition_conjunction (hpair _ (isCondition_not hc)), ?_, ?_⟩
  · rw [holds_conjunction_iff (hpair c hc)]
    simp [Sat]
  · rw [holds_conjunction_iff (hpair _ (isCondition_not hc))]
    simp [Sat, holds_build_not]

/-- Where no contradiction is hidden, one case holds if the condition does: the one with the
value of the expression. -/
theorem trueCases_of_exact {condition e : Ast} (hcondition : condition.IsCondition) (hty : e.ty = some t)
    (hred : e.Reduced) {ρ : Assignment} (hexact : B.PathsExact ρ condition e) :
    (B.trueCases ρ condition e).map (fun case => case.2.eval ρ) =
      if condition.holds ρ then [e.eval ρ] else [] := by
  induction e using Ast.induct generalizing condition with
  | h op args ann ih =>
    obtain ⟨c, a, b, ann', heq⟩ | ⟨-, hcases, -, -⟩ := cases_If (node op args ann)
    · cases heq
      obtain ⟨hcty, haty, hbty⟩ := ty_If.mp hty
      have hparts := (reduced_node.mp hred).2
      obtain ⟨hA, hD, hholdsA, hholdsD⟩ := B.split_condition hcondition ⟨hcty, hparts c (by simp)⟩ ρ
      obtain ⟨⟨hexactA, hpathA⟩, hexactD, hpathD⟩ := hexact
      rw [trueCases_If, List.map_append, ih a (by simp) hA haty (hparts a (by simp)) hpathA,
        ih b (by simp) hD hbty (hparts b (by simp)) hpathD, eval_If]
      simp only [hholdsA, hholdsD, hexactA, hexactD, not_true_eq_false, or_false, Value.toBool_eq_true]
      by_cases hcond : condition.holds ρ <;> by_cases hc : c.holds ρ <;>
        simp [hcond, hc, show (c.eval ρ = .bool true) ↔ c.holds ρ from Iff.rfl]
    · rw [trueCases, hcases, List.filter_singleton]
      by_cases hcond : condition.holds ρ <;> simp [hcond]

/-- A hidden contradiction makes a case hold too much. -/
theorem trueCases_length {condition e : Ast} (hcondition : condition.IsCondition) (hty : e.ty = some t)
    (hred : e.Reduced) (ρ : Assignment) :
    (condition.holds ρ → 1 ≤ (B.trueCases ρ condition e).length) ∧
      (¬ B.PathsExact ρ condition e → (if condition.holds ρ then 1 else 0) < (B.trueCases ρ condition e).length) := by
  induction e using Ast.induct generalizing condition with
  | h op args ann ih =>
    obtain ⟨c, a, b, ann', heq⟩ | ⟨-, hcases, hpaths, -⟩ := cases_If (node op args ann)
    · cases heq
      obtain ⟨hcty, haty, hbty⟩ := ty_If.mp hty
      have hparts := (reduced_node.mp hred).2
      obtain ⟨hA, hD, hholdsA, hholdsD⟩ := B.split_condition hcondition ⟨hcty, hparts c (by simp)⟩ ρ
      obtain ⟨hlenA, hmoreA⟩ := ih a (by simp) hA haty (hparts a (by simp))
      obtain ⟨hlenD, hmoreD⟩ := ih b (by simp) hD hbty (hparts b (by simp))
      have hexactA : condition.holds ρ → c.holds ρ → B.ConjoinsExactly ρ [condition, c] := fun h hc =>
        conjoinsExactly_of_sat (by simpa [Sat] using ⟨h, hc⟩)
      have hexactD : condition.holds ρ → ¬ c.holds ρ → B.ConjoinsExactly ρ [condition, B.build .Not [c]] :=
        fun h hc => conjoinsExactly_of_sat (by simpa [Sat, holds_build_not] using ⟨h, hc⟩)
      rw [trueCases_If, List.length_append, PathsExact]
      constructor
      · intro hcond
        by_cases hc : c.holds ρ
        · have := hlenA (hholdsA.mpr (.inl ⟨hcond, hc⟩))
          omega
        · have := hlenD (hholdsD.mpr (.inl ⟨hcond, hc⟩))
          omega
      · intro hpaths
        -- a condition that holds too much, or a case too many below one of the branches
        by_cases hcond : condition.holds ρ <;> by_cases hc : c.holds ρ <;> grind only
    · refine ⟨fun hcond => ?_, fun h => absurd (hpaths B ρ condition) h⟩
      rw [trueCases, hcases, List.filter_singleton]
      simp [hcond]

/-- One condition holds, with the value of the expression, exactly where no contradiction is
hidden. -/
theorem trueCases_iff {e : Ast} (hty : e.ty = some t) (hred : e.Reduced) (ρ : Assignment) :
    (∃ case, B.trueCases ρ true_ e = [case] ∧ case.2.eval ρ = e.eval ρ) ↔ B.PathsExact ρ true_ e := by
  have htrue : true_.holds ρ := rfl
  constructor
  · rintro ⟨case, hcase, -⟩
    by_contra hpaths
    have hlen := (trueCases_length isCondition_true hty hred ρ).2 hpaths
    rw [hcase, if_pos htrue] at hlen
    simp at hlen
  intro hpaths
  have hmap := trueCases_of_exact isCondition_true hty hred hpaths
  rw [if_pos htrue] at hmap
  obtain ⟨case, hcase, hval⟩ := List.map_eq_singleton_iff.mp hmap
  exact ⟨case, hcase, hval⟩

end Builder
end Claripy
