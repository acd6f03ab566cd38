import Vibr.Lib.Runs
import Vibr.Claripy.Backend.Exhaustive
import Vibr.Claripy.Frontend.ModelCacheInv
import Vibr.Claripy.Frontend.Split

/-!
# Front-ends that share models

Front-ends hand models to each other: a copy takes them all, the parts of a split
take their projections, a combination takes their products, and `update` takes
the other one's models as they are. A run is over any number of front-ends.
-/

namespace Claripy

namespace ModelCacheMixin

/-- `set.update` on sets of models. -/
def insertAll (ms acc : List Model) : List Model := ms.foldl (fun acc m => Model.insertInto m acc) acc

/-- `itertools.product` -/
def product {α : Type} : List (List α) → List (List α)
  | [] => [[]]
  | l :: ls => l.flatMap fun a => (product ls).map (a :: ·)

variable (E : Env)

/-- One part of a split: a blank copy with the constraints of one group. -/
def part (s : ModelCacheMixin) (cs : List Ast) : ModelCacheMixin :=
  let r := (add E cs true { count := s.count }).2
  { r with models := insertAll (s.models.map fun m => Model.filter m r.front.vars) [] }

def split (s : ModelCacheMixin) : List ModelCacheMixin :=
  (ConstrainedFrontend.splitConstraints s.front.constraints true).map fun g => part E s g.2

/-- `ConstrainedFrontend.combine`: a blank copy with the constraints of all. -/
def combineConstraints (count : Nat) (fronts : List ModelCacheMixin) : ModelCacheMixin :=
  fronts.foldl (fun c o => (add E o.front.constraints true c).2) { count := count }

def combine (s : ModelCacheMixin) (others : List ModelCacheMixin) : ModelCacheMixin :=
  let combined := combineConstraints E s.count (s :: others)
  let names := (s :: others).map (·.front.vars)
  if (s :: others).any (·.models = []) then combined
  else if (names.map Finset.card).sum ≠ (names.foldr (· ∪ ·) ∅).card then combined
  else
    let modelLists := (s :: others).map fun o => E.iter s.count o.models
    let products := (product modelLists).take s.models.length
    { combined with models := insertAll (products.map Model.combine) combined.models }

def update (s other : ModelCacheMixin) : ModelCacheMixin :=
  { s with
    models := insertAll (other.models.filter fun m => Dict.keys m = s.front.vars) s.models
    evalExhausted := other.evalExhausted ++ s.evalExhausted
    maxExhausted := other.maxExhausted ++ s.maxExhausted
    minExhausted := other.minExhausted ++ s.minExhausted
    maxSignedExhausted := other.maxSignedExhausted ++ s.maxSignedExhausted
    minSignedExhausted := other.minSignedExhausted ++ s.minSignedExhausted }

/-! ## Runs -/

/-- The calls on one front-end. -/
inductive Call where
  | add (constraints : List Constraint) (invalidateCache : Bool)
  | satisfiable (extra : List Ast)
  | checkSatisfiability (extra : List Ast)
  | eval (e : Ast) (n : Nat) (extra : List Ast)
  | batchEval (exprs : List Ast) (n : Nat) (extra : List Ast)
  | min (e : Ast) (extra : List Ast) (signed : Bool)
  | max (e : Ast) (extra : List Ast) (signed : Bool)
  | solution (e v : Ast) (extra : List Ast)
  /-- entries of the weak dictionaries whose expression is no longer alive vanish -/
  | collect (alive : Ast → Bool)

def step (s : ModelCacheMixin) : Call → ModelCacheMixin
  | .add constraints invalidateCache => (add E (constraints.map (·.val)) invalidateCache s).2
  | .satisfiable extra => (satisfiable E extra s).2
  | .checkSatisfiability extra => (FullFrontend.checkSatisfiability E.backend extra s).2
  | .eval e n extra => (eval E e n extra s).2
  | .batchEval exprs n extra => (batchEval E exprs n extra s).2
  | .min e extra signed => (min E e extra signed s).2
  | .max e extra signed => (max E e extra signed s).2
  | .solution e v extra => (solution E e v extra s).2
  | .collect alive =>
    { s with
      evalExhausted := s.evalExhausted.filter alive
      maxExhausted := s.maxExhausted.filter alive
      minExhausted := s.minExhausted.filter alive
      maxSignedExhausted := s.maxSignedExhausted.filter alive
      minSignedExhausted := s.minSignedExhausted.filter alive }

/-- Constraints added without invalidation follow from those already there. -/
def AddsImplied (s : ModelCacheMixin) : Call → Prop
  | .add constraints false => Entails s.front.constraints (constraints.map (·.val))
  | _ => True

variable {E} {s : ModelCacheMixin}

theorem Inv.step (hB : E.backend.Exact) (h : Inv s) (c : Call) (hok : AddsImplied s c) :
    Inv (step E s c) := by
  cases c with
  | add constraints invalidateCache =>
    refine h.add (fun c hc => ?_) fun hi => ?_
    · obtain ⟨c', -, rfl⟩ := List.mem_map.mp hc
      exact c'.property
    · subst hi; exact hok
  | satisfiable extra => exact (satisfiable_learns hB h extra).inv
  | checkSatisfiability extra => exact (checkSatisfiability_learns hB h extra).inv
  | eval e n extra => exact (eval_learns hB h e n extra).inv
  | batchEval exprs n extra => exact (batchEval_learns hB h exprs n extra).inv
  | min e extra signed => exact (min_learns hB h e extra signed).inv
  | max e extra signed => exact (max_learns hB h e extra signed).inv
  | solution e v extra => exact (solution_learns hB h e v extra).inv
  | collect alive => exact h.of_eq rfl rfl

/-! ## Split -/

theorem mem_insertAll {ms acc : List Model} {m : Model} (h : m ∈ insertAll ms acc) :
    m ∈ ms ∨ m ∈ acc := by
  induction ms generalizing acc with
  | nil => exact .inr h
  | cons m' ms ih =>
    rcases ih h with h | h
    · exact .inl (List.mem_cons_of_mem _ h)
    · rcases Model.mem_insertInto h with rfl | h
      · exact .inl List.mem_cons_self
      · exact .inr h

@[simp] theorem add_front {cs : List Ast} {invalidateCache : Bool} :
    (add E cs invalidateCache s).2.front = (s.front.add cs).1 := by
  unfold add
  dsimp only
  split
  · rfl
  · split <;> simp

theorem conjuncts_typed {cs : List Ast} (h : ∀ c ∈ cs, c.ty = some .bool) :
    ∀ c ∈ cs.flatMap ConstrainedFrontend.conjuncts, c.ty = some .bool := by
  intro c hc
  obtain ⟨d, hd, hcd⟩ := List.mem_flatMap.mp hc
  obtain ⟨op, args, annotations⟩ := d
  have hty := h _ hd
  unfold ConstrainedFrontend.conjuncts at hcd
  by_cases hop : op = .And
  · subst hop
    exact Ast.ty_of_and hty c (by simpa [Ast.op, Ast.args] using hcd)
  · obtain rfl : c = .node op args annotations := by simpa [Ast.op, hop] using hcd
    exact hty

theorem Inv.part (h : Inv s) {cs : List Ast}
    (hcs : ∀ c ∈ cs, c ∈ s.front.constraints.flatMap ConstrainedFrontend.conjuncts) :
    Inv (part E s cs) := by
  have hr : Inv (ModelCacheMixin.add E cs true { count := s.count }).2 :=
    (inv_blank s.count).add (fun c hc => conjuncts_typed h.typed c (hcs c hc)) (by simp)
  unfold ModelCacheMixin.part
  dsimp only
  have hfront : (ModelCacheMixin.add E cs true { count := s.count }).2.front =
      (ConstrainedFrontend.add {} cs).1 := add_front
  generalize (ModelCacheMixin.add E cs true { count := s.count }).2 = r at hr hfront
  -- A projected model keeps its values on the variables of the part.
  have hsat : ∀ m ∈ s.models, Sat r.front.constraints ((m.filter r.front.vars).complete true) := by
    intro m hm
    have hagree : ((m.filter r.front.vars).complete true).agreeOn (varsOf r.front.constraints)
        (m.complete true) := by
      rw [← hr.vars_eq]
      exact Model.filter_agreeOn _ _
    rw [sat_congr hagree]
    have hall := ConstrainedFrontend.sat_flatMap_conjuncts.mpr (h.sat m hm)
    intro c hc
    rw [hfront, ConstrainedFrontend.add_constraints] at hc
    exact hall c (hcs c (ConstrainedFrontend.add_added_subset c (by simpa using hc)))
  refine ⟨hr.valid, hr.vars_eq, hr.typed, ?_, ?_⟩ <;> intro m hm <;>
    rcases mem_insertAll hm with hm | hm
  · obtain ⟨m', -, rfl⟩ := List.mem_map.mp hm
    rw [Model.keys_filter]
    exact fun x hx => (Finset.mem_filter.mp hx).2
  · simp at hm
  · obtain ⟨m', hm', rfl⟩ := List.mem_map.mp hm
    exact hsat m' hm'
  · simp at hm

theorem Inv.split (h : Inv s) : ∀ r ∈ split E s, Inv r := by
  intro r hr
  obtain ⟨g, hg, rfl⟩ := List.mem_map.mp hr
  exact h.part fun c hc => ConstrainedFrontend.mem_of_mem_splitConstraints hg hc

/-! ## Combine -/

theorem mem_product {α : Type} {ls : List (List α)} {l : List α} (h : l ∈ product ls) :
    List.Forall₂ (· ∈ ·) l ls := by
  induction ls generalizing l with
  | nil =>
    obtain rfl : l = [] := by simpa [product] using h
    exact .nil
  | cons as ls ih =>
    simp only [product, List.mem_flatMap, List.mem_map] at h
    obtain ⟨a, ha, l', hl', rfl⟩ := h
    exact .cons ha (ih hl')

/-- Sets whose sizes add up to the size of their union share no element. -/
theorem pairwise_disjoint_of_card {names : List (Finset String)}
    (h : (names.map Finset.card).sum = (names.foldr (· ∪ ·) ∅).card) : names.Pairwise Disjoint := by
  have hle : ∀ names : List (Finset String),
      (names.foldr (· ∪ ·) ∅).card ≤ (names.map Finset.card).sum := by
    intro names
    induction names with
    | nil => simp
    | cons a names ih => exact (Finset.card_union_le _ _).trans (by simpa using ih)
  induction names with
  | nil => exact .nil
  | cons a names ih =>
    simp only [List.map_cons, List.sum_cons, List.foldr_cons] at h
    have hcard := Finset.card_union_add_card_inter a (names.foldr (· ∪ ·) ∅)
    have hle' := hle names
    refine .cons (fun b hb => ?_) (ih (by omega))
    have hdisj : Disjoint a (names.foldr (· ∪ ·) ∅) := by
      rw [Finset.disjoint_iff_inter_eq_empty, ← Finset.card_eq_zero]
      omega
    refine hdisj.mono_right ?_
    clear ih h hcard hle' hdisj
    induction names with
    | nil => simp at hb
    | cons c names ih =>
      rcases List.mem_cons.mp hb with rfl | hb
      · exact Finset.subset_union_left
      · exact (ih hb).trans Finset.subset_union_right

theorem get?_combine_cons (m : Model) (ms : List Model) (x : String) :
    Dict.get? (Model.combine (m :: ms)) x =
      (Dict.get? (Model.combine ms) x).or (Dict.get? m x) := by
  have hacc : ∀ (ms : List Model) (acc : Model), Dict.get? (ms.foldl Dict.update acc) x =
      (Dict.get? (ms.foldl Dict.update []) x).or (Dict.get? acc x) := by
    intro ms
    induction ms with
    | nil => intro acc; simp
    | cons m ms ih =>
      intro acc
      rw [List.foldl_cons, List.foldl_cons, ih, ih (Dict.update [] m), Dict.get?_update,
        Dict.get?_update]
      simp [Option.or_assoc]
  rw [Model.combine, List.foldl_cons, hacc, Dict.get?_update]
  simp [Model.combine]

/-- Models over disjoint variables can be put together: each still reads the same on
its own variables. -/
theorem combine_agree {ms : List Model} {fronts : List ModelCacheMixin}
    (hms : List.Forall₂ (fun m (o : ModelCacheMixin) => m ∈ o.models ∧ Dict.keys m ⊆ o.front.vars)
      ms fronts)
    (hdisj : (fronts.map (·.front.vars)).Pairwise Disjoint) :
    (∀ o ∈ fronts, ∃ m ∈ o.models, ∀ x ∈ o.front.vars,
        Dict.get? (Model.combine ms) x = Dict.get? m x) ∧
      ∀ x ∈ Dict.keys (Model.combine ms), ∃ o ∈ fronts, x ∈ o.front.vars := by
  induction hms with
  | nil => exact ⟨by simp, by simp [Model.combine, Dict.keys]⟩
  | @cons m o ms fronts hm _ ih =>
    rw [List.map_cons, List.pairwise_cons] at hdisj
    obtain ⟨hhead, htail⟩ := hdisj
    obtain ⟨hagree, hkeys⟩ := ih htail
    have happart : ∀ o' ∈ fronts, ∀ x ∈ o'.front.vars, x ∉ o.front.vars := fun o' ho' x hx' hx =>
      Finset.disjoint_left.mp (hhead _ (List.mem_map_of_mem ho')) hx hx'
    refine ⟨fun o' ho' => ?_, fun x hx => ?_⟩
    · rcases List.mem_cons.mp ho' with rfl | ho'
      · refine ⟨m, hm.1, fun x hx => ?_⟩
        have hnone : Dict.get? (Model.combine ms) x = none := by
          refine Dict.get?_eq_none.mpr fun hk => ?_
          obtain ⟨o'', ho'', hx'⟩ := hkeys x hk
          exact happart o'' ho'' x hx' hx
        rw [get?_combine_cons, hnone, Option.none_or]
      obtain ⟨m', hm', heq⟩ := hagree o' ho'
      refine ⟨m', hm', fun x hx => ?_⟩
      have hnone : Dict.get? m x = none :=
        Dict.get?_eq_none.mpr fun hk => happart o' ho' x hx (hm.2 hk)
      rw [get?_combine_cons, hnone, Option.or_none, heq x hx]
    · rw [← Dict.get?_isSome, get?_combine_cons, Option.isSome_or, Bool.or_eq_true,
        Dict.get?_isSome, Dict.get?_isSome] at hx
      rcases hx with hx | hx
      · obtain ⟨o', ho', hx'⟩ := hkeys x hx
        exact ⟨o', List.mem_cons_of_mem _ ho', hx'⟩
      · exact ⟨o, List.mem_cons_self, hm.2 hx⟩

/-- The combined front-end holds the constraints of all, over the variables of all. -/
theorem combineConstraints_spec (count : Nat) {fronts : List ModelCacheMixin}
    (h : ∀ o ∈ fronts, Inv o) :
    Inv (combineConstraints E count fronts) ∧
      (∀ ρ, Sat (combineConstraints E count fronts).front.constraints ρ ↔
        ∀ o ∈ fronts, Sat o.front.constraints ρ) ∧
      ∀ o ∈ fronts, o.front.vars ⊆ (combineConstraints E count fronts).front.vars := by
  have hfold : ∀ (fronts : List ModelCacheMixin) (c : ModelCacheMixin), (∀ o ∈ fronts, Inv o) →
      Inv c → let r := fronts.foldl (fun c o => (add E o.front.constraints true c).2) c
      Inv r ∧ (∀ ρ, Sat r.front.constraints ρ ↔
        Sat c.front.constraints ρ ∧ ∀ o ∈ fronts, Sat o.front.constraints ρ) ∧
      c.front.vars ⊆ r.front.vars ∧ ∀ o ∈ fronts, o.front.vars ⊆ r.front.vars := by
    intro fronts
    induction fronts with
    | nil => exact fun c _ hc => ⟨hc, by simp, subset_rfl, by simp⟩
    | cons o fronts ih =>
      intro c hfronts hc
      have ho := hfronts o List.mem_cons_self
      have hstep : Inv (add E o.front.constraints true c).2 := hc.add ho.typed (by simp)
      obtain ⟨h₁, h₂, h₃, h₄⟩ := ih _ (fun o' ho' => hfronts o' (List.mem_cons_of_mem _ ho')) hstep
      have hvars : (add E o.front.constraints true c).2.front.vars =
          c.front.vars ∪ varsOf o.front.constraints := by
        rw [add_front, ConstrainedFrontend.add_vars_eq hc.valid]
      refine ⟨h₁, fun ρ => ?_, ?_, fun o' ho' => ?_⟩
      · rw [List.foldl_cons, h₂, add_front, ConstrainedFrontend.sat_add hc.valid]
        simp [and_assoc]
      · exact (hvars ▸ Finset.subset_union_left).trans h₃
      · rcases List.mem_cons.mp ho' with rfl | ho'
        · exact (ho.vars_eq ▸ hvars ▸ Finset.subset_union_right).trans h₃
        · exact h₄ o' ho'
  obtain ⟨h₁, h₂, -, h₄⟩ := hfold fronts { count := count } h (inv_blank count)
  exact ⟨h₁, fun ρ => (h₂ ρ).trans (by simp), h₄⟩

theorem Inv.combine (h : Inv s) {others : List ModelCacheMixin} (hothers : ∀ o ∈ others, Inv o) :
    Inv (combine E s others) := by
  have hall : ∀ o ∈ s :: others, Inv o := by
    intro o ho
    rcases List.mem_cons.mp ho with rfl | ho
    · exact h
    · exact hothers o ho
  obtain ⟨hinv, hsat, hvars⟩ := combineConstraints_spec (E := E) s.count hall
  unfold ModelCacheMixin.combine
  dsimp only
  split
  · exact hinv
  split
  · exact hinv
  rename_i hcard
  have hdisj := pairwise_disjoint_of_card (not_not.mp hcard)
  have hprod : ∀ ms ∈ product ((s :: others).map fun o => E.iter s.count o.models),
      (∀ x ∈ Dict.keys (Model.combine ms), ∃ o ∈ s :: others, x ∈ o.front.vars) ∧
        ∀ o ∈ s :: others, Sat o.front.constraints ((Model.combine ms).complete true) := by
    intro ms hms
    have hmem := List.forall₂_map_right_iff.mp (mem_product hms)
    have hmem' : List.Forall₂ (fun m (o : ModelCacheMixin) => m ∈ o.models ∧
        Dict.keys m ⊆ o.front.vars) ms (s :: others) := by
      have hall' : ∀ {ms fronts}, List.Forall₂ (fun m (o : ModelCacheMixin) =>
          m ∈ E.iter s.count o.models) ms fronts → (∀ o ∈ fronts, Inv o) →
          List.Forall₂ (fun m (o : ModelCacheMixin) => m ∈ o.models ∧ Dict.keys m ⊆ o.front.vars)
            ms fronts := by
        intro ms fronts hms
        induction hms with
        | nil => exact fun _ => .nil
        | cons hm _ ih =>
          intro hf
          have hm' := (E.iter_perm _ _).mem_iff.mp hm
          exact .cons ⟨hm', (hf _ List.mem_cons_self).keys _ hm'⟩
            (ih fun o ho => hf o (List.mem_cons_of_mem _ ho))
      exact hall' hmem hall
    obtain ⟨hagree, hkeys⟩ := combine_agree hmem' hdisj
    refine ⟨hkeys, fun o ho => ?_⟩
    obtain ⟨m, hm, heq⟩ := hagree o ho
    refine (sat_congr ?_).mpr ((hall o ho).sat m hm)
    exact Model.complete_agreeOn fun x hx => heq x ((hall o ho).vars_eq ▸ hx)
  refine ⟨hinv.valid, hinv.vars_eq, hinv.typed, ?_, ?_⟩ <;> intro m hm <;>
    rcases mem_insertAll hm with hm | hm
  · obtain ⟨ms, hms, rfl⟩ := List.mem_map.mp hm
    intro x hx
    obtain ⟨o, ho, hxo⟩ := (hprod ms (List.mem_of_mem_take hms)).1 x hx
    exact hvars o ho hxo
  · exact hinv.keys m hm
  · obtain ⟨ms, hms, rfl⟩ := List.mem_map.mp hm
    exact (hsat _).mpr (hprod ms (List.mem_of_mem_take hms)).2
  · exact hinv.sat m hm

/-! ## Update -/

theorem Inv.update (h : Inv s) {other : ModelCacheMixin} (hother : Inv other)
    (hent : Entails other.front.constraints s.front.constraints) : Inv (update s other) := by
  refine ⟨h.valid, h.vars_eq, h.typed, ?_, ?_⟩ <;> intro m hm <;>
    rcases mem_insertAll hm with hm | hm
  · obtain ⟨-, hkeys⟩ := List.mem_filter.mp hm
    exact (of_decide_eq_true hkeys).subset
  · exact h.keys m hm
  · exact hent _ (hother.sat m (List.mem_of_mem_filter hm))
  · exact h.sat m hm

/-! ## Families -/

/-- The live front-ends. They share one back-end, so `solve_count` is common to all. -/
structure Family where
  count : Nat := 0
  fronts : List ModelCacheMixin := []

namespace Family

inductive Op where
  /-- a fresh front-end -/
  | new
  | call (i : Nat) (c : Call)
  | branch (i : Nat)
  | split (i : Nat)
  | combine (i : Nat) (others : List Nat)
  | update (i j : Nat)

/-- Front-end `i`, with the current `solve_count`. -/
def get? (F : Family) (i : Nat) : Option ModelCacheMixin :=
  F.fronts[i]?.map fun s => { s with count := F.count }

variable (E : Env)

def step (F : Family) : Op → Family
  | .new => { F with fronts := F.fronts ++ [{}] }
  | .call i c =>
    match F.get? i with
    | some s => ⟨(s.step E c).count, F.fronts.set i (s.step E c)⟩
    | none => F
  | .branch i => { F with fronts := F.fronts ++ (F.get? i).toList }
  | .split i => { F with fronts := F.fronts ++ (F.get? i).toList.flatMap (split E) }
  | .combine i others =>
    { F with fronts := F.fronts ++
        (F.get? i).toList.map fun s => combine E s (others.filterMap F.get?) }
  | .update i j =>
    match F.get? i, F.get? j with
    | some s, some other => { F with fronts := F.fronts.set i (s.update other) }
    | _, _ => F

/-- The side condition on `add`: without invalidation only implied constraints. -/
def AddsImplied (F : Family) : Op → Prop
  | .call i c => ∀ s ∈ F.get? i, s.AddsImplied c
  | _ => True

/-- And `update` only from a front-end whose constraints entail the receiver's. -/
def Admissible (F : Family) : Op → Prop
  | .update i j => ∀ s ∈ F.get? i, ∀ other ∈ F.get? j,
      Entails other.front.constraints s.front.constraints
  | o => F.AddsImplied o

/-- Every model of every front-end, completed with the defaults, satisfies the
constraints that the front-end holds. -/
def ModelsSatisfy (F : Family) : Prop :=
  ∀ s ∈ F.fronts, ∀ m ∈ s.models, Sat s.front.constraints (Model.complete m true)

variable {E} {F : Family}

theorem get?_inv (h : ∀ s ∈ F.fronts, Inv s) {i : Nat} {s : ModelCacheMixin}
    (hs : F.get? i = some s) : Inv s := by
  obtain ⟨s', hs', rfl⟩ := Option.map_eq_some_iff.mp hs
  exact (h s' (List.mem_of_getElem? hs')).count F.count

theorem step_inv (hB : E.backend.Exact) (h : ∀ s ∈ F.fronts, Inv s) (o : Op)
    (hok : F.Admissible o) : ∀ s ∈ (F.step E o).fronts, Inv s := by
  have happend : ∀ {new : List ModelCacheMixin}, (∀ s ∈ new, Inv s) →
      ∀ s ∈ F.fronts ++ new, Inv s := fun hnew s hs => (List.mem_append.mp hs).elim (h s) (hnew s)
  have hset : ∀ {i : Nat} {s : ModelCacheMixin}, Inv s → ∀ s' ∈ F.fronts.set i s, Inv s' :=
    fun hs s' hs' => (List.mem_or_eq_of_mem_set hs').elim (h s') fun he => he ▸ hs
  cases o with
  | new =>
    refine happend fun s hs => ?_
    obtain rfl := List.mem_singleton.mp hs
    exact inv_blank 0
  | call i c =>
    unfold step
    dsimp only
    split
    · rename_i s hs
      exact hset ((get?_inv h hs).step hB c (hok s hs))
    · exact h
  | branch i =>
    refine happend fun s hs => get?_inv h (Option.mem_toList.mp hs)
  | split i =>
    refine happend fun s hs => ?_
    obtain ⟨s', hs', hs⟩ := List.mem_flatMap.mp hs
    exact (get?_inv h (Option.mem_toList.mp hs')).split s hs
  | combine i others =>
    refine happend fun s hs => ?_
    obtain ⟨s', hs', rfl⟩ := List.mem_map.mp hs
    refine (get?_inv h (Option.mem_toList.mp hs')).combine fun o ho => ?_
    obtain ⟨j, -, hj⟩ := List.mem_filterMap.mp ho
    exact get?_inv h hj
  | update i j =>
    unfold step
    dsimp only
    split
    · rename_i s other hs hother
      exact hset ((get?_inv h hs).update (get?_inv h hother) (hok s hs other hother))
    · exact h

/-- In every run in which `update` only takes models from a front-end whose constraints
entail the receiver's, all cached models satisfy the constraints. -/
theorem models_satisfy (hB : E.backend.Exact) (h : Runs.Reach (step E) Admissible {} F) :
    F.ModelsSatisfy := by
  have hinv : ∀ s ∈ F.fronts, Inv s :=
    h.invariant (fun F => ∀ s ∈ F.fronts, Inv s) (by simp) fun F o hF hok => step_inv hB hF o hok
  exact fun s hs m hm => (hinv s hs).sat m hm

def exampleEnv : Env := ⟨.exhaustive, fun _ ms => ms, fun _ _ => .refl _⟩

def x : Ast := .node (.BVS "x" 2) [] []
def nonzero : Constraint := ⟨.ne x (.node (.BVV 0 2) [] []), by decide⟩
def below2 : Constraint := ⟨.node .ULT [x, .node (.BVV 2 2) [] []] [], by decide⟩

def apply (ops : List Op) : Family := ops.foldl (step exampleEnv) {}

theorem models_satisfy_example :
    (apply [.new, .call 0 (.add [nonzero] true), .branch 0, .call 1 (.eval x 3 [])]).ModelsSatisfy ∧
      (apply [.new, .call 0 (.add [nonzero] true), .branch 0,
        .call 1 (.eval x 3 [])]).fronts.map (·.models.length) = [0, 3] := by
  refine ⟨models_satisfy (E := exampleEnv) BackendZ3.exhaustive_exact ?_, by decide⟩
  refine .tail (i := Op.call 1 (.eval x 3 [])) (.tail (i := Op.branch 0) (.tail
    (i := Op.call 0 (.add [nonzero] true)) (.tail (i := Op.new) .refl ?_) ?_) ?_) ?_ <;>
    simp [Admissible, AddsImplied, ModelCacheMixin.AddsImplied]

/-- A copy learns the models `1`, `2` and `3` of `x`; the original, meanwhile told
`x < 2`, takes them all over. -/
theorem update_takes_foreign_models :
    let F := apply [.new, .call 0 (.add [nonzero] true), .branch 0, .call 1 (.eval x 3 []),
      .call 0 (.add [below2] true), .update 0 1]
    Runs.Reach (step exampleEnv) AddsImplied {} F ∧ ¬ F.ModelsSatisfy := by
  refine ⟨?_, ?_⟩
  · refine .tail (i := Op.update 0 1) (.tail (i := Op.call 0 (.add [below2] true)) (.tail
      (i := Op.call 1 (.eval x 3 [])) (.tail (i := Op.branch 0) (.tail
      (i := Op.call 0 (.add [nonzero] true)) (.tail (i := Op.new) .refl ?_) ?_) ?_) ?_) ?_) ?_ <;>
      simp [AddsImplied, ModelCacheMixin.AddsImplied]
  · unfold ModelsSatisfy
    decide

end Family
end ModelCacheMixin
end Claripy
