import Vibr.Claripy.Frontend.ModelCache

/-!
# The model invariant

Completed with the defaults, every cached model satisfies the constraints. Models
come from the solver, from a trivial equality, or survive a filter when
constraints are added.
-/

namespace Claripy.ModelCacheMixin

structure Inv (s : ModelCacheMixin) : Prop where
  valid : s.front.Valid
  vars_eq : s.front.vars = varsOf s.front.constraints
  typed : ∀ c ∈ s.front.constraints, c.ty = some .bool
  keys : ∀ m ∈ s.models, Dict.keys m ⊆ s.front.vars
  sat : ∀ m ∈ s.models, Sat s.front.constraints (m.complete true)

theorem inv_blank (count : Nat) : Inv { count := count } :=
  ⟨ConstrainedFrontend.valid_blank, rfl, by simp, by simp, by simp⟩

variable {E : Env} {s s' : ModelCacheMixin}

/-! ## Solver models -/

@[simp] theorem modelHook_front (m : Model) : (modelHook s m).front = s.front := by
  unfold modelHook
  dsimp only
  split <;> rfl

theorem modelHook_models_subset (m : Model) : ∀ m' ∈ s.models, m' ∈ (modelHook s m).models := by
  unfold modelHook
  dsimp only
  split
  · exact fun _ h => h
  · exact Model.subset_insertInto

theorem Inv.modelHook (h : Inv s) {m : Model} (hm : ModelOf s.front.constraints m) :
    Inv (modelHook s m) := by
  have hnew : ∀ m' ∈ (ModelCacheMixin.modelHook s m).models,
      m' = m.filter s.front.vars ∨ m' ∈ s.models := by
    unfold ModelCacheMixin.modelHook
    dsimp only
    split
    · exact fun _ h => .inr h
    · exact fun _ h => Model.mem_insertInto h
  constructor
  · simpa using h.valid
  · simpa using h.vars_eq
  · simpa using h.typed
  · intro m' hm'
    rw [modelHook_front]
    rcases hnew m' hm' with rfl | hm'
    · rw [Model.keys_filter]
      exact fun x hx => (Finset.mem_filter.mp hx).2
    · exact h.keys m' hm'
  intro m' hm'
  rw [modelHook_front]
  rcases hnew m' hm' with rfl | hm'
  · refine (sat_congr ?_).mpr (hm.sat_complete true)
    exact h.vars_eq ▸ Model.filter_agreeOn s.front.vars true
  · exact h.sat m' hm'

/-- The invariant only looks at the constraints and the models. -/
theorem Inv.of_eq (h : Inv s) (hfront : s'.front = s.front) (hmodels : s'.models = s.models) :
    Inv s' :=
  ⟨hfront ▸ h.valid, hfront ▸ h.vars_eq, hfront ▸ h.typed, hfront ▸ hmodels ▸ h.keys,
    hfront ▸ hmodels ▸ h.sat⟩

theorem Inv.count (h : Inv s) (count : Nat) : Inv { s with count := count } :=
  h.of_eq rfl rfl

/-- The front-end is the same and no model is lost. -/
structure Extends (s s' : ModelCacheMixin) : Prop where
  front : s'.front = s.front
  models : ∀ m ∈ s.models, m ∈ s'.models

theorem Extends.refl (s : ModelCacheMixin) : Extends s s := ⟨rfl, fun _ h => h⟩

theorem Extends.trans {s₁ s₂ s₃ : ModelCacheMixin} (h₁ : Extends s₁ s₂) (h₂ : Extends s₂ s₃) :
    Extends s₁ s₃ :=
  ⟨h₂.front.trans h₁.front, fun m hm => h₂.models m (h₁.models m hm)⟩

theorem foldl_modelHook_extends (ms : List Model) : Extends s (ms.foldl modelHook s) := by
  induction ms generalizing s with
  | nil => exact .refl s
  | cons m ms ih =>
    have hstep : Extends s (modelHook s m) := ⟨modelHook_front m, modelHook_models_subset m⟩
    exact hstep.trans ih

theorem solved_extends (count : Nat) (ms : List Model) : Extends s (FullState.solved s count ms) := by
  obtain ⟨hfront, hmodels⟩ := foldl_modelHook_extends (s := { s with count := count }) ms
  exact ⟨hfront, hmodels⟩

theorem Inv.solved (h : Inv s) (count : Nat) {ms : List Model}
    (hms : ∀ m ∈ ms, ModelOf s.front.constraints m) : Inv (FullState.solved s count ms) := by
  have hfold : ∀ (ms : List Model) (s : ModelCacheMixin), Inv s →
      (∀ m ∈ ms, ModelOf s.front.constraints m) → Inv (ms.foldl ModelCacheMixin.modelHook s) := by
    intro ms
    induction ms with
    | nil => exact fun s hs _ => hs
    | cons m ms ih =>
      intro s hs hms
      refine ih _ (hs.modelHook (hms m (by simp))) fun m' hm' => ?_
      rw [modelHook_front]
      exact hms m' (by simp [hm'])
  exact hfold ms _ (h.count count) hms

/-- What every query does to the state: it may only learn new models. -/
structure Learns (s s' : ModelCacheMixin) : Prop extends Extends s s' where
  inv : Inv s'

theorem Learns.refl (h : Inv s) : Learns s s := ⟨.refl s, h⟩

theorem Learns.trans {s₁ s₂ s₃ : ModelCacheMixin} (h₁ : Learns s₁ s₂) (h₂ : Learns s₂ s₃) :
    Learns s₁ s₃ := ⟨h₁.toExtends.trans h₂.toExtends, h₂.inv⟩

theorem learns_solved (h : Inv s) (count : Nat) {ms : List Model}
    (hms : ∀ m ∈ ms, ModelOf s.front.constraints m) : Learns s (FullState.solved s count ms) :=
  ⟨solved_extends count ms, h.solved count hms⟩

/-- Recording exhausted expressions changes neither constraints nor models. -/
theorem Learns.of_eq (h : Learns s s') {s'' : ModelCacheMixin} (hfront : s''.front = s'.front)
    (hmodels : s''.models = s'.models) : Learns s s'' where
  front := hfront.trans h.front
  models m hm := hmodels ▸ h.models m hm
  inv := h.inv.of_eq hfront hmodels

/-! ## Queries -/

variable {extra : List Ast}

theorem satisfiable_learns (hB : E.backend.Exact) (h : Inv s) (extra : List Ast) :
    Learns s (satisfiable E extra s).2 := by
  unfold satisfiable
  split
  · exact .refl h
  · exact learns_solved h _ fun m hm => (BackendZ3.satisfiable_checked hm).of_append_left.modelOf hB

theorem markEval_learns (h : Learns s s') (asts : List Ast) (n : Nat) (extra : List Ast)
    (results : List (List Value)) : Learns s (markEval asts n extra results s') := by
  unfold markEval
  split
  · exact h.of_eq rfl rfl
  · exact h

theorem batchEval_learns (hB : E.backend.Exact) (h : Inv s) (asts : List Ast) (n : Nat)
    (extra : List Ast) : Learns s (batchEval E asts n extra s).2 := by
  unfold batchEval
  dsimp only
  split
  · exact .refl h
  have hsolve : ∀ {k cs r s'}, FullFrontend.batchEval E.backend asts k cs s = (r, s') →
      Learns s s' := by
    intro k cs r s' heq
    obtain rfl : FullState.solved s _ _ = s' := congrArg Prod.snd heq
    exact learns_solved h _ fun m hm => (BackendZ3.batchEval_checked hm).of_append_left.modelOf hB
  split
  · rename_i heq
    exact markEval_learns (hsolve heq) _ _ _ _
  · rename_i heq
    split
    · exact hsolve heq
    · exact markEval_learns (hsolve heq) _ _ _ _
  · rename_i heq
    exact hsolve heq

theorem eval_learns (hB : E.backend.Exact) (h : Inv s) (e : Ast) (n : Nat) (extra : List Ast) :
    Learns s (eval E e n extra s).2 := by
  have hl := batchEval_learns hB h [e] n extra
  unfold eval
  split <;> rename_i heq <;> simpa only [heq] using hl

theorem extremum_learns (hB : E.backend.Exact) (h : Inv s) (isMax : Bool)
    (messages : String × String) (e : Ast) (extra : List Ast) (signed : Bool) :
    Learns s (FullFrontend.extremum E.backend (satisfiable E) (eval E) isMax messages e extra
      signed s).2 := by
  have h₁ := satisfiable_learns hB h extra
  unfold FullFrontend.extremum
  split
  · rename_i heq; simpa only [heq] using h₁
  · rename_i heq; simpa only [heq] using h₁
  rename_i s₁ heq
  simp only [heq] at h₁
  have h₂ := h₁.trans (eval_learns hB h₁.inv e 2 extra)
  split
  · rename_i heq; simpa only [heq] using h₂
  · rename_i heq; simpa only [heq] using h₂
  · rename_i heq; simpa only [heq] using h₂
  rename_i s₂ heq
  simp only [heq] at h₂
  exact h₂.trans (learns_solved h₂.inv _ fun m hm =>
    (BackendZ3.extrema_checked hm).of_append_left.modelOf hB)

theorem min_learns (hB : E.backend.Exact) (h : Inv s) (e : Ast) (extra : List Ast) (signed : Bool) :
    Learns s (min E e extra signed s).2 := by
  have hl := extremum_learns hB h false ("Unsat during _min()", "unsat during min()") e extra signed
  unfold min FullFrontend.min
  split
  · exact .refl h
  split
  · rename_i heq
    simp only [heq] at hl
    dsimp only
    split
    · split <;> exact hl.of_eq rfl rfl
    · exact hl
  · rename_i heq
    simpa only [heq] using hl

theorem max_learns (hB : E.backend.Exact) (h : Inv s) (e : Ast) (extra : List Ast) (signed : Bool) :
    Learns s (max E e extra signed s).2 := by
  have hl := extremum_learns hB h true ("Unsat during _max()", "unsat during max()") e extra signed
  unfold max FullFrontend.max
  split
  · exact .refl h
  split
  · rename_i heq
    simp only [heq] at hl
    dsimp only
    split
    · split <;> exact hl.of_eq rfl rfl
    · exact hl
  · rename_i heq
    simpa only [heq] using hl

theorem solution_learns (hB : E.backend.Exact) (h : Inv s) (e v : Ast) (extra : List Ast) :
    Learns s (solution E e v extra s).2 := by
  unfold solution
  split
  · exact .refl h
  · exact learns_solved h _ fun m hm => (BackendZ3.satisfiable_checked hm).of_append_left.modelOf hB

/-- The model made up for a single equality or disequality is a model of it. -/
theorem trivialModel_modelOf {cs : List Ast} {m : Model} (htyped : ∀ c ∈ cs, c.ty = some .bool)
    (h : FullFrontend.trivialModel cs = some m) : ModelOf cs m := by
  unfold FullFrontend.trivialModel at h
  split at h
  · rename_i x w _ _ v w' _ _ ann
    cases h
    obtain ⟨-, u, ha, hb⟩ := Ast.ty_of_eq (.inl rfl) (htyped _ (List.mem_singleton_self _))
    obtain ⟨rfl, hw⟩ := Ast.ty_BVS ha
    obtain rfl : w = w' := by simpa using (Ast.ty_BVV hb).1
    intro ρ hρ
    have hx : ρ.bv x = v % 2 ^ w := (hρ x _ (by rw [Dict.get?_cons, if_pos rfl])).1
    simp only [sat_cons, sat_nil, and_true, Ast.holds_node_eq, Ast.eval_BVS, Ast.eval_BVV, hx]
    congr 1
    exact BitVec.eq_of_toNat_eq (by simp)
  · rename_i x w _ _ v w' _ _ ann
    cases h
    obtain ⟨-, u, ha, hb⟩ := Ast.ty_of_eq (.inr rfl) (htyped _ (List.mem_singleton_self _))
    obtain ⟨rfl, hw⟩ := Ast.ty_BVS ha
    obtain rfl : w = w' := by simpa using (Ast.ty_BVV hb).1
    intro ρ hρ
    have hx : ρ.bv x = (v % 2 ^ w + 1) % 2 ^ w := (hρ x _ (by rw [Dict.get?_cons, if_pos rfl])).1
    have hpow : 2 ≤ 2 ^ w := by
      calc 2 = 2 ^ 1 := rfl
        _ ≤ 2 ^ w := Nat.pow_le_pow_right (by decide) hw
    have hlt : v % 2 ^ w < 2 ^ w := Nat.mod_lt _ (by omega)
    simp only [sat_cons, sat_nil, and_true, Ast.holds_node_ne, Ast.eval_BVS, Ast.eval_BVV, hx]
    intro hcon
    have hnat := congrArg BitVec.toNat (eq_of_heq (Value.bv.inj hcon).2)
    simp only [BitVec.toNat_ofNat, Nat.mod_mod] at hnat
    rcases Nat.lt_or_ge (v % 2 ^ w + 1) (2 ^ w) with hsmall | hbig
    · rw [Nat.mod_eq_of_lt hsmall] at hnat
      omega
    · have heq : v % 2 ^ w + 1 = 2 ^ w := by omega
      rw [heq, Nat.mod_self] at hnat
      omega
  · cases h

theorem checkSatisfiability_learns (hB : E.backend.Exact) (h : Inv s) (extra : List Ast) :
    Learns s (FullFrontend.checkSatisfiability E.backend extra s).2 := by
  unfold FullFrontend.checkSatisfiability
  split
  · rename_i m hm
    refine learns_solved h _ fun m' hm' => ?_
    obtain rfl : m' = m := by simpa using hm'
    split at hm
    · exact trivialModel_modelOf h.typed hm
    · cases hm
  · exact learns_solved h _ fun m hm => (BackendZ3.satisfiable_checked hm).of_append_left.modelOf hB

/-! ## Adding constraints -/

variable {constraints added : List Ast}

theorem mem_getModels {m : Model} :
    m ∈ getModels E extra s ↔ m ∈ s.models ∧ m.evalConstraints extra = true := by
  rw [getModels, List.mem_filter, (E.iter_perm _ _).mem_iff]

@[simp] theorem invalidate_front : (invalidate E constraints added s).front = s.front := by
  unfold invalidate
  dsimp only
  split <;> split <;> rfl

/-- The models left after `invalidate` satisfy the added constraints. -/
theorem invalidate_models {m : Model} (hm : m ∈ (invalidate E constraints added s).models) :
    m ∈ s.models ∧ m.evalConstraints added = true := by
  have hbase : ∀ s : ModelCacheMixin, m ∈ (if (getModels E added s).length ≠ s.models.length
      then getModels E added s else s.models) → m ∈ s.models ∧ m.evalConstraints added = true := by
    intro s hm
    split at hm
    · exact mem_getModels.mp hm
    rename_i hlen
    have hall : ∀ m' ∈ E.iter s.count s.models, m'.evalConstraints added = true := by
      refine List.length_filter_eq_length_iff.mp ?_
      rw [(E.iter_perm _ _).length_eq]
      exact not_not.mp hlen
    exact ⟨hm, hall m ((E.iter_perm _ _).mem_iff.mpr hm)⟩
  unfold invalidate at hm
  dsimp only at hm
  split at hm
  · have h := hbase { s with models := [] } (by split at hm <;> simp_all)
    simp at h
  · exact hbase s (by split at hm <;> simp_all)

@[simp] theorem optimize_front : (optimize s).front = s.front := by
  unfold optimize trivialModelOptimization
  split
  · split <;> rfl
  · rfl

/-- A constraint `symbol == constant` fixes the value of its symbol. -/
theorem trivialEquality_spec {c e k : Ast} {x : String} (h : trivialEquality c = some (e, x, k))
    (htyped : c.ty = some .bool) :
    x ∈ c.vars ∧ e.vars = {x} ∧
      (∀ ρ, e.eval ρ = k.eval (Model.complete [] true) ↔ c.holds ρ) ∧
      ∀ d, e.eval (Model.complete [(x, ⟨(k.eval (Model.complete [] true)).toNat, d⟩)] true) =
        k.eval (Model.complete [] true) := by
  unfold trivialEquality at h
  split at h
  · rename_i x' w ann k' ann'
    split at h
    · rename_i hk
      cases h
      obtain ⟨-, u, ha, hb⟩ := Ast.ty_of_eq (.inl rfl) htyped
      obtain ⟨rfl, hw⟩ := Ast.ty_BVS ha
      have hty := Ast.eval_ty (Model.complete [] true) k _ hb
      refine ⟨by simp [Ast.vars, Ast.varsList, Op.symbol], by simp [Ast.vars, Ast.varsList, Op.symbol],
        fun ρ => ?_, fun d => ?_⟩
      · rw [Ast.holds_node_eq, Ast.eval_closed hk.2 ρ]
      cases hv : k.eval (Model.complete [] true) with
      | bool b => simp [hv, Value.ty] at hty
      | bv w' v =>
        obtain rfl : w' = w := by simpa [hv, Value.ty] using hty
        simp [Ast.eval_BVS, Model.complete, Value.toNat]
    · cases h
  · cases h

/-- The front-end part of the invariant, and the models as before. -/
structure Added (s s' : ModelCacheMixin) : Prop where
  valid : s'.front.Valid
  vars_eq : s'.front.vars = varsOf s'.front.constraints
  typed : ∀ c ∈ s'.front.constraints, c.ty = some .bool
  keys : ∀ m ∈ s'.models, Dict.keys m ⊆ s'.front.vars
  sat : ∀ m ∈ s'.models, Sat s.front.constraints (m.complete true)

theorem Inv.toAdded (h : Inv s) (hc : ∀ c ∈ constraints, c.ty = some .bool) :
    Added s { s with front := (s.front.add constraints).1 } where
  valid := h.valid.add
  vars_eq := by
    rw [ConstrainedFrontend.add_vars, ConstrainedFrontend.add_constraints, varsOf_append, h.vars_eq]
  typed := by
    intro c hmem
    dsimp only at hmem
    rw [ConstrainedFrontend.add_constraints, List.mem_append] at hmem
    exact hmem.elim (h.typed c) fun hmem => hc c (ConstrainedFrontend.add_added_subset c hmem)
  keys := by
    intro m hm
    refine (h.keys m hm).trans ?_
    rw [ConstrainedFrontend.add_vars]
    exact Finset.subset_union_left
  sat := h.sat

/-- The models after `optimize` still satisfy the old constraints; the trivial model
satisfies the one constraint there is. -/
theorem Added.optimize (h : Added s s')
    (hold : ∀ ρ, Sat s'.front.constraints ρ → Sat s.front.constraints ρ) :
    Added s (optimize s') ∧ ∀ m ∈ (ModelCacheMixin.optimize s').models, m ∈ s'.models ∨
      Sat s'.front.constraints (m.complete true) := by
  unfold ModelCacheMixin.optimize
  split
  swap
  · exact ⟨h, fun m hm => .inl hm⟩
  rename_i htriv
  obtain ⟨hlen, hnil⟩ := htriv
  obtain ⟨c, hc⟩ := List.length_eq_one_iff.mp hlen
  unfold trivialModelOptimization
  split
  swap
  · exact ⟨h, fun m hm => .inl hm⟩
  rename_i e x k heq
  rw [hc] at heq
  obtain ⟨hx, -, hiff, hval⟩ := trivialEquality_spec heq (h.typed c (by simp [hc]))
  have hsat : ∀ d, Sat s'.front.constraints
      (Model.complete [(x, ⟨(k.eval (Model.complete [] true)).toNat, d⟩)] true) := by
    intro d
    rw [hc]
    simpa using (hiff _).mp (hval d)
  have hx' : x ∈ s'.front.vars := h.vars_eq ▸ vars_subset_varsOf (by simp [hc]) hx
  refine ⟨⟨h.valid, h.vars_eq, h.typed, ?_, ?_⟩, ?_⟩
  · intro m hm
    rcases Model.mem_insertInto hm with rfl | hm
    · simpa [Dict.keys] using hx'
    · simp [hnil] at hm
  · intro m hm
    rcases Model.mem_insertInto hm with rfl | hm
    · exact hold _ (hsat _)
    · simp [hnil] at hm
  intro m hm
  rcases Model.mem_insertInto hm with rfl | hm
  · exact .inr (hsat _)
  · exact .inl hm

theorem Added.invalidate (h : Added s s')
    (hnew : ∀ ρ, Sat s.front.constraints ρ → Sat added ρ → Sat s'.front.constraints ρ) :
    Inv (invalidate E constraints added s') := by
  refine ⟨?_, ?_, ?_, ?_, ?_⟩ <;> rw [invalidate_front]
  · exact h.valid
  · exact h.vars_eq
  · exact h.typed
  · exact fun m hm => h.keys m (invalidate_models hm).1
  · intro m hm
    obtain ⟨hmem, heval⟩ := invalidate_models hm
    exact hnew _ (h.sat m hmem) (Model.sat_of_evalConstraints heval)

/-- Adding keeps the invariant; without invalidation the constraints must follow from
those already there. -/
theorem Inv.add (h : Inv s) (hc : ∀ c ∈ constraints, c.ty = some .bool) {invalidateCache : Bool}
    (himp : invalidateCache = false → Entails s.front.constraints constraints) :
    Inv (add E constraints invalidateCache s).2 := by
  have hadd := h.toAdded hc
  have hsat : ∀ ρ, Sat (s.front.add constraints).1.constraints ρ ↔
      Sat s.front.constraints ρ ∧ Sat (s.front.add constraints).2 ρ := by
    intro ρ
    rw [ConstrainedFrontend.add_constraints, sat_append]
  unfold ModelCacheMixin.add
  dsimp only
  split
  · rename_i hnil
    refine ⟨hadd.valid, hadd.vars_eq, hadd.typed, hadd.keys, fun m hm => ?_⟩
    exact (hsat _).mpr ⟨h.sat m hm, by simp [hnil]⟩
  obtain ⟨hopt, hmodels⟩ := hadd.optimize fun ρ hρ => ((hsat ρ).mp hρ).1
  split
  · refine hopt.invalidate fun ρ h₁ h₂ => ?_
    rw [optimize_front]
    exact (hsat ρ).mpr ⟨h₁, h₂⟩
  rename_i hno
  have hfalse : invalidateCache = false := by
    simpa using fun hi : invalidateCache = true => hno (.inr hi)
  refine ⟨hopt.valid, hopt.vars_eq, hopt.typed, hopt.keys, fun m hm => ?_⟩
  rw [optimize_front]
  rcases hmodels m hm with hm | hm
  · exact (ConstrainedFrontend.sat_add h.valid).mpr ⟨h.sat m hm, himp hfalse _ (h.sat m hm)⟩
  · exact hm

end Claripy.ModelCacheMixin
