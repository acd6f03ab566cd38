import Vibr.Claripy.Frontend.ModelCacheRuns

/-!
# Cached enumeration

`batch_eval` takes solutions from the cached models, asks the solver for the rest,
and records an expression as exhausted once it has seen all its values. The record
is right about the constraints alone. It is consulted for every query on that
expression, so the answer is exact unless the shortcut is taken with extra
constraints, with an empty cache, or with a model in which the expression divides
by zero.
-/

namespace Claripy.ModelCacheMixin

variable {E : Env} {s s' : ModelCacheMixin} {asts extra : List Ast} {n : Nat}

/-! ## Solutions from the cache -/

/-- The loop over the models collects distinct values, up to the limit, and all of
them if it does not reach the limit. -/
theorem collect_spec (asts : List Ast) (limit : Option Nat) (allow : Bool) (ms : List Model)
    (results : List (List Value)) (hnd : results.Nodup) :
    let rs := collect asts limit allow ms results
    rs.Nodup ∧ (∀ r ∈ results, r ∈ rs) ∧
      (∀ r ∈ rs, r ∈ results ∨ ∃ m ∈ ms, Model.evalList m allow asts = some r) ∧
      (∀ n, limit = some n → results.length < n → rs.length ≤ n) ∧
      ((∀ n, limit = some n → rs.length ≠ n) → ∀ m ∈ ms, ∀ r, Model.evalList m allow asts = some r →
        r ∈ rs) := by
  induction ms generalizing results with
  | nil => exact ⟨hnd, fun _ h => h, fun _ h => .inl h, fun n _ h => h.le, fun _ => by simp⟩
  | cons m ms ih =>
    simp only [collect]
    cases hm : Model.evalList m allow asts with
    | none =>
      obtain ⟨h₁, h₂, h₃, h₄, h₅⟩ := ih results hnd
      refine ⟨h₁, h₂, fun r hr => ?_, h₄, fun hl m' hm' r hr => ?_⟩
      · exact (h₃ r hr).imp_right fun ⟨m', hm', he⟩ => ⟨m', List.mem_cons_of_mem _ hm', he⟩
      · rcases List.mem_cons.mp hm' with rfl | hm'
        · rw [hm] at hr; cases hr
        · exact h₅ hl m' hm' r hr
    | some r₀ =>
      have hnd' : (results.insert r₀).Nodup := hnd.insert
      have hmem : r₀ ∈ results.insert r₀ := by simp
      have hlen : (results.insert r₀).length ≤ results.length + 1 := by
        rw [List.length_insert]; split <;> omega
      dsimp only
      split
      · rename_i hlimit
        refine ⟨hnd', fun r hr => by simp [hr], fun r hr => ?_, fun n hn _ => ?_, fun hl => ?_⟩
        · rcases List.mem_insert_iff.mp hr with rfl | hr
          · exact .inr ⟨m, List.mem_cons_self, hm⟩
          · exact .inl hr
        · rw [hn] at hlimit
          exact (Option.some.inj hlimit).ge
        · exact absurd rfl (hl _ hlimit)
      rename_i hlimit
      obtain ⟨h₁, h₂, h₃, h₄, h₅⟩ := ih _ hnd'
      refine ⟨h₁, fun r hr => h₂ r (by simp [hr]), fun r hr => ?_, fun n hn hlt => ?_,
        fun hl m' hm' r hr => ?_⟩
      · rcases h₃ r hr with hr | ⟨m', hm', he⟩
        · rcases List.mem_insert_iff.mp hr with rfl | hr
          · exact .inr ⟨m, List.mem_cons_self, hm⟩
          · exact .inl hr
        · exact .inr ⟨m', List.mem_cons_of_mem _ hm', he⟩
      · refine h₄ n hn (lt_of_le_of_ne (by omega) fun he => hlimit ?_)
        rw [hn, he]
      rcases List.mem_cons.mp hm' with rfl | hm'
      · rw [hm] at hr
        cases hr
        exact h₂ _ hmem
      · exact h₅ hl m' hm' r hr

/-- The cached solutions are solutions, distinct and at most `n`. -/
structure FromCache (s : ModelCacheMixin) (asts extra : List Ast) (n : Nat)
    (results : List (List Value)) : Prop where
  nodup : results.Nodup
  length_le : results.length ≤ n
  realized : ∀ r ∈ results, ∃ m ∈ s.models, Sat extra (m.complete true) ∧
    r = asts.map (Ast.eval (m.complete true))

theorem fromCache (E : Env) (s : ModelCacheMixin) (asts extra : List Ast) (hn : 0 < n) :
    FromCache s asts extra n (getBatchSolutions E asts (some n) extra true s) := by
  obtain ⟨h₁, -, h₃, h₄, -⟩ := collect_spec asts (some n) true
    (getModels E extra s) [] .nil
  refine ⟨h₁, h₄ n rfl (by simpa using hn), fun r hr => ?_⟩
  rcases h₃ r hr with hr | ⟨m, hm, he⟩
  · simp at hr
  · obtain ⟨hm, heval⟩ := mem_getModels.mp hm
    exact ⟨m, hm, Model.sat_of_evalConstraints heval, Model.evalList_eq_some he⟩

variable {results : List (List Value)}

theorem FromCache.sound (h : FromCache s asts extra n results) (hinv : Inv s) :
    ∀ r ∈ results, r ∈ solutions (s.front.constraints ++ extra) asts := by
  intro r hr
  obtain ⟨m, hm, hex, rfl⟩ := h.realized r hr
  exact ⟨_, sat_append.mpr ⟨hinv.sat m hm, hex⟩, rfl⟩

theorem holds_excludeAll (hlen : ∀ r ∈ results, r.length = asts.length) (ρ : Assignment) :
    (excludeAll asts results).holds ρ ↔ asts.map (Ast.eval ρ) ∉ results := by
  have hor : ∀ (as : List Ast) (r : List Value), r.length = as.length →
      ((Ast.or (List.zipWith (fun a v => .ne a v.lit) as r)).holds ρ ↔ as.map (Ast.eval ρ) ≠ r) := by
    intro as
    induction as with
    | nil => intro r hr; cases r <;> simp_all
    | cons a as ih =>
      intro r hr
      cases r with
      | nil => simp at hr
      | cons v r =>
        have ih' := ih r (by simpa using hr)
        rw [Ast.holds_or] at ih' ⊢
        simp only [List.zipWith_cons_cons, List.exists_mem_cons_iff, ih', Ast.holds_ne,
          Ast.eval_lit, List.map_cons, ne_eq, List.cons.injEq]
        tauto
  rw [excludeAll, Ast.holds_and, Sat]
  simp only [List.mem_map, forall_exists_index, and_imp, forall_apply_eq_imp_iff₂]
  constructor
  · intro h hmem
    exact (hor asts _ (by simp)).mp (h _ hmem) rfl
  · intro h r hr
    exact (hor asts r (hlen r hr)).mpr fun he => h (he ▸ hr)

/-! ## The answer when the solver is asked -/

/-- What the claim asks of an answer: `n` or all distinct solutions, and `UnsatError`
exactly when there is none. -/
def ExactAnswer (cs asts : List Ast) (n : Nat) : Except Error (List (List Value)) → Prop
  | .ok rs => Enumerates cs asts n rs ∧ Satisfiable cs
  | .error (.UnsatError _) => ¬ Satisfiable cs
  | .error _ => False

/-- The solutions of the cache and those the solver finds besides are an enumeration. -/
theorem FromCache.union {results rs : List (List Value)} (h : FromCache s asts extra n results)
    (hinv : Inv s) {constraints : List Ast}
    (hcs : ∀ ρ, Sat (s.front.constraints ++ constraints) ρ ↔
      Sat (s.front.constraints ++ extra) ρ ∧ asts.map (Ast.eval ρ) ∉ results)
    (hrs : Enumerates (s.front.constraints ++ constraints) asts (n - results.length) rs) :
    Enumerates (s.front.constraints ++ extra) asts n (results ∪ rs) := by
  have hdisj : Disjoint results.toFinset rs.toFinset := by
    refine Finset.disjoint_left.mpr fun r hr hr' => ?_
    obtain ⟨ρ, hρ, rfl⟩ := hrs.sound r (List.mem_toFinset.mp hr')
    exact ((hcs ρ).mp hρ).2 (List.mem_toFinset.mp hr)
  have hnd : (results ∪ rs).Nodup := hrs.nodup.union results
  have hlen : (results ∪ rs).length = results.length + rs.length := by
    have hset : (results ∪ rs).toFinset = results.toFinset ∪ rs.toFinset := by
      ext r
      simp [List.mem_union_iff]
    rw [← List.toFinset_card_of_nodup hnd, hset, Finset.card_union_of_disjoint hdisj,
      List.toFinset_card_of_nodup h.nodup, List.toFinset_card_of_nodup hrs.nodup]
  have hle := h.length_le
  have hle' := hrs.length_le
  refine ⟨by omega, hnd, fun r hr => ?_, fun hlt r hr => ?_⟩
  · rcases List.mem_union_iff.mp hr with hr | hr
    · exact h.sound hinv r hr
    · obtain ⟨ρ, hρ, he⟩ := hrs.sound r hr
      exact ⟨ρ, ((hcs ρ).mp hρ).1, he⟩
  obtain ⟨ρ, hρ, rfl⟩ := hr
  by_cases hmem : asts.map (Ast.eval ρ) ∈ results
  · exact List.mem_union_iff.mpr (.inl hmem)
  · exact List.mem_union_iff.mpr
      (.inr (hrs.exhaustive (by omega) _ ⟨ρ, (hcs ρ).mpr ⟨hρ, hmem⟩, rfl⟩))

theorem sat_constraints (h : FromCache s asts extra n results) (ρ : Assignment) :
    Sat (s.front.constraints ++ if results = [] then extra else excludeAll asts results :: extra) ρ ↔
      Sat (s.front.constraints ++ extra) ρ ∧ asts.map (Ast.eval ρ) ∉ results := by
  split
  · rename_i hnil
    simp [hnil]
  have hlen : ∀ r ∈ results, r.length = asts.length := by
    intro r hr
    obtain ⟨m, -, -, rfl⟩ := h.realized r hr
    simp
  simp only [sat_append, sat_cons, holds_excludeAll hlen]
  tauto

/-- Without the shortcut, the call is a solver query for what the cache lacks. -/
theorem batchEval_cases (hB : E.backend.Exact) (hinv : Inv s) (hn : 0 < n)
    (hno : shortcut asts s = false ∨
      (getBatchSolutions E asts (some n) extra true s).length = n) :
    ExactAnswer (s.front.constraints ++ extra) asts n (batchEval E asts n extra s).1 := by
  have hcache := fromCache E s asts extra hn
  unfold batchEval
  dsimp only
  set results := getBatchSolutions E asts (some n) extra true s
  split
  · rename_i hdone
    have hfull : results.length = n := by
      rcases hno with hno | hno
      · simpa [hno] using hdone
      · exact hno
    obtain ⟨r, hr⟩ := List.exists_mem_of_length_pos (by omega : 0 < results.length)
    obtain ⟨ρ, hρ, -⟩ := hcache.sound hinv r hr
    exact ⟨⟨hcache.length_le, hcache.nodup, hcache.sound hinv, fun hlt => by omega⟩, ρ, hρ⟩
  rename_i hmore
  have hlt : results.length < n := lt_of_le_of_ne hcache.length_le fun he => hmore (.inl he)
  have henum := BackendZ3.batchEval_enumerates hB asts
    (if results = [] then extra else excludeAll asts results :: extra) (n - results.length)
    s.count s.front.constraints
  have hunion := hcache.union hinv (sat_constraints hcache) henum
  split
  · rename_i rs s' heq
    obtain ⟨rfl, hne⟩ := FullFrontend.batchEval_ok heq
    obtain ⟨r, hr⟩ := List.exists_mem_of_ne_nil _ hne
    obtain ⟨ρ, hρ, -⟩ := henum.sound r hr
    exact ⟨hunion, ρ, ((sat_constraints hcache ρ).mp hρ).1⟩
  · rename_i message s' heq
    obtain ⟨-, hnil⟩ := FullFrontend.batchEval_error heq
    have hun := (FullFrontend.batchEval_eq_nil hB (by omega)).mp hnil
    by_cases hempty : results = []
    · rw [if_pos hempty]
      rw [if_pos hempty] at hun
      exact hun
    rw [if_neg hempty]
    obtain ⟨r, hr⟩ := List.exists_mem_of_ne_nil _ hempty
    obtain ⟨ρ, hρ, -⟩ := hcache.sound hinv r hr
    refine ⟨⟨hcache.length_le, hcache.nodup, hcache.sound hinv, ?_⟩, ρ, hρ⟩
    rintro - r ⟨ρ', hρ', rfl⟩
    by_contra hmem
    exact hun ⟨ρ', (sat_constraints hcache ρ').mpr ⟨hρ', hmem⟩⟩
  · rename_i x s' hx heq
    obtain ⟨rfl, -⟩ := FullFrontend.batchEval_error heq
    exact (hx "unsat" rfl).elim

/-! ## What the record of exhausted expressions means -/

/-- The three dictionaries that answers are read from. -/
inductive Record where
  | eval
  | min
  | max

namespace Record

def entries : Record → ModelCacheMixin → List Ast
  | eval, s => s.evalExhausted
  | min, s => s.minExhausted
  | max, s => s.maxExhausted

/-- How the value in a cached model stands for a value under the constraints. -/
def rel : Record → Value → Value → Prop
  | eval, v, w => v = w
  | min, v, w => v.toNat ≤ w.toNat
  | max, v, w => w.toNat ≤ v.toNat

theorem rel_refl (k : Record) (v : Value) : k.rel v v := by
  cases k <;> simp [rel]

end Record

/-- Every value of the expression under the constraints is accounted for by its value
in some cached model. An expression without variables has the one value in any model. -/
def Covered (k : Record) (s : ModelCacheMixin) (e : Ast) : Prop :=
  e.vars = ∅ ∨ ∀ ρ, Sat s.front.constraints ρ →
    ∃ m ∈ s.models, k.rel (e.eval (m.complete true)) (e.eval ρ)

/-- The record only lists expressions for which that holds. -/
def Right (k : Record) (s : ModelCacheMixin) : Prop := ∀ e ∈ k.entries s, Covered k s e

structure Known (s : ModelCacheMixin) : Prop extends Inv s where
  covered : Right .eval s

/-- Fewer assignments and more models keep an expression covered. -/
theorem Covered.mono {k : Record} {e : Ast} (h : Covered k s e)
    (hsat : ∀ ρ, Sat s'.front.constraints ρ → Sat s.front.constraints ρ)
    (hmodels : ∀ m ∈ s.models, m ∈ s'.models) : Covered k s' e := by
  refine h.imp_right fun h ρ hρ => ?_
  obtain ⟨m, hm, he⟩ := h ρ (hsat ρ hρ)
  exact ⟨m, hmodels m hm, he⟩

theorem Covered.extends {k : Record} {e : Ast} (h : Covered k s e) (hext : Extends s s') :
    Covered k s' e :=
  h.mono (fun _ hρ => hext.front ▸ hρ) hext.models

/-- Learning models without new marks keeps a record right. -/
theorem Right.extends {k : Record} (h : Right k s) (hext : Extends s s')
    (hmarks : ∀ e ∈ k.entries s', e ∈ k.entries s ∨ Covered k s' e) : Right k s' :=
  fun e he => (hmarks e he).elim (fun he => (h e he).extends hext) id

theorem Known.learns (h : Known s) (hl : Learns s s') (hex : s'.evalExhausted = s.evalExhausted) :
    Known s' where
  toInv := hl.inv
  covered := h.covered.extends hl.toExtends fun e he => .inl (by rwa [Record.entries, hex] at he)

/-- A solve changes nothing but the count and the models. -/
theorem solved_eq (count : Nat) (ms : List Model) :
    ∃ models, FullState.solved s count ms = { s with count := count, models := models } := by
  have hfold : ∀ (ms : List Model) (s : ModelCacheMixin),
      ∃ models, ms.foldl modelHook s = { s with models := models } := by
    intro ms
    induction ms with
    | nil => exact fun s => ⟨s.models, rfl⟩
    | cons m ms ih =>
      intro s
      obtain ⟨models, h⟩ := ih (modelHook s m)
      refine ⟨models, ?_⟩
      rw [List.foldl_cons, h]
      unfold modelHook
      dsimp only
      split <;> rfl
  exact hfold ms _

theorem solved_entries (k : Record) (count : Nat) (ms : List Model) :
    k.entries (FullState.solved s count ms) = k.entries s := by
  obtain ⟨models, h⟩ := solved_eq (s := s) count ms
  rw [h]
  cases k <;> rfl

/-- A solver model that interprets the variables of the front-end is in the cache
afterwards, unless there are none. -/
theorem solved_stores (count : Nat) {ms : List Model} {m : Model} (hm : m ∈ ms)
    (hkeys : s.front.vars ⊆ Dict.keys m) (hne : s.front.vars ≠ ∅) :
    ∃ m' ∈ (FullState.solved s count ms).models,
      (m'.complete true).agreeOn s.front.vars (m.complete false) := by
  have hfold : ∀ (ms : List Model) (s : ModelCacheMixin), m ∈ ms → s.front.vars ⊆ Dict.keys m →
      s.front.vars ≠ ∅ → ∃ m' ∈ (ms.foldl modelHook s).models,
        (m'.complete true).agreeOn s.front.vars (m.complete false) := by
    intro ms
    induction ms with
    | nil => intro s hm; simp at hm
    | cons m₀ ms ih =>
      intro s hm hkeys hne
      rcases List.mem_cons.mp hm with rfl | hm
      · have hnil : m.filter s.front.vars ≠ [] := by
          intro hnil
          have hk := Model.keys_filter (m := m) s.front.vars
          rw [hnil, Finset.filter_mem_eq_inter, Finset.inter_eq_right.mpr hkeys] at hk
          exact hne hk.symm
        obtain ⟨m', hm', heq, -⟩ := Model.exists_same_insertInto (m.filter s.front.vars) s.models
        refine ⟨m', (foldl_modelHook_extends ms).models m' ?_, ?_⟩
        · simpa [modelHook, hnil] using hm'
        · rw [heq]
          exact (Model.filter_agreeOn _ true).trans (Model.complete_agreeOn_keys hkeys)
      · obtain ⟨m', hm', hagree⟩ := ih (modelHook s m₀) hm (by simpa using hkeys) (by simpa using hne)
        exact ⟨m', hm', by simpa using hagree⟩
  exact hfold ms { s with count := count } hm hkeys hne

/-- The value that the solver read off a model is the value in a cached model. -/
theorem solved_realizes (hinv : Inv s) {B : BackendZ3} (hT : B.Total) (count : Nat)
    {ms : List Model} {m : Model} (hm : m ∈ ms) (hchecked : B.Checked s.front.constraints m)
    {e : Ast} (hsub : e.vars ⊆ s.front.vars) (hne : e.vars ≠ ∅) :
    ∃ m' ∈ (FullState.solved s count ms).models,
      e.eval (m'.complete true) = e.eval (m.complete false) := by
  have hkeys : s.front.vars ⊆ Dict.keys m := hinv.vars_eq ▸ hchecked.total hT
  have hne' : s.front.vars ≠ ∅ := fun h => hne (Finset.subset_empty.mp (h ▸ hsub))
  obtain ⟨m', hm', hagree⟩ := solved_stores (s := s) count hm hkeys hne'
  exact ⟨m', hm', Ast.eval_congr e (hagree.mono hsub)⟩

/-- When the enumeration is complete, the marked expressions are covered. -/
theorem markEval_known (h : Known s) (hl : Learns s s') (hex : s'.evalExhausted = s.evalExhausted)
    (hall : extra = [] → results.length < n → ∀ ρ, Sat s.front.constraints ρ → ∀ e ∈ asts, e.vars ⊆ s.front.vars → e.vars ≠ ∅ → ∃ m ∈ s'.models, e.eval (m.complete true) = e.eval ρ) :
    Known (markEval asts n extra results s') := by
  have hold : Known s' := h.learns hl hex
  unfold markEval
  split
  · rename_i hmark
    refine ⟨hl.inv.of_eq rfl rfl, fun e he => ?_⟩
    rcases List.mem_append.mp he with he | he
    · obtain ⟨he, hsub⟩ := List.mem_filter.mp he
      have hsub' : e.vars ⊆ s.front.vars := hl.front ▸ of_decide_eq_true hsub
      by_cases hne : e.vars = ∅
      · exact .inl hne
      · refine .inr fun ρ hρ => hall hmark.1 hmark.2 ρ ?_ e he hsub' hne
        exact hl.front ▸ hρ
    · exact hold.covered e he
  · exact hold

theorem batchEval_known (hB : E.backend.Exact) (hT : E.backend.Total) (h : Known s) (asts : List Ast)
    (n : Nat) (extra : List Ast) : Known (batchEval E asts n extra s).2 := by
  unfold batchEval
  dsimp only
  set results := getBatchSolutions E asts (some n) extra true s with hresults
  split
  · exact h
  rename_i hmore
  have hsolved : ∀ {r s₁}, FullFrontend.batchEval E.backend asts (n - results.length)
      (if results = [] then extra else excludeAll asts results :: extra) s = (r, s₁) →
      Learns s s₁ ∧ s₁.evalExhausted = s.evalExhausted := by
    intro r s₁ heq
    obtain rfl : FullState.solved s _ _ = s₁ := congrArg Prod.snd heq
    exact ⟨learns_solved h.toInv _ fun m hm =>
      (BackendZ3.batchEval_checked hm).of_append_left.modelOf hB, solved_entries .eval _ _⟩
  -- Values from the cache are still in the cache.
  have hcached : ∀ {s₁}, Learns s s₁ → 0 < n → ∀ ρ, asts.map (Ast.eval ρ) ∈ results → ∀ e ∈ asts,
      ∃ m ∈ s₁.models, e.eval (m.complete true) = e.eval ρ := by
    intro s₁ hl hn ρ hmem e he
    obtain ⟨m, hm, -, heq⟩ := (fromCache E s asts extra hn).realized _ hmem
    exact ⟨m, hl.models m hm, (List.map_inj_left.mp heq e he).symm⟩
  have hn : ∀ {k}, k < n → 0 < n := fun h => by omega
  have henum := fun hn : 0 < n => (fromCache E s asts extra hn).union h.toInv
    (sat_constraints (fromCache E s asts extra hn))
    (BackendZ3.batchEval_enumerates hB asts _ _ s.count _)
  split
  · rename_i rs s₁ heq
    obtain ⟨hl, hex⟩ := hsolved heq
    obtain ⟨hrs, -⟩ := FullFrontend.batchEval_ok heq
    obtain rfl : FullState.solved s _ _ = s₁ := congrArg Prod.snd heq
    refine markEval_known h hl hex fun hnil hlt ρ hρ e he hsub hne => ?_
    have hmem : asts.map (Ast.eval ρ) ∈ results ∪ rs := by
      rw [hrs] at hlt ⊢
      exact (henum (hn hlt)).exhaustive hlt _ ⟨ρ, by simpa [hnil] using hρ, rfl⟩
    rcases List.mem_union_iff.mp hmem with hmem | hmem
    · exact hcached hl (hn hlt) ρ hmem e he
    rw [hrs] at hmem
    obtain ⟨m, hm, hr⟩ := BackendZ3.batchEval_realized hmem
    obtain ⟨m', hm', heq'⟩ := solved_realizes (s := s) h.toInv hT _ hm
      (BackendZ3.batchEval_checked hm).of_append_left hsub hne
    exact ⟨m', hm', heq'.trans (List.map_inj_left.mp hr e he).symm⟩
  · rename_i message s₁ heq
    obtain ⟨hl, hex⟩ := hsolved heq
    obtain ⟨-, hnil'⟩ := FullFrontend.batchEval_error heq
    split
    · exact h.learns hl hex
    refine markEval_known h hl hex fun hnil hlt ρ hρ e he hsub hne => ?_
    have hrem : 0 < n - results.length := by omega
    have hun := (FullFrontend.batchEval_eq_nil hB hrem).mp hnil'
    refine hcached hl (hn hlt) ρ ?_ e he
    by_contra hmem
    exact hun ⟨ρ, (sat_constraints (fromCache E s asts extra (hn hlt)) ρ).mpr ⟨by simpa [hnil] using hρ, hmem⟩⟩
  · rename_i x s₁ hx heq
    obtain ⟨hl, hex⟩ := hsolved heq
    exact h.learns hl hex

theorem satisfiable_entries (k : Record) (extra : List Ast) :
    k.entries (satisfiable E extra s).2 = k.entries s := by
  unfold satisfiable
  split
  · rfl
  · exact solved_entries k _ _

theorem eval_known (hB : E.backend.Exact) (hT : E.backend.Total) (h : Known s) (e : Ast) (n : Nat)
    (extra : List Ast) : Known (eval E e n extra s).2 := by
  have hk := batchEval_known hB hT h [e] n extra
  unfold eval
  split <;> rename_i heq <;> simpa only [heq] using hk

theorem satisfiable_known (hB : E.backend.Exact) (h : Known s) (extra : List Ast) :
    Known (satisfiable E extra s).2 :=
  h.learns (satisfiable_learns hB h.toInv extra) (satisfiable_entries .eval extra)

theorem extremum_known (hB : E.backend.Exact) (hT : E.backend.Total) (h : Known s) (isMax : Bool)
    (messages : String × String) (e : Ast) (extra : List Ast) (signed : Bool) :
    Known (FullFrontend.extremum E.backend (satisfiable E) (eval E) isMax messages e extra
      signed s).2 := by
  have h₁ := satisfiable_known hB h extra
  unfold FullFrontend.extremum
  split
  · rename_i heq; simpa only [heq] using h₁
  · rename_i heq; simpa only [heq] using h₁
  rename_i s₁ heq
  simp only [heq] at h₁
  have h₂ := eval_known hB hT h₁ e 2 extra
  split
  · rename_i heq; simpa only [heq] using h₂
  · rename_i heq; simpa only [heq] using h₂
  · rename_i heq; simpa only [heq] using h₂
  rename_i s₂ heq
  simp only [heq] at h₂
  exact h₂.learns (learns_solved h₂.toInv _ fun m hm =>
    (BackendZ3.extrema_checked hm).of_append_left.modelOf hB) (solved_entries .eval _ _)

/-- Marks in the other dictionaries do not matter here. -/
theorem Known.of_eq (h : Known s) (hfront : s'.front = s.front) (hmodels : s'.models = s.models)
    (hex : s'.evalExhausted = s.evalExhausted) : Known s' where
  toInv := h.toInv.of_eq hfront hmodels
  covered := h.covered.extends ⟨hfront, fun _ hm => hmodels ▸ hm⟩ fun e he =>
    .inl (by rwa [Record.entries, hex] at he)

theorem min_known (hB : E.backend.Exact) (hT : E.backend.Total) (h : Known s) (e : Ast)
    (extra : List Ast) (signed : Bool) : Known (min E e extra signed s).2 := by
  have hk := extremum_known hB hT h false ("Unsat during _min()", "unsat during min()") e extra signed
  unfold min FullFrontend.min
  split
  · exact h
  split
  · rename_i heq
    simp only [heq] at hk
    dsimp only
    split
    · split <;> exact hk.of_eq rfl rfl rfl
    · exact hk
  · rename_i heq
    simpa only [heq] using hk

theorem max_known (hB : E.backend.Exact) (hT : E.backend.Total) (h : Known s) (e : Ast)
    (extra : List Ast) (signed : Bool) : Known (max E e extra signed s).2 := by
  have hk := extremum_known hB hT h true ("Unsat during _max()", "unsat during max()") e extra signed
  unfold max FullFrontend.max
  split
  · exact h
  split
  · rename_i heq
    simp only [heq] at hk
    dsimp only
    split
    · split <;> exact hk.of_eq rfl rfl rfl
    · exact hk
  · rename_i heq
    simpa only [heq] using hk

/-! ## Adding constraints -/

variable {constraints added : List Ast} {k : Record}

/-- The symbol of a trivial equality has the one value of the trivial model. -/
theorem Right.optimize (h : Right k s) (htyped : ∀ c ∈ s.front.constraints, c.ty = some .bool) :
    Right k (optimize s) := by
  unfold ModelCacheMixin.optimize
  split
  swap
  · exact h
  rename_i htriv
  obtain ⟨c, hc⟩ := List.length_eq_one_iff.mp htriv.1
  unfold trivialModelOptimization
  split
  swap
  · exact h
  rename_i e x v heq
  rw [hc] at heq
  obtain ⟨-, -, hiff, hval⟩ := trivialEquality_spec heq (htyped c (by simp [hc]))
  refine h.extends ⟨rfl, Model.subset_insertInto⟩ fun e' he' => ?_
  have hcases : e' = e ∨ e' ∈ k.entries s := by
    cases k <;> simpa [Record.entries] using he'
  rcases hcases with rfl | he'
  · refine .inr (.inr fun ρ hρ => ?_)
    obtain ⟨m, hm, hcomplete, -⟩ := Model.exists_same_insertInto
      [(x, ⟨(v.eval (Model.complete [] true)).toNat, decide ((v.eval (Model.complete [] true)).toNat ≠ 0)⟩)]
      s.models
    refine ⟨m, hm, ?_⟩
    have hρ' : e'.eval ρ = v.eval (Model.complete [] true) :=
      (hiff ρ).mpr (hρ c (by simp [hc]))
    rw [hcomplete, hval, hρ']
    exact k.rel_refl _
  · exact .inl he'

theorem Right.invalidate (h : Right k s)
    (hfalse : Ast.false_ ∈ constraints → ¬ Satisfiable s.front.constraints) :
    Right k (invalidate E constraints added s) := by
  have hbase : ∀ s₁ : ModelCacheMixin, Right k s₁ →
      Right k (if (getModels E added s₁).length ≠ s₁.models.length then
        { s₁ with
          models := getModels E added s₁
          evalExhausted := []
          maxExhausted := []
          minExhausted := []
          maxSignedExhausted := []
          minSignedExhausted := [] }
        else s₁) := by
    intro s₁ h₁
    split
    · intro e he
      cases k <;> simp [Record.entries] at he
    · exact h₁
  unfold ModelCacheMixin.invalidate
  refine hbase _ ?_
  split
  · rename_i hany
    obtain ⟨c, hc, he⟩ := List.any_eq_true.mp hany
    obtain rfl : c = Ast.false_ := by simpa using he
    exact fun e _ => .inr fun ρ hρ => absurd ⟨ρ, hρ⟩ (hfalse hc)
  · exact h

theorem Right.add (h : Right k s) (hinv : Inv s) (hc : ∀ c ∈ constraints, c.ty = some .bool)
    (invalidateCache : Bool) : Right k (add E constraints invalidateCache s).2 := by
  have hsat : ∀ ρ, Sat (s.front.add constraints).1.constraints ρ ↔
      Sat s.front.constraints ρ ∧ Sat constraints ρ := fun ρ =>
    ConstrainedFrontend.sat_add hinv.valid
  have h₁ : Right k { s with front := (s.front.add constraints).1 } := by
    intro e he
    have he' : e ∈ k.entries s := by cases k <;> exact he
    exact (h e he').mono (fun ρ hρ => ((hsat ρ).mp hρ).1) fun _ hm => hm
  have h₂ := h₁.optimize (hinv.toAdded hc).typed
  unfold ModelCacheMixin.add
  dsimp only
  split
  · exact h₁
  split
  · refine h₂.invalidate fun hfalse => ?_
    rw [optimize_front]
    rintro ⟨ρ, hρ⟩
    exact Ast.not_holds_false ρ (((hsat ρ).mp hρ).2 _ hfalse)
  · exact h₂

/-! ## Runs -/

theorem Known.step (hB : E.backend.Exact) (hT : E.backend.Total) (h : Known s) (c : Call)
    (hok : AddsImplied s c) : Known (step E s c) := by
  cases c with
  | add constraints invalidateCache =>
    refine ⟨h.toInv.step hB _ hok, h.covered.add h.toInv (fun c hc => ?_) _⟩
    obtain ⟨c', -, rfl⟩ := List.mem_map.mp hc
    exact c'.property
  | satisfiable extra => exact satisfiable_known hB h extra
  | checkSatisfiability extra =>
    refine h.learns (checkSatisfiability_learns hB h.toInv extra) ?_
    unfold ModelCacheMixin.step FullFrontend.checkSatisfiability
    dsimp only
    split <;> exact solved_entries .eval _ _
  | eval e n extra => exact eval_known hB hT h e n extra
  | batchEval exprs n extra => exact batchEval_known hB hT h exprs n extra
  | min e extra signed => exact min_known hB hT h e extra signed
  | max e extra signed => exact max_known hB hT h e extra signed
  | solution e v extra =>
    refine h.learns (solution_learns hB h.toInv e v extra) ?_
    unfold ModelCacheMixin.step solution
    dsimp only
    split
    · rfl
    · exact solved_entries .eval _ _
  | collect alive =>
    refine ⟨h.toInv.of_eq rfl rfl, ?_⟩
    exact h.covered.extends ⟨rfl, fun _ hm => hm⟩ fun e he => .inl (List.mem_of_mem_filter he)

theorem reach_known (hB : E.backend.Exact) (hT : E.backend.Total)
    (h : Runs.Reach (step E) AddsImplied {} s) : Known s :=
  h.invariant Known ⟨inv_blank 0, fun e he => by simp [Record.entries] at he⟩
    fun _ c hs hok => hs.step hB hT c hok

/-- The exhausted shortcut, taken with fewer than `n` cached solutions, answers the
question it was recorded for: there are no extra constraints, there is a model to read
values from, and the expression divides by zero in none. -/
def ShortcutSound (E : Env) (s : ModelCacheMixin) (asts extra : List Ast) (n : Nat) : Prop :=
  shortcut asts s = true → (getBatchSolutions E asts (some n) extra true s).length < n →
    extra = [] ∧ s.models ≠ [] ∧ ∀ m ∈ s.models, ∀ e ∈ asts, (Model.evalAst m true e).isSome

theorem batchEval_shortcut (h : Known s) (hn : 0 < n) (hs : shortcut asts s = true)
    (hlt : (getBatchSolutions E asts (some n) extra true s).length < n)
    (hsound : ShortcutSound E s asts extra n) :
    ExactAnswer (s.front.constraints ++ extra) asts n (batchEval E asts n extra s).1 := by
  obtain ⟨rfl, hne, hsome⟩ := hsound hs hlt
  have hcache := fromCache E s asts [] hn
  obtain ⟨e, rfl, hmark⟩ : ∃ e, asts = [e] ∧ e ∈ s.evalExhausted := by
    unfold shortcut at hs
    split at hs
    · exact ⟨_, rfl, of_decide_eq_true hs⟩
    · cases hs
  have hall : ∀ m ∈ s.models, [e.eval (m.complete true)] ∈
      getBatchSolutions E [e] (some n) [] true s := by
    intro m hm
    obtain ⟨v, hv⟩ := Option.isSome_iff_exists.mp (hsome m hm e (by simp))
    obtain ⟨-, -, -, -, h₅⟩ := collect_spec [e] (some n) true
      (getModels E [] s) [] .nil
    refine h₅ (fun k hk => ?_) m (mem_getModels.mpr ⟨hm, rfl⟩) _ ?_
    · cases hk; exact hlt.ne
    · simp [Model.evalList, hv, (Model.evalAst_eq_some.mp hv).2.2]
  obtain ⟨m₀, hm₀⟩ := List.exists_mem_of_ne_nil _ hne
  have hval : (batchEval E [e] n [] s).1 = .ok (getBatchSolutions E [e] (some n) [] true s) := by
    simp [batchEval, hs]
  rw [hval]
  refine ⟨⟨hcache.length_le, hcache.nodup, hcache.sound h.toInv, ?_⟩, m₀.complete true,
    by simpa using h.sat m₀ hm₀⟩
  rintro - r ⟨ρ, hρ, rfl⟩
  rcases h.covered e hmark with hclosed | hcov
  · have := hall m₀ hm₀
    rwa [Ast.eval_closed hclosed _ ρ] at this
  · obtain ⟨m, hm, heq⟩ := hcov ρ (by simpa using hρ)
    have := hall m hm
    rwa [show e.eval (m.complete true) = e.eval ρ from heq] at this

theorem batchEval_exact (hB : E.backend.Exact) (h : Known s) (hn : 0 < n)
    (hsound : ShortcutSound E s asts extra n) :
    ExactAnswer (s.front.constraints ++ extra) asts n (batchEval E asts n extra s).1 := by
  have hcache := fromCache E s asts extra hn
  by_cases hfull : (getBatchSolutions E asts (some n) extra true s).length = n
  · exact batchEval_cases hB h.toInv hn (.inr hfull)
  · cases hs : shortcut asts s with
    | false => exact batchEval_cases hB h.toInv hn (.inl hs)
    | true => exact batchEval_shortcut h hn hs (lt_of_le_of_ne hcache.length_le hfull) hsound

/-- `eval` is `batch_eval` on one expression. -/
theorem eval_eq (e : Ast) : ((eval E e n extra s).1.map fun vs => vs.map ([·])) =
    (batchEval E [e] n extra s).1.map fun rs => rs.map fun r => [r.headD (.bool false)] := by
  unfold eval
  split <;> rename_i heq <;> simp [heq, Except.map, Function.comp_def]

theorem eval_exact (hB : E.backend.Exact) (h : Known s) (e : Ast) (extra : List Ast) (hn : 0 < n)
    (hsound : ShortcutSound E s [e] extra n) :
    ExactAnswer (s.front.constraints ++ extra) [e] n
      ((eval E e n extra s).1.map fun vs => vs.map ([·])) := by
  have hex := batchEval_exact hB h hn hsound
  rw [eval_eq]
  cases hr : (batchEval E [e] n extra s).1 with
  | error x => rw [hr] at hex; exact hex
  | ok rs =>
    rw [hr] at hex
    have hsingle : ∀ r ∈ rs, [r.headD (.bool false)] = id r := by
      intro r hr
      obtain ⟨ρ, -, rfl⟩ := hex.1.sound r hr
      rfl
    simp only [Except.map, List.map_congr_left hsingle, List.map_id]
    exact hex

/-- The answer of the plain solver, in full: as many distinct solutions as were asked
for or as there are, and `UnsatError` when there are none. -/
def PlainAnswer (cs asts : List Ast) (n : Nat) : Except Error (List (List Value)) → Prop
  | .ok rs => (rs.length : ℕ∞) = Min.min (n : ℕ∞) (solutions cs asts).encard ∧ rs.Nodup ∧
      (∀ r ∈ rs, r ∈ solutions cs asts) ∧ solutions cs asts ≠ ∅
  | .error (.UnsatError _) => solutions cs asts = ∅
  | .error _ => False

theorem ExactAnswer.plain {cs : List Ast} {r : Except Error (List (List Value))}
    (h : ExactAnswer cs asts n r) : PlainAnswer cs asts n r := by
  have hempty : solutions cs asts = ∅ ↔ ¬ Satisfiable cs := by
    rw [Set.eq_empty_iff_forall_notMem]
    exact ⟨fun h ⟨ρ, hρ⟩ => h _ ⟨ρ, hρ, rfl⟩, fun h r ⟨ρ, hρ, _⟩ => h ⟨ρ, hρ⟩⟩
  cases r with
  | ok rs => exact ⟨h.1.length_eq, h.1.nodup, h.1.sound, fun he => hempty.mp he h.2⟩
  | error x =>
    cases x with
    | UnsatError message => exact hempty.mpr h
    | ClaripyZeroDivisionError => exact h

/-- `add(x != 0)`, `add(x != 3)` and `eval(x, 3)` on a two-bit symbol. -/
def exampleRun : ModelCacheMixin :=
  [Call.add [Family.nonzero, ⟨.ne Family.x (.node (.BVV 3 2) [] []), by decide⟩] true,
    .eval Family.x 3 []].foldl (step Family.exampleEnv) {}

theorem exampleRun_reach : Runs.Reach (step Family.exampleEnv) AddsImplied {} exampleRun :=
  .tail (i := Call.eval Family.x 3 []) (.tail (i := Call.add _ true) .refl trivial) trivial

def y : Ast := .node (.BVS "y" 1) [] []

end Claripy.ModelCacheMixin
