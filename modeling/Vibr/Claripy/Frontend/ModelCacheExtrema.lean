import Vibr.Claripy.Frontend.ModelCacheEval

/-!
# Cached extrema

`min` and `max` answer from the cached models alone once the expression is recorded
as exhausted. The records are about the constraints without extra ones and about
the unsigned order, and they only see models that mention the expression's
variables. Where the cached branch respects this, and where the solver is asked,
the answer is the extremum.

Values are compared as bitvectors: a front-end may return the same bitvector as a
signed or as an unsigned integer.
-/

namespace Claripy.ModelCacheMixin

open BackendZ3 (IsExtremum)

variable {E : Env} {s s' : ModelCacheMixin} {extra cs : List Ast} {e : Ast} {n : Nat}
  {isMax signed : Bool}

/-- The bitvector that an integer answer stands for, read as a number. -/
def asValue (signed : Bool) (e : Ast) (k : Int) : Int :=
  Value.toInt signed (.bv e.length (BitVec.ofInt e.length k))

/-- The answer of the plain solver. -/
def PlainExtremum (isMax signed : Bool) (e : Ast) (cs : List Ast) : Except Error Int → Prop
  | .ok k => IsExtremum isMax signed e cs (asValue signed e k)
  | .error (.UnsatError _) => ¬ Satisfiable cs
  | .error _ => False

theorem asValue_toNat {v : BitVec e.length} :
    asValue signed e (v.toNat : Int) = Value.toInt signed (.bv e.length v) := by
  simp [asValue]

/-! ## Asking the solver -/

theorem satisfiable_exact (hB : E.backend.Exact) (h : Inv s) (extra : List Ast) :
    ∃ r, (satisfiable E extra s).1 = .ok r ∧
      (r = true ↔ Satisfiable (s.front.constraints ++ extra)) := by
  unfold satisfiable
  split
  · rename_i hne
    obtain ⟨m, hm⟩ := List.exists_mem_of_ne_nil _ hne
    obtain ⟨hm, heval⟩ := mem_getModels.mp hm
    have hsat : Satisfiable (s.front.constraints ++ extra) :=
      ⟨_, sat_append.mpr ⟨h.sat m hm, Model.sat_of_evalConstraints heval⟩⟩
    exact ⟨true, rfl, by simpa using hsat⟩
  · exact ⟨_, rfl, BackendZ3.satisfiable_value hB _ _ _⟩

theorem bound_eq (v : BitVec e.length) :
    FullFrontend.bound isMax signed e (.bv e.length v) =
      if isMax then BackendZ3.GE signed e (Value.toInt signed (.bv e.length v))
      else BackendZ3.LE signed e (Value.toInt signed (.bv e.length v)) := by
  cases isMax <;> cases signed <;>
    simp [FullFrontend.bound, BackendZ3.GE, BackendZ3.LE, BackendZ3.intLit, Value.lit, Value.toInt]

/-- The order of the search direction. -/
def beyond (isMax : Bool) (a b : Int) : Prop := if isMax then a ≤ b else b ≤ a

theorem holds_bound (he : e.IsBV) (v : BitVec e.length) (ρ : Assignment) :
    (FullFrontend.bound isMax signed e (.bv e.length v)).holds ρ ↔
      beyond isMax (Value.toInt signed (.bv e.length v)) ((e.eval ρ).toInt signed) := by
  have hb := BackendZ3.toInt_bounds signed v
  rw [bound_eq]
  cases isMax with
  | true => simpa [beyond] using BackendZ3.holds_GE he hb.1 hb.2 ρ
  | false => simpa [beyond] using BackendZ3.holds_LE he hb.1 hb.2 ρ

theorem isExtremum_of_unique (hsat : Satisfiable cs) (he : e.IsBV) {v : Value}
    (hv : ∀ ρ, Sat cs ρ → e.eval ρ = v) : IsExtremum isMax signed e cs (asValue signed e v.toNat) := by
  obtain ⟨ρ₀, hρ₀⟩ := hsat
  obtain ⟨b, hb⟩ := he.eval_bv ρ₀
  obtain rfl : v = .bv e.length b := (hv ρ₀ hρ₀).symm.trans hb
  have hval : asValue signed e (Value.toNat (.bv e.length b)) = Value.toInt signed (.bv e.length b) :=
    asValue_toNat
  rw [hval]
  refine ⟨⟨ρ₀, hρ₀, by rw [hb]⟩, fun ρ hρ => ?_⟩
  rw [hv ρ hρ]
  cases isMax <;> simp

variable {v₀ v₁ : BitVec e.length}

/-- The extremum beyond two solutions is the extremum of all. -/
theorem isExtremum_of_bounds (he : e.IsBV) {k : Int}
    (h : IsExtremum isMax signed e (cs ++ [FullFrontend.bound isMax signed e (.bv e.length v₀), FullFrontend.bound isMax signed e (.bv e.length v₁)]) k) :
    IsExtremum isMax signed e cs k := by
  obtain ⟨⟨ρ₀, hρ₀, hk⟩, hbound⟩ := h
  simp only [sat_append, sat_cons, sat_nil, and_true, holds_bound he] at hρ₀ hbound
  refine ⟨⟨ρ₀, hρ₀.1, hk⟩, fun ρ hρ => ?_⟩
  by_cases hin : beyond isMax (Value.toInt signed (.bv e.length v₀)) ((e.eval ρ).toInt signed) ∧
      beyond isMax (Value.toInt signed (.bv e.length v₁)) ((e.eval ρ).toInt signed)
  · exact hbound ρ ⟨hρ, hin⟩
  · cases isMax <;> simp only [beyond, if_true, if_false, Bool.false_eq_true] at hin hρ₀ ⊢ <;> omega

theorem satisfiable_bounds (he : e.IsBV) (h₀ : [Value.bv e.length v₀] ∈ solutions cs [e])
    (h₁ : [Value.bv e.length v₁] ∈ solutions cs [e]) :
    Satisfiable (cs ++ [FullFrontend.bound isMax signed e (.bv e.length v₀),
      FullFrontend.bound isMax signed e (.bv e.length v₁)]) := by
  obtain ⟨ρ₀, hρ₀, he₀⟩ := h₀
  obtain ⟨ρ₁, hρ₁, he₁⟩ := h₁
  simp only [List.map_cons, List.map_nil, List.cons.injEq, and_true] at he₀ he₁
  have hsat : ∀ ρ, Sat (cs ++ [FullFrontend.bound isMax signed e (.bv e.length v₀),
      FullFrontend.bound isMax signed e (.bv e.length v₁)]) ρ ↔ Sat cs ρ ∧
      beyond isMax (Value.toInt signed (.bv e.length v₀)) ((e.eval ρ).toInt signed) ∧
      beyond isMax (Value.toInt signed (.bv e.length v₁)) ((e.eval ρ).toInt signed) := by
    intro ρ
    simp [holds_bound he]
  by_cases hle : beyond isMax (Value.toInt signed (.bv e.length v₁)) (Value.toInt signed (.bv e.length v₀))
  · refine ⟨ρ₀, (hsat ρ₀).mpr ⟨hρ₀, ?_, ?_⟩⟩ <;> rw [he₀]
    · cases isMax <;> simp [beyond]
    · exact hle
  · refine ⟨ρ₁, (hsat ρ₁).mpr ⟨hρ₁, ?_, ?_⟩⟩ <;> rw [he₁]
    · cases isMax <;> simp only [beyond, if_true, if_false, Bool.false_eq_true] at hle ⊢ <;> omega
    · cases isMax <;> simp [beyond]

theorem isExtremum_bounds (he : e.IsBV) {k : Int} (h : IsExtremum isMax signed e cs k) :
    asValue signed e k = k := by
  obtain ⟨ρ, -, hk⟩ := h.attained
  obtain ⟨v, hv⟩ := he.eval_bv ρ
  rw [hv] at hk
  have hb := BackendZ3.toInt_bounds signed v
  rw [hk] at hb
  exact BackendZ3.toInt_ofInt he.length_pos hb.1 hb.2

/-- The record that an extremum query reads and writes. -/
def record (isMax : Bool) : Record := if isMax then .max else .min

theorem record_rel (v w : Value) : (record isMax).rel v w ↔ beyond isMax (w.toInt false) (v.toInt false) := by
  have hv : ∀ v : Value, v.toInt false = v.toNat := fun v => by cases v <;> simp [Value.toInt, Value.toNat]
  rw [hv, hv]
  cases isMax <;> simp [record, Record.rel, beyond]

/-- Two values found: the search between them is exact, and unless the front-end does
not know the variables, the cache holds a model that attains the extremum. -/
theorem extrema_of_inv (isMax signed : Bool) (hB : E.backend.Exact) (he : e.IsBV) (hinv : Inv s)
    (h₀ : [Value.bv e.length v₀] ∈ solutions (s.front.constraints ++ extra) [e])
    (h₁ : [Value.bv e.length v₁] ∈ solutions (s.front.constraints ++ extra) [e]) (hne : v₀ ≠ v₁) :
    let a := E.backend.extrema isMax signed s.count e s.front.constraints
      (extra ++ [FullFrontend.bound isMax signed e (.bv e.length v₀),
        FullFrontend.bound isMax signed e (.bv e.length v₁)])
    IsExtremum isMax signed e (s.front.constraints ++ extra) a.value ∧
      ((extra = [] ∧ signed = false ∧ E.backend.Total ∧ e.vars ⊆ s.front.vars) →
        Covered (record isMax) (FullState.solved s a.count a.models) e) := by
  intro a
  have hbounds : Satisfiable (s.front.constraints ++ (extra ++
      [FullFrontend.bound isMax signed e (.bv e.length v₀),
        FullFrontend.bound isMax signed e (.bv e.length v₁)])) := by
    rw [← List.append_assoc]
    exact satisfiable_bounds he h₀ h₁
  obtain ⟨hext, hattain⟩ := BackendZ3.extrema_spec hB he isMax signed s.count hbounds
  rw [← List.append_assoc] at hext
  have hfull := isExtremum_of_bounds he hext
  refine ⟨hfull, ?_⟩
  rintro ⟨rfl, rfl, hT, hsub⟩
  by_cases hclosed : e.vars = ∅
  · exact .inl hclosed
  -- Two distinct values leave no room for an extremum at the far end of the range.
  have hnear : a.value ≠ BackendZ3.far isMax (BackendZ3.loBound false e.length)
      (BackendZ3.hiBound false e.length) := by
    intro hfar
    obtain ⟨ρ₀, hρ₀, he₀⟩ := h₀
    obtain ⟨ρ₁, hρ₁, he₁⟩ := h₁
    simp only [List.map_cons, List.map_nil, List.cons.injEq, and_true] at he₀ he₁
    have hb₀ := hfull.bound ρ₀ hρ₀
    have hb₁ := hfull.bound ρ₁ hρ₁
    rw [he₀] at hb₀
    rw [he₁] at hb₁
    have hr₀ := BackendZ3.toInt_bounds false v₀
    have hr₁ := BackendZ3.toInt_bounds false v₁
    have hnat : v₀.toNat ≠ v₁.toNat := fun h => hne (BitVec.eq_of_toNat_eq h)
    rw [show (E.backend.extrema _ _ _ _ _ _).value = _ from hfar] at hb₀ hb₁
    cases isMax with
    | true =>
      simp only [BackendZ3.far, if_true, Bool.false_eq_true, if_false, Value.toInt] at hb₀ hb₁ hr₀ hr₁
      omega
    | false =>
      simp only [BackendZ3.far, Bool.false_eq_true, if_false, Value.toInt] at hb₀ hb₁ hr₀ hr₁
      omega
  obtain ⟨m, hm, hval⟩ := hattain.resolve_left hnear
  obtain ⟨m', hm', heq⟩ := solved_realizes (s := s) hinv hT a.count hm
    (BackendZ3.extrema_checked hm).of_append_left hsub hclosed
  refine .inr fun ρ hρ => ⟨m', hm', ?_⟩
  have hfront : (FullState.solved s a.count a.models).front = s.front := (solved_extends _ _).front
  have hb := hfull.bound ρ (by simpa [hfront] using hρ)
  rw [record_rel, heq, hval]
  exact hb

theorem Covered.of_eval (h : Covered .eval s e) : Covered (record isMax) s e := by
  refine h.imp_right fun h ρ hρ => ?_
  obtain ⟨m, hm, heq⟩ := h ρ hρ
  exact ⟨m, hm, (show e.eval (m.complete true) = e.eval ρ from heq) ▸ (record isMax).rel_refl _⟩

/-- Fewer values than asked for, without extra constraints, mark the expression. -/
theorem eval_marks (hno : shortcut [e] s = false) {vs : List Value}
    (hok : (eval E e n [] s).1 = .ok vs) (hlt : vs.length < n) (hsub : e.vars ⊆ s.front.vars) :
    e ∈ (eval E e n [] s).2.evalExhausted := by
  have hmark : ∀ {s₁ : ModelCacheMixin} {results : List (List Value)}, s₁.front = s.front →
      results.length < n → e ∈ (markEval [e] n [] results s₁).evalExhausted := by
    intro s₁ results hfront hlen
    simp [markEval, hlen, hfront, hsub]
  have hbatch : ∀ rs, (batchEval E [e] n [] s).1 = .ok rs → rs.length < n →
      e ∈ (batchEval E [e] n [] s).2.evalExhausted := by
    intro rs hrs hlen
    unfold batchEval at hrs ⊢
    dsimp only at hrs ⊢
    split at hrs
    · rename_i hdone
      cases hrs
      rw [hno] at hdone
      exact absurd (hdone.resolve_right (by simp)) hlen.ne
    rename_i hmore
    rw [if_neg hmore]
    split at hrs
    · rename_i heq
      cases hrs
      obtain rfl : FullState.solved s _ _ = _ := congrArg Prod.snd heq
      exact hmark (solved_extends _ _).front hlen
    · rename_i heq
      obtain rfl : FullState.solved s _ _ = _ := congrArg Prod.snd heq
      split at hrs
      · cases hrs
      rename_i hne
      rw [if_neg hne]
      cases hrs
      exact hmark (solved_extends _ _).front hlen
    · cases hrs
  unfold eval at hok ⊢
  split at hok
  · rename_i rs s₁ heq
    cases hok
    have := hbatch rs (by rw [heq]) (by simpa using hlt)
    rwa [heq] at this
  · cases hok

/-- Through the solver: exact, and the record may be marked. -/
theorem extremum_exact (isMax signed : Bool) (hB : E.backend.Exact) (he : e.IsBV) (h : Known s)
    (hno : e ∉ s.evalExhausted ∨ ¬ Satisfiable (s.front.constraints ++ extra))
    (messages : String × String) :
    let r := FullFrontend.extremum E.backend (satisfiable E) (eval E) isMax messages e extra signed s
    PlainExtremum isMax signed e (s.front.constraints ++ extra) r.1 ∧
      ((extra = [] ∧ signed = false ∧ E.backend.Total ∧ e.vars ⊆ s.front.vars) → ∀ k, r.1 = .ok k →
        Covered (record isMax) r.2 e) := by
  intro r
  obtain ⟨b, hb, hiff⟩ := satisfiable_exact hB h.toInv extra
  have hk₁ := satisfiable_known hB h extra
  have hl₁ := satisfiable_learns hB h.toInv extra
  have hex₁ : (satisfiable E extra s).2.evalExhausted = s.evalExhausted :=
    satisfiable_entries .eval extra
  have hr : r = FullFrontend.extremum E.backend (satisfiable E) (eval E) isMax messages e extra
    signed s := rfl
  unfold FullFrontend.extremum at hr
  rw [show satisfiable E extra s = (.ok b, (satisfiable E extra s).2) by rw [← hb]] at hr
  generalize (satisfiable E extra s).2 = s₁ at hk₁ hl₁ hex₁ hr
  cases b with
  | false =>
    have hun : ¬ Satisfiable (s.front.constraints ++ extra) := by simpa using hiff
    rw [hr]
    exact ⟨hun, by simp⟩
  | true =>
    have hsat := hiff.mp rfl
    have hno' : shortcut [e] s₁ = false := by
      simpa [shortcut, hex₁] using hno.resolve_right (not_not.mpr hsat)
    have hcs : s₁.front.constraints = s.front.constraints := by rw [hl₁.front]
    have hans := eval_exact (E := E) (n := 2) hB hk₁ e extra (by decide) (by
      intro hs; rw [hno'] at hs; cases hs)
    rw [hcs] at hans
    have hl₂ := hl₁.trans (eval_learns hB hk₁.toInv e 2 extra)
    have hmarks := @eval_marks E s₁ e 2 hno'
    have hknown := fun hT => eval_known (E := E) hB hT hk₁ e 2 extra
    cases hev : eval E e 2 extra s₁ with
    | mk w s₂ =>
    simp only [hev] at hans hl₂ hr hknown
    rcases w with x | _ | ⟨v₀, _ | ⟨v₁, vs⟩⟩
    · cases x with
      | UnsatError message => exact absurd hsat hans
      | ClaripyZeroDivisionError => exact hans.elim
    · obtain ⟨ρ, hρ⟩ := hsat
      simpa using hans.1.exhaustive (by simp) _ ⟨ρ, hρ, rfl⟩
    · have huniq : ∀ ρ, Sat (s.front.constraints ++ extra) ρ → e.eval ρ = v₀ := fun ρ hρ => by
        simpa using hans.1.exhaustive (by simp) _ ⟨ρ, hρ, rfl⟩
      simp only at hr
      rw [hr]
      refine ⟨isExtremum_of_unique hsat he huniq, ?_⟩
      rintro ⟨rfl, -, hT, hsub⟩ k -
      have hmem := @hmarks [v₀] (by rw [hev]) (by simp) (by rwa [hl₁.front])
      rw [hev] at hmem
      exact ((hknown hT).covered e hmem).of_eval
    · have hv : ∀ v ∈ v₀ :: v₁ :: vs, ∃ b : BitVec e.length, v = .bv e.length b ∧
          [Value.bv e.length b] ∈ solutions (s.front.constraints ++ extra) [e] := by
        intro v hv
        have hsol := hans.1.sound [v] (by simpa using hv)
        obtain ⟨ρ, hρ, heq⟩ := hsol
        obtain ⟨b, hb⟩ := he.eval_bv ρ
        obtain rfl : v = .bv e.length b := by simpa [hb] using heq.symm
        exact ⟨b, rfl, ρ, hρ, heq⟩
      obtain ⟨b₀, rfl, h₀⟩ := hv v₀ (by simp)
      obtain ⟨b₁, rfl, h₁⟩ := hv v₁ (by simp)
      have hne : b₀ ≠ b₁ := by
        rintro rfl
        have := hans.1.nodup
        simp at this
      have hcs₂ : s₂.front.constraints = s.front.constraints := by rw [hl₂.front]
      obtain ⟨hext, hcov⟩ := extrema_of_inv isMax signed hB he hl₂.inv
        (hcs₂ ▸ h₀) (hcs₂ ▸ h₁) hne
      rw [hcs₂] at hext
      simp only at hr
      rw [hr]
      refine ⟨?_, fun ⟨hnil, hsg, hT, hsub⟩ k _ => hcov ⟨hnil, hsg, hT, by rwa [hl₂.front]⟩⟩
      have hval := isExtremum_bounds he hext
      have hgoal : IsExtremum isMax signed e (s.front.constraints ++ extra)
          (asValue signed e (E.backend.extrema isMax signed s₂.count e s.front.constraints
            (extra ++ [FullFrontend.bound isMax signed e (.bv e.length b₀),
              FullFrontend.bound isMax signed e (.bv e.length b₁)])).value) := by
        rw [hval]; exact hext
      have hsame : FullState.constraints s₂ = s.front.constraints := hcs₂
      simp only [FullFrontend.finish, hsame]
      exact hgoal

/-! ## Answering from the cache -/

/-- All values of the expression under the constraints have the same sign bit. -/
def SameSign (e : Ast) (cs : List Ast) : Prop :=
  ∀ ρ ρ', Sat cs ρ → Sat cs ρ' → ((e.eval ρ).toInt true < 0 ↔ (e.eval ρ').toInt true < 0)

/-- The cached values answer the question: it has no extra constraints, every cached
model gives the expression a value, an exhausted expression has a model to be read in,
and a signed question is not decided by the unsigned order. -/
structure CacheAnswers (isMax signed : Bool) (s : ModelCacheMixin) (e : Ast) (extra : List Ast) :
    Prop where
  extra_nil : extra = []
  total : ∀ m ∈ s.models, (Model.evalAst m false e).isSome
  nonempty : e ∈ s.evalExhausted → s.models ≠ [] ∨ ¬ Satisfiable s.front.constraints
  order : signed = true → SameSign e s.front.constraints ∨ isMax = true ∧ e ∈ s.evalExhausted

/-- Whenever the cached branch is consulted, it answers the question. -/
def ExtremumSound (isMax signed : Bool) (s : ModelCacheMixin) (e : Ast) (extra : List Ast) : Prop :=
  e ∈ s.evalExhausted ∨ e ∈ (record isMax).entries s → CacheAnswers isMax signed s e extra

variable {exhausted : List Ast}

theorem mem_cachedValues (hmem : e ∈ s.evalExhausted ∨ e ∈ exhausted)
    (htotal : ∀ m ∈ s.models, (Model.evalAst m false e).isSome) {k : Int} :
    k ∈ cachedValues E exhausted e [] s ↔
      ∃ m ∈ s.models, k = ((e.eval (Model.complete m true)).toNat : Int) := by
  obtain ⟨-, -, hsound, -, hall⟩ := collect_spec [e] none false
    (getModels E [] s) [] .nil
  have hmodels : ∀ m, m ∈ getModels E [] s ↔ m ∈ s.models := fun m => by
    rw [mem_getModels]
    exact and_iff_left rfl
  simp only [cachedValues, hmem, if_true, getSolutions, getBatchSolutions, List.map_map,
    List.mem_map, Function.comp]
  constructor
  · rintro ⟨r, hr, rfl⟩
    rcases hsound r hr with hr | ⟨m, hm, heq⟩
    · simp at hr
    · exact ⟨m, (hmodels m).mp hm, by rw [Model.evalList_eq_some heq]; rfl⟩
  rintro ⟨m, hm, rfl⟩
  obtain ⟨v, hv⟩ := Option.isSome_iff_exists.mp (htotal m hm)
  have hval := (Model.evalAst_eq_some.mp hv).2.2
  refine ⟨[v], hall (by simp) m ((hmodels m).mpr hm) _ (by simp [Model.evalList, hv]), ?_⟩
  rw [hval]
  rfl

/-- Among values of one sign the signed and the unsigned order agree. -/
theorem SameSign.le_iff (hs : SameSign e cs) (he : e.IsBV) {ρ ρ' : Assignment} (hρ : Sat cs ρ)
    (hρ' : Sat cs ρ') : (e.eval ρ).toInt false ≤ (e.eval ρ').toInt false ↔
      (e.eval ρ).toInt true ≤ (e.eval ρ').toInt true := by
  have hsign := hs ρ ρ' hρ hρ'
  obtain ⟨a, ha⟩ := he.eval_bv ρ
  obtain ⟨b, hb⟩ := he.eval_bv ρ'
  rw [ha, hb] at hsign ⊢
  have hca := a.toInt_eq_toNat_cond
  have hcb := b.toInt_eq_toNat_cond
  have hla := a.isLt
  have hlb := b.isLt
  simp only [Value.toInt, if_true, if_false, Bool.false_eq_true] at hsign ⊢
  split at hca <;> split at hcb <;> omega

/-- A cached value that no other is beyond, in the unsigned order, is the unsigned
extremum, and the signed one when all values have one sign. -/
theorem isExtremum_cached (isMax signed : Bool) (he : e.IsBV) (hinv : Inv s) (hcov : Covered (record isMax) s e) {m : Model}
    (hm : m ∈ s.models) (hbest : ∀ m' ∈ s.models,
      beyond isMax ((e.eval (m'.complete true)).toInt false) ((e.eval (m.complete true)).toInt false))
    (hsign : signed = true → SameSign e s.front.constraints) :
    IsExtremum isMax signed e s.front.constraints ((e.eval (m.complete true)).toInt signed) := by
  refine ⟨⟨_, hinv.sat m hm, rfl⟩, fun ρ hρ => ?_⟩
  have hun : beyond isMax ((e.eval ρ).toInt false) ((e.eval (m.complete true)).toInt false) := by
    rcases hcov with hclosed | hcov
    · rw [Ast.eval_closed hclosed ρ (m.complete true)]
      cases isMax <;> simp [beyond]
    obtain ⟨m', hm', hrel⟩ := hcov ρ hρ
    have h₁ := record_rel _ _ |>.mp hrel
    have h₂ := hbest m' hm'
    cases isMax <;> simp only [beyond, if_true, if_false, Bool.false_eq_true] at h₁ h₂ ⊢ <;> omega
  cases signed with
  | false => exact hun
  | true =>
    have hs := hsign rfl
    cases isMax with
    | true => exact (hs.le_iff he hρ (hinv.sat m hm)).mp hun
    | false => exact (hs.le_iff he (hinv.sat m hm) hρ).mp hun

/-- The signed key of `max` reads an unsigned value as a signed one. -/
theorem maxSignedKey_eq (he : e.IsBV) (ρ : Assignment) :
    maxSignedKey e ((e.eval ρ).toNat : Int) = (e.eval ρ).toInt true := by
  obtain ⟨v, hv⟩ := he.eval_bv ρ
  have hpow : (2 : Nat) ^ e.length = 2 * 2 ^ (e.length - 1) := by
    rw [← pow_succ', Nat.sub_add_cancel he.length_pos]
  have hcast : (2 : Int) ^ (e.length - 1) = ((2 ^ (e.length - 1) : Nat) : Int) := by push_cast; rfl
  have hcast' : (2 : Int) ^ e.length = ((2 ^ e.length : Nat) : Int) := by push_cast; rfl
  rw [hv]
  show maxSignedKey e (v.toNat : Int) = v.toInt
  rw [BitVec.toInt_eq_toNat_cond, maxSignedKey, hcast', hcast]
  by_cases hlt : 2 * v.toNat < 2 ^ e.length
  · rw [if_pos hlt, if_pos (by omega)]
  · rw [if_neg hlt, if_neg (by omega)]

theorem asValue_cached (he : e.IsBV) (ρ : Assignment) :
    asValue signed e ((e.eval ρ).toNat : Int) = (e.eval ρ).toInt signed := by
  obtain ⟨v, hv⟩ := he.eval_bv ρ
  rw [hv]
  exact asValue_toNat

theorem toInt_false (v : Value) : v.toInt false = (v.toNat : Int) := by
  cases v <;> simp [Value.toInt, Value.toNat]

/-- What the answers rest on: the records of the unsigned extrema are right, too. -/
structure Recorded (s : ModelCacheMixin) : Prop extends Known s where
  min : Right .min s
  max : Right .max s

theorem Recorded.right (h : Recorded s) (isMax : Bool) : Right (record isMax) s := by
  cases isMax
  · exact h.min
  · exact h.max

theorem Recorded.covered_of_mem (h : Recorded s)
    (hmem : e ∈ s.evalExhausted ∨ e ∈ (record isMax).entries s) : Covered (record isMax) s e :=
  hmem.elim (fun he => (h.covered e he).of_eval) (h.right isMax e)

/-- When the cached branch has no value, the solver is asked about an expression that is
not exhausted, or there is no solution at all. -/
theorem not_exhausted_of_nil (hsound : ExtremumSound isMax signed s e extra)
    (hnil : cachedValues E exhausted e extra s = []) :
    e ∉ s.evalExhausted ∨ ¬ Satisfiable (s.front.constraints ++ extra) := by
  by_cases hmem : e ∈ s.evalExhausted
  · right
    obtain ⟨rfl, htotal, hne, -⟩ := hsound (.inl hmem)
    rw [List.append_nil]
    refine (hne hmem).resolve_left fun hmodels => ?_
    obtain ⟨m, hm⟩ := List.exists_mem_of_ne_nil _ hmodels
    have hmem' : ((e.eval (Model.complete m true)).toNat : Int) ∈ cachedValues E exhausted e [] s :=
      (mem_cachedValues (.inl hmem) htotal).mpr ⟨m, hm, rfl⟩
    rw [hnil] at hmem'
    simp at hmem'
  · exact .inl hmem

theorem mem_of_cachedValues {k : Int} (h : k ∈ cachedValues E exhausted e extra s) :
    e ∈ s.evalExhausted ∨ e ∈ exhausted := by
  unfold cachedValues at h
  split at h
  · assumption
  · simp at h

theorem min_exact (hB : E.backend.Exact) (he : e.IsBV) (h : Recorded s)
    (hsound : ExtremumSound false signed s e extra) :
    PlainExtremum false signed e (s.front.constraints ++ extra) (min E e extra signed s).1 := by
  unfold min
  split
  · rename_i k hk
    have hmem := mem_of_cachedValues (List.argmin_mem hk)
    obtain ⟨rfl, htotal, -, horder⟩ := hsound hmem
    obtain ⟨m, hm, rfl⟩ := (mem_cachedValues hmem htotal).mp (List.argmin_mem hk)
    have hbest : ∀ m' ∈ s.models, beyond false ((e.eval (Model.complete m' true)).toInt false)
        ((e.eval (Model.complete m true)).toInt false) := by
      intro m' hm'
      have hle := List.le_of_mem_argmin ((mem_cachedValues (E := E) hmem htotal).mpr ⟨m', hm', rfl⟩) hk
      rw [toInt_false, toInt_false]
      cases signed <;> simpa [beyond, minSignedKey] using hle
    have hext := isExtremum_cached false signed he h.toInv (h.covered_of_mem hmem) hm hbest
      fun hs => (horder hs).resolve_right (by simp)
    rw [List.append_nil]
    show IsExtremum false signed e s.front.constraints (asValue signed e _)
    rw [asValue_cached he]
    exact hext
  · rename_i hnone
    have hno := not_exhausted_of_nil (E := E) hsound (List.argmin_eq_none.mp hnone)
    obtain ⟨hans, -⟩ := extremum_exact false signed hB he h.toKnown hno
      ("Unsat during _min()", "unsat during min()")
    unfold FullFrontend.min
    split <;> rename_i heq <;> simpa only [heq] using hans

theorem max_exact (hB : E.backend.Exact) (he : e.IsBV) (h : Recorded s)
    (hsound : ExtremumSound true signed s e extra) :
    PlainExtremum true signed e (s.front.constraints ++ extra) (max E e extra signed s).1 := by
  unfold max
  split
  · rename_i k hk
    have hmem := mem_of_cachedValues (List.argmax_mem hk)
    obtain ⟨rfl, htotal, -, horder⟩ := hsound hmem
    obtain ⟨m, hm, rfl⟩ := (mem_cachedValues hmem htotal).mp (List.argmax_mem hk)
    have hle : ∀ m' ∈ s.models, _ := fun m' hm' =>
      List.le_of_mem_argmax ((mem_cachedValues (E := E) hmem htotal).mpr ⟨m', hm', rfl⟩) hk
    rw [List.append_nil]
    show IsExtremum true signed e s.front.constraints (asValue signed e _)
    rw [asValue_cached he]
    have hbase := isExtremum_cached true signed he h.toInv (h.covered_of_mem hmem) hm
    cases signed with
    | false =>
      refine hbase (fun m' hm' => ?_) (by simp)
      simpa [beyond, toInt_false] using hle m' hm'
    | true =>
      simp only [if_true, maxSignedKey_eq he] at hle
      rcases horder rfl with hsign | ⟨-, hex⟩
      · refine hbase (fun m' hm' => ?_) fun _ => hsign
        exact (hsign.le_iff he (h.sat m' hm') (h.sat m hm)).mpr (hle m' hm')
      refine ⟨⟨_, h.sat m hm, rfl⟩, fun ρ hρ => ?_⟩
      rcases h.covered e hex with hclosed | hcov
      · rw [Ast.eval_closed hclosed ρ (Model.complete m true)]
        simp
      · obtain ⟨m', hm', heq⟩ := hcov ρ hρ
        have := hle m' hm'
        rwa [show e.eval (Model.complete m' true) = e.eval ρ from heq] at this
  · rename_i hnone
    have hno := not_exhausted_of_nil (E := E) hsound (List.argmax_eq_none.mp hnone)
    obtain ⟨hans, -⟩ := extremum_exact true signed hB he h.toKnown hno
      ("Unsat during _max()", "unsat during max()")
    unfold FullFrontend.max
    split <;> rename_i heq <;> simpa only [heq] using hans

/-! ## Runs -/

variable {k : Record}

/-- Enumerations only mark the record of `eval`. -/
theorem batchEval_entries (hk : k ≠ .eval) (asts : List Ast) (n : Nat) (extra : List Ast) :
    k.entries (batchEval E asts n extra s).2 = k.entries s := by
  have hmark : ∀ {s₁ : ModelCacheMixin} {results : List (List Value)}, k.entries s₁ = k.entries s →
      k.entries (markEval asts n extra results s₁) = k.entries s := by
    intro s₁ results h
    unfold markEval
    split
    · cases k <;> first | exact absurd rfl hk | exact h
    · exact h
  have hsolve : ∀ {j cs r s₁}, FullFrontend.batchEval E.backend asts j cs s = (r, s₁) →
      k.entries s₁ = k.entries s := by
    intro j cs r s₁ heq
    obtain rfl : FullState.solved s _ _ = s₁ := congrArg Prod.snd heq
    exact solved_entries k _ _
  unfold batchEval
  dsimp only
  split
  · rfl
  split
  · rename_i heq; exact hmark (hsolve heq)
  · rename_i heq
    split
    · exact hsolve heq
    · exact hmark (hsolve heq)
  · rename_i heq; exact hsolve heq

theorem eval_entries (hk : k ≠ .eval) (e : Ast) (n : Nat) (extra : List Ast) :
    k.entries (eval E e n extra s).2 = k.entries s := by
  have h := batchEval_entries (E := E) (s := s) hk [e] n extra
  unfold eval
  split <;> rename_i heq <;> simpa only [heq] using h

theorem extremum_entries (hk : k ≠ .eval) (isMax : Bool) (messages : String × String) (e : Ast) (extra : List Ast)
    (signed : Bool) :
    k.entries (FullFrontend.extremum E.backend (satisfiable E) (eval E) isMax messages e extra
      signed s).2 = k.entries s := by
  have h₁ := satisfiable_entries (E := E) (s := s) k extra
  unfold FullFrontend.extremum
  split
  · rename_i heq; simpa only [heq] using h₁
  · rename_i heq; simpa only [heq] using h₁
  rename_i s₁ heq
  simp only [heq] at h₁
  have h₂ := (eval_entries (E := E) (s := s₁) hk e 2 extra).trans h₁
  split
  · rename_i heq; simpa only [heq] using h₂
  · rename_i heq; simpa only [heq] using h₂
  · rename_i heq; simpa only [heq] using h₂
  · rename_i s₂ heq
    simp only [heq] at h₂
    exact (solved_entries k _ _).trans h₂

/-- The calls after which the records can be trusted: constraints added without
invalidation are implied, the cached branch of `min` and `max` answers the question
asked, and an unsigned question without extra constraints, which will be recorded, is
about known variables. -/
def Admissible (s : ModelCacheMixin) : Call → Prop
  | .min e extra signed => e.IsBV ∧ ExtremumSound false signed s e extra ∧
      (extra = [] → signed = false → e.vars ⊆ s.front.vars)
  | .max e extra signed => e.IsBV ∧ ExtremumSound true signed s e extra ∧
      (extra = [] → signed = false → e.vars ⊆ s.front.vars)
  | c => AddsImplied s c

theorem Admissible.addsImplied {c : Call} (h : Admissible s c) : AddsImplied s c := by
  cases c <;> first | exact h | trivial

theorem Right.same (h : Right k s) (hext : Extends s s') (hentries : k.entries s' = k.entries s) : Right k s' :=
  h.extends hext fun _ he => .inl (hentries ▸ he)

theorem min_right (hk : k ≠ .eval) (hB : E.backend.Exact) (hT : E.backend.Total) (h : Recorded s)
    (hright : Right k s) (hok : Admissible s (.min e extra signed)) : Right k (min E e extra signed s).2 := by
  obtain ⟨he, hsound, hvars⟩ := hok
  have hl := extremum_learns hB h.toInv false ("Unsat during _min()", "unsat during min()") e extra
    signed
  have hentries := extremum_entries (E := E) (s := s) hk false
    ("Unsat during _min()", "unsat during min()") e extra signed
  unfold min FullFrontend.min
  split
  · exact hright
  rename_i hnone
  have hno := not_exhausted_of_nil (E := E) hsound (List.argmin_eq_none.mp hnone)
  obtain ⟨-, hcov⟩ := extremum_exact false signed hB he h.toKnown hno
    ("Unsat during _min()", "unsat during min()")
  split
  · rename_i v s₁ heq
    simp only [heq] at hl hentries hcov
    have hright₁ : Right k s₁ := hright.same hl.toExtends hentries
    dsimp only
    split
    · rename_i hnil
      split
      · refine hright₁.same ⟨rfl, fun _ hm => hm⟩ ?_
        cases k <;> rfl
      rename_i hsigned
      have hsg : signed = false := by simpa using hsigned
      refine hright₁.extends ⟨rfl, fun _ hm => hm⟩ fun e' he' => ?_
      cases k with
      | eval => exact absurd rfl hk
      | max => exact .inl he'
      | min =>
        rcases List.mem_cons.mp he' with rfl | he'
        · exact .inr (hcov ⟨hnil, hsg, hT, hvars hnil hsg⟩ v rfl)
        · exact .inl he'
    · exact hright₁
  · rename_i heq
    simp only [heq] at hl hentries
    exact hright.same hl.toExtends hentries

theorem max_right (hk : k ≠ .eval) (hB : E.backend.Exact) (hT : E.backend.Total) (h : Recorded s)
    (hright : Right k s) (hok : Admissible s (.max e extra signed)) : Right k (max E e extra signed s).2 := by
  obtain ⟨he, hsound, hvars⟩ := hok
  have hl := extremum_learns hB h.toInv true ("Unsat during _max()", "unsat during max()") e extra
    signed
  have hentries := extremum_entries (E := E) (s := s) hk true
    ("Unsat during _max()", "unsat during max()") e extra signed
  unfold max FullFrontend.max
  split
  · exact hright
  rename_i hnone
  have hno := not_exhausted_of_nil (E := E) hsound (List.argmax_eq_none.mp hnone)
  obtain ⟨-, hcov⟩ := extremum_exact true signed hB he h.toKnown hno
    ("Unsat during _max()", "unsat during max()")
  split
  · rename_i v s₁ heq
    simp only [heq] at hl hentries hcov
    have hright₁ : Right k s₁ := hright.same hl.toExtends hentries
    dsimp only
    split
    · rename_i hnil
      split
      · refine hright₁.same ⟨rfl, fun _ hm => hm⟩ ?_
        cases k <;> rfl
      rename_i hsigned
      have hsg : signed = false := by simpa using hsigned
      refine hright₁.extends ⟨rfl, fun _ hm => hm⟩ fun e' he' => ?_
      cases k with
      | eval => exact absurd rfl hk
      | min => exact .inl he'
      | max =>
        rcases List.mem_cons.mp he' with rfl | he'
        · exact .inr (hcov ⟨hnil, hsg, hT, hvars hnil hsg⟩ v rfl)
        · exact .inl he'
    · exact hright₁
  · rename_i heq
    simp only [heq] at hl hentries
    exact hright.same hl.toExtends hentries

/-- One call keeps the records of the extrema right. -/
theorem Right.step (hk : k ≠ .eval) (hB : E.backend.Exact) (hT : E.backend.Total) (h : Recorded s)
    (hright : Right k s) (c : Call) (hok : Admissible s c) : Right k (step E s c) := by
  cases c with
  | add constraints invalidateCache =>
    refine hright.add h.toInv (fun c hc => ?_) _
    obtain ⟨c', -, rfl⟩ := List.mem_map.mp hc
    exact c'.property
  | satisfiable extra =>
    exact hright.same (satisfiable_learns hB h.toInv extra).toExtends (satisfiable_entries k extra)
  | checkSatisfiability extra =>
    refine hright.same (checkSatisfiability_learns hB h.toInv extra).toExtends ?_
    unfold ModelCacheMixin.step FullFrontend.checkSatisfiability
    dsimp only
    split <;> exact solved_entries k _ _
  | eval e n extra =>
    exact hright.same (eval_learns hB h.toInv e n extra).toExtends (eval_entries hk e n extra)
  | batchEval exprs n extra =>
    exact hright.same (batchEval_learns hB h.toInv exprs n extra).toExtends
      (batchEval_entries hk exprs n extra)
  | min e extra signed => exact min_right hk hB hT h hright hok
  | max e extra signed => exact max_right hk hB hT h hright hok
  | solution e v extra =>
    refine hright.same (solution_learns hB h.toInv e v extra).toExtends ?_
    unfold ModelCacheMixin.step solution
    dsimp only
    split
    · rfl
    · exact solved_entries k _ _
  | collect alive =>
    refine hright.extends ⟨rfl, fun _ hm => hm⟩ fun e he => .inl ?_
    cases k <;> exact List.mem_of_mem_filter he

theorem reach_recorded (hB : E.backend.Exact) (hT : E.backend.Total)
    (h : Runs.Reach (step E) Admissible {} s) : Recorded s := by
  refine h.invariant Recorded ?_ fun s c hs hok => ?_
  · exact ⟨⟨inv_blank 0, fun e he => by simp [Record.entries] at he⟩,
      fun e he => by simp [Record.entries] at he, fun e he => by simp [Record.entries] at he⟩
  · exact ⟨hs.toKnown.step hB hT c hok.addsImplied, hs.min.step (by simp) hB hT hs c hok,
      hs.max.step (by simp) hB hT hs c hok⟩

theorem isBV_x : Ast.IsBV Family.x where
  length_pos := by decide
  eval_bv ρ := ⟨BitVec.ofNat 2 (ρ.bv "x"), Ast.eval_BVS ρ "x" 2 [] []⟩

theorem exampleRun_admissible : Runs.Reach (step Family.exampleEnv) Admissible {} exampleRun :=
  .tail (i := Call.eval Family.x 3 []) (.tail (i := Call.add _ true) .refl trivial) trivial

end Claripy.ModelCacheMixin
