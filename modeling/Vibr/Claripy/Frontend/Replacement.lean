import Vibr.Lib.Runs
import Vibr.Claripy.Algorithm.Replace
import Vibr.Claripy.Backend.Exhaustive
import Vibr.Claripy.Frontend.Full
import Vibr.Claripy.Typing

/-!
# ReplacementFrontend

`claripy/frontend/replacement_frontend.py` with its default flags: replacements are
recorded automatically from negations and from equalities with a constant, and every
expression goes through the replacements before the actual front-end sees it. The
actual front-end is a plain solver.

A recorded equality turns into `true` once it is replaced itself, so from then on only
the replacements know it. The answers are exact as long as nothing that the actual
front-end holds or is asked about still mentions a replaced symbol.
-/

namespace Claripy

structure ActualFrontend where
  front : ConstrainedFrontend := {}
  /-- `solve_count` of the back-end -/
  count : Nat := 0

instance : FullState ActualFrontend where
  constraints s := s.front.constraints
  count := ActualFrontend.count
  solved s count _ := { s with count := count }

structure ReplacementFrontend where
  front : ConstrainedFrontend := {}
  actual : ActualFrontend := {}
  replacements : Dict Ast Ast := []
  cache : Dict Ast Ast := []

/-- The parts that the front-end calls: the solver, its `is_true` and `is_false` on
the constraints, an expression and the extra constraints, and how annotations travel. -/
structure ReplacementFrontend.Env where
  backend : BackendZ3
  isTrue : List Ast → Ast → List Ast → Bool
  isFalse : List Ast → Ast → List Ast → Bool
  annotations : AnnotationRules

namespace ReplacementFrontend

variable (E : Env)

/-! ## Replacements -/

def addReplacement (old new : Ast) (invalidateCache replace promote : Bool)
    (s : ReplacementFrontend) : ReplacementFrontend :=
  if old = new then s
  else if !replace ∧ old ∈ s.replacements.keys then s
  else if !promote ∧ old ∈ s.cache.keys then s
  else
    { s with
      replacements := s.replacements.set old new
      cache := (if invalidateCache then s.replacements else s.cache).set old new }

/-- `_replacement` -/
def replacement (old : Ast) (s : ReplacementFrontend) : Except Error Ast × ReplacementFrontend :=
  match s.cache.get? old with
  | some new => (.ok new, s)
  | none =>
    match Ast.replaceDict E.annotations old s.cache with
    | (.error x, cache) => (.error x, { s with cache := cache })
    | (.ok new, cache) =>
      (.ok new, { s with cache := if new = old then cache else cache.set old new })

/-- Go on with the value, or hand the exception on. -/
def andThen {σ α β : Type} (r : Except Error α × σ) (f : α → σ → Except Error β × σ) :
    Except Error β × σ :=
  match r with
  | (.error x, s) => (.error x, s)
  | (.ok a, s) => f a s

/-- `_replace_list` -/
def replaceList : List Ast → ReplacementFrontend → Except Error (List Ast) × ReplacementFrontend
  | [], s => (.ok [], s)
  | c :: cs, s =>
    andThen (replacement E c s) fun c' s =>
      andThen (replaceList cs s) fun cs' s => (.ok (c' :: cs'), s)

def downsize (s : ReplacementFrontend) : ReplacementFrontend := { s with cache := [] }

/-! ## Queries -/

def onActual {α : Type} (query : ActualFrontend → Except Error α × ActualFrontend)
    (s : ReplacementFrontend) : Except Error α × ReplacementFrontend :=
  ((query s.actual).1, { s with actual := (query s.actual).2 })

/-- A query about one expression: it and the extra constraints are replaced first. -/
def ask {α : Type} (e : Ast) (extra : List Ast)
    (query : Ast → List Ast → ActualFrontend → Except Error α × ActualFrontend)
    (s : ReplacementFrontend) : Except Error α × ReplacementFrontend :=
  andThen (replacement E e s) fun er s =>
    andThen (replaceList E extra s) fun ecr s => onActual (query er ecr) s

def eval (e : Ast) (n : Nat) (extra : List Ast) :
    ReplacementFrontend → Except Error (List Value) × ReplacementFrontend :=
  ask E e extra fun er ecr => FullFrontend.eval E.backend er n ecr

def batchEval (exprs : List Ast) (n : Nat) (extra : List Ast) (s : ReplacementFrontend) :
    Except Error (List (List Value)) × ReplacementFrontend :=
  andThen (replaceList E exprs s) fun er s =>
    andThen (replaceList E extra s) fun ecr s =>
      onActual (FullFrontend.batchEval E.backend er n ecr) s

def max (e : Ast) (extra : List Ast) (signed : Bool) :
    ReplacementFrontend → Except Error Int × ReplacementFrontend :=
  ask E e extra fun er ecr =>
    FullFrontend.max E.backend (FullFrontend.satisfiable E.backend) (FullFrontend.eval E.backend)
      er ecr signed

def min (e : Ast) (extra : List Ast) (signed : Bool) :
    ReplacementFrontend → Except Error Int × ReplacementFrontend :=
  ask E e extra fun er ecr =>
    FullFrontend.min E.backend (FullFrontend.satisfiable E.backend) (FullFrontend.eval E.backend)
      er ecr signed

def solution (e v : Ast) (extra : List Ast) (s : ReplacementFrontend) :
    Except Error Bool × ReplacementFrontend :=
  andThen (replacement E e s) fun er s =>
    ask E v extra (fun vr ecr => FullFrontend.solution E.backend er vr ecr) s

def isTrue (e : Ast) (extra : List Ast) :
    ReplacementFrontend → Except Error Bool × ReplacementFrontend :=
  ask E e extra fun er ecr a => (.ok (E.isTrue a.front.constraints er ecr), a)

def isFalse (e : Ast) (extra : List Ast) :
    ReplacementFrontend → Except Error Bool × ReplacementFrontend :=
  ask E e extra fun er ecr a => (.ok (E.isFalse a.front.constraints er ecr), a)

def satisfiable (extra : List Ast) (s : ReplacementFrontend) :
    Except Error Bool × ReplacementFrontend :=
  andThen (replaceList E extra s) fun ecr s =>
    onActual (FullFrontend.satisfiable E.backend ecr) s

/-! ## Adding -/

/-- What `_add` makes of one constraint: the expression and its replacement. -/
def autoReplacement (c : Ast) : Option (Ast × Ast) :=
  if !c.symbolic then none
  else match c with
    | .node .Not (a :: _) _ => some (a, .false_)
    | .node .eq [a, b] _ =>
      if a.symbolic ∧ !b.symbolic then some (a, b)
      else if b.symbolic ∧ !a.symbolic then some (b, a)
      else none
    | _ => none

def recordOne (s : ReplacementFrontend) (c : Ast) : ReplacementFrontend :=
  match autoReplacement c with
  | some (old, new) => s.addReplacement old new true false true
  | none => s

/-- The loop of `_add`. -/
def record (constraints : List Ast) (s : ReplacementFrontend) : ReplacementFrontend :=
  constraints.foldl recordOne s

def add (constraints : List Ast) (s : ReplacementFrontend) :
    Except Error (List Ast) × ReplacementFrontend :=
  let s := record constraints s
  let (front, added) := s.front.add constraints
  andThen (replaceList E added { s with front := front }) fun cr s =>
    (.ok added, { s with actual := { s.actual with front := (s.actual.front.add cr).1 } })

/-! ## Assignments that agree with the replacements -/

open Ast (Agrees remaining CacheSound SameLeaves NonzeroDivisors)

/-- The names of the replaced symbols. -/
def names (R : Dict Ast Ast) : Finset String := varsOf (R.map Prod.fst)

/-- Replacements of symbols by constants of their type, one for each name. -/
structure Leaves (R : Dict Ast Ast) : Prop where
  leaf : ∀ p ∈ R, p.1.args = [] ∧ p.1.vars ≠ ∅
  closed : ∀ p ∈ R, p.2.vars = ∅
  typed : ∀ p ∈ R, ∃ t, p.1.ty = some t ∧ p.2.ty = some t
  apart : R.Pairwise fun p q => Disjoint p.1.vars q.1.vars

/-- Give the symbol `k` the value of `v`. -/
def assign (k v : Ast) (ρ : Assignment) : Assignment :=
  match k.op with
  | .BVS x _ => { ρ with bv := Function.update ρ.bv x (v.eval ρ).toNat }
  | .BoolS x => { ρ with bool := Function.update ρ.bool x (v.eval ρ).toBool }
  | _ => ρ

def override (R : Dict Ast Ast) (ρ : Assignment) : Assignment :=
  R.foldr (fun p ρ => assign p.1 p.2 ρ) ρ

variable {E} {R : Dict Ast Ast} {ρ : Assignment}

theorem mem_names {x : String} : x ∈ names R ↔ ∃ p ∈ R, x ∈ p.1.vars := by
  simp [names, mem_varsOf]

theorem assign_agreeOn {k v : Ast} {names : Finset String} (h : Disjoint names k.vars) :
    (assign k v ρ).agreeOn names ρ := by
  obtain ⟨op, args, ann⟩ := k
  intro y hy
  have hne : ∀ x, op.symbol = some x → y ≠ x := by
    rintro x hx rfl
    exact Finset.disjoint_left.mp h hy (by simp [Ast.vars, hx])
  unfold assign
  cases op <;> simp_all [Ast.op, Op.symbol, Function.update]

theorem eval_assign {k v : Ast} {t : Ty} (hargs : k.args = []) (hvars : k.vars ≠ ∅)
    (hk : k.ty = some t) (hv : v.ty = some t) : k.eval (assign k v ρ) = v.eval ρ := by
  obtain ⟨op, args, ann⟩ := k
  obtain rfl : args = [] := hargs
  have hty := Ast.eval_ty ρ v t hv
  have hop : op.ty [] = some t := by simpa [Ast.ty, Ast.tyList] using hk
  cases op <;> simp [Ast.vars, Ast.varsList, Op.symbol] at hvars
  case BVS x w =>
      obtain ⟨rfl, -⟩ := Ast.ty_BVS hk
      cases hval : v.eval ρ with
      | bool b => rw [hval] at hty; cases hty
      | bv w' a =>
        rw [hval] at hty
        cases hty
        simp [assign, Ast.op, Ast.eval_BVS, hval, Value.toNat]
  case BoolS x =>
      obtain rfl : Ty.bool = t := by simpa [Op.ty] using hop
      cases hval : v.eval ρ with
      | bv w a => rw [hval] at hty; cases hty
      | bool b => simp [assign, Ast.op, Ast.eval, Assignment.leaf, hval, Value.toBool]

theorem override_agreeOn {names' : Finset String} (h : Disjoint names' (names R)) :
    (override R ρ).agreeOn names' ρ := by
  induction R with
  | nil => exact fun _ _ => ⟨rfl, rfl⟩
  | cons p R ih =>
    have hsplit : names (p :: R) = p.1.vars ∪ names R := varsOf_cons _ _
    rw [hsplit, Finset.disjoint_union_right] at h
    exact (assign_agreeOn h.1).trans (ih h.2)

/-- The overridden assignment agrees with the replacements. -/
theorem agrees_override (h : Leaves R) : Agrees R (override R ρ) := by
  induction R with
  | nil => simp [Agrees]
  | cons p R ih =>
    have hR : Leaves R := ⟨fun q hq => h.leaf q (List.mem_cons_of_mem _ hq),
      fun q hq => h.closed q (List.mem_cons_of_mem _ hq),
      fun q hq => h.typed q (List.mem_cons_of_mem _ hq), (List.pairwise_cons.mp h.apart).2⟩
    obtain ⟨t, hk, hv⟩ := h.typed p List.mem_cons_self
    obtain ⟨hargs, hvars⟩ := h.leaf p List.mem_cons_self
    intro q hq
    rcases List.mem_cons.mp hq with rfl | hq
    · exact (eval_assign hargs hvars hk hv).trans
        (Ast.eval_closed (h.closed q List.mem_cons_self) _ _)
    have hdisj := (List.pairwise_cons.mp h.apart).1 q hq
    calc q.1.eval (override (p :: R) ρ)
        = q.1.eval (override R ρ) := Ast.eval_congr _ (assign_agreeOn hdisj.symm)
      _ = q.2.eval (override R ρ) := ih hR q hq
      _ = q.2.eval (override (p :: R) ρ) := Ast.eval_closed (hR.closed q hq) _ _

/-- Replacements of symbols are a sound dictionary for replacing. -/
theorem Leaves.cacheSound (h : Leaves R) : CacheSound R R := by
  intro k v hget
  have hmem := Dict.mem_of_get?_eq_some hget
  refine ⟨fun ρ hρ => (hρ _ hmem).symm, ?_⟩
  obtain ⟨op, args, ann⟩ := k
  obtain rfl : args = [] := (h.leaf _ hmem).1
  rw [h.closed _ hmem, remaining, if_pos ⟨rfl, Dict.mem_keys.mpr ⟨v, hmem⟩⟩]

/-! ## What a query changes -/

/-- Only the cache, which stays sound, and `solve_count` change. -/
structure Queried (s s' : ReplacementFrontend) : Prop where
  front : s'.front = s.front
  actual : s'.actual.front = s.actual.front
  replacements : s'.replacements = s.replacements
  sound : CacheSound s.replacements s.cache → CacheSound s.replacements s'.cache
  leaves : CacheSound s.replacements s.cache → SameLeaves s.cache s'.cache

variable {s s' : ReplacementFrontend} {α β : Type}

theorem Queried.refl (s : ReplacementFrontend) : Queried s s :=
  ⟨rfl, rfl, rfl, id, fun _ _ _ => Iff.rfl⟩

theorem Queried.trans {s₁ s₂ s₃ : ReplacementFrontend} (h : Queried s₁ s₂) (h' : Queried s₂ s₃) :
    Queried s₁ s₃ where
  front := h'.front.trans h.front
  actual := h'.actual.trans h.actual
  replacements := h'.replacements.trans h.replacements
  sound hs := by
    have h₃ := h'.sound (by rw [h.replacements]; exact h.sound hs)
    rwa [h.replacements] at h₃
  leaves hs := (h.leaves hs).trans (h'.leaves (by rw [h.replacements]; exact h.sound hs))

theorem Queried.andThen {r : Except Error α × ReplacementFrontend}
    {f : α → ReplacementFrontend → Except Error β × ReplacementFrontend} (h : Queried s r.2)
    (hf : ∀ a s', Queried s' (f a s').2) : Queried s (andThen r f).2 := by
  obtain ⟨r, s'⟩ := r
  cases r with
  | error x => exact h
  | ok a => exact h.trans (hf a s')

theorem andThen_ok {σ : Type} {r : Except Error α × σ} {f : α → σ → Except Error β × σ} {b : β}
    (h : (andThen r f).1 = .ok b) : ∃ a, r.1 = .ok a ∧ (f a r.2).1 = .ok b := by
  obtain ⟨r, s⟩ := r
  cases r with
  | error x => cases h
  | ok a => exact ⟨a, rfl, h⟩

/-- `_replacement` is `replace_dict` with the cache as the dictionary. -/
theorem replacement_eq (old : Ast) (s : ReplacementFrontend) :
    (replacement E old s).1 = (Ast.replaceDict E.annotations old s.cache).1 ∧
      ((replacement E old s).2 = { s with cache := (Ast.replaceDict E.annotations old s.cache).2 } ∨
        ∃ new, (Ast.replaceDict E.annotations old s.cache).1 = .ok new ∧ new ≠ old ∧
          s.cache.get? old = none ∧ (replacement E old s).2 =
            { s with cache := ((Ast.replaceDict E.annotations old s.cache).2).set old new }) := by
  unfold replacement
  cases hget : s.cache.get? old with
  | some new =>
    have hdict : Ast.replaceDict E.annotations old s.cache = (.ok new, s.cache) := by
      cases old
      rw [Ast.replaceDict, hget]
    rw [hdict]
    exact ⟨rfl, .inl rfl⟩
  | none =>
    dsimp only
    rcases Ast.replaceDict E.annotations old s.cache with ⟨r, cache⟩
    cases r with
    | error x => exact ⟨rfl, .inl rfl⟩
    | ok new =>
      by_cases hne : new = old
      · exact ⟨rfl, .inl (by simp [hne])⟩
      · exact ⟨rfl, .inr ⟨new, rfl, hne, rfl, by simp [hne]⟩⟩

variable {C : Dict Ast Ast}

theorem replaceDict_leaf {old : Ast} (hargs : old.args = []) (hget : C.get? old = none) :
    Ast.replaceDict E.annotations old C = (.ok old, C) := by
  obtain ⟨op, args, ann⟩ := old
  obtain rfl : args = [] := hargs
  rw [Ast.replaceDict, hget]
  simp [Ast.replaceArgs]

variable (E) in
theorem replacement_queried (old : Ast) (s : ReplacementFrontend) :
    Queried s (replacement E old s).2 := by
  obtain ⟨-, hs | ⟨new, hnew, hne, hget, hs⟩⟩ := replacement_eq (E := E) old s
  · rw [hs]
    exact ⟨rfl, rfl, rfl, fun h => (Ast.replaceDict_replaced _ old _ h).sound,
      fun h => (Ast.replaceDict_replaced _ old _ h).leaves⟩
  have hargs : old.args ≠ [] := by
    intro hargs
    rw [replaceDict_leaf hargs hget] at hnew
    exact hne (Except.ok.inj hnew).symm
  rw [hs]
  refine ⟨rfl, rfl, rfl, fun h => ?_, fun h => ?_⟩
  · have hrep := Ast.replaceDict_replaced E.annotations old _ h
    refine hrep.sound.set hargs (hrep.eval new hnew) ?_
    rw [hrep.vars new hnew, Ast.remaining_congr hrep.leaves]
  · exact (Ast.replaceDict_replaced E.annotations old _ h).leaves.trans (Ast.sameLeaves_set hargs)

variable (E) in
theorem replaceList_queried (cs : List Ast) (s : ReplacementFrontend) :
    Queried s (replaceList E cs s).2 := by
  induction cs generalizing s with
  | nil => exact .refl s
  | cons c cs ih =>
    exact (replacement_queried E c s).andThen fun _ s' => (ih s').andThen fun _ s' => .refl s'

theorem onActual_queried {query : ActualFrontend → Except Error α × ActualFrontend}
    (h : ∀ a, (query a).2.front = a.front) (s : ReplacementFrontend) :
    Queried s (onActual query s).2 :=
  ⟨rfl, h s.actual, rfl, id, fun _ _ _ => Iff.rfl⟩

theorem ask_queried {query : Ast → List Ast → ActualFrontend → Except Error α × ActualFrontend}
    (h : ∀ e extra a, (query e extra a).2.front = a.front) (e : Ast) (extra : List Ast)
    (s : ReplacementFrontend) : Queried s (ask E e extra query s).2 :=
  (replacement_queried E e s).andThen fun er s => (replaceList_queried E extra s).andThen
    fun ecr s => onActual_queried (h er ecr) s

/-- The solver of `max` and `min` leaves the constraints alone. -/
theorem extremum_front {isMax signed : Bool} {messages : String × String} {e : Ast}
    {extra : List Ast} (B : BackendZ3) (a : ActualFrontend) :
    (FullFrontend.extremum B (FullFrontend.satisfiable B) (FullFrontend.eval B) isMax messages e
      extra signed a).2.front = a.front := by
  have hsat : (FullFrontend.satisfiable B extra a).2.front = a.front := rfl
  unfold FullFrontend.extremum
  split
  · rename_i heq; rw [heq] at hsat; exact hsat
  · rename_i heq; rw [heq] at hsat; exact hsat
  rename_i a' heq
  rw [heq] at hsat
  have heval : (FullFrontend.eval B e 2 extra a').2.front = a'.front := rfl
  split <;> rename_i heq' <;> rw [heq'] at heval <;> exact heval.trans hsat

/-! ## Replacing a list -/

variable {cs cs' : List Ast}

theorem replaceList_ok (hs : CacheSound s.replacements s.cache) (h : (replaceList E cs s).1 = .ok cs') :
    List.Forall₂ (fun c c' => (∀ ρ, Agrees s.replacements ρ → c'.eval ρ = c.eval ρ) ∧
      c'.vars = remaining s.cache c) cs cs' := by
  induction cs generalizing s cs' with
  | nil =>
    cases h
    exact .nil
  | cons c cs ih =>
    obtain ⟨c', hc', h⟩ := andThen_ok h
    obtain ⟨cs'', hcs'', h⟩ := andThen_ok h
    cases h
    have hq := replacement_queried E c s
    rw [(replacement_eq c s).1] at hc'
    have hrep := Ast.replaceDict_replaced E.annotations c _ hs
    refine .cons ⟨hrep.eval c' hc', hrep.vars c' hc'⟩ ?_
    have htail := ih (s := (replacement E c s).2) (by rw [hq.replacements]; exact hq.sound hs) hcs''
    rw [hq.replacements] at htail
    exact htail.imp fun d d' hd => ⟨hd.1, by rw [hd.2, Ast.remaining_congr (hq.leaves hs)]⟩

theorem replaceList_total {cs : List Ast} (hs : CacheSound s.replacements s.cache)
    (h : ∀ c ∈ cs, ∀ d ∈ c.subterms, NonzeroDivisors s.replacements s.cache d) :
    ∃ cs', (replaceList E cs s).1 = .ok cs' := by
  induction cs generalizing s with
  | nil => exact ⟨[], rfl⟩
  | cons c cs ih =>
    have hq := replacement_queried E c s
    obtain ⟨c', hc'⟩ := (Ast.replaceDict_replaced E.annotations c _ hs).total
      (h c List.mem_cons_self)
    obtain ⟨cs', hcs'⟩ := ih (s := (replacement E c s).2)
      (by rw [hq.replacements]; exact hq.sound hs) (by
        intro d hd t ht
        rw [hq.replacements]
        exact (h d (List.mem_cons_of_mem _ hd) t ht).congr (hq.leaves hs))
    rw [← (replacement_eq c s).1] at hc'
    refine ⟨c' :: cs', ?_⟩
    rw [replaceList]
    rcases hr : replacement E c s with ⟨r, s₁⟩
    rw [hr] at hc' hcs'
    obtain rfl : r = .ok c' := hc'
    dsimp only [andThen] at hcs' ⊢
    rcases hr' : replaceList E cs s₁ with ⟨r', s₂⟩
    rw [hr'] at hcs'
    obtain rfl : r' = .ok cs' := hcs'
    rfl

/-! ## Recording -/

/-- The two sides of a recorded replacement are equal where the constraint holds. -/
theorem autoReplacement_spec {c old new : Ast} (hc : c.ty = some .bool)
    (h : autoReplacement c = some (old, new)) :
    old.vars ≠ ∅ ∧ new.vars = ∅ ∧ (∃ t, old.ty = some t ∧ new.ty = some t) ∧
      ∀ ρ, c.holds ρ → old.eval ρ = new.eval ρ := by
  unfold autoReplacement at h
  split at h
  · cases h
  rename_i hsym
  split at h
  · rename_i a as ann
    cases h
    have hty : old.ty = some .bool ∧ as = [] := by
      simp only [Ast.ty, Ast.tyList, Option.bind_eq_some_iff, Option.map_eq_some_iff] at hc
      obtain ⟨ts, ⟨t, ht, ts', hts', rfl⟩, hop⟩ := hc
      cases as with
      | nil =>
        cases hts'
        cases t <;> simp_all [Op.ty]
      | cons b bs =>
        simp only [Ast.tyList, Option.bind_eq_some_iff, Option.map_eq_some_iff] at hts'
        obtain ⟨_, _, _, _, rfl⟩ := hts'
        cases t <;> simp [Op.ty] at hop
    obtain ⟨hty, rfl⟩ := hty
    refine ⟨?_, rfl, ⟨.bool, hty, rfl⟩, fun ρ hρ => ?_⟩
    · simpa [Ast.symbolic, Ast.vars, Ast.varsList, Op.symbol] using hsym
    rw [Ast.holds_node_not] at hρ
    have ht := Ast.eval_ty ρ old .bool hty
    have hfalse : Ast.false_.eval ρ = .bool false := rfl
    rw [hfalse]
    cases hv : old.eval ρ with
    | bv w v => rw [hv] at ht; cases ht
    | bool b =>
      cases b with
      | false => rfl
      | true => exact absurd hv hρ
  · rename_i a b ann
    obtain ⟨-, t, ha, hb⟩ := Ast.ty_of_eq (.inl rfl) hc
    split at h
    · rename_i hab
      cases h
      exact ⟨by simpa [Ast.symbolic] using hab.1, by simpa [Ast.symbolic] using hab.2, ⟨t, ha, hb⟩,
        fun ρ hρ => Ast.holds_node_eq.mp hρ⟩
    split at h
    · rename_i hab
      cases h
      exact ⟨by simpa [Ast.symbolic] using hab.1, by simpa [Ast.symbolic] using hab.2, ⟨t, hb, ha⟩,
        fun ρ hρ => (Ast.holds_node_eq.mp hρ).symm⟩
    · cases h
  · cases h

/-- The replacements that a list of constraints newly records are for leaf symbols that
neither the constraints `A` of the actual front-end nor other replacements mention. -/
structure Recordable (A : List Ast) (R : Dict Ast Ast) (cs : List Ast) : Prop where
  leaf : ∀ c ∈ cs, ∀ old new, autoReplacement c = some (old, new) → old ∉ R.keys →
    old.args = [] ∧ Disjoint old.vars (varsOf A) ∧ Disjoint old.vars (names R)
  apart : ∀ c ∈ cs, ∀ c' ∈ cs, ∀ old new old' new', autoReplacement c = some (old, new) →
    autoReplacement c' = some (old', new') → old ∉ R.keys → old' ∉ R.keys →
    old = old' ∨ Disjoint old.vars old'.vars

/-- What recording leaves behind. -/
structure Recorded (cs : List Ast) (s s' : ReplacementFrontend) : Prop where
  front : s'.front = s.front
  actual : s'.actual = s.actual
  leaves : Leaves s'.replacements
  disjoint : Disjoint (names s'.replacements) (varsOf s.actual.front.constraints)
  sound : CacheSound s'.replacements s'.cache
  agrees : ∀ ρ, Agrees s'.replacements ρ → Agrees s.replacements ρ
  holds : ∀ ρ, Agrees s.replacements ρ → Sat cs ρ → Agrees s'.replacements ρ

theorem names_set {old new : Ast} {x : String} (hx : x ∈ names (R.set old new)) :
    x ∈ old.vars ∨ x ∈ names R := by
  obtain ⟨p, hp, hxp⟩ := mem_names.mp hx
  rcases List.mem_cons.mp hp with rfl | hp
  · exact .inl hxp
  · exact .inr (mem_names.mpr ⟨p, List.mem_of_mem_filter hp, hxp⟩)

theorem Leaves.set {old new : Ast} (h : Leaves R) (hargs : old.args = []) (hold : old.vars ≠ ∅)
    (hnew : new.vars = ∅) (hty : ∃ t, old.ty = some t ∧ new.ty = some t)
    (hdisj : Disjoint old.vars (names R)) : Leaves (R.set old new) where
  leaf := List.forall_mem_cons.mpr ⟨⟨hargs, hold⟩, fun p hp => h.leaf p (List.mem_of_mem_filter hp)⟩
  closed := List.forall_mem_cons.mpr ⟨hnew, fun p hp => h.closed p (List.mem_of_mem_filter hp)⟩
  typed := List.forall_mem_cons.mpr ⟨hty, fun p hp => h.typed p (List.mem_of_mem_filter hp)⟩
  apart := by
    refine List.pairwise_cons.mpr ⟨fun p hp => hdisj.mono_right fun x hx => ?_,
      h.apart.sublist List.filter_sublist⟩
    exact mem_names.mpr ⟨p, List.mem_of_mem_filter hp, hx⟩

theorem agrees_set {old new : Ast} (hfresh : old ∉ R.keys) :
    Agrees (R.set old new) ρ ↔ old.eval ρ = new.eval ρ ∧ Agrees R ρ := by
  have hkeep : R.restrict (fun x => x ≠ old) = R := by
    refine List.filter_eq_self.mpr fun p hp => decide_eq_true ?_
    rintro rfl
    exact hfresh (Dict.mem_keys.mpr ⟨p.2, hp⟩)
  rw [Dict.set, hkeep]
  exact List.forall_mem_cons

theorem recordOne_eq {c : Ast} :
    s.recordOne c = s ∨ ∃ old new, autoReplacement c = some (old, new) ∧ old ∉ s.replacements.keys ∧
      s.recordOne c = { s with
        replacements := s.replacements.set old new
        cache := s.replacements.set old new } := by
  unfold recordOne
  split
  · rename_i old new heq
    unfold addReplacement
    split
    · exact .inl rfl
    split
    · exact .inl rfl
    · rename_i hfresh
      exact .inr ⟨old, new, heq, by simpa using hfresh, by simp⟩
  · exact .inl rfl

/-- What is already recorded stays, and new replacements only come from `cs`. -/
theorem recorded {cs : List Ast} (hcs : ∀ c ∈ cs, c.ty = some .bool) (hleaves : Leaves s.replacements)
    (hdisj : Disjoint (names s.replacements) (varsOf s.actual.front.constraints))
    (hsound : CacheSound s.replacements s.cache)
    (hrec : Recordable s.actual.front.constraints s.replacements cs) :
    Recorded cs s (record cs s) := by
  induction cs generalizing s with
  | nil => exact ⟨rfl, rfl, hleaves, hdisj, hsound, fun _ => id, fun _ h _ => h⟩
  | cons c cs ih =>
    have htail : ∀ d ∈ cs, d.ty = some .bool := fun d hd => hcs d (List.mem_cons_of_mem _ hd)
    rw [record, List.foldl_cons]
    rcases recordOne_eq (s := s) (c := c) with heq | ⟨old, new, hauto, hfresh, heq⟩
    · rw [heq]
      have h := ih htail hleaves hdisj hsound
        ⟨fun d hd => hrec.leaf d (List.mem_cons_of_mem _ hd),
          fun d hd d' hd' => hrec.apart d (List.mem_cons_of_mem _ hd) d' (List.mem_cons_of_mem _ hd')⟩
      exact ⟨h.front, h.actual, h.leaves, h.disjoint, h.sound, h.agrees,
        fun ρ hρ hsat => h.holds ρ hρ (sat_cons.mp hsat).2⟩
    obtain ⟨hold, hnew, hty, heval⟩ := autoReplacement_spec (hcs c List.mem_cons_self) hauto
    obtain ⟨hargs, hA, hR⟩ := hrec.leaf c List.mem_cons_self old new hauto hfresh
    have hleaves' := hleaves.set hargs hold hnew hty hR
    have hkeys : ∀ k, k ∉ (s.replacements.set old new).keys → k ∉ s.replacements.keys ∧ k ≠ old := by
      intro k hk
      rw [← Dict.get?_eq_none, Dict.get?_set] at hk
      split at hk
      · cases hk
      · rename_i hne
        exact ⟨Dict.get?_eq_none.mp hk, Ne.symm hne⟩
    rw [heq]
    have h := ih (s := { s with
        replacements := s.replacements.set old new
        cache := s.replacements.set old new }) htail hleaves' ?_ hleaves'.cacheSound ⟨?_, ?_⟩
    · exact ⟨h.front, h.actual, h.leaves, h.disjoint, h.sound,
        fun ρ hρ => ((agrees_set hfresh).mp (h.agrees ρ hρ)).2,
        fun ρ hρ hsat => h.holds ρ ((agrees_set hfresh).mpr ⟨heval ρ (sat_cons.mp hsat).1, hρ⟩)
          (sat_cons.mp hsat).2⟩
    · refine Finset.disjoint_left.mpr fun x hx => ?_
      rcases names_set hx with hx | hx
      · exact Finset.disjoint_left.mp hA hx
      · exact Finset.disjoint_left.mp hdisj hx
    · intro d hd old' new' hauto' hfresh'
      obtain ⟨hfresh', hne⟩ := hkeys old' hfresh'
      obtain ⟨hargs', hA', hR'⟩ := hrec.leaf d (List.mem_cons_of_mem _ hd) old' new' hauto' hfresh'
      refine ⟨hargs', hA', Finset.disjoint_left.mpr fun x hx hx' => ?_⟩
      rcases names_set hx' with hx' | hx'
      · have hap := hrec.apart d (List.mem_cons_of_mem _ hd) c List.mem_cons_self old' new' old new
          hauto' hauto hfresh' hfresh
        exact Finset.disjoint_left.mp (hap.resolve_left hne) hx hx'
      · exact Finset.disjoint_left.mp hR' hx hx'
    · intro d hd d' hd' o n o' n' ho ho' hk hk'
      exact hrec.apart d (List.mem_cons_of_mem _ hd) d' (List.mem_cons_of_mem _ hd') o n o' n' ho ho'
        (hkeys o hk).1 (hkeys o' hk').1

/-! ## Invariant -/

/-- The cache replaces every symbol of `e` whose name has a replacement. -/
def Covered (s : ReplacementFrontend) (e : Ast) : Prop :=
  Disjoint (remaining s.cache e) (names s.replacements)

/-- The front-end stands for the constraints `T`: they say what the replacements and
the constraints of the actual front-end say together, and the latter mention no
replaced symbol. -/
structure Inv (s : ReplacementFrontend) (T : List Ast) : Prop where
  valid : s.front.Valid
  actual_valid : s.actual.front.Valid
  front_sat : ∀ ρ, Sat s.front.constraints ρ ↔ Sat T ρ
  leaves : Leaves s.replacements
  disjoint : Disjoint (names s.replacements) (varsOf s.actual.front.constraints)
  sound : CacheSound s.replacements s.cache
  sat : ∀ ρ, Sat T ρ ↔ Agrees s.replacements ρ ∧ Sat s.actual.front.constraints ρ

variable {T : List Ast}

theorem inv_blank : Inv {} [] where
  valid := ConstrainedFrontend.valid_blank
  actual_valid := ConstrainedFrontend.valid_blank
  front_sat _ := Iff.rfl
  leaves := ⟨by simp, by simp, by simp, .nil⟩
  disjoint := by simp [names, varsOf, Ast.varsList]
  sound := by simp [CacheSound]
  sat := by simp [Agrees]

theorem Inv.queried (h : Inv s T) (hq : Queried s s') : Inv s' T := by
  obtain ⟨hfront, hactual, hrep, hsound, -⟩ := hq
  exact ⟨hfront ▸ h.valid, hactual ▸ h.actual_valid, hfront ▸ h.front_sat, hrep ▸ h.leaves,
    by rw [hrep, hactual]; exact h.disjoint, by rw [hrep]; exact hsound h.sound,
    by rw [hrep, hactual]; exact h.sat⟩

theorem Inv.queried_nil (h : Inv s T) (hq : Queried s s') : Inv s' (T ++ []) := by
  rw [List.append_nil]
  exact h.queried hq

theorem Inv.downsize (h : Inv s T) : Inv s.downsize T :=
  { h with sound := fun k v hget => by simp [ReplacementFrontend.downsize] at hget }

/-- The side condition on `add`. -/
structure Admits (s : ReplacementFrontend) (cs : List Ast) : Prop where
  recordable : Recordable s.actual.front.constraints s.replacements cs
  covered : ∀ c ∈ cs, Covered (record cs s) c
  divisors : ∀ c ∈ cs, ∀ d ∈ c.subterms,
    NonzeroDivisors (record cs s).replacements (record cs s).cache d

theorem varsOf_of_forall₂ {N : Finset String}
    (h : List.Forall₂ (fun c c' : Ast => (∀ ρ, Agrees R ρ → c'.eval ρ = c.eval ρ) ∧ c'.vars = remaining C c) cs cs')
    (hN : ∀ c ∈ cs, Disjoint (remaining C c) N) : Disjoint N (varsOf cs') := by
  induction h with
  | nil => simp [varsOf, Ast.varsList]
  | cons hc _ ih =>
    rw [varsOf_cons, hc.2, Finset.disjoint_union_right]
    exact ⟨(hN _ List.mem_cons_self).symm, ih fun c hc => hN c (List.mem_cons_of_mem _ hc)⟩

theorem sat_of_forall₂
    (h : List.Forall₂ (fun c c' : Ast => (∀ ρ, Agrees R ρ → c'.eval ρ = c.eval ρ) ∧ c'.vars = remaining C c) cs cs')
    (hρ : Agrees R ρ) : Sat cs' ρ ↔ Sat cs ρ := by
  induction h with
  | nil => rfl
  | cons hc _ ih => rw [sat_cons, sat_cons, ih, Ast.holds, Ast.holds, hc.1 ρ hρ]

theorem Inv.add {cs : List Ast} (hcs : ∀ c ∈ cs, c.ty = some .bool) (h : Inv s T)
    (hadm : Admits s cs) : Inv (add E cs s).2 (T ++ cs) := by
  have hrec := recorded hcs h.leaves h.disjoint h.sound hadm.recordable
  have hsub : ∀ c ∈ ((record cs s).front.add cs).2, c ∈ cs := ConstrainedFrontend.add_added_subset
  unfold ReplacementFrontend.add
  dsimp only
  -- the state in which the added constraints are replaced
  generalize hs₁ : { record cs s with front := ((record cs s).front.add cs).1 } = s₁
  have hsound₁ : CacheSound s₁.replacements s₁.cache := hs₁ ▸ hrec.sound
  have hcovered₁ : ∀ c ∈ cs, Disjoint (remaining s₁.cache c) (names s₁.replacements) :=
    hs₁ ▸ hadm.covered
  have hdiv₁ : ∀ c ∈ cs, ∀ d ∈ c.subterms, NonzeroDivisors s₁.replacements s₁.cache d :=
    hs₁ ▸ hadm.divisors
  obtain ⟨cr, hcr⟩ := replaceList_total (E := E) hsound₁ fun c hc => hdiv₁ c (hsub c hc)
  have hrel := replaceList_ok hsound₁ hcr
  have hq := replaceList_queried E ((record cs s).front.add cs).2 s₁
  rcases hout : replaceList E ((record cs s).front.add cs).2 s₁ with ⟨r, s₂⟩
  rw [hout] at hcr hq
  obtain rfl : r = .ok cr := hcr
  dsimp only [andThen] at hq ⊢
  have hA : s₂.actual.front = s.actual.front := by rw [hq.actual, ← hs₁, hrec.actual]
  have hR : s₂.replacements = (record cs s).replacements := by rw [hq.replacements, ← hs₁]
  have hF : s₂.front = (s.front.add cs).1 := by rw [hq.front, ← hs₁, hrec.front]
  have hR₁ : s₁.replacements = (record cs s).replacements := by rw [← hs₁]
  have hsatA : ∀ ρ, Sat (s₂.actual.front.add cr).1.constraints ρ ↔
      Sat s.actual.front.constraints ρ ∧ Sat cr ρ := fun ρ => by
    rw [ConstrainedFrontend.sat_add (hA ▸ h.actual_valid), hA]
  have hcrT : ∀ ρ, Agrees (record cs s).replacements ρ →
      (Sat cr ρ ↔ Sat (s.front.add cs).2 ρ) := fun ρ hρ => by
    rw [sat_of_forall₂ hrel (hR₁ ▸ hρ), hrec.front]
  refine ⟨hF ▸ h.valid.add, (hA ▸ h.actual_valid).add, fun ρ => ?_, ?_, ?_, ?_, fun ρ => ?_⟩
  · rw [hF, ConstrainedFrontend.sat_add h.valid, h.front_sat, sat_append]
  · exact hR ▸ hrec.leaves
  · have hvars : varsOf (s₂.actual.front.add cr).1.constraints ⊆
        varsOf s.actual.front.constraints ∪ varsOf cr := by
      rw [ConstrainedFrontend.add_constraints, varsOf_append, hA]
      refine Finset.union_subset_union_right fun x hx => ?_
      obtain ⟨c, hc, hxc⟩ := mem_varsOf.mp hx
      exact mem_varsOf.mpr ⟨c, ConstrainedFrontend.add_added_subset c hc, hxc⟩
    refine Disjoint.mono_right hvars (Finset.disjoint_union_right.mpr ⟨?_, ?_⟩)
    · exact hR ▸ hrec.disjoint
    · rw [hR, ← hR₁]
      exact varsOf_of_forall₂ hrel fun c hc => hcovered₁ c (hsub c hc)
  · show CacheSound s₂.replacements s₂.cache
    rw [hq.replacements]
    exact hq.sound hsound₁
  · show Sat (T ++ cs) ρ ↔ Agrees s₂.replacements ρ ∧ Sat (s₂.actual.front.add cr).1.constraints ρ
    rw [hsatA, hR, sat_append]
    constructor
    · rintro ⟨hT, hsat⟩
      obtain ⟨hag, hsatA'⟩ := (h.sat ρ).mp hT
      have hag' := hrec.holds ρ hag hsat
      exact ⟨hag', hsatA', (hcrT ρ hag').mpr (hsat.mono ConstrainedFrontend.add_added_subset)⟩
    rintro ⟨hag', hsatA', hsatcr⟩
    have hT : Sat T ρ := (h.sat ρ).mpr ⟨hrec.agrees ρ hag', hsatA'⟩
    -- A constraint that was skipped follows from those already there.
    have hfront : Sat (s.front.add cs).1.constraints ρ := by
      rw [ConstrainedFrontend.add_constraints, sat_append]
      exact ⟨(h.front_sat ρ).mpr hT, (hcrT ρ hag').mp hsatcr⟩
    exact ⟨hT, ((ConstrainedFrontend.sat_add h.valid).mp hfront).2⟩

/-! ## Answers -/

/-- A model of the actual constraints extends to one of all constraints. -/
theorem Inv.sat_override (h : Inv s T) (hρ : Sat s.actual.front.constraints ρ) :
    Sat T (override s.replacements ρ) := by
  refine (h.sat _).mpr ⟨agrees_override h.leaves, ?_⟩
  exact (sat_congr (override_agreeOn h.disjoint.symm)).mpr hρ

theorem Inv.satisfiable_iff (h : Inv s T) :
    Satisfiable s.actual.front.constraints ↔ Satisfiable T :=
  ⟨fun ⟨_, hρ⟩ => ⟨_, h.sat_override hρ⟩, fun ⟨ρ, hρ⟩ => ⟨ρ, ((h.sat ρ).mp hρ).2⟩⟩

theorem Inv.satisfiable (hB : E.backend.Exact) (h : Inv s T) :
    (satisfiable E [] s).1 = .ok true ↔ Satisfiable T := by
  have hval := BackendZ3.satisfiable_value hB s.actual.count s.actual.front.constraints []
  rw [List.append_nil] at hval
  rw [← h.satisfiable_iff, ← hval]
  show Except.ok _ = Except.ok true ↔ _
  rw [Except.ok.injEq]
  rfl

theorem Inv.eval (hB : E.backend.Exact) (h : Inv s T) {e : Ast} {n : Nat} {extra : List Ast}
    {vs : List Value} (he : Covered s e) (hvs : (eval E e n extra s).1 = .ok vs) :
    ∀ v ∈ vs, ∃ ρ, Sat T ρ ∧ e.eval ρ = v := by
  obtain ⟨er, her, hvs⟩ := andThen_ok hvs
  obtain ⟨ecr, -, hvs⟩ := andThen_ok hvs
  have hq := (replacement_queried E e s).trans (replaceList_queried E extra _)
  rw [(replacement_eq e s).1] at her
  have hrep := Ast.replaceDict_replaced E.annotations e _ h.sound
  generalize (replaceList E extra (replacement E e s).2).2 = s₂ at hvs hq
  simp only [onActual, FullFrontend.eval, FullFrontend.finish] at hvs
  have henum := BackendZ3.batchEval_enumerates hB [er] ecr n s₂.actual.count
    s₂.actual.front.constraints
  split at hvs
  · cases hvs
  cases hvs
  intro v hv
  obtain ⟨r, hr, rfl⟩ := List.mem_map.mp hv
  obtain ⟨ρ, hρ, rfl⟩ := henum.sound r hr
  have hA : Sat s.actual.front.constraints ρ := hq.actual ▸ (sat_append.mp hρ).1
  refine ⟨override s.replacements ρ, h.sat_override hA, ?_⟩
  calc e.eval (override s.replacements ρ)
      = er.eval (override s.replacements ρ) := (hrep.eval er her _ (agrees_override h.leaves)).symm
    _ = er.eval ρ := Ast.eval_congr er (override_agreeOn (by rw [hrep.vars er her]; exact he))

/-! ## Runs -/

/-- The calls on one front-end. -/
inductive Call where
  | add (constraints : List Constraint)
  | downsize
  | satisfiable (extra : List Ast)
  | eval (e : Ast) (n : Nat) (extra : List Ast)
  | batchEval (exprs : List Ast) (n : Nat) (extra : List Ast)
  | max (e : Ast) (extra : List Ast) (signed : Bool)
  | min (e : Ast) (extra : List Ast) (signed : Bool)
  | solution (e v : Ast) (extra : List Ast)
  | isTrue (e : Ast) (extra : List Ast)
  | isFalse (e : Ast) (extra : List Ast)

variable (E) in
def step (s : ReplacementFrontend) : Call → ReplacementFrontend
  | .add constraints => (add E (constraints.map (·.val)) s).2
  | .downsize => s.downsize
  | .satisfiable extra => (satisfiable E extra s).2
  | .eval e n extra => (eval E e n extra s).2
  | .batchEval exprs n extra => (batchEval E exprs n extra s).2
  | .max e extra signed => (max E e extra signed s).2
  | .min e extra signed => (min E e extra signed s).2
  | .solution e v extra => (solution E e v extra s).2
  | .isTrue e extra => (isTrue E e extra s).2
  | .isFalse e extra => (isFalse E e extra s).2

/-- What a call adds. -/
def Call.added : Call → List Ast
  | .add constraints => constraints.map (·.val)
  | _ => []

def Call.Admitted (s : ReplacementFrontend) (c : Call) : Prop := Admits s c.added

theorem Inv.step (h : Inv s T) (c : Call) (hok : c.Admitted s) : Inv (step E s c) (T ++ c.added) := by
  cases c with
  | add constraints =>
    refine h.add (fun c hc => ?_) hok
    obtain ⟨c', -, rfl⟩ := List.mem_map.mp hc
    exact c'.property
  | downsize =>
    show Inv s.downsize (T ++ [])
    rw [List.append_nil]
    exact h.downsize
  | satisfiable extra =>
    exact h.queried_nil ((replaceList_queried E extra s).andThen
      fun _ s => onActual_queried (fun _ => rfl) s)
  | eval e n extra =>
    exact h.queried_nil (ask_queried (fun _ _ _ => rfl) e extra s)
  | batchEval exprs n extra =>
    exact h.queried_nil ((replaceList_queried E exprs s).andThen fun _ s =>
      (replaceList_queried E extra s).andThen fun _ s => onActual_queried (fun _ => rfl) s)
  | max e extra signed =>
    exact h.queried_nil (ask_queried (fun _ _ => extremum_front E.backend) e extra s)
  | min e extra signed =>
    exact h.queried_nil (ask_queried (fun _ _ => extremum_front E.backend) e extra s)
  | solution e v extra =>
    exact h.queried_nil ((replacement_queried E e s).andThen fun _ s =>
      ask_queried (fun _ _ _ => rfl) v extra s)
  | isTrue e extra =>
    exact h.queried_nil (ask_queried (fun _ _ _ => rfl) e extra s)
  | isFalse e extra =>
    exact h.queried_nil (ask_queried (fun _ _ _ => rfl) e extra s)

/-- One front-end and all the constraints added along its branch. -/
structure Line where
  frontend : ReplacementFrontend := {}
  added : List Ast := []

/-- The live front-ends. They share one back-end, so `solve_count` is common to all. -/
structure Family where
  count : Nat := 0
  lines : List Line := [{}]

inductive Family.Op where
  | call (i : Nat) (c : Call)
  | branch (i : Nat)

/-- Line `i`, with the current `solve_count`. -/
def Family.get? (F : Family) (i : Nat) : Option Line :=
  F.lines[i]?.map fun l =>
    { l with frontend := { l.frontend with actual := { l.frontend.actual with count := F.count } } }

variable (E) in
def Family.step (F : Family) : Family.Op → Family
  | .call i c =>
    match F.get? i with
    | some l =>
      let s := l.frontend.step E c
      ⟨s.actual.count, F.lines.set i ⟨s, l.added ++ c.added⟩⟩
    | none => F
  | .branch i => { F with lines := F.lines ++ (F.get? i).toList }

def Family.Admitted (F : Family) : Family.Op → Prop
  | .call i c => ∀ l ∈ F.get? i, c.Admitted l.frontend
  | .branch _ => True

variable (E) in
/-- The answers of a front-end are those of an exact solver for all that was added. -/
structure Line.Exact (l : Line) : Prop where
  satisfiable : (satisfiable E [] l.frontend).1 = .ok true ↔ Satisfiable l.added
  eval : ∀ e n extra vs, Covered l.frontend e → (eval E e n extra l.frontend).1 = .ok vs →
    ∀ v ∈ vs, ∃ ρ, Sat l.added ρ ∧ e.eval ρ = v

theorem Family.get?_inv {F : Family} (h : ∀ l ∈ F.lines, Inv l.frontend l.added) {i : Nat} {l : Line}
    (hl : F.get? i = some l) : Inv l.frontend l.added := by
  obtain ⟨l', hl', rfl⟩ := Option.map_eq_some_iff.mp hl
  exact (h l' (List.mem_of_getElem? hl')).queried ⟨rfl, rfl, rfl, id, fun _ _ _ => Iff.rfl⟩

theorem Family.step_inv {F : Family} (h : ∀ l ∈ F.lines, Inv l.frontend l.added) (o : Family.Op)
    (hok : F.Admitted o) : ∀ l ∈ (F.step E o).lines, Inv l.frontend l.added := by
  cases o with
  | call i c =>
    unfold Family.step
    dsimp only
    split
    · rename_i l hl
      intro l' hl'
      rcases List.mem_or_eq_of_mem_set hl' with hl' | rfl
      · exact h l' hl'
      · exact (Family.get?_inv h hl).step c (hok l hl)
    · exact h
  | branch i =>
    intro l hl
    rcases List.mem_append.mp hl with hl | hl
    · exact h l hl
    · exact Family.get?_inv h (Option.mem_toList.mp hl)

/-- In every run in which no replacement is recorded for an expression that the actual
front-end has already been told about, and every constraint is covered when it is added,
all front-ends answer exactly. -/
theorem answers_exact (hB : E.backend.Exact) {F : Family}
    (h : Runs.Reach (Family.step E) Family.Admitted {} F) : ∀ l ∈ F.lines, l.Exact E := by
  have hinv : ∀ l ∈ F.lines, Inv l.frontend l.added := by
    refine h.invariant (fun F => ∀ l ∈ F.lines, Inv l.frontend l.added) ?_
      fun F o hF hok => Family.step_inv hF o hok
    intro l hl
    obtain rfl := List.mem_singleton.mp hl
    exact inv_blank
  intro l hl
  exact ⟨(hinv l hl).satisfiable hB, fun e n extra vs he hvs => (hinv l hl).eval hB he hvs⟩

def exampleEnv : Env :=
  ⟨.exhaustive, fun _ _ _ => false, fun _ _ _ => false, ⟨fun _ => false, fun ann _ => ann⟩⟩

def x : Ast := .node (.BVS "x" 2) [] []
def y : Ast := .node (.BVS "y" 2) [] []
def three : Ast := .node (.BVV 3 2) [] []
def isThree : Constraint := ⟨.eq x three, by decide⟩
def below : Constraint := ⟨.node .ULT [x, y] [], by decide⟩

def apply (ops : List Family.Op) : Family := ops.foldl (Family.step exampleEnv) {}

theorem recordable_singleton {A : List Ast} {c : Ast} (old new : Ast)
    (hc : autoReplacement c = some (old, new)) (hargs : old.args = []) (hA : Disjoint old.vars (varsOf A)) (hR : Disjoint old.vars (names R)) :
    Recordable A R [c] := by
  refine ⟨fun d hd o n ho _ => ?_, fun d hd d' hd' o n o' n' ho ho' _ _ => ?_⟩
  · obtain rfl := List.mem_singleton.mp hd
    rw [hc] at ho
    cases ho
    exact ⟨hargs, hA, hR⟩
  obtain rfl := List.mem_singleton.mp hd
  obtain rfl := List.mem_singleton.mp hd'
  rw [ho] at ho'
  cases ho'
  exact .inl rfl

theorem recordable_of_none {A cs : List Ast} (h : ∀ c ∈ cs, autoReplacement c = none) :
    Recordable A R cs :=
  ⟨fun c hc o n ho => by simp [h c hc] at ho, fun c hc _ _ o n _ _ ho => by simp [h c hc] at ho⟩

theorem nonzeroDivisors_of_ops {e : Ast} (h : ∀ d ∈ e.subterms, d.op.isDivision = false) :
    ∀ d ∈ e.subterms, NonzeroDivisors R C d :=
  fun d hd hdiv => by simp [h d hd] at hdiv

theorem answers_exact_example :
    let F := apply [.call 0 (.add [isThree]), .branch 0, .call 1 (.add [below])]
    (∀ l ∈ F.lines, l.Exact exampleEnv) ∧
      F.lines.map (fun l => (satisfiable exampleEnv [] l.frontend).1) = [.ok true, .ok false] := by
  refine ⟨answers_exact (E := exampleEnv) BackendZ3.exhaustive_exact ?_, by decide⟩
  refine .tail (i := Family.Op.call 1 (.add [below])) (.tail (i := Family.Op.branch 0) (.tail
    (i := Family.Op.call 0 (.add [isThree])) .refl ?_) trivial) ?_ <;>
    intro l hl <;> cases hl
  · refine ⟨recordable_singleton x three (by decide) rfl (by decide) (by decide),
      ?_, ?_⟩
    · unfold Covered; decide
    · exact List.forall_mem_singleton.mpr (nonzeroDivisors_of_ops (by decide))
  · refine ⟨recordable_of_none (by decide), ?_, ?_⟩
    · unfold Covered; decide
    · exact List.forall_mem_singleton.mpr (nonzeroDivisors_of_ops (by decide))

/-- After `x < y` has been handed on, `x == 3` is recorded, replaced by `true` and lost. -/
theorem equality_lost_after_bound :
    let F := apply [.call 0 (.add [below]), .call 0 (.add [isThree])]
    Runs.Reach (Family.step exampleEnv) (fun _ _ => True) {} F ∧
      ∃ l ∈ F.lines, (satisfiable exampleEnv [] l.frontend).1 = .ok true ∧ ¬ Satisfiable l.added := by
  have hsat := BackendZ3.satisfiable_value BackendZ3.exhaustive_exact 0 [below.val, isThree.val] []
  refine ⟨.tail (i := Family.Op.call 0 (.add [isThree])) (.tail
    (i := Family.Op.call 0 (.add [below])) .refl trivial) trivial, ?_⟩
  exact ⟨_, List.mem_cons_self, by decide, mt hsat.mpr (by decide)⟩

end ReplacementFrontend
end Claripy
