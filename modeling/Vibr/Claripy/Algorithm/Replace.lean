import Vibr.Claripy.Constraints

/-!
# Replacing subexpressions

`claripy/algorithm/replace.py` with `Base.make_like`. `replace_dict` looks every node
up in a dictionary from the hash of an expression (here the expression) to what
replaces it. Where the arguments of a node change, the node is built again and the
result is put into the dictionary. A node built from arguments without variables is
folded to its value, and a division by zero raises there.
-/

namespace Claripy

/-- What the classes of the annotations decide when a node is built. -/
structure AnnotationRules where
  /-- the arguments carry an annotation that must not be eliminated -/
  pinned : List Ast → Bool
  /-- the annotations of a node, from its own and those of its arguments -/
  inherited : List Annotation → List Ast → List Annotation

namespace Ast

def annotate (ann : List Annotation) : Ast → Ast
  | node op args _ => node op args ann

/-- The assignment used where the value does not depend on one. -/
def anyAssignment : Assignment := ⟨fun _ => 0, fun _ => false⟩

variable (P : AnnotationRules)

/-- The annotations that `make_like` hands on from the node itself. -/
def ownAnnotations (a : Ast) (args : List Ast) : List Annotation :=
  if a ∈ args then [] else a.annotations

/-- `Base.make_like` followed by `Base.__new__` -/
def makeLike (a : Ast) (args : List Ast) : Except Error Ast :=
  let built := node a.op args (P.inherited (ownAnnotations a args) args)
  if built.vars ≠ ∅ then .ok built
  else if a.op.isDivision ∧ ∃ d ∈ args.tail, (d.eval anyAssignment).toNat = 0 then
    .error .ClaripyZeroDivisionError
  else if P.pinned args then .ok built
  else .ok ((built.eval anyAssignment).lit.annotate (P.inherited [] args))

mutual
def replaceDict : Ast → Dict Ast Ast → Except Error Ast × Dict Ast Ast
  | node op args ann, replacements =>
    match replacements.get? (node op args ann) with
    | some repl => (.ok repl, replacements)
    | none =>
      match replaceArgs args replacements with
      | (.error x, replacements) => (.error x, replacements)
      | (.ok args', replacements) =>
        if args' = args then (.ok (node op args ann), replacements)
        else
          match makeLike P (node op args ann) args' with
          | .error x => (.error x, replacements)
          | .ok repl => (.ok repl, replacements.set (node op args ann) repl)

def replaceArgs : List Ast → Dict Ast Ast → Except Error (List Ast) × Dict Ast Ast
  | [], replacements => (.ok [], replacements)
  | a :: as, replacements =>
    match replaceDict a replacements with
    | (.error x, replacements) => (.error x, replacements)
    | (.ok a', replacements) =>
      match replaceArgs as replacements with
      | (.error x, replacements) => (.error x, replacements)
      | (.ok as', replacements) => (.ok (a' :: as'), replacements)
end

/-! ## What is left -/

mutual
/-- The names of the leaves that the dictionary does not replace. -/
def remaining (C : Dict Ast Ast) : Ast → Finset String
  | node op args ann =>
    if args = [] ∧ node op args ann ∈ C.keys then ∅
    else op.symbol.toFinset ∪ remainingList C args

def remainingList (C : Dict Ast Ast) : List Ast → Finset String
  | [] => ∅
  | a :: as => remaining C a ∪ remainingList C as
end

mutual
def subterms : Ast → List Ast
  | node op args ann => node op args ann :: subtermsList args

def subtermsList : List Ast → List Ast
  | [] => []
  | a :: as => a.subterms ++ subtermsList as
end

/-- An assignment that gives both sides of every replacement the same value. -/
def Agrees (R : Dict Ast Ast) (ρ : Assignment) : Prop := ∀ p ∈ R, p.1.eval ρ = p.2.eval ρ

/-- A division all whose variables are replaced is not a division by zero. -/
def NonzeroDivisors (R C : Dict Ast Ast) (d : Ast) : Prop :=
  d.op.isDivision → remaining C d = ∅ → ∃ ρ, Agrees R ρ ∧ ∀ a ∈ d.args.tail, (a.eval ρ).toNat ≠ 0

/-- Every binding of the dictionary keeps the value, as far as the replacements `R` hold,
and replaces all that the dictionary can replace. -/
def CacheSound (R C : Dict Ast Ast) : Prop :=
  ∀ k v, C.get? k = some v →
    (∀ ρ, Agrees R ρ → v.eval ρ = k.eval ρ) ∧ v.vars = remaining C k

/-- Two dictionaries that replace the same leaves. -/
def SameLeaves (C C' : Dict Ast Ast) : Prop := ∀ k : Ast, k.args = [] → (k ∈ C.keys ↔ k ∈ C'.keys)

variable {R C C' : Dict Ast Ast}

mutual
theorem remaining_congr (h : SameLeaves C C') : (e : Ast) → remaining C e = remaining C' e
  | node op args ann => by
    have hif : (args = [] ∧ node op args ann ∈ C.keys) ↔ (args = [] ∧ node op args ann ∈ C'.keys) :=
      and_congr_right fun hargs => h _ hargs
    rw [remaining, remaining, remainingList_congr h args]
    simp only [hif]

theorem remainingList_congr (h : SameLeaves C C') :
    (as : List Ast) → remainingList C as = remainingList C' as
  | [] => rfl
  | a :: as => by rw [remainingList, remainingList, remaining_congr h a, remainingList_congr h as]
end

theorem SameLeaves.trans {C₁ C₂ C₃ : Dict Ast Ast} (h : SameLeaves C₁ C₂) (h' : SameLeaves C₂ C₃) :
    SameLeaves C₁ C₃ :=
  fun k hk => (h k hk).trans (h' k hk)

theorem sameLeaves_set {k v : Ast} (hk : k.args ≠ []) : SameLeaves C (C.set k v) := by
  intro k' hk'
  rw [← Dict.get?_isSome, ← Dict.get?_isSome, Dict.get?_set, if_neg]
  rintro rfl
  exact hk hk'

theorem CacheSound.set {k v : Ast} (h : CacheSound R C) (hk : k.args ≠ [])
    (heval : ∀ ρ, Agrees R ρ → v.eval ρ = k.eval ρ) (hvars : v.vars = remaining C k) :
    CacheSound R (C.set k v) := by
  have hsame : SameLeaves C (C.set k v) := sameLeaves_set hk
  intro k' v' hget
  rw [Dict.get?_set] at hget
  rw [← remaining_congr hsame]
  split at hget
  · rename_i heq
    subst heq
    cases hget
    exact ⟨heval, hvars⟩
  · exact h k' v' hget

theorem NonzeroDivisors.congr (h : SameLeaves C C') {d : Ast} (hd : NonzeroDivisors R C d) :
    NonzeroDivisors R C' d := by
  intro hdiv hrem
  exact hd hdiv (by rw [remaining_congr h, hrem])

/-! ## Building a node -/

theorem vars_annotate (ann : List Annotation) (a : Ast) : (a.annotate ann).vars = a.vars := by
  cases a; rfl

theorem eval_annotate (ann : List Annotation) (a : Ast) (ρ : Assignment) :
    (a.annotate ann).eval ρ = a.eval ρ := by
  cases a; rfl

variable {P}

theorem makeLike_ok {a b : Ast} {args : List Ast} (h : makeLike P a args = .ok b) :
    (∀ ρ, b.eval ρ = (node a.op args []).eval ρ) ∧ b.vars = (node a.op args []).vars := by
  unfold makeLike at h
  dsimp only at h
  split at h
  · cases h
    exact ⟨fun _ => rfl, rfl⟩
  rename_i hclosed
  have hclosed : (node a.op args []).vars = ∅ := not_not.mp hclosed
  split at h
  · cases h
  split at h
  · cases h
    exact ⟨fun _ => rfl, rfl⟩
  cases h
  refine ⟨fun ρ => ?_, ?_⟩
  · rw [eval_annotate, eval_lit]
    exact eval_closed hclosed anyAssignment ρ
  · rw [vars_annotate, vars_lit, hclosed]

theorem makeLike_total {a : Ast} {args : List Ast}
    (h : a.op.isDivision → (node a.op args []).vars = ∅ →
      ∀ d ∈ args.tail, (d.eval anyAssignment).toNat ≠ 0) : ∃ b, makeLike P a args = .ok b := by
  unfold makeLike
  dsimp only
  split
  · exact ⟨_, rfl⟩
  rename_i hclosed
  split
  · rename_i hdiv
    obtain ⟨hop, d, hd, hzero⟩ := hdiv
    exact absurd hzero (h hop (not_not.mp hclosed) d hd)
  · split <;> exact ⟨_, rfl⟩

/-! ## Replacing keeps the value -/

variable (R C) in
/-- What a call on `e` with dictionary `C` leaves behind. -/
structure Replaced (e : Ast) (out : Except Error Ast × Dict Ast Ast) : Prop where
  sound : CacheSound R out.2
  leaves : SameLeaves C out.2
  eval : ∀ e', out.1 = .ok e' → ∀ ρ, Agrees R ρ → e'.eval ρ = e.eval ρ
  vars : ∀ e', out.1 = .ok e' → e'.vars = remaining C e
  total : (∀ d ∈ e.subterms, NonzeroDivisors R C d) → ∃ e', out.1 = .ok e'

variable (R C) in
structure ReplacedArgs (as : List Ast) (out : Except Error (List Ast) × Dict Ast Ast) : Prop where
  sound : CacheSound R out.2
  leaves : SameLeaves C out.2
  length : ∀ as', out.1 = .ok as' → as'.length = as.length
  eval : ∀ as', out.1 = .ok as' → ∀ ρ, Agrees R ρ → as'.map (Ast.eval ρ) = as.map (Ast.eval ρ)
  vars : ∀ as', out.1 = .ok as' → varsList as' = remainingList C as
  total : (∀ d ∈ subtermsList as, NonzeroDivisors R C d) → ∃ as', out.1 = .ok as'

/-- The node case: the arguments have been replaced. -/
theorem replaced_node {op : Op} {args : List Ast} {ann : List Annotation}
    (hnone : C.get? (node op args ann) = none) (h : ReplacedArgs R C args (replaceArgs P args C)) :
    Replaced R C (node op args ann) (replaceDict P (node op args ann) C) := by
  have hrem : remaining C (node op args ann) = op.symbol.toFinset ∪ remainingList C args := by
    rw [remaining, if_neg]
    exact fun hin => Dict.get?_eq_none.mp hnone hin.2
  have hsub : (∀ d ∈ (node op args ann).subterms, NonzeroDivisors R C d) →
      ∀ d ∈ subtermsList args, NonzeroDivisors R C d :=
    fun hd d hmem => hd d (List.mem_cons_of_mem _ hmem)
  rw [replaceDict, hnone]
  dsimp only
  rcases hout : replaceArgs P args C with ⟨r, C₁⟩
  rw [hout] at h
  cases r with
  | error x =>
    refine ⟨h.sound, h.leaves, by simp, by simp, fun hd => ?_⟩
    obtain ⟨as', has'⟩ := h.total (hsub hd)
    cases has'
  | ok args' =>
    dsimp only
    have hvars : op.symbol.toFinset ∪ varsList args' = remaining C (node op args ann) := by
      rw [h.vars args' rfl, hrem]
    have heval : ∀ ρ, Agrees R ρ → ∀ ann', (node op args' ann').eval ρ = (node op args ann).eval ρ := by
      intro ρ hρ ann'
      simp only [Ast.eval, evalList_eq_map, h.eval args' rfl ρ hρ]
    split
    · rename_i hsame
      subst hsame
      refine ⟨h.sound, h.leaves, ?_, ?_, fun _ => ⟨_, rfl⟩⟩
      · intro e' he' ρ _
        cases he'
        rfl
      · intro e' he'
        cases he'
        exact hvars
    rename_i hne
    have hargs : (node op args ann).args ≠ [] := by
      rintro (rfl : args = [])
      exact hne (List.length_eq_zero_iff.mp (h.length args' rfl))
    cases hmake : makeLike P (node op args ann) args' with
    | error x =>
      refine ⟨h.sound, h.leaves, by simp, by simp, fun hd => ?_⟩
      -- The folded divisors have the values of the divisors under the replacements.
      have htotal : ∃ b, makeLike P (node op args ann) args' = .ok b := by
        refine makeLike_total fun hdiv hclosed d' hd' => ?_
        have hclosed' : op.symbol.toFinset ∪ varsList args' = ∅ := hclosed
        obtain ⟨ρ, hρ, hnz⟩ := hd _ List.mem_cons_self hdiv (by rw [← hvars, hclosed'])
        have hmem : d'.eval ρ ∈ args.tail.map (Ast.eval ρ) := by
          rw [List.map_tail, ← h.eval args' rfl ρ hρ, ← List.map_tail]
          exact List.mem_map_of_mem hd'
        obtain ⟨a, ha, heq⟩ := List.mem_map.mp hmem
        have hd'closed : d'.vars = ∅ := by
          have hsub' : d'.vars ⊆ (node op args' []).vars :=
            vars_subset_of_mem (List.mem_of_mem_tail hd')
          exact Finset.subset_empty.mp (hclosed' ▸ hsub')
        rw [eval_closed hd'closed anyAssignment ρ, ← heq]
        exact hnz a ha
      obtain ⟨b, hb⟩ := htotal
      rw [hmake] at hb
      cases hb
    | ok repl =>
      obtain ⟨hmeval, hmvars⟩ := makeLike_ok hmake
      have hreval : ∀ ρ, Agrees R ρ → repl.eval ρ = (node op args ann).eval ρ := fun ρ hρ =>
        (hmeval ρ).trans (heval ρ hρ [])
      have hrvars : repl.vars = remaining C (node op args ann) := hmvars.trans hvars
      refine ⟨h.sound.set hargs hreval ?_, h.leaves.trans (sameLeaves_set hargs), ?_, ?_,
        fun _ => ⟨_, rfl⟩⟩
      · rw [hrvars, remaining_congr h.leaves]
      · intro e' he'
        cases he'
        exact hreval
      · intro e' he'
        cases he'
        exact hrvars

theorem replacedArgs_nil (hC : CacheSound R C) : ReplacedArgs R C [] (replaceArgs P [] C) := by
  rw [replaceArgs]
  refine ⟨hC, fun k _ => Iff.rfl, ?_, ?_, ?_, fun _ => ⟨_, rfl⟩⟩ <;> intro as' has' <;> cases has'
  · rfl
  · exact fun _ _ => rfl
  · rfl

/-- The list case: the dictionary that the head leaves behind is used for the tail. -/
theorem replacedArgs_cons {a : Ast} {as : List Ast} (ha : Replaced R C a (replaceDict P a C))
    (has : ReplacedArgs R (replaceDict P a C).2 as (replaceArgs P as (replaceDict P a C).2)) :
    ReplacedArgs R C (a :: as) (replaceArgs P (a :: as) C) := by
  have hleaves := ha.leaves.trans has.leaves
  have hfirst : (∀ d ∈ subtermsList (a :: as), NonzeroDivisors R C d) →
      ∃ a', (replaceDict P a C).1 = .ok a' :=
    fun hd => ha.total fun d hmem => hd d (List.mem_append_left _ hmem)
  have hrest : (∀ d ∈ subtermsList (a :: as), NonzeroDivisors R C d) →
      ∃ as', (replaceArgs P as (replaceDict P a C).2).1 = .ok as' :=
    fun hd => has.total fun d hmem => (hd d (List.mem_append_right _ hmem)).congr ha.leaves
  rw [replaceArgs]
  rcases hout : replaceDict P a C with ⟨r, C₁⟩
  rw [hout] at ha has hfirst hrest hleaves
  cases r with
  | error x =>
    refine ⟨ha.sound, ha.leaves, by simp, by simp, by simp, fun hd => ?_⟩
    obtain ⟨a', ha'⟩ := hfirst hd
    cases ha'
  | ok a' =>
    dsimp only
    rcases hout' : replaceArgs P as C₁ with ⟨r', C₂⟩
    dsimp only at has hrest hleaves
    rw [hout'] at has hrest hleaves
    cases r' with
    | error x =>
      refine ⟨has.sound, hleaves, by simp, by simp, by simp, fun hd => ?_⟩
      obtain ⟨as', has'⟩ := hrest hd
      cases has'
    | ok as' =>
      refine ⟨has.sound, hleaves, ?_, ?_, ?_, fun _ => ⟨_, rfl⟩⟩ <;> intro l hl <;> cases hl
      · simp [has.length as' rfl]
      · intro ρ hρ
        simp [ha.eval a' rfl ρ hρ, has.eval as' rfl ρ hρ]
      · rw [varsList, ha.vars a' rfl, has.vars as' rfl, remainingList,
          remainingList_congr ha.leaves]

variable (P) in
mutual
theorem replaceDict_replaced (e : Ast) (C : Dict Ast Ast) (hC : CacheSound R C) :
    Replaced R C e (replaceDict P e C) :=
  match e with
  | node op args ann => by
    cases hget : C.get? (node op args ann) with
    | some repl =>
      rw [replaceDict, hget]
      refine ⟨hC, fun k _ => Iff.rfl, ?_, ?_, fun _ => ⟨_, rfl⟩⟩ <;> intro e' he' <;> cases he'
      · exact (hC _ _ hget).1
      · exact (hC _ _ hget).2
    | none => exact replaced_node hget (replaceArgs_replaced args C hC)

theorem replaceArgs_replaced (as : List Ast) (C : Dict Ast Ast) (hC : CacheSound R C) :
    ReplacedArgs R C as (replaceArgs P as C) :=
  match as with
  | [] => replacedArgs_nil hC
  | a :: as =>
    have ha := replaceDict_replaced a C hC
    replacedArgs_cons ha (replaceArgs_replaced as _ ha.sound)
end

end Ast
end Claripy
