import Mathlib
import Vibr.Claripy.Ast

/-!
# Constraints

A constraint set is a list of Boolean expressions. `Sat` is satisfaction by one
assignment and `Satisfiable` asks for some assignment; both are what an exact
solver decides.
-/

namespace Claripy

/-- The exceptions that a call can end in. -/
inductive Error where
  | UnsatError (message : String)
  | ClaripyZeroDivisionError
deriving DecidableEq, Repr

def Sat (cs : List Ast) (ρ : Assignment) : Prop := ∀ c ∈ cs, c.holds ρ

def Satisfiable (cs : List Ast) : Prop := ∃ ρ, Sat cs ρ

/-- Every assignment that satisfies `cs` satisfies `ds`. -/
def Entails (cs ds : List Ast) : Prop := ∀ ρ, Sat cs ρ → Sat ds ρ

def varsOf (cs : List Ast) : Finset String := Ast.varsList cs

instance (cs : List Ast) (ρ : Assignment) : Decidable (Sat cs ρ) :=
  inferInstanceAs (Decidable (∀ c ∈ cs, c.holds ρ))

variable {c : Ast} {cs : List Ast} {ρ : Assignment} {cs ds : List Ast}

@[simp] theorem sat_nil (ρ : Assignment) : Sat [] ρ := by simp [Sat]

@[simp] theorem sat_cons :
    Sat (c :: cs) ρ ↔ c.holds ρ ∧ Sat cs ρ := by simp [Sat]

@[simp] theorem sat_append : Sat (cs ++ ds) ρ ↔ Sat cs ρ ∧ Sat ds ρ := by
  simp only [Sat, List.mem_append]
  exact ⟨fun h => ⟨fun c hc => h c (.inl hc), fun c hc => h c (.inr hc)⟩,
    fun h c hc => hc.elim (h.1 c) (h.2 c)⟩

theorem Sat.mono (h : Sat cs ρ) (hsub : ∀ d ∈ ds, d ∈ cs) :
    Sat ds ρ := fun d hd => h d (hsub d hd)

theorem mem_varsOf {x : String} : x ∈ varsOf cs ↔ ∃ c ∈ cs, x ∈ c.vars :=
  Ast.mem_varsList

theorem vars_subset_varsOf (h : c ∈ cs) : c.vars ⊆ varsOf cs :=
  fun _ hx => mem_varsOf.mpr ⟨c, h, hx⟩

theorem varsOf_append (cs ds : List Ast) : varsOf (cs ++ ds) = varsOf cs ∪ varsOf ds := by
  ext x
  simp only [mem_varsOf, List.mem_append, Finset.mem_union]
  grind

theorem varsOf_cons (c : Ast) (cs : List Ast) : varsOf (c :: cs) = c.vars ∪ varsOf cs := rfl

theorem sat_congr {ρ ρ' : Assignment} (h : ρ.agreeOn (varsOf cs) ρ') : Sat cs ρ ↔ Sat cs ρ' := by
  unfold Sat
  refine forall₂_congr fun c hc => Ast.holds_congr (h.mono (vars_subset_varsOf hc))

theorem Satisfiable.of_append_left (h : Satisfiable (cs ++ ds)) : Satisfiable cs := by
  obtain ⟨ρ, hρ⟩ := h
  exact ⟨ρ, (sat_append.mp hρ).1⟩

/-- The value tuples that `exprs` take over the assignments satisfying `cs`. -/
def solutions (cs exprs : List Ast) : Set (List Value) :=
  {r | ∃ ρ, Sat cs ρ ∧ exprs.map (Ast.eval ρ) = r}

/-- `rs` lists distinct solutions, `n` of them or all there are. -/
structure Enumerates (cs exprs : List Ast) (n : Nat) (rs : List (List Value)) : Prop where
  length_le : rs.length ≤ n
  nodup : rs.Nodup
  sound : ∀ r ∈ rs, r ∈ solutions cs exprs
  exhaustive : rs.length < n → ∀ r ∈ solutions cs exprs, r ∈ rs

/-- Such a list has `min n k` elements, for `k` the number of solutions. -/
theorem Enumerates.length_eq {cs exprs : List Ast} {n : Nat} {rs : List (List Value)}
    (h : Enumerates cs exprs n rs) : (rs.length : ℕ∞) = min (n : ℕ∞) (solutions cs exprs).encard := by
  have hcard : ({r | r ∈ rs} : Set (List Value)).encard = rs.length := by
    have hset : ({r | r ∈ rs} : Set (List Value)) = (rs.toFinset : Set (List Value)) := by
      ext; simp
    rw [hset, Set.encard_coe_eq_coe_finsetCard, List.toFinset_card_of_nodup h.nodup]
  have hsub : ({r | r ∈ rs} : Set (List Value)) ⊆ solutions cs exprs := fun r hr => h.sound r hr
  have hle : (rs.length : ℕ∞) ≤ (solutions cs exprs).encard := hcard ▸ Set.encard_le_encard hsub
  rcases Nat.lt_or_ge rs.length n with hlt | hge
  · have heq : ({r | r ∈ rs} : Set (List Value)) = solutions cs exprs :=
      Set.Subset.antisymm hsub fun r hr => h.exhaustive hlt r hr
    rw [← heq, hcard, min_eq_right]
    exact_mod_cast hlt.le
  · have hn : rs.length = n := Nat.le_antisymm h.length_le hge
    rw [← hn, min_eq_left hle]

/-! ## Constructors -/

/-- The leaf with a given value: `BVV` or `BoolV`. -/
def Value.lit : Value → Ast
  | .bv w v => .node (.BVV v.toNat w) [] []
  | .bool b => .node (.BoolV b) [] []

namespace Ast

def true_ : Ast := node (.BoolV true) [] []
def false_ : Ast := node (.BoolV false) [] []
def eq (a b : Ast) : Ast := node .eq [a, b] []
def ne (a b : Ast) : Ast := node .ne [a, b] []
def and (cs : List Ast) : Ast := node .And cs []
def or (cs : List Ast) : Ast := node .Or cs []
def not (c : Ast) : Ast := node .Not [c] []

theorem eval_BVS (ρ : Assignment) (x : String) (w : Nat) (args : List Ast)
    (annotations : List Annotation) :
    (node (.BVS x w) args annotations).eval ρ = .bv w (BitVec.ofNat w (ρ.bv x)) := rfl

theorem eval_BVV (ρ : Assignment) (v w : Nat) (args : List Ast) (annotations : List Annotation) :
    (node (.BVV v w) args annotations).eval ρ = .bv w (BitVec.ofNat w v) := rfl

variable {annotations : List Annotation}

@[simp] theorem eval_lit (v : Value) (ρ : Assignment) : v.lit.eval ρ = v := by
  cases v with
  | bv w v => rw [Value.lit, eval_BVV, BitVec.ofNat_toNat, BitVec.setWidth_eq]
  | bool b => rfl

@[simp] theorem vars_lit (v : Value) : v.lit.vars = ∅ := by
  cases v <;> simp [Value.lit, vars, varsList, Op.symbol]

@[simp] theorem holds_true (ρ : Assignment) : true_.holds ρ := rfl

@[simp] theorem not_holds_false (ρ : Assignment) : ¬ false_.holds ρ := by
  change ¬ Value.bool false = .bool true
  simp

theorem holds_node_eq {a b : Ast} : (node .eq [a, b] annotations).holds ρ ↔ a.eval ρ = b.eval ρ := by
  change Value.bool (a.eval ρ = b.eval ρ) = .bool true ↔ _
  simp

theorem holds_node_ne {a b : Ast} : (node .ne [a, b] annotations).holds ρ ↔ a.eval ρ ≠ b.eval ρ := by
  change Value.bool (a.eval ρ ≠ b.eval ρ) = .bool true ↔ _
  simp

@[simp] theorem holds_eq {a b : Ast} : (eq a b).holds ρ ↔ a.eval ρ = b.eval ρ :=
  holds_node_eq

@[simp] theorem holds_ne {a b : Ast} : (ne a b).holds ρ ↔ a.eval ρ ≠ b.eval ρ :=
  holds_node_ne

theorem holds_node_and : (node .And cs annotations).holds ρ ↔ Sat cs ρ := by
  change Value.bool ((evalList ρ cs).all Value.toBool) = .bool true ↔ _
  simp [Sat, holds]

@[simp] theorem holds_and : (and cs).holds ρ ↔ Sat cs ρ :=
  holds_node_and

@[simp] theorem holds_or : (or cs).holds ρ ↔ ∃ c ∈ cs, c.holds ρ := by
  change Value.bool ((evalList ρ cs).any Value.toBool) = .bool true ↔ _
  simp [holds]

theorem holds_node_not : (node .Not [c] annotations).holds ρ ↔ ¬ c.holds ρ := by
  change Value.bool (!(c.eval ρ).toBool) = .bool true ↔ ¬ c.eval ρ = .bool true
  cases h : c.eval ρ <;> simp [Value.toBool]

@[simp] theorem holds_not : (not c).holds ρ ↔ ¬ c.holds ρ :=
  holds_node_not

theorem vars_clearAnnotations (c : Ast) : c.clearAnnotations.vars = c.vars := by
  cases c; rfl

theorem holds_clearAnnotations : c.clearAnnotations.holds ρ ↔ c.holds ρ := by
  cases c; simp [clearAnnotations, holds, eval]

end Ast

theorem not_satisfiable_of_false_mem (h : Ast.false_ ∈ cs) : ¬ Satisfiable cs :=
  fun ⟨ρ, hρ⟩ => Ast.not_holds_false ρ (hρ _ h)

/-! ## Models -/

/-- The primitive a solver model gives a variable. The sort of the variable decides
whether it is read as an integer or as a truth value; a name alone does not, so
both readings are kept. -/
structure Prim where
  int : Nat
  truth : Bool
deriving DecidableEq, Repr

/-- A model as the back-end hands it over: a dictionary from names to primitives. -/
abbrev Model := Dict String Prim

/-- Read a model as an assignment. Variables it does not mention get `0` as
bitvectors and `dflt` as Booleans. -/
def Model.complete (m : Model) (dflt : Bool) : Assignment where
  bv x := (m.get? x).elim 0 Prim.int
  bool x := (m.get? x).elim dflt Prim.truth

/-- An assignment that gives the variables of the model the values of the model. -/
def Model.Fits (m : Model) (ρ : Assignment) : Prop :=
  ∀ x p, m.get? x = some p → ρ.bv x = p.int ∧ ρ.bool x = p.truth

theorem Model.fits_complete (m : Model) (d : Bool) : m.Fits (m.complete d) := by
  intro x p hp
  simp [Model.complete, hp]

theorem Model.Fits.agreeOn_complete {m : Model} (h : m.Fits ρ) (d : Bool) : (m.complete d).agreeOn m.keys ρ := by
  intro x hx
  obtain ⟨p, hp⟩ := Option.isSome_iff_exists.mp (Dict.get?_isSome.mpr hx)
  have hρ := h x p hp
  simp [Model.complete, hp, hρ.1, hρ.2]

theorem Model.complete_agreeOn {m m' : Model} {d : Bool} {names : Finset String}
    (h : ∀ x ∈ names, m.get? x = m'.get? x) :
    (m.complete d).agreeOn names (m'.complete d) := by
  intro x hx
  simp [Model.complete, h x hx]

theorem Model.complete_agreeOn_keys {m : Model} {d d' : Bool} {names : Finset String}
    (h : names ⊆ m.keys) : (m.complete d).agreeOn names (m.complete d') := by
  intro x hx
  obtain ⟨p, hp⟩ := Option.isSome_iff_exists.mp (Dict.get?_isSome.mpr (h hx))
  simp [Model.complete, hp]

end Claripy
