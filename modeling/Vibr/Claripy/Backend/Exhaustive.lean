import Vibr.Claripy.Backend.Z3

/-!
# Exhaustive search

Bitvectors and Booleans are finite, so trying every value of every variable
decides a constraint set. This is the reference the exactness assumption on the
external solver is measured by, and it lets whole runs be evaluated.
-/

namespace Claripy.BackendZ3

/-- The length of the longest bitvector symbol. -/
def maxLength (ops : List Op) : Nat :=
  (ops.map fun
    | .BVS _ w => w
    | _ => 0).foldr max 0

def values (w : Nat) : List Prim :=
  (List.range (2 ^ w)).flatMap fun n => [⟨n, false⟩, ⟨n, true⟩]

def candidates (w : Nat) : List String → List Model
  | [] => [[]]
  | x :: xs => (candidates w xs).flatMap fun m => (values w).map fun p => (x, p) :: m

def exhaustive : BackendZ3 where
  check _ cs := (candidates (maxLength (Ast.opsList cs)) (Ast.varListArgs cs)).find?
    fun m => Sat cs (m.complete false)

theorem length_le_maxLength {ops : List Op} {x : String} {w : Nat} (h : .BVS x w ∈ ops) :
    w ≤ maxLength ops := by
  induction ops with
  | nil => simp at h
  | cons op ops ih =>
    simp only [maxLength, List.map_cons, List.foldr_cons] at ih ⊢
    rcases List.mem_cons.mp h with rfl | h
    · exact le_max_left _ _
    · exact (ih h).trans (le_max_right _ _)

theorem mem_values {w : Nat} {p : Prim} (h : p.int < 2 ^ w) : p ∈ values w := by
  obtain ⟨n, b⟩ := p
  simp only [values, List.mem_flatMap, List.mem_range]
  exact ⟨n, h, by cases b <;> simp⟩

theorem keys_of_mem_candidates {w : Nat} {xs : List String} {m : Model}
    (h : m ∈ candidates w xs) : Dict.keys m = xs.toFinset := by
  induction xs generalizing m with
  | nil =>
    obtain rfl : m = [] := by simpa [candidates] using h
    rfl
  | cons x xs ih =>
    simp only [candidates, List.mem_flatMap, List.mem_map] at h
    obtain ⟨m', hm', p, _, rfl⟩ := h
    have := ih hm'
    simp only [Dict.keys, List.map_cons, List.toFinset_cons] at this ⊢
    rw [this]

/-- Some candidate reads like `ρ` on the listed names, up to `2 ^ w`. -/
theorem exists_candidate (w : Nat) (ρ : Assignment) (xs : List String) :
    ∃ m ∈ candidates w xs, ∀ x ∈ xs,
      Dict.get? m x = some ⟨ρ.bv x % 2 ^ w, ρ.bool x⟩ := by
  induction xs with
  | nil => exact ⟨[], by simp [candidates], by simp⟩
  | cons y xs ih =>
    obtain ⟨m, hm, hget⟩ := ih
    refine ⟨(y, ⟨ρ.bv y % 2 ^ w, ρ.bool y⟩) :: m, ?_, ?_⟩
    · simp only [candidates, List.mem_flatMap, List.mem_map]
      exact ⟨m, hm, ⟨ρ.bv y % 2 ^ w, ρ.bool y⟩, mem_values (Nat.mod_lt _ (Nat.two_pow_pos w)), rfl⟩
    intro x hx
    rw [Dict.get?_cons]
    split
    · rename_i h; subst h; rfl
    · rename_i h
      exact hget x ((List.mem_cons.mp hx).resolve_left (Ne.symm h))

theorem leaf_complete {w : Nat} {ρ : Assignment} {m : Model} {op : Op}
    (hlen : ∀ x w', op = .BVS x w' → w' ≤ w)
    (hget : ∀ x, op.symbol = some x → Dict.get? m x = some ⟨ρ.bv x % 2 ^ w, ρ.bool x⟩) :
    (m.complete false).leaf op = ρ.leaf op := by
  cases op with
  | BVS x w' =>
    have hw : w' ≤ w := hlen x w' rfl
    have hmod : ρ.bv x % 2 ^ w % 2 ^ w' = ρ.bv x % 2 ^ w' :=
      Nat.mod_mod_of_dvd _ (Nat.pow_dvd_pow 2 hw)
    simp only [Assignment.leaf, Model.complete, hget x rfl, Option.elim, Option.some.injEq,
      Value.bv.injEq, true_and, heq_eq_eq]
    apply BitVec.eq_of_toNat_eq
    simpa using hmod
  | BoolS x => simp [Assignment.leaf, Model.complete, hget x rfl]
  | _ => rfl

theorem exhaustive_total : exhaustive.Total := by
  intro t cs m h x hx
  rw [keys_of_mem_candidates (List.mem_of_find?_eq_some h), List.mem_toFinset]
  obtain ⟨c, hc, hxc⟩ := mem_varsOf.mp hx
  exact Ast.mem_varListArgs.mpr (Ast.mem_varsList.mpr ⟨c, hc, hxc⟩)

theorem exhaustive_exact : exhaustive.Exact where
  sound {t cs m} h := by
    have hsat : Sat cs (m.complete false) := by simpa using List.find?_some h
    intro ρ hρ
    exact (sat_congr ((hρ.agreeOn_complete false).mono (exhaustive_total h))).mp hsat
  complete {t cs} h := by
    rintro ⟨ρ, hρ⟩
    obtain ⟨m, hm, hget⟩ := exists_candidate (maxLength (Ast.opsList cs)) ρ (Ast.varListArgs cs)
    have hsat : Sat cs (m.complete false) := by
      intro c hc
      have heq : c.eval (m.complete false) = c.eval ρ := by
        refine Ast.eval_congr_leaf c fun op hop =>
          leaf_complete (w := maxLength (Ast.opsList cs)) (fun x w' he => ?_) fun x hx => ?_
        · exact length_le_maxLength (x := x) (he ▸ Ast.mem_opsList.mpr ⟨c, hc, hop⟩)
        · exact hget x (Ast.mem_varListArgs.mpr
            (Ast.mem_varsList.mpr ⟨c, hc, Ast.mem_vars_of_mem_ops hop hx⟩))
      rw [Ast.holds, heq]
      exact hρ c hc
    have hnone := List.find?_eq_none.mp h m hm
    simp [hsat] at hnone

end Claripy.BackendZ3
