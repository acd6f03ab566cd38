import Mathlib.Data.List.Basic
import Mathlib.Data.Nat.Basic

/-!
# Chains

A forest whose nodes are numbers, every parent smaller than its children. The chain of a
node lists the node and its ancestors, up to a root.
-/

namespace Chains

@[grind =] def chainFrom (parent : Nat → Option Nat) : (fuel : Nat) → Nat → List Nat
  | 0, a => [a]
  | fuel + 1, a =>
    match parent a with
    | none => [a]
    | some p => a :: chainFrom parent fuel p

def chain (parent : Nat → Option Nat) (a : Nat) : List Nat := chainFrom parent a a

def Decreasing (parent : Nat → Option Nat) : Prop := ∀ a p, parent a = some p → p < a

variable {parent parent' : Nat → Option Nat} {a p : Nat}

theorem chainFrom_eq_chain (h : Decreasing parent) (fuel : Nat) (ha : a ≤ fuel) :
    chainFrom parent fuel a = chain parent a := by
  have hstep : ∀ (n m a : Nat), a ≤ n → a ≤ m → chainFrom parent n a = chainFrom parent m a := by
    intro n
    induction n with
    | zero =>
      intro m a hn hm
      obtain rfl : a = 0 := by omega
      cases m with
      | zero => rfl
      | succ m =>
        have hroot : parent 0 = none := by
          cases hp : parent 0 with
          | none => rfl
          | some p => exact absurd (h 0 p hp) (by omega)
        rw [chainFrom, chainFrom, hroot]
    | succ n ih =>
      intro m a hn hm
      cases hp : parent a with
      | none => cases m <;> simp [chainFrom, hp]
      | some p =>
        have hlt := h a p hp
        obtain ⟨m, rfl⟩ : ∃ k, m = k + 1 := ⟨m - 1, by omega⟩
        rw [chainFrom, chainFrom, hp]
        dsimp only
        rw [ih m p (by omega) (by omega)]
  exact hstep fuel a a ha (Nat.le_refl _)

theorem chain_root (hp : parent a = none) : chain parent a = [a] := by
  unfold chain
  cases a <;> simp [chainFrom, hp]

theorem chain_child (h : Decreasing parent) (hp : parent a = some p) :
    chain parent a = a :: chain parent p := by
  have hlt := h a p hp
  obtain ⟨n, rfl⟩ : ∃ k, a = k + 1 := ⟨a - 1, by omega⟩
  rw [chain, chainFrom, hp]
  dsimp only
  rw [chainFrom_eq_chain h n (by omega)]

theorem chain_ne_nil (parent : Nat → Option Nat) (a : Nat) : chain parent a ≠ [] := by
  unfold chain
  cases a with
  | zero => simp [chainFrom]
  | succ n =>
    rw [chainFrom]
    split <;> simp

/-- A node of a chain is the start or an ancestor of it. -/
theorem chain_split (h : Decreasing parent) {front back : List Nat} {q : Nat}
    (hsplit : chain parent a = front ++ q :: back) :
    front = [] ∧ q = a ∨
      ∃ p front', front = a :: front' ∧ parent a = some p ∧ chain parent p = front' ++ q :: back := by
  cases hp : parent a with
  | none =>
    rw [chain_root hp] at hsplit
    cases front with
    | nil => exact .inl ⟨rfl, (List.cons.inj hsplit).1.symm⟩
    | cons b front => simp at hsplit
  | some p =>
    rw [chain_child h hp] at hsplit
    cases front with
    | nil => exact .inl ⟨rfl, (List.cons.inj hsplit).1.symm⟩
    | cons b front =>
      obtain ⟨rfl, htail⟩ := List.cons.inj hsplit
      exact .inr ⟨p, front, rfl, rfl, htail⟩

theorem le_of_mem_chain (h : Decreasing parent) {b : Nat} (hb : b ∈ chain parent a) : b ≤ a := by
  induction a using Nat.strong_induction_on with
  | _ a ih =>
    cases hp : parent a with
    | none =>
      rw [chain_root hp] at hb
      simp at hb
      omega
    | some p =>
      rw [chain_child h hp] at hb
      rcases List.mem_cons.mp hb with rfl | hb
      · exact (Nat.le_refl _)
      · have := ih p (h a p hp) hb
        have := h a p hp
        omega

/-- The chain of a node depends on the parents up to the node only. -/
theorem chain_congr (h : Decreasing parent) (h' : Decreasing parent')
    (heq : ∀ b ≤ a, parent' b = parent b) : chain parent' a = chain parent a := by
  induction a using Nat.strong_induction_on with
  | _ a ih =>
    have hsame := heq a (Nat.le_refl _)
    cases hp : parent a with
    | none => rw [chain_root hp, chain_root (hsame.trans hp)]
    | some p =>
      have hlt := h a p hp
      rw [chain_child h hp, chain_child h' (hsame.trans hp), ih p hlt fun b hb => heq b (by omega)]

/-! ## Meeting -/

variable {α : Type} [DecidableEq α]

/-- Take off the common front of two lists. -/
@[grind =] def cut : List α → List α → List α × List α
  | a :: as, b :: bs => if a = b then cut as bs else (a :: as, b :: bs)
  | as, bs => (as, bs)

theorem cut_spec (as bs : List α) : ∃ common, as = common ++ (cut as bs).1 ∧ bs = common ++ (cut as bs).2 ∧
    (as.head? = bs.head? → as ≠ [] → common ≠ []) := by
  induction as generalizing bs with
  | nil => exact ⟨[], by cases bs <;> rfl, by cases bs <;> rfl, fun _ h => absurd rfl h⟩
  | cons a as ih =>
    cases bs with
    | nil => exact ⟨[], rfl, rfl, fun h => by simp at h⟩
    | cons b bs =>
      rw [cut]
      split
      · rename_i hab
        subst hab
        obtain ⟨common, has, hbs, -⟩ := ih bs
        exact ⟨a :: common, congrArg (a :: ·) has, congrArg (a :: ·) hbs, fun _ _ => by simp⟩
      · rename_i hab
        exact ⟨[], rfl, rfl, fun h => by simp [hab] at h⟩

/-- Two lists with the same last element, cut where their common back starts. -/
theorem exists_common_back {as bs : List α} (hne : as ≠ []) (hlast : as.getLast? = bs.getLast?) :
    ∃ q back, as = (cut as.reverse bs.reverse).1.reverse ++ q :: back ∧
      bs = (cut as.reverse bs.reverse).2.reverse ++ q :: back := by
  obtain ⟨common, has, hbs, hcommon⟩ := cut_spec as.reverse bs.reverse
  have hne' : common ≠ [] := hcommon (by rw [List.head?_reverse, List.head?_reverse, hlast]) (by simpa using hne)
  obtain ⟨q, back, hback⟩ := List.exists_cons_of_ne_nil (l := common.reverse) (by simpa using hne')
  refine ⟨q, back, ?_, ?_⟩
  · rw [← hback, ← List.reverse_append, ← has, List.reverse_reverse]
  · rw [← hback, ← List.reverse_append, ← hbs, List.reverse_reverse]

end Chains
