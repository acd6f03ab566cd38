import Mathlib.Data.Nat.Basic

/-!
# Fuel

A function whose recursion is not structural takes fuel and fails when it has none.
`Returns f a` says that `f` gives `a` from some amount of fuel on.
-/

namespace Fuel

inductive OutOfFuel where
  | outOfFuel

variable {ε α β ι : Type} {f : Nat → Except ε α} {g : Nat → α → Except ε β} {a a' : α} {b : β}

def Returns (f : Nat → Except ε α) (a : α) : Prop := ∃ N, ∀ n ≥ N, f n = .ok a

theorem Returns.of_forall (h : ∀ n, f n = .ok a) : Returns f a := ⟨0, fun n _ => h n⟩

theorem Returns.bind (hf : Returns f a) (hg : Returns (fun n => g n a) b) :
    Returns (fun n => f n >>= g n) b := by
  obtain ⟨N, hf⟩ := hf
  obtain ⟨N', hg⟩ := hg
  refine ⟨max N N', fun n hn => ?_⟩
  change (f n).bind (g n) = _
  obtain ⟨hN, hN'⟩ := Nat.max_le.mp hn
  rw [hf n hN]
  exact hg n hN'

/-- Fuel that is used up by the call itself. -/
theorem Returns.succ (h : Returns (fun n => f (n + 1)) a) : Returns f a := by
  obtain ⟨N, h⟩ := h
  refine ⟨N + 1, fun n hn => ?_⟩
  obtain ⟨m, rfl⟩ : ∃ m, n = m + 1 := ⟨n - 1, by omega⟩
  exact h m (by omega)

theorem Returns.unique (h : Returns f a) (h' : Returns f a') : a = a' := by
  obtain ⟨N, h⟩ := h
  obtain ⟨N', h'⟩ := h'
  exact Except.ok.inj ((h _ (le_max_left N N')).symm.trans (h' _ (le_max_right N N')))

/-- A loop, by an invariant of the steps it makes. -/
theorem Returns.foldlM {step : Nat → α → ι → Except ε α} (Inv : List ι → α → Prop) :
    ∀ (is : List ι) (done : List ι) (a : α), Inv done a →
      (∀ done i a, i ∈ is → Inv done a → ∃ a', Returns (fun n => step n a i) a' ∧ Inv (done ++ [i]) a') →
      ∃ a', Returns (fun n => is.foldlM (step n) a) a' ∧ Inv (done ++ is) a'
  | [], done, a, h, _ => ⟨a, .of_forall fun _ => rfl, by rwa [List.append_nil]⟩
  | i :: is, done, a, h, hstep => by
    obtain ⟨a₁, hrun, h₁⟩ := hstep done i a List.mem_cons_self h
    obtain ⟨a', hruns, h'⟩ := Returns.foldlM Inv is (done ++ [i]) a₁ h₁
      fun done j a hj => hstep done j a (List.mem_cons_of_mem _ hj)
    refine ⟨a', hrun.bind hruns, ?_⟩
    rwa [List.append_assoc] at h'

end Fuel
