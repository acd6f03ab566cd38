import Mathlib.Logic.Relation

/-!
# Runs

A state machine is a step function `step : σ → ι → σ`. `Reach step ok s₀ s` says
that `s` is reached from `s₀` by inputs each of which meets `ok` in the state it
is given to. With `ok := fun _ _ => True` these are all runs.
-/

namespace Runs

variable {σ ι : Type*} {step : σ → ι → σ} {ok : σ → ι → Prop} {s₀ s : σ}

inductive Reach (step : σ → ι → σ) (ok : σ → ι → Prop) (s₀ : σ) : σ → Prop
  | refl : Reach step ok s₀ s₀
  | tail {s : σ} {i : ι} : Reach step ok s₀ s → ok s i → Reach step ok s₀ (step s i)

/-- What holds at the start and is kept by every admissible step holds in every
state of every run. -/
theorem Reach.invariant (Inv : σ → Prop) (h0 : Inv s₀)
    (hstep : ∀ s i, Inv s → ok s i → Inv (step s i)) (h : Reach step ok s₀ s) : Inv s := by
  induction h with
  | refl => exact h0
  | tail _ hok ih => exact hstep _ _ ih hok

/-- Fewer admissible steps give fewer runs. -/
theorem Reach.mono {ok' : σ → ι → Prop} (hle : ∀ s i, ok s i → ok' s i)
    (h : Reach step ok s₀ s) : Reach step ok' s₀ s := by
  induction h with
  | refl => exact .refl
  | tail _ hok ih => exact .tail ih (hle _ _ hok)

/-- The inputs of a list are admissible one after the other. -/
def Along (step : σ → ι → σ) (ok : σ → ι → Prop) : σ → List ι → Prop
  | _, [] => True
  | s, i :: l => ok s i ∧ Along step ok (step s i) l

theorem Reach.along {l : List ι} (h : Reach step ok s₀ s) (hl : Along step ok s l) :
    Reach step ok s₀ (l.foldl step s) := by
  induction l generalizing s with
  | nil => exact h
  | cons i l ih => exact ih (.tail h hl.1) hl.2

/-- Where a step keeps `good` exactly if it is admissible, the runs all of whose states are
good are those whose steps are admissible one after the other. -/
theorem along_iff {good : σ → Prop} (Inv : σ → Prop)
    (hstep : ∀ s i, Inv s → good s → Inv (step s i) ∧ (good (step s i) ↔ ok s i))
    (hinv : Inv s) (hgood : good s) (l : List ι) :
    (∀ n, good ((l.take n).foldl step s)) ↔ Along step ok s l := by
  induction l generalizing s with
  | nil => exact ⟨fun _ => trivial, fun _ n => by rwa [List.take_nil]⟩
  | cons i l ih =>
    obtain ⟨hinv', hiff⟩ := hstep s i hinv hgood
    constructor
    · intro h
      have hgood' : good (step s i) := h 1
      exact ⟨hiff.mp hgood', (ih hinv' hgood').mp fun n => h (n + 1)⟩
    rintro ⟨hok, hl⟩ n
    cases n with
    | zero => exact hgood
    | succ n => exact (ih hinv' (hiff.mpr hok)).mpr hl n

end Runs
