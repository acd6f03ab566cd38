import Mathlib.Algebra.Order.BigOperators.Group.Finset

/-!
# Exploration

The loop that visits a graph: take an element off the agenda, skip it if it was
seen, else note it and put its successors that were not seen on the agenda. How the
agenda is kept (a stack, a queue) is a parameter.
-/

namespace Explore

variable {σ : Type*}

/-- How new elements are put on the agenda. -/
structure Agenda (σ : Type*) where
  push : List σ → List σ → List σ
  perm : ∀ new rest, (push new rest).Perm (new ++ rest)

namespace Agenda

/-- The last element that was pushed comes off first. -/
def stack : Agenda σ where
  push new rest := new.reverse ++ rest
  perm new rest := (List.reverse_perm new).append_right rest

def queue : Agenda σ where
  push new rest := rest ++ new
  perm _ _ := List.perm_append_comm

variable (A : Agenda σ) {new rest : List σ} {x : σ}

theorem mem_push : x ∈ A.push new rest ↔ x ∈ new ∨ x ∈ rest := by
  rw [(A.perm new rest).mem_iff, List.mem_append]

theorem length_push : (A.push new rest).length = new.length + rest.length := by
  rw [(A.perm new rest).length_eq, List.length_append]

end Agenda

/-- What was seen has its successors seen or waiting. -/
def Open (next : σ → List σ) (agenda : List σ) (seen : Finset σ) : Prop :=
  ∀ x ∈ seen, ∀ y ∈ next x, y ∈ seen ∨ y ∈ agenda

theorem Open.skip {next : σ → List σ} {rest : List σ} {seen : Finset σ} {x : σ}
    (h : Open next (x :: rest) seen) (hx : x ∈ seen) : Open next rest seen := by
  intro y hy z hz
  rcases h y hy z hz with hz | hz
  · exact .inl hz
  · rcases List.mem_cons.mp hz with rfl | hz
    · exact .inl hx
    · exact .inr hz

variable [DecidableEq σ] (A : Agenda σ) (next : σ → List σ)

def run : Nat → List σ → Finset σ → Finset σ
  | 0, _, seen => seen
  | _ + 1, [], seen => seen
  | fuel + 1, x :: rest, seen =>
    if x ∈ seen then run fuel rest seen
    else run fuel (A.push ((next x).filter (· ∉ insert x seen)) rest) (insert x seen)

variable {A next} {agenda rest : List σ} {seen : Finset σ} {x : σ}

theorem Open.visit (h : Open next (x :: rest) seen) :
    Open next (A.push ((next x).filter (· ∉ insert x seen)) rest) (insert x seen) := by
  intro y hy z hz
  by_cases hs : z ∈ insert x seen
  · exact .inl hs
  refine .inr (A.mem_push.mpr ?_)
  rcases Finset.mem_insert.mp hy with rfl | hy
  · exact .inl (List.mem_filter.mpr ⟨hz, by simpa using hs⟩)
  rcases h y hy z hz with hz | hz
  · exact absurd (Finset.mem_insert_of_mem hz) hs
  · rcases List.mem_cons.mp hz with rfl | hz
    · exact absurd (Finset.mem_insert_self _ _) hs
    · exact .inr hz

/-- Every property that holds on the agenda and passes to successors holds of what is reached. -/
theorem run_sound {P : σ → Prop} (hnext : ∀ x, P x → ∀ y ∈ next x, P y) {fuel : Nat}
    (hagenda : ∀ x ∈ agenda, P x) (hseen : ∀ x ∈ seen, P x) :
    ∀ x ∈ run A next fuel agenda seen, P x := by
  induction fuel generalizing agenda seen with
  | zero => exact hseen
  | succ fuel ih =>
    cases agenda with
    | nil => exact hseen
    | cons x rest =>
      have hx := hagenda x List.mem_cons_self
      have hrest : ∀ y ∈ rest, P y := fun y hy => hagenda y (List.mem_cons_of_mem _ hy)
      rw [run]
      split
      · exact ih hrest hseen
      refine ih (fun y hy => ?_) (fun y hy => ?_)
      · rcases A.mem_push.mp hy with hy | hy
        · exact hnext x hx y (List.mem_filter.mp hy).1
        · exact hrest y hy
      · rcases Finset.mem_insert.mp hy with rfl | hy
        · exact hx
        · exact hseen y hy

/-- The steps that are still to be made at most: one for every element of the agenda, and one
for every successor of an element that was not seen. -/
def work (next : σ → List σ) (U : Finset σ) (agenda : List σ) (seen : Finset σ) : Nat :=
  agenda.length + ∑ x ∈ U \ seen, (next x).length

theorem work_visit (A : Agenda σ) (next : σ → List σ) (rest : List σ) {U : Finset σ} (hx : x ∉ seen) (hU : x ∈ U) :
    work next U (A.push ((next x).filter (· ∉ insert x seen)) rest) (insert x seen)
      < work next U (x :: rest) seen := by
  have hsplit : ∑ y ∈ U \ seen, (next y).length
      = (next x).length + ∑ y ∈ U \ insert x seen, (next y).length := by
    rw [Finset.sdiff_insert, ← Finset.sum_erase_add _ _ (Finset.mem_sdiff.mpr ⟨hU, hx⟩), add_comm]
  have hfilter := List.length_filter_le (fun y => decide (y ∉ insert x seen)) (next x)
  simp only [work, A.length_push, List.length_cons, hsplit]
  omega

/-- With fuel for the work that is left, the exploration is closed under successors, and
nothing of the agenda is forgotten. -/
theorem run_complete {U : Finset σ} (hU : ∀ x ∈ U, ∀ y ∈ next x, y ∈ U) {fuel : Nat}
    (hfuel : work next U agenda seen ≤ fuel) (hagenda : ∀ x ∈ agenda, x ∈ U)
    (hopen : Open next agenda seen) :
    (∀ x ∈ seen, x ∈ run A next fuel agenda seen) ∧
      (∀ x ∈ agenda, x ∈ run A next fuel agenda seen) ∧
      ∀ x ∈ run A next fuel agenda seen, ∀ y ∈ next x, y ∈ run A next fuel agenda seen := by
  induction fuel generalizing agenda seen with
  | zero =>
    have hnil : agenda = [] := by
      rw [← List.length_eq_zero_iff]
      unfold work at hfuel
      omega
    subst hnil
    refine ⟨fun x hx => hx, by simp, fun x hx y hy => ?_⟩
    exact (hopen x hx y hy).resolve_right (by simp)
  | succ fuel ih =>
    cases agenda with
    | nil =>
      refine ⟨fun x hx => hx, by simp, fun x hx y hy => ?_⟩
      exact (hopen x hx y hy).resolve_right (by simp)
    | cons x rest =>
      have hrest : ∀ y ∈ rest, y ∈ U := fun y hy => hagenda y (List.mem_cons_of_mem _ hy)
      rw [run]
      split
      · rename_i hx
        have hwork : work next U rest seen ≤ fuel := by
          simp only [work, List.length_cons] at hfuel ⊢
          omega
        obtain ⟨hs, ha, hc⟩ := ih hwork hrest (hopen.skip hx)
        refine ⟨hs, fun y hy => ?_, hc⟩
        rcases List.mem_cons.mp hy with rfl | hy
        · exact hs _ hx
        · exact ha y hy
      · rename_i hx
        have hxU := hagenda x List.mem_cons_self
        have hwork := work_visit A next rest hx hxU
        have hpush : ∀ y ∈ A.push ((next x).filter (· ∉ insert x seen)) rest, y ∈ U := by
          intro y hy
          rcases A.mem_push.mp hy with hy | hy
          · exact hU x hxU y (List.mem_filter.mp hy).1
          · exact hrest y hy
        obtain ⟨hs, ha, hc⟩ := ih (by omega) hpush hopen.visit
        refine ⟨fun y hy => hs y (Finset.mem_insert_of_mem hy), fun y hy => ?_, hc⟩
        rcases List.mem_cons.mp hy with rfl | hy
        · exact hs _ (Finset.mem_insert_self _ _)
        · exact ha y (A.mem_push.mpr (.inr hy))

end Explore
