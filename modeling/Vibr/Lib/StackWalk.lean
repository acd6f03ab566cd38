import Mathlib.Data.List.Forall2
import Mathlib.Order.WellFounded
import Vibr.Lib.Fuel

/-!
# Walks with stacks

A walk keeps a stack of iterators over the children of the nodes it has entered, the stack
of these nodes and a stack of results. A child is answered at once or entered; a node whose
children are done takes their results from the stack and puts its own there. The tops of the
stacks are the heads of the lists.
-/

/-- What a walk does with a node, in a state that it hands on. -/
structure StackWalk (N R σ ε : Type) where
  children : N → List N
  /-- the result of a node, unless it is entered -/
  visit : σ → N → Option (R × σ)
  /-- the result of a node from those of its children -/
  combine : σ → N → List R → Except ε R × σ

namespace StackWalk

structure Stacks (N R : Type) where
  iters : List (List N)
  nodes : List N := []
  results : List R := []

variable {N R σ ε : Type} (w : StackWalk N R σ ε)

/-- One turn of the loop. -/
def step (st : Stacks N R) (s : σ) : Except ε (Stacks N R) × σ :=
  match st.iters with
  | [] => (.ok st, s)
  | [] :: iters =>
    match st.nodes with
    | [] => (.ok { st with iters }, s)
    | a :: nodes =>
      let count := (w.children a).length
      match w.combine s a (st.results.take count).reverse with
      | (.ok r, s) => (.ok { iters, nodes, results := r :: st.results.drop count }, s)
      | (.error e, s) => (.error e, s)
  | (a :: rest) :: iters =>
    match w.visit s a with
    | some (r, s) => (.ok { st with iters := rest :: iters, results := r :: st.results }, s)
    | none => (.ok { st with iters := w.children a :: rest :: iters, nodes := a :: st.nodes }, s)

/-- The loop, until there is no iterator left. -/
def run : Nat → Stacks N R → σ → Except Fuel.OutOfFuel (Except ε (Stacks N R) × σ)
  | 0, _, _ => .error .outOfFuel
  | fuel + 1, st, s =>
    if st.iters.isEmpty then .ok (.ok st, s)
    else
      match w.step st s with
      | (.ok st, s) => run fuel st s
      | (.error e, s) => .ok (.error e, s)

/-- What the visits and the combinations of a walk keep and what they say about results and errors. -/
structure Rule (Dom : N → Prop) (Inv : σ → Prop) (Post : N → R → Prop) (Bad : ε → Prop) : Prop where
  wf : WellFounded fun c a => c ∈ w.children a
  dom : ∀ a, Dom a → ∀ c ∈ w.children a, Dom c
  visit : ∀ s a r s', Inv s → Dom a → w.visit s a = some (r, s') → Inv s' ∧ Post a r
  combine : ∀ s₀ s a rs, Inv s₀ → Inv s → Dom a → w.visit s₀ a = none → List.Forall₂ Post (w.children a) rs →
    Inv (w.combine s a rs).2 ∧ (∀ r, (w.combine s a rs).1 = .ok r → Post a r) ∧
      ∀ e, (w.combine s a rs).1 = .error e → Bad e

variable {w} {Dom : N → Prop} {Inv : σ → Prop} {Post : N → R → Prop} {Bad : ε → Prop}

variable (w Inv Bad) in
/-- From some stacks the loop comes to others that satisfy a property, or it raises. -/
def Leads (st : Stacks N R) (s : σ) (P : Stacks N R → Prop) : Prop :=
  (∃ k st' s', (∀ fuel, w.run (fuel + k) st s = w.run fuel st' s') ∧ Inv s' ∧ P st') ∨
    ∃ k e s', (∀ fuel, w.run (fuel + k) st s = .ok (.error e, s')) ∧ Inv s' ∧ Bad e

theorem Leads.refl {st : Stacks N R} {s : σ} {P : Stacks N R → Prop} (hs : Inv s) (h : P st) :
    w.Leads Inv Bad st s P :=
  .inl ⟨0, st, s, fun _ => rfl, hs, h⟩

theorem Leads.bind {st : Stacks N R} {s : σ} {P Q : Stacks N R → Prop} (h : w.Leads Inv Bad st s P)
    (hnext : ∀ st' s', Inv s' → P st' → w.Leads Inv Bad st' s' Q) : w.Leads Inv Bad st s Q := by
  rcases h with ⟨k, st', s', hrun, hs', hP⟩ | hraise
  · rcases hnext st' s' hs' hP with ⟨k', st'', s'', hrun', hs'', hQ⟩ | ⟨k', e, s'', hrun', hs'', hbad⟩
    · exact .inl ⟨k' + k, st'', s'', fun fuel => by rw [← Nat.add_assoc, hrun, hrun'], hs'', hQ⟩
    · exact .inr ⟨k' + k, e, s'', fun fuel => by rw [← Nat.add_assoc, hrun, hrun'], hs'', hbad⟩
  · exact .inr hraise

theorem run_succ {st : Stacks N R} {s : σ} (hne : st.iters ≠ []) (fuel : Nat) :
    w.run (fuel + 1) st s =
      match w.step st s with
      | (.ok st, s) => w.run fuel st s
      | (.error e, s) => .ok (.error e, s) := by
  rw [run, if_neg (by simp [hne])]

theorem Leads.step {st st' : Stacks N R} {s s' : σ} {P : Stacks N R → Prop} (hne : st.iters ≠ [])
    (hstep : w.step st s = (.ok st', s')) (h : w.Leads Inv Bad st' s' P) : w.Leads Inv Bad st s P := by
  have hrun : ∀ fuel, w.run (fuel + 1) st s = w.run fuel st' s' := fun fuel => by rw [run_succ hne, hstep]
  rcases h with ⟨k, st'', s'', hrun', hs, hP⟩ | ⟨k, e, s'', hrun', hs, hbad⟩
  · exact .inl ⟨k + 1, st'', s'', fun fuel => by rw [← Nat.add_assoc, hrun, hrun'], hs, hP⟩
  · exact .inr ⟨k + 1, e, s'', fun fuel => by rw [← Nat.add_assoc, hrun, hrun'], hs, hbad⟩

/-- The iterator on top, once every node in it is answered. -/
theorem leads_list {iters : List (List N)} {nodes : List N} (as : List N)
    (h : ∀ a ∈ as, ∀ rest results s, Inv s → w.Leads Inv Bad ⟨(a :: rest) :: iters, nodes, results⟩ s
      fun st => ∃ r, Post a r ∧ st = ⟨rest :: iters, nodes, r :: results⟩)
    (results : List R) (s : σ) (hs : Inv s) :
    w.Leads Inv Bad ⟨as :: iters, nodes, results⟩ s
      fun st => ∃ rs, List.Forall₂ Post as rs ∧ st = ⟨[] :: iters, nodes, rs.reverse ++ results⟩ := by
  induction as generalizing results s with
  | nil => exact .refl hs ⟨[], .nil, rfl⟩
  | cons a as ih =>
    refine (h a List.mem_cons_self as results s hs).bind ?_
    rintro st₁ s₁ hs₁ ⟨r, hr, rfl⟩
    refine (ih (fun b hb => h b (List.mem_cons_of_mem a hb)) (r :: results) s₁ hs₁).bind ?_
    rintro st₂ s₂ hs₂ ⟨rs, hrs, rfl⟩
    exact .refl hs₂ ⟨r :: rs, .cons hr hrs, by simp⟩

/-- A node is answered, whatever lies below it on the stacks. -/
theorem Rule.leads_node (hw : w.Rule Dom Inv Post Bad) (a : N) : Dom a → ∀ rest iters nodes results s, Inv s →
    w.Leads Inv Bad ⟨(a :: rest) :: iters, nodes, results⟩ s
      fun st => ∃ r, Post a r ∧ st = ⟨rest :: iters, nodes, r :: results⟩ := by
  induction a using hw.wf.induction with
  | h a ih =>
    intro hdom rest iters nodes results s hs
    cases hvisit : w.visit s a with
    | some answer =>
      obtain ⟨r, s'⟩ := answer
      obtain ⟨hs', hr⟩ := hw.visit s a r s' hs hdom hvisit
      have hstep : w.step ⟨(a :: rest) :: iters, nodes, results⟩ s = (.ok ⟨rest :: iters, nodes, r :: results⟩, s') := by
        simp only [StackWalk.step, hvisit]
      exact .step (by simp) hstep (.refl hs' ⟨r, hr, rfl⟩)
    | none =>
      have henter : w.step ⟨(a :: rest) :: iters, nodes, results⟩ s =
          (.ok ⟨w.children a :: rest :: iters, a :: nodes, results⟩, s) := by
        simp only [StackWalk.step, hvisit]
      have hchildren : w.Leads Inv Bad ⟨w.children a :: rest :: iters, a :: nodes, results⟩ s
          fun st => ∃ rs, List.Forall₂ Post (w.children a) rs ∧
            st = ⟨[] :: rest :: iters, a :: nodes, rs.reverse ++ results⟩ :=
        leads_list (w.children a)
          (fun c hc rest' results' s' hs' => ih c hc (hw.dom a hdom c hc) rest' _ _ results' s' hs') results s hs
      refine .step (by simp) henter (hchildren.bind ?_)
      rintro st₁ s₁ hs₁ ⟨rs, hrs, rfl⟩
      obtain ⟨hinv, hok, herror⟩ := hw.combine s s₁ a rs hs hs₁ hdom hvisit hrs
      have htake : ((rs.reverse ++ results).take (w.children a).length).reverse = rs := by
        rw [hrs.length_eq, ← List.length_reverse, List.take_left, List.reverse_reverse]
      have hdrop : (rs.reverse ++ results).drop (w.children a).length = results := by
        rw [hrs.length_eq, ← List.length_reverse, List.drop_left]
      have hleave : w.step ⟨[] :: rest :: iters, a :: nodes, rs.reverse ++ results⟩ s₁ =
          ((w.combine s₁ a rs).1.map fun r => ⟨rest :: iters, nodes, r :: results⟩, (w.combine s₁ a rs).2) := by
        simp only [StackWalk.step, htake, hdrop]
        rcases w.combine s₁ a rs with ⟨r | e, s₂⟩ <;> rfl
      rcases hcombine : w.combine s₁ a rs with ⟨e | r, s₂⟩
      · rw [hcombine] at hleave hinv herror
        exact .inr ⟨1, e, s₂, fun fuel => by rw [run_succ (by simp), hleave]; rfl, hinv, herror e rfl⟩
      · rw [hcombine] at hleave hinv hok
        exact .step (by simp) hleave (.refl hinv ⟨r, hok r rfl, rfl⟩)

/-- The walk from one node ends with its result on the stack and nothing else, or it raises. -/
theorem Rule.run (hw : w.Rule Dom Inv Post Bad) {a : N} {s : σ} (hdom : Dom a) (hs : Inv s) :
    ∃ out s', Fuel.Returns (fun fuel => w.run fuel { iters := [[a]] } s) (out, s') ∧ Inv s' ∧
      ((∃ r, Post a r ∧ out = .ok { iters := [], results := [r] }) ∨ ∃ e, Bad e ∧ out = .error e) := by
  rcases hw.leads_node a hdom [] [] [] [] s hs with ⟨k, st, s', hrun, hs', r, hr, rfl⟩ | ⟨k, e, s', hrun, hs', hbad⟩
  · refine ⟨.ok { iters := [], results := [r] }, s', ⟨2 + k, fun fuel hfuel => ?_⟩, hs', .inl ⟨r, hr, rfl⟩⟩
    obtain ⟨f, rfl⟩ : ∃ f, fuel = f + 2 + k := ⟨fuel - 2 - k, by omega⟩
    refine (hrun (f + 2)).trans ?_
    rw [run_succ (by simp)]
    rfl
  · refine ⟨.error e, s', ⟨k, fun fuel hfuel => ?_⟩, hs', .inr ⟨e, hbad, rfl⟩⟩
    obtain ⟨f, rfl⟩ : ∃ f, fuel = f + k := ⟨fuel - k, by omega⟩
    exact hrun f

end StackWalk
