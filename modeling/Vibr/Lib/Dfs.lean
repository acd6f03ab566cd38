import Mathlib.Algebra.Order.BigOperators.Group.Finset

/-!
# Post-order

The loop has a stack of nodes that are to be visited and of nodes that are to be left. A node
that is left is yielded. On an acyclic graph every node comes after its successors.
-/

namespace Dfs

variable {σ : Type*} [DecidableEq σ] (next : σ → List σ)

/-- The entries of the stack are to be visited (`true`) or left. -/
@[grind =] def postorder : Nat → List (σ × Bool) → Finset σ → List σ
  | 0, _, _ => []
  | _ + 1, [], _ => []
  | fuel + 1, (node, preVisit) :: stack, visited =>
    if preVisit = true ∧ node ∉ visited then
      postorder fuel ((((next node).filter (· ∉ insert node visited)).map fun s => (s, true)).reverse ++
        (node, false) :: stack) (insert node visited)
    else if preVisit = false then node :: postorder fuel stack visited
    else postorder fuel stack visited

/-- There is an edge. -/
def Step (a b : σ) : Prop := b ∈ next a

/-- `a` comes before `b`. -/
def Before (l : List σ) (a b : σ) : Prop := ∃ front back, l = front ++ back ∧ a ∈ front ∧ b ∈ back

/-- In a list every node comes after its successors. -/
def Closed (l : List σ) : Prop := ∀ front n back, l = front ++ n :: back → ∀ s ∈ next n, s ∈ front

/-- For every node that is to be left: what is above it on the stack can be reached from it, and
its successors have been visited or are above it. -/
@[grind =] def StackOk (visited : Finset σ) : (above stack : List (σ × Bool)) → Prop
  | _, [] => True
  | above, (node, true) :: stack => StackOk visited (above ++ [(node, true)]) stack
  | above, (node, false) :: stack =>
    (∀ x ∈ above, Relation.TransGen (Step next) node x.1) ∧
      (∀ s ∈ next node, s ∈ visited ∨ (s, true) ∈ above) ∧ StackOk visited (above ++ [(node, false)]) stack

/-- The nodes of a stack that are to be left. -/
def leaving (stack : List (σ × Bool)) : List σ := stack.filterMap fun x => if x.2 then none else some x.1

variable {next} {stack : List (σ × Bool)} {visited : Finset σ} {done : List σ} {node : σ}

omit [DecidableEq σ] in
theorem mem_leaving {n : σ} : n ∈ leaving stack ↔ (n, false) ∈ stack := by
  unfold leaving
  rw [List.mem_filterMap]
  constructor
  · rintro ⟨⟨m, b⟩, hmem, heq⟩
    cases b with
    | true => cases heq
    | false =>
      cases heq
      exact hmem
  · intro hmem
    exact ⟨(n, false), hmem, rfl⟩

omit [DecidableEq σ] in
/-- What is above a stack may change, as long as it is reached from the same nodes and what is
gone has been visited. -/
theorem StackOk.mono {visited' : Finset σ} {above above' : List (σ × Bool)} (h : StackOk next visited above stack)
    (hvisited : visited ⊆ visited')
    (hreach : ∀ m, (∀ x ∈ above, Relation.TransGen (Step next) m x.1) → ∀ x ∈ above', Relation.TransGen (Step next) m x.1)
    (habove : ∀ s, (s, true) ∈ above → s ∈ visited' ∨ (s, true) ∈ above') : StackOk next visited' above' stack := by
  induction stack generalizing above above' with
  | nil => trivial
  | cons entry stack ih =>
    obtain ⟨n, b⟩ := entry
    have hreach' : ∀ m, (∀ x ∈ above ++ [(n, b)], Relation.TransGen (Step next) m x.1) →
        ∀ x ∈ above' ++ [(n, b)], Relation.TransGen (Step next) m x.1 := by
      intro m hm x hx
      rcases List.mem_append.mp hx with hx | hx
      · exact hreach m (fun y hy => hm y (List.mem_append_left _ hy)) x hx
      · exact hm x (List.mem_append_right _ hx)
    have habove' : ∀ s, (s, true) ∈ above ++ [(n, b)] → s ∈ visited' ∨ (s, true) ∈ above' ++ [(n, b)] := by
      intro s hs
      rcases List.mem_append.mp hs with hs | hs
      · exact (habove s hs).imp_right (List.mem_append_left _)
      · exact .inr (List.mem_append_right _ hs)
    cases b with
    | true => exact ih h hreach' habove'
    | false =>
      obtain ⟨habove_reach, hsucc, hrest⟩ := h
      refine ⟨hreach n habove_reach, fun s hs => ?_, ih hrest hreach' habove'⟩
      rcases hsucc s hs with hs | hs
      · exact .inl (hvisited hs)
      · exact habove s hs

omit [DecidableEq σ] in
/-- What is reached from a node further down the stack. -/
theorem StackOk.reach {above : List (σ × Bool)} (h : StackOk next visited above stack) {n : σ}
    (hn : (n, false) ∈ stack) : ∀ x ∈ above, Relation.TransGen (Step next) n x.1 := by
  induction stack generalizing above with
  | nil => cases hn
  | cons entry stack ih =>
    obtain ⟨m, b⟩ := entry
    cases b with
    | true =>
      have hn : (n, false) ∈ stack := (List.mem_cons.mp hn).resolve_left (by simp)
      exact fun x hx => ih h hn x (List.mem_append_left _ hx)
    | false =>
      rcases List.mem_cons.mp hn with heq | hn
      · cases heq
        exact h.1
      · exact fun x hx => ih h.2.2 hn x (List.mem_append_left _ hx)

/-- The state of the loop, with the nodes that have been yielded. -/
structure Good (next : σ → List σ) (stack : List (σ × Bool)) (visited : Finset σ) (done : List σ) : Prop where
  visited_iff : ∀ n, n ∈ visited ↔ n ∈ done ∨ (n, false) ∈ stack
  nodup : (done ++ leaving stack).Nodup
  closed : Closed next done
  stackOk : StackOk next visited [] stack

omit [DecidableEq σ] in
theorem Closed.snoc (h : Closed next done) (hnext : ∀ s ∈ next node, s ∈ done) : Closed next (done ++ [node]) := by
  intro front n back heq s hs
  rcases List.eq_nil_or_concat back with rfl | ⟨back, last, rfl⟩
  · obtain ⟨rfl, hlast⟩ := List.append_inj' heq rfl
    rw [← List.singleton_inj.mp hlast] at hs
    exact hnext s hs
  · have heq' : done ++ [node] = (front ++ n :: back) ++ [last] := by rw [heq]; simp
    obtain ⟨hdone, -⟩ := List.append_inj' heq' rfl
    exact h front n back hdone s hs

theorem Good.visit (h : Good next ((node, true) :: stack) visited done) (hnew : node ∉ visited) :
    Good next ((((next node).filter (· ∉ insert node visited)).map fun s => (s, true)).reverse ++
      (node, false) :: stack) (insert node visited) done := by
  have hpush : ∀ {x : σ × Bool}, x ∈ (((next node).filter (· ∉ insert node visited)).map fun s => (s, true)).reverse ↔
      x.2 = true ∧ x.1 ∈ next node ∧ x.1 ∉ insert node visited := by
    rintro ⟨s, b⟩
    rw [List.mem_reverse, List.mem_map]
    constructor
    · rintro ⟨s', hs', heq⟩
      cases heq
      exact ⟨rfl, by simpa using List.mem_filter.mp hs'⟩
    · rintro ⟨rfl, hs, hs'⟩
      exact ⟨s, List.mem_filter.mpr ⟨hs, by simpa using hs'⟩, rfl⟩
  generalize (((next node).filter (· ∉ insert node visited)).map fun s => (s, true)).reverse = pushed at hpush
  have hleaving : leaving (pushed ++ (node, false) :: stack) = node :: leaving stack := by
    have hnone : leaving pushed = [] := List.eq_nil_iff_forall_not_mem.mpr fun n hn => by
      have := (hpush.mp (mem_leaving.mp hn)).1
      cases this
    have happend : leaving (pushed ++ (node, false) :: stack) = leaving pushed ++ node :: leaving stack :=
      List.filterMap_append
    rw [happend, hnone, List.nil_append]
  have hstack : leaving ((node, true) :: stack) = leaving stack := rfl
  have hmem : ∀ n, (n, false) ∈ pushed ++ (node, false) :: stack ↔ n = node ∨ (n, false) ∈ stack := by
    intro n
    rw [← mem_leaving, hleaving, List.mem_cons, mem_leaving]
  have hvisited : ∀ n, n ∈ visited ↔ n ∈ done ∨ (n, false) ∈ stack := by
    intro n
    rw [h.visited_iff, List.mem_cons]
    simp
  refine ⟨fun n => ?_, ?_, h.closed, ?_⟩
  · rw [Finset.mem_insert, hvisited, hmem]
    tauto
  · have hnodup := h.nodup
    rw [hstack] at hnodup
    rw [hleaving]
    refine (List.perm_middle.nodup_iff).mpr (List.nodup_cons.mpr ⟨fun hin => hnew ?_, hnodup⟩)
    rw [hvisited, ← mem_leaving]
    exact List.mem_append.mp hin
  have hall : ∀ (above : List (σ × Bool)) (pushed' : List (σ × Bool)), (∀ x ∈ pushed', x.2 = true) →
      StackOk next (insert node visited) (above ++ pushed') ((node, false) :: stack) →
      StackOk next (insert node visited) above (pushed' ++ (node, false) :: stack) := by
    intro above pushed' htrue hok
    induction pushed' generalizing above with
    | nil => simpa using hok
    | cons x pushed' ih =>
      obtain ⟨s, b⟩ := x
      have hb : b = true := htrue (s, b) List.mem_cons_self
      subst hb
      refine ih (above ++ [(s, true)]) (fun x hx => htrue x (List.mem_cons_of_mem _ hx)) ?_
      rwa [List.append_assoc]
  refine hall [] pushed (fun x hx => (hpush.mp hx).1) ⟨fun x hx => ?_, fun s hs => ?_, ?_⟩
  · exact .single (hpush.mp hx).2.1
  · by_cases hs' : s ∈ insert node visited
    · exact .inl hs'
    · exact .inr (hpush.mpr ⟨rfl, hs, hs'⟩)
  refine StackOk.mono h.stackOk (Finset.subset_insert _ _) (fun m hm x hx => ?_) fun s hs => ?_
  · have hnode : Relation.TransGen (Step next) m node := hm (node, true) List.mem_cons_self
    rcases List.mem_append.mp hx with hx | hx
    · exact hnode.tail (hpush.mp hx).2.1
    · rw [List.mem_singleton.mp hx]
      exact hnode
  · rw [List.nil_append, List.mem_singleton] at hs
    cases hs
    exact .inl (Finset.mem_insert_self _ _)

omit [DecidableEq σ] in
theorem Good.skip (h : Good next ((node, true) :: stack) visited done) (hnode : node ∈ visited) :
    Good next stack visited done where
  visited_iff n := by
    rw [h.visited_iff, List.mem_cons]
    simp
  nodup := h.nodup
  closed := h.closed
  stackOk := StackOk.mono h.stackOk (Finset.Subset.refl _) (fun _ _ x hx => absurd hx List.not_mem_nil) fun s hs => by
    rw [List.nil_append, List.mem_singleton] at hs
    cases hs
    exact .inl hnode

omit [DecidableEq σ] in
theorem Good.leave (h : Good next ((node, false) :: stack) visited done)
    (hacyclic : ∀ x, ¬ Relation.TransGen (Step next) x x) : Good next stack visited (done ++ [node]) := by
  obtain ⟨-, hsucc, hrest⟩ := h.stackOk
  have hdone : ∀ s ∈ next node, s ∈ done := by
    intro s hs
    have hvisited := (hsucc s hs).resolve_right List.not_mem_nil
    rcases (h.visited_iff s).mp hvisited with hin | hin
    · exact hin
    rcases List.mem_cons.mp hin with heq | hin
    · cases heq
      exact absurd (.single hs) (hacyclic node)
    · exact absurd ((hrest.reach hin (node, false) List.mem_cons_self).tail hs) (hacyclic s)
  refine ⟨fun n => ?_, ?_, h.closed.snoc hdone, ?_⟩
  · rw [h.visited_iff, List.mem_cons, List.mem_append, List.mem_singleton, Prod.mk.injEq]
    tauto
  · rw [List.append_assoc]
    exact h.nodup
  · refine hrest.mono (Finset.Subset.refl _) (fun _ _ x hx => absurd hx List.not_mem_nil) fun s hs => ?_
    rw [List.nil_append, List.mem_singleton] at hs
    cases hs

/-- The rounds that are still to be made at most. -/
def work (next : σ → List σ) (U : Finset σ) (stack : List (σ × Bool)) (visited : Finset σ) : Nat :=
  stack.length + ∑ x ∈ U \ visited, (1 + (next x).length)

variable {U : Finset σ}

theorem work_visit (hnew : node ∉ visited) (hU : node ∈ U) :
    work next U ((((next node).filter (· ∉ insert node visited)).map fun s => (s, true)).reverse ++
      (node, false) :: stack) (insert node visited) < work next U ((node, true) :: stack) visited := by
  have hsplit : ∑ y ∈ U \ visited, (1 + (next y).length) =
      1 + (next node).length + ∑ y ∈ U \ insert node visited, (1 + (next y).length) := by
    rw [Finset.sdiff_insert, ← Finset.sum_erase_add _ _ (Finset.mem_sdiff.mpr ⟨hU, hnew⟩), add_comm]
  have hfilter := List.length_filter_le (fun y => decide (y ∉ insert node visited)) (next node)
  simp only [work, List.length_append, List.length_reverse, List.length_map, List.length_cons, hsplit]
  omega

variable {fuel : Nat}

/-- With fuel for the work that is left, the stack is emptied. -/
theorem postorder_good (hU : ∀ x ∈ U, ∀ y ∈ next x, y ∈ U) (hacyclic : ∀ x, ¬ Relation.TransGen (Step next) x x)
    (hfuel : work next U stack visited ≤ fuel) (hstack : ∀ x ∈ stack, x.1 ∈ U) (h : Good next stack visited done) :
    ∃ visited', Good next [] visited' (done ++ postorder next fuel stack visited) ∧ visited ⊆ visited' ∧
      ∀ x ∈ stack, x.1 ∈ visited' := by
  induction fuel generalizing stack visited done with
  | zero =>
    have hnil : stack = [] := by
      rw [← List.length_eq_zero_iff]
      unfold work at hfuel
      omega
    subst hnil
    exact ⟨visited, by simpa [postorder] using h, Finset.Subset.refl _, by simp⟩
  | succ fuel ih =>
    cases stack with
    | nil => exact ⟨visited, by simpa [postorder] using h, Finset.Subset.refl _, by simp⟩
    | cons entry stack =>
      obtain ⟨node, preVisit⟩ := entry
      have hrest : ∀ x ∈ stack, x.1 ∈ U := fun x hx => hstack x (List.mem_cons_of_mem _ hx)
      have hwork : work next U stack visited ≤ fuel := by
        simp only [work, List.length_cons] at hfuel ⊢
        omega
      rw [postorder]
      split
      · rename_i hnew
        obtain ⟨rfl, hnew⟩ := hnew
        have hnode : node ∈ U := hstack (node, true) List.mem_cons_self
        have hless := @work_visit σ _ next stack visited node U hnew hnode
        have hpushed : ∀ x ∈ (((next node).filter (· ∉ insert node visited)).map fun s => (s, true)).reverse ++
            (node, false) :: stack, x.1 ∈ U := by
          intro x hx
          rcases List.mem_append.mp hx with hx | hx
          · rw [List.mem_reverse, List.mem_map] at hx
            obtain ⟨s, hs, rfl⟩ := hx
            exact hU node hnode s (List.mem_filter.mp hs).1
          · rcases List.mem_cons.mp hx with rfl | hx
            · exact hnode
            · exact hrest x hx
        obtain ⟨visited', hgood, hsub, hin⟩ := ih (by omega) hpushed (h.visit hnew)
        refine ⟨visited', hgood, (Finset.subset_insert _ _).trans hsub, fun x hx => ?_⟩
        rcases List.mem_cons.mp hx with rfl | hx
        · exact hsub (Finset.mem_insert_self _ _)
        · exact hin x (List.mem_append_right _ (List.mem_cons_of_mem _ hx))
      · rename_i hold
        split
        · rename_i hpost
          subst hpost
          obtain ⟨visited', hgood, hsub, hin⟩ := ih hwork hrest (h.leave hacyclic)
          rw [List.append_assoc, List.singleton_append] at hgood
          refine ⟨visited', hgood, hsub, fun x hx => ?_⟩
          rcases List.mem_cons.mp hx with rfl | hx
          · exact hsub ((h.visited_iff node).mpr (.inr List.mem_cons_self))
          · exact hin x hx
        rename_i hpre
        have hpre : preVisit = true := by simpa using hpre
        subst hpre
        have hnode : node ∈ visited := by simpa using hold
        obtain ⟨visited', hgood, hsub, hin⟩ := ih hwork hrest (h.skip hnode)
        refine ⟨visited', hgood, hsub, fun x hx => ?_⟩
        rcases List.mem_cons.mp hx with rfl | hx
        · exact hsub hnode
        · exact hin x hx

/-- What is yielded was on the stack, or is reached from it. -/
theorem postorder_sound {P : σ → Prop} (hnext : ∀ x, P x → ∀ y ∈ next x, P y) (hstack : ∀ x ∈ stack, P x.1) :
    ∀ x ∈ postorder next fuel stack visited, P x := by
  induction fuel generalizing stack visited with
  | zero => exact fun x hx => absurd hx List.not_mem_nil
  | succ fuel ih =>
    cases stack with
    | nil => exact fun x hx => absurd hx List.not_mem_nil
    | cons entry stack =>
      obtain ⟨node, preVisit⟩ := entry
      have hnode : P node := hstack (node, preVisit) List.mem_cons_self
      have hrest : ∀ x ∈ stack, P x.1 := fun x hx => hstack x (List.mem_cons_of_mem _ hx)
      rw [postorder]
      split
      · refine ih fun x hx => ?_
        rcases List.mem_append.mp hx with hx | hx
        · rw [List.mem_reverse, List.mem_map] at hx
          obtain ⟨s, hs, rfl⟩ := hx
          exact hnext node hnode s (List.mem_filter.mp hs).1
        · rcases List.mem_cons.mp hx with rfl | hx
          · exact hnode
          · exact hrest x hx
      split
      · intro x hx
        rcases List.mem_cons.mp hx with rfl | hx
        · exact hnode
        · exact ih hrest x hx
      · exact ih hrest

/-- The whole search from one node of an acyclic graph. -/
theorem postorder_spec (hU : ∀ x ∈ U, ∀ y ∈ next x, y ∈ U) (hacyclic : ∀ x, ¬ Relation.TransGen (Step next) x x)
    {source : σ} (hsource : source ∈ U) (hfuel : work next U [(source, true)] ∅ ≤ fuel) :
    (postorder next fuel [(source, true)] ∅).Nodup ∧ Closed next (postorder next fuel [(source, true)] ∅) ∧
      ∀ x, x ∈ postorder next fuel [(source, true)] ∅ ↔ Relation.ReflTransGen (Step next) source x := by
  have hstart : Good next [(source, true)] ∅ [] := by
    refine ⟨fun n => by simp, by simp [leaving], ?_, trivial⟩
    rintro front n back heq
    exact absurd heq.symm (by simp)
  obtain ⟨visited', hgood, -, hin⟩ := postorder_good hU hacyclic hfuel (by simpa using hsource) hstart
  rw [List.nil_append] at hgood
  have hnodup := hgood.nodup
  rw [show leaving ([] : List (σ × Bool)) = [] from rfl, List.append_nil] at hnodup
  refine ⟨hnodup, hgood.closed, fun x => ⟨fun hx => ?_, fun hx => ?_⟩⟩
  · refine postorder_sound (P := Relation.ReflTransGen (Step next) source) (fun x hx y hy => hx.tail hy) ?_ x hx
    intro y hy
    rw [List.mem_singleton.mp hy]
  induction hx with
  | refl =>
    have hmem : source ∈ visited' := hin (source, true) List.mem_cons_self
    exact ((hgood.visited_iff source).mp hmem).resolve_right List.not_mem_nil
  | tail _ hstep ih =>
    obtain ⟨front, back, heq⟩ := List.append_of_mem ih
    rw [heq]
    exact List.mem_append_left _ (hgood.closed front _ back heq _ hstep)

omit [DecidableEq σ] in
theorem stackOk_of_all_visit {above : List (σ × Bool)} (h : ∀ x ∈ stack, x.2 = true) : StackOk next visited above stack := by
  induction stack generalizing above with
  | nil => trivial
  | cons entry stack ih =>
    obtain ⟨n, b⟩ := entry
    have hb : b = true := h (n, b) List.mem_cons_self
    subst hb
    exact ih fun x hx => h x (List.mem_cons_of_mem _ hx)

/-- The whole search from several nodes of an acyclic graph. -/
theorem postorder_forest (hU : ∀ x ∈ U, ∀ y ∈ next x, y ∈ U) (hacyclic : ∀ x, ¬ Relation.TransGen (Step next) x x)
    {sources : List σ} (hsources : ∀ x ∈ sources, x ∈ U)
    (hfuel : work next U (sources.map fun n => (n, true)) ∅ ≤ fuel) :
    Closed next (postorder next fuel (sources.map fun n => (n, true)) ∅) ∧
      (∀ x ∈ sources, x ∈ postorder next fuel (sources.map fun n => (n, true)) ∅) ∧
      ∀ x ∈ postorder next fuel (sources.map fun n => (n, true)) ∅, x ∈ U := by
  have hvisit : ∀ x ∈ sources.map fun n => (n, true), x.2 = true := by
    intro x hx
    obtain ⟨n, -, rfl⟩ := List.mem_map.mp hx
    rfl
  have hin_U : ∀ x ∈ sources.map fun n => (n, true), x.1 ∈ U := by
    intro x hx
    obtain ⟨n, hn, rfl⟩ := List.mem_map.mp hx
    exact hsources n hn
  have hnone : ∀ n, (n, false) ∉ sources.map fun n => (n, true) := fun n hn => by cases hvisit _ hn
  have hstart : Good next (sources.map fun n => (n, true)) ∅ [] := by
    refine ⟨fun n => by simp [hnone n], ?_, ?_, stackOk_of_all_visit hvisit⟩
    · have hnil : leaving (sources.map fun n => (n, true)) = [] :=
        List.eq_nil_iff_forall_not_mem.mpr fun n hn => hnone n (mem_leaving.mp hn)
      rw [hnil]
      exact List.nodup_nil
    · intro front n back heq
      exact absurd heq.symm (by simp)
  obtain ⟨visited', hgood, -, hin⟩ := postorder_good hU hacyclic hfuel hin_U hstart
  rw [List.nil_append] at hgood
  refine ⟨hgood.closed, fun x hx => ?_, postorder_sound hU hin_U⟩
  have hmem : x ∈ visited' := hin (x, true) (List.mem_map_of_mem hx)
  exact ((hgood.visited_iff x).mp hmem).resolve_right List.not_mem_nil

omit [DecidableEq σ] in
/-- In a closed list what is reached from a node comes before it. -/
theorem Closed.mem_front {l : List σ} (h : Closed next l) {a b : σ} (hab : Relation.TransGen (Step next) a b)
    {front back : List σ} (hl : l = front ++ a :: back) : b ∈ front := by
  induction hab with
  | single hstep => exact h front a back hl _ hstep
  | tail _ hstep ih =>
    obtain ⟨front', back', heq⟩ := List.append_of_mem ih
    rw [heq, List.append_assoc, List.cons_append] at hl
    rw [heq]
    exact List.mem_append_left _ (h front' _ _ hl _ hstep)

omit [DecidableEq σ] in
/-- The reverse of a closed list is a topological order. -/
theorem Closed.before {l : List σ} (h : Closed next l) {a b : σ} (hab : Relation.TransGen (Step next) a b) (ha : a ∈ l) :
    Before l.reverse a b := by
  obtain ⟨front, back, rfl⟩ := List.append_of_mem ha
  refine ⟨(a :: back).reverse, front.reverse, List.reverse_append, ?_, ?_⟩
  · exact List.mem_reverse.mpr List.mem_cons_self
  · exact List.mem_reverse.mpr (h.mem_front hab rfl)

theorem Before.idxOf_lt {l : List σ} (hnodup : l.Nodup) {a b : σ} (h : Before l a b) : l.idxOf a < l.idxOf b := by
  obtain ⟨front, back, rfl, ha, hb⟩ := h
  have hb' : b ∉ front := fun hmem => (List.nodup_append'.mp hnodup).2.2 hmem hb
  rw [List.idxOf_append_of_mem ha, List.idxOf_append_of_notMem hb']
  exact Nat.lt_add_right _ (List.idxOf_lt_length_of_mem ha)

end Dfs
