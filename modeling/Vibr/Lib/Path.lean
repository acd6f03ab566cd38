import Vibr.Lib.FinGraph

/-!
# Paths

A path visits a list of nodes, each of which has an edge to the next one. A node may be
visited more than once.
-/

namespace FinGraph

variable {T : Type*} {g : FinGraph T} {u v w : T} {l front back : List T}

/-- The nodes that a path visits, the two ends included. -/
inductive Path (g : FinGraph T) : T → T → List T → Prop
  | single (u : T) : Path g u u [u]
  | cons {u v w : T} {l : List T} : g.Edge u v → Path g v w l → Path g u w (u :: l)

namespace Path

theorem head (h : g.Path u v l) : ∃ l', l = u :: l' := by
  cases h with
  | single => exact ⟨[], rfl⟩
  | cons _ _ => exact ⟨_, rfl⟩

theorem head_mem (h : g.Path u v l) : u ∈ l := by
  obtain ⟨l', rfl⟩ := h.head
  exact List.mem_cons_self

theorem last_mem (h : g.Path u v l) : v ∈ l := by
  induction h with
  | single => exact List.mem_singleton_self _
  | cons _ _ ih => exact List.mem_cons_of_mem _ ih

theorem reach (h : g.Path u v l) : g.Reach u v := by
  induction h with
  | single => exact .refl
  | cons hedge _ ih => exact .head hedge ih

/-- A path is cut at a node that it visits. -/
theorem append_iff : g.Path u w (front ++ v :: back) ↔ g.Path u v (front ++ [v]) ∧ g.Path v w (v :: back) := by
  induction front generalizing u with
  | nil =>
    constructor
    · intro h
      obtain ⟨l', heq⟩ := h.head
      cases heq
      exact ⟨.single v, h⟩
    intro h
    obtain ⟨l', heq⟩ := h.1.head
    cases heq
    exact h.2
  | cons a front ih =>
    constructor
    · intro h
      generalize heq : a :: front ++ v :: back = l at h
      cases h with
      | single => simp at heq
      | cons hedge htail =>
        cases heq
        obtain ⟨hfront, hback⟩ := ih.mp htail
        exact ⟨.cons hedge hfront, hback⟩
    intro h
    obtain ⟨hfront, hback⟩ := h
    generalize heq : a :: front ++ [v] = l at hfront
    cases hfront with
    | single => simp at heq
    | cons hedge htail =>
      cases heq
      exact .cons hedge (ih.mpr ⟨htail, hback⟩)

theorem snoc (h : g.Path u v l) (hedge : g.Edge v w) : g.Path u w (l ++ [w]) := by
  induction h with
  | single => exact .cons hedge (.single w)
  | cons hedge' _ ih => exact .cons hedge' (ih hedge)

/-- A path goes on where another one ends. -/
theorem append (h : g.Path u v l) (h' : g.Path v w (v :: back)) : g.Path u w (l ++ back) := by
  induction h with
  | single => exact h'
  | cons hedge _ ih => exact .cons hedge (ih h')

theorem last (h : g.Path u v l) : ∃ l', l = l' ++ [v] := by
  induction h with
  | single => exact ⟨[], rfl⟩
  | @cons u v w l _ _ ih =>
    obtain ⟨l', rfl⟩ := ih
    exact ⟨u :: l', rfl⟩

/-- The edge at the front of a path. -/
theorem edge_of_cons {a b : T} (h : g.Path u w (a :: b :: l)) : g.Edge a b ∧ g.Path b w (b :: l) := by
  cases h with
  | cons hedge htail =>
    obtain ⟨l', heq⟩ := htail.head
    cases heq
    exact ⟨hedge, htail⟩

/-- Two paths with an edge between them. -/
theorem join {x : T} (h : g.Path u v l) (hedge : g.Edge v w) (h' : g.Path w x back) : g.Path u x (l ++ back) := by
  induction h with
  | single => exact .cons hedge h'
  | cons hedge' _ ih => exact .cons hedge' (ih hedge)

end Path

/-- Two nodes one after the other in a list are its first two, or are further behind. -/
theorem pair_infix_cons {a b : T} (h : [u, v] <:+: a :: b :: l) : (u = a ∧ v = b) ∨ [u, v] <:+: b :: l := by
  rcases List.infix_cons_iff.mp h with h | h
  · obtain ⟨hu, h⟩ := List.cons_prefix_cons.mp h
    exact .inl ⟨hu, (List.cons_prefix_cons.mp h).1⟩
  · exact .inr h

/-- Every element but the first is behind another one. -/
theorem exists_pair_infix {a : T} (h : v ∈ l) : ∃ u, [u, v] <:+: a :: l := by
  induction l generalizing a with
  | nil => cases h
  | cons b l ih =>
    rcases List.mem_cons.mp h with rfl | h
    · exact ⟨a, [], l, rfl⟩
    · obtain ⟨u, hu⟩ := ih h
      exact ⟨u, List.infix_cons_iff.mpr (.inr hu)⟩

theorem Reach.exists_path (h : g.Reach u v) : ∃ l, g.Path u v l := by
  induction h with
  | refl => exact ⟨_, .single u⟩
  | tail _ hedge ih =>
    obtain ⟨l, hl⟩ := ih
    exact ⟨_, hl.snoc hedge⟩

end FinGraph
