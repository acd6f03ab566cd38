import Mathlib.Data.List.Chain

/-!
# Liveness along paths

The edges of a graph carry events, uses and definitions of variables in the order in
which they happen when the edge is taken. A variable is live at a node if some path
that leaves the node meets a use of it before any definition of it.
-/

namespace Liveness

variable {B V : Type*} {edge : B → B → Prop} {events events' : B → B → List (V ⊕ V)} {v : V} {b : B}

/-- The event that uses `v`. -/
abbrev use (v : V) : V ⊕ V := .inl v

/-- The event that defines `v`. -/
abbrev define (v : V) : V ⊕ V := .inr v

/-- A use of `v` is met before any definition of `v`. -/
def Reaches (v : V) (es : List (V ⊕ V)) : Prop :=
  ∃ before after, es = before ++ use v :: after ∧ define v ∉ before

theorem not_reaches_nil : ¬ Reaches v [] := by
  rintro ⟨before, after, heq, -⟩
  simp at heq

theorem reaches_cons {e : V ⊕ V} {es : List (V ⊕ V)} :
    Reaches v (e :: es) ↔ e = use v ∨ e ≠ define v ∧ Reaches v es := by
  constructor
  · rintro ⟨before, after, heq, hno⟩
    cases before with
    | nil => exact .inl (List.cons.inj heq).1
    | cons e' before =>
      obtain ⟨rfl, rfl⟩ := List.cons.inj heq
      refine .inr ⟨?_, before, after, rfl, fun h => hno (List.mem_cons_of_mem _ h)⟩
      rintro rfl
      exact hno List.mem_cons_self
  rintro (rfl | ⟨hne, before, after, rfl, hno⟩)
  · exact ⟨[], es, rfl, by simp⟩
  · refine ⟨e :: before, after, rfl, ?_⟩
    rw [List.mem_cons, not_or]
    exact ⟨Ne.symm hne, hno⟩

theorem reaches_append {es es' : List (V ⊕ V)} :
    Reaches v (es ++ es') ↔ Reaches v es ∨ define v ∉ es ∧ Reaches v es' := by
  induction es with
  | nil => simp [not_reaches_nil]
  | cons e es ih =>
    rw [List.cons_append, reaches_cons, reaches_cons, ih, List.mem_cons, not_or]
    constructor
    · rintro (h | ⟨hne, h | ⟨hno, h⟩⟩)
      · exact .inl (.inl h)
      · exact .inl (.inr ⟨hne, h⟩)
      · exact .inr ⟨⟨Ne.symm hne, hno⟩, h⟩
    rintro ((h | ⟨hne, h⟩) | ⟨⟨hne, hno⟩, h⟩)
    · exact .inl h
    · exact .inr ⟨hne, .inl h⟩
    · exact .inr ⟨Ne.symm hne, .inr ⟨hno, h⟩⟩

theorem reaches_uses {vs : List V} : Reaches v (vs.map use) ↔ v ∈ vs := by
  induction vs with
  | nil => simp [not_reaches_nil]
  | cons u vs ih =>
    rw [List.map_cons, reaches_cons, ih, List.mem_cons]
    simp [use, define, eq_comm]

theorem not_reaches_defines {vs : List V} : ¬ Reaches v (vs.map define) := by
  rintro ⟨before, after, heq, -⟩
  have hmem : use v ∈ vs.map define := heq ▸ List.mem_append_right before List.mem_cons_self
  simp [use, define] at hmem

/-- The events met along a path from `b`. -/
def pathEvents (events : B → B → List (V ⊕ V)) : B → List B → List (V ⊕ V)
  | _, [] => []
  | b, c :: path => events b c ++ pathEvents events c path

/-- Some path that leaves `b` meets a use of `v` before any definition of `v`. -/
def LiveOut (edge : B → B → Prop) (events : B → B → List (V ⊕ V)) (b : B) (v : V) : Prop :=
  ∃ path, (b :: path).IsChain edge ∧ Reaches v (pathEvents events b path)

theorem LiveOut.here {c : B} (hedge : edge b c) (h : Reaches v (events b c)) : LiveOut edge events b v := by
  refine ⟨[c], List.isChain_pair.mpr hedge, ?_⟩
  rw [pathEvents, reaches_append]
  exact .inl h

theorem LiveOut.step {c : B} (hedge : edge b c) (hno : define v ∉ events b c)
    (h : LiveOut edge events c v) : LiveOut edge events b v := by
  obtain ⟨path, hchain, hreach⟩ := h
  refine ⟨c :: path, List.isChain_cons_cons.mpr ⟨hedge, hchain⟩, ?_⟩
  rw [pathEvents, reaches_append]
  exact .inr ⟨hno, hreach⟩

/-- Induction on the path: the use is met on the first edge, or the first edge leads to a
node where the variable is live. -/
theorem LiveOut.induction {motive : B → Prop} (h : LiveOut edge events b v)
    (hedge : ∀ b c, edge b c → Reaches v (events b c) → motive b)
    (hstep : ∀ b c, edge b c → define v ∉ events b c → LiveOut edge events c v → motive c → motive b) :
    motive b := by
  obtain ⟨path, hchain, hreach⟩ := h
  induction path generalizing b with
  | nil => exact absurd hreach not_reaches_nil
  | cons c path ih =>
    obtain ⟨hbc, hchain⟩ := List.isChain_cons_cons.mp hchain
    rw [pathEvents, reaches_append] at hreach
    rcases hreach with hreach | ⟨hno, hreach⟩
    · exact hedge b c hbc hreach
    · exact hstep b c hbc hno ⟨path, hchain, hreach⟩ (ih hchain hreach)

end Liveness
