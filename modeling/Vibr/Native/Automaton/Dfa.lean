import Vibr.Native.Automaton.EpsilonNfa

/-!
# DFA

`native/angr/src/automaton/dfa.rs`, up to minimization. The transition function is partial:
a word for which a transition is missing is not accepted.
-/

namespace Angr.Automaton

structure DFA where
  numStates : Nat := 0
  startState : Option Nat := none
  finalStates : StateSet := ∅
  transitions : Dict (Nat × Nat) Nat := []
  /-- The sources of the transitions into a state. -/
  reverseTransitions : Dict (Nat × Nat) StateSet := []
  alphabet : Finset Nat := ∅
  /-- The states of the NFA that a state stands for. -/
  stateMapping : Option (Dict Nat (List Nat)) := none
  transitionLabels : Dict (Nat × Nat) (List UInt8) := []

/-- The order in which a hash set of symbols is iterated. -/
structure HashOrder where
  iter : Finset Nat → List Nat
  nodup : ∀ s, (iter s).Nodup
  mem_iter : ∀ s a, a ∈ iter s ↔ a ∈ s

namespace DFA

variable (self : DFA)

def addState : Nat × DFA :=
  (self.numStates, { self with numStates := self.numStates + 1 })

def setStartState (state : Nat) : DFA := { self with startState := some state }

def addFinalState (state : Nat) : DFA :=
  { self with finalStates := insert state self.finalStates }

/-- The entry of `reverse_transitions`, empty if there is none. -/
def sources (destination symbol : Nat) : StateSet :=
  (self.reverseTransitions.get? (destination, symbol)).getD ∅

def addTransition (source symbol destination : Nat) : DFA :=
  { self with
    alphabet := insert symbol self.alphabet
    transitions := self.transitions.set (source, symbol) destination
    reverseTransitions := self.reverseTransitions.set (destination, symbol)
      (insert source (self.sources destination symbol)) }

def transition (source symbol : Nat) : Option Nat := self.transitions.get? (source, symbol)

def setStateMapping (mapping : Dict Nat (List Nat)) : DFA := { self with stateMapping := some mapping }

/-! ## Runs -/

/-- Whether a final state is reached from a state by a word. -/
def acceptsFrom : Nat → List Nat → Bool
  | state, [] => decide (state ∈ self.finalStates)
  | state, symbol :: word =>
    match self.transition state symbol with
    | some next => acceptsFrom next word
    | none => false

def accepts (word : List Nat) : Bool :=
  match self.startState with
  | some start => self.acceptsFrom start word
  | none => false

variable {self} in
theorem acceptsFrom_setStateMapping (mapping : Dict Nat (List Nat)) (state : Nat) (word : List Nat) :
    (self.setStateMapping mapping).acceptsFrom state word = self.acceptsFrom state word := by
  induction word generalizing state with
  | nil => rfl
  | cons symbol word ih =>
    have htrans : (self.setStateMapping mapping).transition state symbol
        = self.transition state symbol := rfl
    rw [acceptsFrom, acceptsFrom, htrans]
    cases self.transition state symbol with
    | none => rfl
    | some next => exact ih next

/-! ## Tables -/

/-- The tables agree: the reverse transitions are those of the transitions, on symbols of
the alphabet. -/
structure Consistent (D : DFA) : Prop where
  mem_sources : ∀ source symbol destination,
    source ∈ D.sources destination symbol ↔ D.transition source symbol = some destination
  mem_alphabet : ∀ source symbol destination,
    D.transition source symbol = some destination → symbol ∈ D.alphabet

variable {self} {source symbol destination s a : Nat}

@[simp] theorem transition_addTransition :
    (self.addTransition source symbol destination).transition s a
      = if source = s ∧ symbol = a then some destination else self.transition s a := by
  simp [addTransition, transition]

theorem sources_addTransition (t : Nat) :
    (self.addTransition source symbol destination).sources t a
      = if destination = t ∧ symbol = a then insert source (self.sources t a)
        else self.sources t a := by
  simp only [addTransition, sources, Dict.get?_set, Prod.mk.injEq]
  split
  · rename_i h
    rw [h.1, h.2, Option.getD_some]
  · rfl

theorem Consistent.empty : Consistent {} where
  mem_sources := by simp [sources, transition]
  mem_alphabet := by simp [transition]

/-- A second transition would leave the source among those of the first one. -/
theorem Consistent.addTransition (h : self.Consistent) (hnone : self.transition source symbol = none) :
    (self.addTransition source symbol destination).Consistent where
  mem_sources s a t := by
    rw [sources_addTransition, transition_addTransition]
    have hs := h.mem_sources s a t
    by_cases hsrc : source = s ∧ symbol = a
    · obtain ⟨rfl, rfl⟩ := hsrc
      rw [hnone] at hs
      by_cases ht : destination = t
      · simp [ht]
      · simp [ht, hs]
    rw [if_neg hsrc, ← hs]
    split
    · rename_i ht
      rw [Finset.mem_insert, or_iff_right]
      exact fun heq => hsrc ⟨heq.symm, ht.2⟩
    · exact Iff.rfl
  mem_alphabet s a t ht := by
    rw [transition_addTransition] at ht
    split at ht
    · rename_i heq
      rw [← heq.2]
      exact Finset.mem_insert_self _ _
    · exact Finset.mem_insert_of_mem (h.mem_alphabet s a t ht)

structure WellFormed (D : DFA) : Prop extends D.Consistent where
  start_lt : ∀ start, D.startState = some start → start < D.numStates
  dest_lt : ∀ source symbol destination,
    D.transition source symbol = some destination → destination < D.numStates

end DFA

end Angr.Automaton
