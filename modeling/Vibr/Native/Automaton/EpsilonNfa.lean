import Mathlib.Computability.EpsilonNFA
import Mathlib.Data.Finset.Sort
import Vibr.Lib.Dict
import Vibr.Lib.Explore

/-!
# EpsilonNFA

`native/angr/src/automaton/epsilon_nfa.rs`, with `state.rs` and `symbol.rs`. A `StateSet`
is a bit set, iterated in ascending order. A state and a symbol are a `u32`, here a number: the
Python bindings number both from zero.
-/

namespace Angr.Automaton

abbrev StateSet := Finset Nat

/-- `u32::MAX`. -/
def EPSILON : Nat := 2 ^ 32 - 1

/-- The states in ascending order, as `iter` gives them. -/
def toVec (states : StateSet) : List Nat := states.sort

@[simp] theorem mem_toVec {states : StateSet} {s : Nat} : s ∈ toVec states ↔ s ∈ states :=
  Finset.mem_sort _

theorem toVec_inj {S T : StateSet} : toVec S = toVec T ↔ S = T := by
  refine ⟨fun h => ?_, fun h => by rw [h]⟩
  ext s
  rw [← mem_toVec, h, mem_toVec]

structure EpsilonNFA where
  numStates : Nat := 0
  startStates : StateSet := ∅
  finalStates : StateSet := ∅
  transitions : Dict (Nat × Nat) StateSet := []
  /-- All symbols used, without epsilon. -/
  alphabet : Finset Nat := ∅
  epsilonClosures : Option (List StateSet) := none

namespace EpsilonNFA

/-- The entry of `transitions`, empty if there is none. -/
def destinations (self : EpsilonNFA) (source : Nat) (symbol : Nat) : StateSet :=
  (self.transitions.get? (source, symbol)).getD ∅

def ensureState (self : EpsilonNFA) (state : Nat) : EpsilonNFA :=
  if self.numStates ≤ state then
    { self with numStates := state + 1, epsilonClosures := none }
  else self

def addTransition (self : EpsilonNFA) (source : Nat) (symbol : Nat)
    (destination : Nat) : EpsilonNFA :=
  let self := (self.ensureState source).ensureState destination
  { self with
    alphabet := if symbol = EPSILON then self.alphabet else insert symbol self.alphabet
    transitions := self.transitions.set (source, symbol)
      (insert destination (self.destinations source symbol))
    epsilonClosures := none }

def addEpsilonTransition (self : EpsilonNFA) (source destination : Nat) : EpsilonNFA :=
  self.addTransition source EPSILON destination

def addStartState (self : EpsilonNFA) (state : Nat) : EpsilonNFA :=
  let self := self.ensureState state
  { self with startStates := insert state self.startStates }

def addFinalState (self : EpsilonNFA) (state : Nat) : EpsilonNFA :=
  let self := self.ensureState state
  { self with finalStates := insert state self.finalStates }

/-- The depth-first search that both closure functions make, from the states of a stack. -/
def closureOf (self : EpsilonNFA) (stack : List Nat) : StateSet :=
  let follow := fun s => toVec (self.destinations s EPSILON)
  Explore.run .stack follow (Explore.work follow (Finset.range self.numStates) stack ∅) stack ∅

def epsilonClosureSingle (self : EpsilonNFA) (state : Nat) : StateSet :=
  self.closureOf [state]

def computeEpsilonClosures (self : EpsilonNFA) : EpsilonNFA :=
  if self.epsilonClosures.isSome then self
  else { self with epsilonClosures := some ((List.range self.numStates).map self.epsilonClosureSingle) }

def epsilonClosure (self : EpsilonNFA) (states : StateSet) : StateSet :=
  match self.epsilonClosures with
  | some cached =>
    (toVec states).foldl
      (fun closure s => if s < cached.length then closure ∪ cached.getD s ∅ else closure) ∅
  | none => self.closureOf (toVec states).reverse

/-- `none` is the failed assertion that the symbol is not epsilon. -/
def moveOnSymbol (self : EpsilonNFA) (states : StateSet) (symbol : Nat) : Option StateSet :=
  if symbol = EPSILON then none
  else
    let reached := (toVec states).foldl (fun reached s => reached ∪ self.destinations s symbol) ∅
    some (self.epsilonClosure reached)

/-! ## The automata that the methods build -/

inductive Call where
  | addTransition (source : Nat) (symbol : Nat) (destination : Nat)
  | addEpsilonTransition (source destination : Nat)
  | addStartState (state : Nat)
  | addFinalState (state : Nat)
  | computeEpsilonClosures
  deriving DecidableEq

def call (self : EpsilonNFA) : Call → EpsilonNFA
  | .addTransition source symbol destination => self.addTransition source symbol destination
  | .addEpsilonTransition source destination => self.addEpsilonTransition source destination
  | .addStartState state => self.addStartState state
  | .addFinalState state => self.addFinalState state
  | .computeEpsilonClosures => self.computeEpsilonClosures

def build (calls : List Call) : EpsilonNFA := calls.foldl call {}

/-- The automaton that the data stand for. A word has no epsilon in it. -/
def toεNFA (self : EpsilonNFA) : εNFA Nat Nat where
  step s
    | none => self.destinations s EPSILON
    | some a => if a = EPSILON then ∅ else self.destinations s a
  start := self.startStates
  accept := self.finalStates

/-! ## Invariant -/

structure WellFormed (N : EpsilonNFA) : Prop where
  start_lt : ∀ s ∈ N.startStates, s < N.numStates
  dest_lt : ∀ s a, ∀ t ∈ N.destinations s a, t < N.numStates
  mem_alphabet : ∀ s a, a ≠ EPSILON → (N.destinations s a).Nonempty → a ∈ N.alphabet
  epsilon_notMem : EPSILON ∉ N.alphabet
  cached : ∀ closures, N.epsilonClosures = some closures →
    closures = (List.range N.numStates).map N.epsilonClosureSingle

variable {self : EpsilonNFA} {s : Nat} {a : Nat}

@[simp] theorem destinations_ensureState (state : Nat) :
    (self.ensureState state).destinations = self.destinations := by
  unfold ensureState
  split <;> rfl

@[simp] theorem alphabet_ensureState (state : Nat) :
    (self.ensureState state).alphabet = self.alphabet := by
  unfold ensureState
  split <;> rfl

@[simp] theorem startStates_ensureState (state : Nat) :
    (self.ensureState state).startStates = self.startStates := by
  unfold ensureState
  split <;> rfl

theorem numStates_ensureState (state : Nat) :
    (self.ensureState state).numStates = max self.numStates (state + 1) := by
  unfold ensureState
  split <;> simp <;> omega

theorem destinations_addTransition (source destination : Nat) (symbol : Nat) :
    (self.addTransition source symbol destination).destinations s a
      = if (source, symbol) = (s, a) then insert destination (self.destinations s a)
        else self.destinations s a := by
  unfold addTransition
  simp only [destinations_ensureState]
  simp only [destinations, Dict.get?_set]
  split
  · rename_i h
    cases h
    rfl
  · rw [← destinations, destinations_ensureState, destinations_ensureState, destinations]

theorem WellFormed.empty : WellFormed {} where
  start_lt := by simp
  dest_lt := by simp [destinations]
  mem_alphabet := by simp [destinations]
  epsilon_notMem := by simp
  cached := by simp

theorem WellFormed.ensureState (h : self.WellFormed) (state : Nat) :
    (self.ensureState state).WellFormed where
  start_lt s hs := by
    rw [startStates_ensureState] at hs
    exact (h.start_lt s hs).trans_le (by rw [numStates_ensureState]; exact le_max_left _ _)
  dest_lt s a t ht := by
    rw [destinations_ensureState] at ht
    exact (h.dest_lt s a t ht).trans_le (by rw [numStates_ensureState]; exact le_max_left _ _)
  mem_alphabet s a ha hne := by
    rw [destinations_ensureState] at hne
    rw [alphabet_ensureState]
    exact h.mem_alphabet s a ha hne
  epsilon_notMem := by
    rw [alphabet_ensureState]
    exact h.epsilon_notMem
  cached closures hc := by
    unfold EpsilonNFA.ensureState at hc ⊢
    split at hc
    · simp at hc
    · rename_i hlt
      rw [if_neg hlt]
      exact h.cached closures hc

theorem WellFormed.addTransition (h : self.WellFormed) (source : Nat) (symbol : Nat)
    (destination : Nat) : (self.addTransition source symbol destination).WellFormed where
  start_lt s hs := ((h.ensureState source).ensureState destination).start_lt s hs
  dest_lt s a t ht := by
    rw [destinations_addTransition] at ht
    have hnum : (self.addTransition source symbol destination).numStates
        = max (max self.numStates (source + 1)) (destination + 1) := by
      simp only [EpsilonNFA.addTransition, numStates_ensureState]
    rw [hnum]
    split at ht
    · rcases Finset.mem_insert.mp ht with rfl | ht
      · omega
      · have := h.dest_lt s a t ht
        omega
    · have := h.dest_lt s a t ht
      omega
  mem_alphabet s a ha hne := by
    rw [destinations_addTransition] at hne
    simp only [EpsilonNFA.addTransition, alphabet_ensureState]
    split at hne
    · rename_i heq
      cases heq
      rw [if_neg ha]
      exact Finset.mem_insert_self _ _
    have := h.mem_alphabet s a ha hne
    split
    · exact this
    · exact Finset.mem_insert_of_mem this
  epsilon_notMem := by
    simp only [EpsilonNFA.addTransition, alphabet_ensureState]
    split
    · exact h.epsilon_notMem
    · rename_i hne
      simpa [Ne.symm hne] using h.epsilon_notMem
  cached closures hc := by simp [EpsilonNFA.addTransition] at hc

theorem WellFormed.addStartState (h : self.WellFormed) (state : Nat) :
    (self.addStartState state).WellFormed where
  start_lt s hs := by
    rcases Finset.mem_insert.mp hs with rfl | hs
    · simp only [EpsilonNFA.addStartState, numStates_ensureState]
      omega
    · exact (h.ensureState state).start_lt s hs
  dest_lt := (h.ensureState state).dest_lt
  mem_alphabet := (h.ensureState state).mem_alphabet
  epsilon_notMem := (h.ensureState state).epsilon_notMem
  cached := (h.ensureState state).cached

theorem WellFormed.addFinalState (h : self.WellFormed) (state : Nat) :
    (self.addFinalState state).WellFormed where
  start_lt := (h.ensureState state).start_lt
  dest_lt := (h.ensureState state).dest_lt
  mem_alphabet := (h.ensureState state).mem_alphabet
  epsilon_notMem := (h.ensureState state).epsilon_notMem
  cached := (h.ensureState state).cached

theorem WellFormed.computeEpsilonClosures (h : self.WellFormed) :
    self.computeEpsilonClosures.WellFormed := by
  unfold EpsilonNFA.computeEpsilonClosures
  split
  · exact h
  · exact ⟨h.start_lt, h.dest_lt, h.mem_alphabet, h.epsilon_notMem,
      fun closures hc => (Option.some.inj hc).symm⟩

theorem WellFormed.call (h : self.WellFormed) (c : Call) : (self.call c).WellFormed := by
  cases c with
  | addTransition source symbol destination => exact h.addTransition source symbol destination
  | addEpsilonTransition source destination => exact h.addTransition source EPSILON destination
  | addStartState state => exact h.addStartState state
  | addFinalState state => exact h.addFinalState state
  | computeEpsilonClosures => exact h.computeEpsilonClosures

/-- What the methods build is well formed. -/
theorem build_wellFormed (calls : List Call) : (build calls).WellFormed := by
  unfold build
  induction calls using List.reverseRecOn with
  | nil => exact WellFormed.empty
  | append_singleton calls c ih =>
    rw [List.foldl_append]
    exact ih.call c

/-! ## Closures -/

variable {states stack : List Nat} {S : StateSet}

/-- The search finds exactly the states that are reached by epsilon transitions. -/
theorem closureOf_spec (h : self.WellFormed) (hstack : ∀ s ∈ stack, s < self.numStates) :
    (self.closureOf stack : Set Nat) = self.toεNFA.εClosure {s | s ∈ stack} := by
  have hU : ∀ x ∈ Finset.range self.numStates,
      ∀ y ∈ toVec (self.destinations x EPSILON), y ∈ Finset.range self.numStates := by
    intro x _ y hy
    exact Finset.mem_range.mpr (h.dest_lt x EPSILON y (mem_toVec.mp hy))
  have hopen : Explore.Open (fun s => toVec (self.destinations s EPSILON)) stack ∅ := by
    simp [Explore.Open]
  obtain ⟨-, hall, hclosed⟩ := Explore.run_complete (A := .stack) hU le_rfl
    (fun x hx => Finset.mem_range.mpr (hstack x hx)) hopen
  apply Set.Subset.antisymm
  · intro x hx
    refine Explore.run_sound (P := fun x => x ∈ self.toεNFA.εClosure {s | s ∈ stack})
      ?_ ?_ (by simp) x hx
    · intro x hx y hy
      exact εNFA.εClosure.step x y (mem_toVec.mp hy) hx
    · intro x hx
      exact εNFA.εClosure.base x hx
  intro x hx
  induction hx with
  | base x hx => exact hall x hx
  | step x y hy _ ih => exact hclosed x ih y (mem_toVec.mpr hy)

/-- A fold that collects sets. -/
theorem mem_foldl_union {f : Nat → StateSet} {init : StateSet} {x : Nat} :
    x ∈ states.foldl (fun acc s => acc ∪ f s) init ↔ x ∈ init ∨ ∃ s ∈ states, x ∈ f s := by
  induction states generalizing init with
  | nil => simp
  | cons s states ih => simp [ih, or_assoc]

/-- With and without the cache, the closure is that of the automaton. -/
theorem epsilonClosure_spec (h : self.WellFormed) (hS : ∀ s ∈ S, s < self.numStates) :
    (self.epsilonClosure S : Set Nat) = self.toεNFA.εClosure S := by
  unfold epsilonClosure
  split
  · rename_i cached hc
    have hcached := h.cached cached hc
    have hsingle : ∀ s ∈ S, cached.getD s ∅ = self.closureOf [s] := by
      intro s hs
      have := hS s hs
      simp [hcached, this, epsilonClosureSingle]
    have hlen : ∀ s ∈ S, s < cached.length := fun s hs => by simpa [hcached] using hS s hs
    have hfold : (toVec S).foldl
        (fun closure s => if s < cached.length then closure ∪ cached.getD s ∅ else closure) ∅
        = (toVec S).foldl (fun closure s => closure ∪ self.closureOf [s]) ∅ := by
      apply List.foldl_ext
      intro acc s hs
      rw [mem_toVec] at hs
      rw [if_pos (hlen s hs), hsingle s hs]
    rw [hfold]
    ext x
    rw [Finset.mem_coe, mem_foldl_union, εNFA.mem_εClosure_iff_exists]
    simp only [Finset.notMem_empty, false_or, mem_toVec, Finset.mem_coe]
    refine exists_congr fun s => and_congr_right fun hs => ?_
    have hlt : ∀ t ∈ [s], t < self.numStates := by simpa using hS s hs
    rw [← Finset.mem_coe, closureOf_spec h hlt]
    simp only [List.mem_singleton, Set.ofPred_eq_eq_singleton]
  · rw [closureOf_spec h (by simpa using hS)]
    congr 1
    ext s
    simp

theorem epsilonClosure_lt (h : self.WellFormed) (hS : ∀ s ∈ S, s < self.numStates) :
    ∀ s ∈ self.epsilonClosure S, s < self.numStates := by
  intro s hs
  rw [← Finset.mem_coe, epsilonClosure_spec h hS] at hs
  induction hs with
  | base s hs => exact hS s hs
  | step s t ht _ _ => exact h.dest_lt s EPSILON t ht

/-- A move that is not on epsilon makes the step of the automaton. -/
theorem moveOnSymbol_spec (h : self.WellFormed) (ha : a ≠ EPSILON) :
    ∃ R, self.moveOnSymbol S a = some R ∧ (R : Set Nat) = self.toεNFA.stepSet S a ∧
      ∀ s ∈ R, s < self.numStates := by
  unfold moveOnSymbol
  rw [if_neg ha]
  refine ⟨_, rfl, ?_, ?_⟩
  all_goals
    set reached := (toVec S).foldl (fun reached s => reached ∪ self.destinations s a) ∅ with hr
    have hmem : ∀ t, t ∈ reached ↔ ∃ s ∈ S, t ∈ self.destinations s a := by
      intro t
      rw [hr, mem_foldl_union]
      simp
    have hlt : ∀ t ∈ reached, t < self.numStates := by
      intro t ht
      obtain ⟨s, -, hs⟩ := (hmem t).mp ht
      exact h.dest_lt s a t hs
  · have hstep : ∀ s, self.toεNFA.step s (some a) = self.destinations s a := by
      intro s
      simp [toεNFA, ha]
    rw [epsilonClosure_spec h hlt]
    ext x
    rw [εNFA.mem_stepSet_iff, εNFA.mem_εClosure_iff_exists]
    constructor
    · rintro ⟨t, ht, hx⟩
      obtain ⟨s, hs, hst⟩ := (hmem t).mp ht
      exact ⟨s, hs, (εNFA.mem_εClosure_iff_exists _).mpr ⟨t, by rw [hstep]; exact hst, hx⟩⟩
    rintro ⟨s, hs, hx⟩
    obtain ⟨t, ht, hx⟩ := (εNFA.mem_εClosure_iff_exists _).mp hx
    rw [hstep] at ht
    exact ⟨t, (hmem t).mpr ⟨s, hs, ht⟩, hx⟩
  · exact epsilonClosure_lt h hlt

end EpsilonNFA

end Angr.Automaton
