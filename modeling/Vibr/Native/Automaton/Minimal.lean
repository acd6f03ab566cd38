import Vibr.Native.Automaton.Minimize

/-!
# Minimality

States are distinguished by a word that one of them accepts and the other does not, or that
has a path from one of them only. The refinement never separates states without such a word.
-/

namespace Angr.Automaton

open Partition

namespace DFA

/-- The state that a word leads to, if there is a path for it. -/
def follow (self : DFA) : Nat → List Nat → Option Nat
  | state, [] => some state
  | state, symbol :: word => (self.transition state symbol).bind fun next => follow self next word

/-- A word tells two states apart. -/
def Distinguished (self : DFA) (x y : Nat) : Prop :=
  ∃ word, self.acceptsFrom x word ≠ self.acceptsFrom y word ∨
    (self.follow x word).isSome ≠ (self.follow y word).isSome

variable {self : DFA} {symbols : List Nat} {R : StateSet} {r : Refinement} {x y t u a : Nat}

theorem follow_append (x : Nat) (v w : List Nat) :
    self.follow x (v ++ w) = (self.follow x v).bind fun z => self.follow z w := by
  induction v generalizing x with
  | nil => rfl
  | cons b v ih =>
    rw [List.cons_append, follow, follow]
    cases self.transition x b with
    | none => rfl
    | some z => exact ih z

theorem Distinguished.symm (h : self.Distinguished x y) : self.Distinguished y x := by
  obtain ⟨word, hword⟩ := h
  exact ⟨word, hword.imp Ne.symm Ne.symm⟩

/-- A final state accepts the empty word. -/
theorem distinguished_of_final (hx : x ∈ self.finalStates) (hy : y ∉ self.finalStates) :
    self.Distinguished x y := ⟨[], .inl (by simp [acceptsFrom, hx, hy])⟩

theorem distinguished_of_missing (hx : self.transition x a = some t) (hy : self.transition y a = none) :
    self.Distinguished x y := ⟨[a], .inr (by simp [follow, hx, hy])⟩

/-- A word after the symbol. -/
theorem Distinguished.of_step (h : self.Distinguished t u) (hx : self.transition x a = some t)
    (hy : self.transition y a = some u) : self.Distinguished x y := by
  obtain ⟨word, hword⟩ := h
  refine ⟨a :: word, hword.imp (fun h => ?_) fun h => ?_⟩
  · rwa [acceptsFrom, acceptsFrom, hx, hy]
  · rwa [follow, follow, hx, hy]

/-! ## Refinement -/

variable {blocks : List StateSet}

/-- States that step into different blocks, or of which only one steps, are distinguished. -/
theorem distinguished_of_hits (hclosed : ∀ x ∈ R, ∀ a y, self.transition x a = some y → y ∈ R)
    (hR : IsPartition R blocks) (hsep : Separates self.Distinguished blocks) {idx : Nat} (hy : y ∈ R)
    (hhit : Hits self.transition x a (block blocks idx)) (hmiss : ¬ Hits self.transition y a (block blocks idx)) :
    self.Distinguished x y := by
  obtain ⟨t, ht, hxt⟩ := hhit
  cases hyu : self.transition y a with
  | none => exact distinguished_of_missing hxt hyu
  | some u =>
    obtain ⟨k, hk⟩ := (hR.cover u).mp (hclosed y hy a u hyu)
    have hne : idx ≠ k := by
      rintro rfl
      exact hmiss ⟨u, hk, hyu⟩
    exact (hsep idx k t u ht hk hne).of_step hxt hyu

theorem separates_applySplits {splits : List (Nat × StateSet × StateSet)}
    (h : Separates self.Distinguished r.partitions)
    (hsplits : ∀ s ∈ splits, IsSplit r.partitions s.1 s.2.1 s.2.2)
    (hdistinct : splits.Pairwise fun m n => m.1 ≠ n.1)
    (hparts : ∀ s ∈ splits, ∀ x ∈ s.2.1, ∀ y ∈ s.2.2, self.Distinguished x y) :
    Separates self.Distinguished (splits.foldl (Refinement.applySplit symbols) r).partitions := by
  induction splits generalizing r with
  | nil => exact h
  | cons s splits ih =>
    obtain ⟨p, keep, add⟩ := s
    rw [List.pairwise_cons] at hdistinct
    have hsplit := hsplits (p, keep, add) List.mem_cons_self
    refine ih (h.split (fun _ _ => Distinguished.symm) hsplit (hparts _ List.mem_cons_self)) ?_ hdistinct.2
      fun s hs => hparts s (List.mem_cons_of_mem _ hs)
    intro s hs
    exact hsplit.of_split (hsplits s (List.mem_cons_of_mem _ hs)) (Ne.symm (hdistinct.1 s hs))

/-- One round separates states by the symbol of the splitter only. -/
theorem separates_refineStep (hc : self.Consistent)
    (hclosed : ∀ x ∈ R, ∀ a y, self.transition x a = some y → y ∈ R) (hR : IsPartition R r.partitions)
    (h : Separates self.Distinguished r.partitions) (idx a : Nat) (rest : List (Nat × Nat)) :
    Separates self.Distinguished (self.refineStep symbols r idx a rest).partitions := by
  unfold refineStep
  split
  · dsimp only
    split
    · exact h
    set preds := self.findPredecessors (block r.partitions idx) a with hpreds
    have hsplits : ∀ s ∈ Refinement.newPartitions r.partitions preds,
        IsSplit r.partitions s.1 s.2.1 s.2.2 := by
      intro s hs
      obtain ⟨hlt, hparts⟩ := Refinement.mem_newPartitions.mp hs
      exact Refinement.isSplit_of_parts hlt hparts
    refine separates_applySplits (r := { r with worklist := rest }) h hsplits
      Refinement.newPartitions_pairwise ?_
    rintro ⟨p, keep, add⟩ hs x hx y hy
    have hsplit := hsplits _ hs
    have hmem : ∀ z, z ∈ keep ∨ z ∈ add → z ∈ R := by
      intro z hz
      refine (hR.cover z).mpr ⟨p, ?_⟩
      rw [hsplit.union]
      exact Finset.mem_union.mpr hz
    have hone := Refinement.mem_iff_of_parts (Refinement.mem_newPartitions.mp hs).2 hx hy
    rw [hpreds, mem_findPredecessors hc, mem_findPredecessors hc] at hone
    by_cases hhit : Hits self.transition x a (block r.partitions idx)
    · exact distinguished_of_hits hclosed hR h (hmem y (.inr hy)) hhit (hone.mp hhit)
    · have hhit' := not_not.mp (mt hone.mpr hhit)
      exact (distinguished_of_hits hclosed hR h (hmem x (.inl hx)) hhit' hhit).symm
  · exact h

theorem separates_refine (hc : self.Consistent) (hclosed : ∀ x ∈ R, ∀ a y, self.transition x a = some y → y ∈ R)
    (hinv : r.Inv self symbols R fun _ _ _ => True) (h : Separates self.Distinguished r.partitions) {fuel : Nat}
    (hrefine : self.refine symbols fuel r = some blocks) : Separates self.Distinguished blocks := by
  induction fuel generalizing r with
  | zero => cases hrefine
  | succ fuel ih =>
    rw [refine] at hrefine
    split at hrefine
    · cases hrefine
      exact h
    · rename_i idx a rest hw
      exact ih (refineStep_spec hc hinv hw).1
        (separates_refineStep hc hclosed hinv.isPartition h idx a rest) hrefine

/-- At first, only final states are separated from others. -/
theorem separates_initial {partitions : List StateSet}
    (hp : partitions = [self.finalStates ∩ R, R \ self.finalStates].filter (· ≠ ∅))
    (hR : IsPartition R partitions) : Separates self.Distinguished partitions := by
  have hblock : ∀ B : StateSet, B ∈ [self.finalStates ∩ R, R \ self.finalStates] → ∀ x ∈ B, ∀ y ∈ B,
      Together partitions x y := by
    intro B hB x hx y hy
    have hmem : B ∈ partitions := by
      rw [hp, List.mem_filter]
      exact ⟨hB, by simpa using Finset.ne_empty_of_mem hx⟩
    obtain ⟨k, hk, hget⟩ := List.mem_iff_getElem.mp hmem
    have heq : block partitions k = B := by
      rw [block, List.getD_eq_getElem?_getD, List.getElem?_eq_getElem hk, hget, Option.getD_some]
    exact ⟨k, by rwa [heq], by rwa [heq]⟩
  intro i j x y hx hy hij
  have hxR : x ∈ R := (hR.cover x).mpr ⟨i, hx⟩
  have hyR : y ∈ R := (hR.cover y).mpr ⟨j, hy⟩
  have hapart : ¬ Together partitions x y := by
    rintro ⟨k, hxk, hyk⟩
    exact hij ((hR.unique i k x hx hxk).trans (hR.unique k j y hyk hy))
  by_cases hxf : x ∈ self.finalStates
  · by_cases hyf : y ∈ self.finalStates
    · exact absurd (hblock _ List.mem_cons_self x (Finset.mem_inter.mpr ⟨hxf, hxR⟩) y
        (Finset.mem_inter.mpr ⟨hyf, hyR⟩)) hapart
    · exact distinguished_of_final hxf hyf
  by_cases hyf : y ∈ self.finalStates
  · exact (distinguished_of_final hyf hxf).symm
  · exact absurd (hblock _ (by simp) x (Finset.mem_sdiff.mpr ⟨hxR, hxf⟩) y
      (Finset.mem_sdiff.mpr ⟨hyR, hyf⟩)) hapart

/-! ## The minimized automaton -/

/-- Every state that is found has a path from the start state. -/
theorem exists_follow_of_mem_reachable {start : Nat} (hstart : self.startState = some start)
    (hx : x ∈ self.findReachableStates symbols) : ∃ word, self.follow start word = some x := by
  have hpath : ∀ x, (∃ word, self.follow start word = some x) →
      ∀ y ∈ symbols.filterMap (self.transition x), ∃ word, self.follow start word = some y := by
    rintro x ⟨word, hword⟩ y hy
    obtain ⟨a, -, hxy⟩ := List.mem_filterMap.mp hy
    exact ⟨word ++ [a], by simp [follow_append, hword, follow, hxy]⟩
  unfold findReachableStates at hx
  rw [hstart] at hx
  exact Explore.run_sound hpath (by simpa using ⟨[], rfl⟩) (by simp) x hx

theorem follow_buildMinimizedDfa (hc : self.Consistent) (hsymbols : ∀ a, a ∈ symbols ↔ a ∈ self.alphabet)
    (hclosed : ∀ x ∈ R, ∀ a y, self.transition x a = some y → y ∈ R)
    (h : Refinement.Inv self symbols R (fun _ _ _ => True) ⟨blocks, []⟩) (word : List Nat) {j : Nat}
    (hx : x ∈ block blocks j) :
    (self.buildMinimizedDfa symbols blocks).follow j word =
      (self.follow x word).bind (stateToPartition blocks).get? := by
  have hR : IsPartition R blocks := h.isPartition
  induction word generalizing j x with
  | nil => exact ((get?_stateToPartition hR).mpr hx).symm
  | cons a word ih =>
    rw [follow, follow, transition_buildMinimizedDfa hc hsymbols hclosed h a hx]
    cases hxu : self.transition x a with
    | none => rfl
    | some u =>
      obtain ⟨k, hk⟩ := (hR.cover u).mp (hclosed x ((hR.cover x).mpr ⟨j, hx⟩) a u hxu)
      rw [Option.bind_some, (get?_stateToPartition hR).mpr hk]
      exact ih hk

theorem numStates_foldl {β : Type} {f : DFA → β → DFA} (hf : ∀ m b, (f m b).numStates = m.numStates)
    (bs : List β) (m : DFA) : (bs.foldl f m).numStates = m.numStates := by
  induction bs generalizing m with
  | nil => rfl
  | cons b bs ih => rw [List.foldl_cons, ih, hf]

theorem numStates_copyTransition (map : Dict Nat Nat) (partIdx rep : Nat) (m : DFA) (symbol : Nat) :
    (self.copyTransition map partIdx rep m symbol).numStates = m.numStates := by
  unfold copyTransition
  split
  · rfl
  · dsimp only
    split <;> rfl

/-- The minimized automaton has one state for every block. -/
theorem numStates_buildMinimizedDfa (blocks : List StateSet) :
    (self.buildMinimizedDfa symbols blocks).numStates = blocks.length := by
  set map := stateToPartition blocks with hmap
  have hstart : (self.copyStartState map (addStates blocks.length)).numStates = blocks.length := by
    unfold copyStartState
    rw [addStates_eq]
    split <;> rfl
  have hfinal : ∀ m f, (copyFinalState map m f).numStates = m.numStates := by
    intro m f
    unfold copyFinalState
    split <;> rfl
  have hrow : ∀ m b, (self.copyTransitions symbols map m b).numStates = m.numStates := by
    intro m b
    obtain ⟨partition, partIdx⟩ := b
    unfold copyTransitions
    dsimp only
    split
    · rfl
    · exact numStates_foldl (numStates_copyTransition map partIdx _) symbols m
  have hall := (numStates_foldl hrow blocks.zipIdx _).trans
    ((numStates_foldl hfinal (toVec self.finalStates) _).trans hstart)
  unfold buildMinimizedDfa
  dsimp only
  split <;> exact hall

/-- The states of the minimized DFA are reachable, and distinct ones are distinguished. -/
structure Minimal (self : DFA) : Prop where
  reachable : ∀ state < self.numStates, ∃ start, self.startState = some start ∧
    ∃ word, self.follow start word = some state
  distinguished : ∀ x < self.numStates, ∀ y < self.numStates, x ≠ y → self.Distinguished x y

theorem minimal_empty : Minimal {} where
  reachable state h := by cases h
  distinguished x h := by cases h

/-- The DFA of the blocks of a refinement that has come to its end. -/
theorem buildMinimizedDfa_minimal (hc : self.Consistent) (hsymbols : ∀ a, a ∈ symbols ↔ a ∈ self.alphabet)
    {start : Nat} (hstart : self.startState = some start)
    (hclosed : ∀ x ∈ R, ∀ a y, self.transition x a = some y → y ∈ R) (hmem : start ∈ R)
    (hpath : ∀ x ∈ R, ∃ word, self.follow start word = some x)
    (h : Refinement.Inv self symbols R (fun _ _ _ => True) ⟨blocks, []⟩)
    (hsep : Separates self.Distinguished blocks) : (self.buildMinimizedDfa symbols blocks).Minimal := by
  have hR : IsPartition R blocks := h.isPartition
  have hfollow : ∀ word {j x}, x ∈ block blocks j → (self.buildMinimizedDfa symbols blocks).follow j word =
      (self.follow x word).bind (stateToPartition blocks).get? :=
    fun word _ _ hx => follow_buildMinimizedDfa hc hsymbols hclosed h word hx
  have hstay : ∀ x ∈ R, ∀ word z, self.follow x word = some z → z ∈ R := by
    intro x hx word
    induction word generalizing x with
    | nil =>
      rintro z ⟨⟩
      exact hx
    | cons a word ih =>
      intro z hz
      obtain ⟨u, hxu, huz⟩ := Option.bind_eq_some_iff.mp hz
      exact ih u (hclosed x hx a u hxu) z huz
  -- A path in one automaton is a path in the other.
  have hsome : ∀ j x, x ∈ block blocks j → ∀ word,
      ((self.buildMinimizedDfa symbols blocks).follow j word).isSome = (self.follow x word).isSome := by
    intro j x hx word
    rw [hfollow word hx]
    cases hz : self.follow x word with
    | none => rfl
    | some z =>
      obtain ⟨k, hk⟩ := (hR.cover z).mp (hstay x ((hR.cover x).mpr ⟨j, hx⟩) word z hz)
      rw [Option.bind_some, (get?_stateToPartition hR).mpr hk]
      rfl
  refine ⟨fun j hj => ?_, fun i hi j hj hij => ?_⟩
  · rw [numStates_buildMinimizedDfa] at hj
    obtain ⟨x, hx⟩ := hR.nonempty j hj
    obtain ⟨word, hword⟩ := hpath x ((hR.cover x).mpr ⟨j, hx⟩)
    obtain ⟨s, hs⟩ := (hR.cover start).mp hmem
    refine ⟨s, startState_buildMinimizedDfa hstart hR hs, word, ?_⟩
    rw [hfollow word hs, hword, Option.bind_some]
    exact (get?_stateToPartition hR).mpr hx
  rw [numStates_buildMinimizedDfa] at hi hj
  obtain ⟨x, hx⟩ := hR.nonempty i hi
  obtain ⟨y, hy⟩ := hR.nonempty j hj
  obtain ⟨word, hword⟩ := hsep i j x y hx hy hij
  refine ⟨word, ?_⟩
  rwa [acceptsFrom_buildMinimizedDfa hc hsymbols hclosed h word hx,
    acceptsFrom_buildMinimizedDfa hc hsymbols hclosed h word hy, hsome i x hx, hsome j y hy]

/-- Minimization ends with a minimal DFA. -/
theorem minimize_minimal (order : HashOrder) (h : self.WellFormed) :
    ∃ minimized, self.minimize order = some minimized ∧ minimized.Minimal := by
  have hsymbols := order.mem_iter self.alphabet
  cases hstart : self.startState with
  | none => exact ⟨{}, by simp [minimize, hstart], minimal_empty⟩
  | some start =>
    obtain ⟨hmem, hclosed⟩ := findReachableStates_spec h hsymbols hstart
    obtain ⟨fuel, blocks, hrefine, hinv, hmin⟩ := minimize_eq order h hstart
    have hinit : Refinement.Inv self (order.iter self.alphabet)
        (self.findReachableStates (order.iter self.alphabet)) (fun _ _ _ => True) ⟨_, _⟩ := initial_inv _ rfl
    have hsep := separates_refine h.toConsistent hclosed hinit (separates_initial rfl hinit.isPartition)
      hrefine
    exact ⟨_, hmin, buildMinimizedDfa_minimal h.toConsistent hsymbols hstart hclosed hmem
      (fun x hx => exists_follow_of_mem_reachable hstart hx) hinv hsep⟩

/-- Two ways to a final state that are one way when it is minimized. -/
def twoWays : DFA :=
  addTransition (addTransition (addTransition (addTransition
    { numStates := 5, startState := some 0, finalStates := {3, 4} } 0 0 1) 0 1 2) 1 1 3) 2 1 4

theorem twoWays_wellFormed : twoWays.WellFormed where
  toConsistent := by
    have hempty : Consistent { numStates := 5, startState := some 0, finalStates := {3, 4} } :=
      ⟨Consistent.empty.mem_sources, Consistent.empty.mem_alphabet⟩
    exact (((hempty.addTransition rfl).addTransition rfl).addTransition rfl).addTransition rfl
  start_lt := by
    rintro start ⟨⟩
    decide
  dest_lt := by
    intro source symbol destination h
    simp only [twoWays, transition_addTransition] at h
    have hnone : transition { numStates := 5, startState := some 0, finalStates := {3, 4} } source symbol =
        none := rfl
    rw [hnone] at h
    have hnum : twoWays.numStates = 5 := rfl
    grind

/-- Symbols in ascending order. -/
def ascending : HashOrder where
  iter := toVec
  nodup _ := Finset.sort_nodup _ _
  mem_iter _ _ := mem_toVec

theorem twoWays_minimal : ∃ minimized, twoWays.minimize ascending = some minimized ∧ minimized.Minimal :=
  minimize_minimal ascending twoWays_wellFormed

end DFA
end Angr.Automaton
