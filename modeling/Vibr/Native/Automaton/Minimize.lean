import Mathlib.Data.List.Destutter
import Mathlib.Data.List.Sigma
import Vibr.Lib.Partition
import Vibr.Native.Automaton.SubsetConstruction

/-!
# Minimization

`minimize` of `native/angr/src/automaton/dfa.rs`. The worklist holds the index of a block
and a symbol; when a block is split, the larger part stays under its index, and the smaller
one is put at the end and on the worklist, for every symbol. `none` stands for a loop that is
cut off.
-/

namespace Angr.Automaton

open Partition

structure Refinement where
  partitions : List StateSet
  worklist : List (Nat × Nat)

namespace Refinement

/-- The part of a block that is kept, and the one that is added. -/
def parts (partition predecessors : StateSet) : Option (StateSet × StateSet) :=
  let intersection := partition ∩ predecessors
  let difference := partition \ predecessors
  if intersection ≠ ∅ ∧ difference ≠ ∅ then
    if intersection.card ≤ difference.card then some (difference, intersection)
    else some (intersection, difference)
  else none

def newPartitions (partitions : List StateSet) (predecessors : StateSet) :
    List (Nat × StateSet × StateSet) :=
  partitions.zipIdx.filterMap fun (partition, partIdx) =>
    (parts partition predecessors).map fun (keep, add) => (partIdx, keep, add)

def applySplit (symbols : List Nat) (self : Refinement) (new : Nat × StateSet × StateSet) :
    Refinement :=
  let (partIdx, keep, add) := new
  { partitions := split self.partitions partIdx keep add
    worklist := self.worklist ++ symbols.map fun sym => (self.partitions.length, sym) }

end Refinement

open Refinement

namespace DFA

variable (self : DFA) (symbols : List Nat)

def findReachableStates : StateSet :=
  match self.startState with
  | none => ∅
  | some start =>
    let follow := fun s => symbols.filterMap (self.transition s)
    Explore.run .queue follow
      (Explore.work follow (Finset.range self.numStates) [start] ∅) [start] ∅

def findPredecessors (targets : StateSet) (symbol : Nat) : StateSet :=
  (toVec targets).foldl (fun predecessors target => predecessors ∪ self.sources target symbol) ∅

/-- The body of the refinement loop. -/
def refineStep (r : Refinement) (splitterIdx symbol : Nat) (rest : List (Nat × Nat)) : Refinement :=
  if splitterIdx < r.partitions.length then
    let splitter := block r.partitions splitterIdx
    let predecessors := self.findPredecessors splitter symbol
    if predecessors = ∅ then { r with worklist := rest }
    else (newPartitions r.partitions predecessors).foldl (applySplit symbols)
      { r with worklist := rest }
  else { r with worklist := rest }

def refine : Nat → Refinement → Option (List StateSet)
  | 0, _ => none
  | fuel + 1, r =>
    match r.worklist with
    | [] => some r.partitions
    | (splitterIdx, symbol) :: rest => refine fuel (self.refineStep symbols r splitterIdx symbol rest)

def stateToPartition (partitions : List StateSet) : Dict Nat Nat :=
  partitions.zipIdx.foldl
    (fun map (partition, partIdx) => (toVec partition).foldl (fun map s => map.set s partIdx) map) []

/-- The transitions of a block on one symbol, with the label of its representative. -/
def copyTransition (map : Dict Nat Nat) (partIdx representative : Nat) (minimized : DFA)
    (symbol : Nat) : DFA :=
  match (self.transition representative symbol).bind map.get? with
  | none => minimized
  | some newDest =>
    let minimized := minimized.addTransition partIdx symbol newDest
    match self.transitionLabels.get? (representative, symbol) with
    | none => minimized
    | some label =>
      { minimized with
        transitionLabels := minimized.transitionLabels.set (partIdx, symbol) label }

def copyTransitions (map : Dict Nat Nat) (minimized : DFA) : StateSet × Nat → DFA
  | (partition, partIdx) =>
    match (toVec partition).head? with
    | none => minimized
    | some representative =>
      symbols.foldl (self.copyTransition map partIdx representative) minimized

def addStates (count : Nat) : DFA := (List.range count).foldl (fun m _ => m.addState.2) {}

def copyStartState (map : Dict Nat Nat) (minimized : DFA) : DFA :=
  match self.startState.bind map.get? with
  | some newStart => minimized.setStartState newStart
  | none => minimized

def copyFinalState (map : Dict Nat Nat) (minimized : DFA) (finalState : Nat) : DFA :=
  match map.get? finalState with
  | some newState => minimized.addFinalState newState
  | none => minimized

/-- The states of the NFA that the states of a block stand for. -/
def mergedMapping (mapping : Dict Nat (List Nat)) (partitions : List StateSet) :
    Dict Nat (List Nat) :=
  partitions.zipIdx.foldl
    (fun new (partition, partIdx) =>
      let nfaStates := (toVec partition).flatMap fun s => (mapping.get? s).getD []
      new.set partIdx ((nfaStates.mergeSort).destutter (· ≠ ·))) []

def buildMinimizedDfa (partitions : List StateSet) : DFA :=
  let map := stateToPartition partitions
  let minimized := self.copyStartState map (addStates partitions.length)
  let minimized := (toVec self.finalStates).foldl (copyFinalState map) minimized
  let minimized := partitions.zipIdx.foldl (self.copyTransitions symbols map) minimized
  match self.stateMapping with
  | some mapping => minimized.setStateMapping (mergedMapping mapping partitions)
  | none => minimized

def minimize (order : HashOrder) : Option DFA :=
  let symbols := order.iter self.alphabet
  if self.startState = none ∨ self.numStates = 0 then some {}
  else
    let reachable := self.findReachableStates symbols
    if reachable = ∅ then some {}
    else
      let finalReachable := self.finalStates ∩ reachable
      let nonFinalReachable := reachable \ self.finalStates
      let partitions := [finalReachable, nonFinalReachable].filter (· ≠ ∅)
      if partitions = [] then some {}
      else
        let worklist := (List.range partitions.length).flatMap fun idx => symbols.map fun sym => (idx, sym)
        (self.refine symbols (symbols.length * reachable.card + 1) ⟨partitions, worklist⟩).map
          (self.buildMinimizedDfa symbols)

end DFA

/-! ## Splits -/

/-- All elements of a set are predecessors, or none is. -/
def Pure (predecessors B : StateSet) : Prop :=
  ∀ x ∈ B, ∀ y ∈ B, x ∈ predecessors ↔ y ∈ predecessors

theorem pure_inter (P preds : StateSet) : Pure preds (P ∩ preds) := by
  intro x hx y hy
  simp only [Finset.mem_inter] at hx hy
  exact iff_of_true hx.2 hy.2

theorem pure_sdiff (P preds : StateSet) : Pure preds (P \ preds) := by
  intro x hx y hy
  simp only [Finset.mem_sdiff] at hx hy
  exact iff_of_false hx.2 hy.2

namespace Refinement

variable {P preds keep add : StateSet} {blocks : List StateSet} {p : Nat}

theorem isSplit_of_parts (hp : p < blocks.length)
    (h : parts (block blocks p) preds = some (keep, add)) : IsSplit blocks p keep add := by
  unfold parts at h
  dsimp only at h
  split at h
  · rename_i hne
    obtain ⟨hinter, hdiff⟩ := hne
    rw [← Finset.nonempty_iff_ne_empty] at hinter hdiff
    split at h
    · cases h
      exact ⟨hp, (Finset.sdiff_union_inter _ _).symm, Finset.disjoint_sdiff_inter _ _, hdiff, hinter⟩
    · cases h
      refine ⟨hp, ?_, (Finset.disjoint_sdiff_inter _ _).symm, hinter, hdiff⟩
      rw [Finset.union_comm, Finset.sdiff_union_inter]
  · cases h

theorem pure_of_parts (h : parts P preds = some (keep, add)) : Pure preds keep ∧ Pure preds add := by
  unfold parts at h
  dsimp only at h
  split at h
  · split at h
    · cases h
      exact ⟨pure_sdiff P preds, pure_inter P preds⟩
    · cases h
      exact ⟨pure_inter P preds, pure_sdiff P preds⟩
  · cases h

/-- One part consists of predecessors, and the other one has none. -/
theorem mem_iff_of_parts (h : parts P preds = some (keep, add)) {x y : Nat} (hx : x ∈ keep) (hy : y ∈ add) :
    x ∈ preds ↔ y ∉ preds := by
  unfold parts at h
  dsimp only at h
  split at h
  · split at h
    · cases h
      exact iff_of_false (Finset.mem_sdiff.mp hx).2 (not_not.mpr (Finset.mem_inter.mp hy).2)
    · cases h
      exact iff_of_true (Finset.mem_inter.mp hx).2 (Finset.mem_sdiff.mp hy).2
  · cases h

theorem pure_of_parts_eq_none (h : parts P preds = none) : Pure preds P := by
  unfold parts at h
  dsimp only at h
  split at h
  · split at h <;> cases h
  rename_i hne
  by_cases hinter : P ∩ preds = ∅
  · rw [← Finset.sdiff_union_inter P preds, hinter, Finset.union_empty]
    exact pure_sdiff P preds
  have hdiff : P \ preds = ∅ := by
    by_contra hdiff
    exact hne ⟨hinter, hdiff⟩
  rw [← Finset.sdiff_union_inter P preds, hdiff, Finset.empty_union]
  exact pure_inter P preds

theorem mem_newPartitions :
    (p, keep, add) ∈ newPartitions blocks preds
      ↔ p < blocks.length ∧ parts (block blocks p) preds = some (keep, add) := by
  unfold newPartitions
  simp only [List.mem_filterMap, Option.map_eq_some_iff, Prod.exists, Prod.mk.injEq,
    List.mk_mem_zipIdx_iff_getElem?]
  constructor
  · rintro ⟨P, q, hq, k, a, hparts, rfl, rfl, rfl⟩
    have hlt := (List.getElem?_eq_some_iff.mp hq).1
    refine ⟨hlt, ?_⟩
    rwa [block, List.getD_eq_getElem?_getD, hq]
  rintro ⟨hlt, hparts⟩
  refine ⟨block blocks p, p, ?_, keep, add, hparts, rfl, rfl, rfl⟩
  rw [block, List.getD_eq_getElem?_getD, List.getElem?_eq_getElem hlt]
  rfl

/-- A block that is not split is all predecessors or none. -/
theorem pure_of_not_split {i : Nat} (h : ∀ s ∈ newPartitions blocks preds, s.1 ≠ i) :
    Pure preds (block blocks i) := by
  by_cases hlt : i < blocks.length
  · apply pure_of_parts_eq_none
    rw [Option.eq_none_iff_forall_ne_some]
    rintro ⟨keep, add⟩ hparts
    exact h (i, keep, add) (mem_newPartitions.mpr ⟨hlt, hparts⟩) rfl
  · rw [block_eq_empty (not_lt.mp hlt)]
    simp [Pure]

theorem newPartitions_pairwise :
    (newPartitions blocks preds).Pairwise (fun m n => m.1 ≠ n.1) := by
  have hidx : blocks.zipIdx.Pairwise fun m n => m.2 ≠ n.2 :=
    List.pairwise_map.mp (List.nodup_zipIdx_map_snd blocks)
  unfold newPartitions
  refine hidx.filterMap _ ?_
  rintro ⟨P, i⟩ ⟨Q, j⟩ hne m hm n hn
  simp only [Option.map_eq_some_iff, Prod.exists] at hm hn
  obtain ⟨_, _, -, rfl⟩ := hm
  obtain ⟨_, _, -, rfl⟩ := hn
  exact hne

/-! ## Invariant -/

variable {D : DFA} {symbols : List Nat} {R : StateSet} {extra : Nat → Nat → Nat → Prop}
  {r : Refinement}

/-- The blocks partition the reachable states, they do not mix final states with others, and
the refinement is settled. -/
structure Inv (D : DFA) (symbols : List Nat) (R : StateSet) (extra : Nat → Nat → Nat → Prop)
    (r : Refinement) : Prop where
  isPartition : IsPartition R r.partitions
  final_iff : ∀ x y, Together r.partitions x y → (x ∈ D.finalStates ↔ y ∈ D.finalStates)
  settled : Settled D.transition symbols r.worklist extra r.partitions

theorem Inv.applySplit (h : r.Inv D symbols R extra) (hsplit : IsSplit r.partitions p keep add) :
    (applySplit symbols r (p, keep, add)).Inv D symbols R extra where
  isPartition := h.isPartition.split hsplit
  final_iff x y hxy := h.final_iff x y (hsplit.together hxy)
  settled := h.settled.split hsplit

/-- All splits of one round. -/
theorem Inv.applySplits {splits : List (Nat × StateSet × StateSet)} (h : r.Inv D symbols R extra)
    (hsplits : ∀ s ∈ splits, IsSplit r.partitions s.1 s.2.1 s.2.2)
    (hdistinct : splits.Pairwise fun m n => m.1 ≠ n.1)
    (hpure : ∀ s ∈ splits, Pure preds s.2.1 ∧ Pure preds s.2.2)
    (hrest : ∀ i, (∀ s ∈ splits, s.1 ≠ i) → Pure preds (block r.partitions i)) :
    (splits.foldl (Refinement.applySplit symbols) r).Inv D symbols R extra ∧
      (∀ i, Pure preds (block (splits.foldl (Refinement.applySplit symbols) r).partitions i)) ∧
      (splits.foldl (Refinement.applySplit symbols) r).partitions.length
        = r.partitions.length + splits.length ∧
      (splits.foldl (Refinement.applySplit symbols) r).worklist.length
        = r.worklist.length + symbols.length * splits.length := by
  induction splits generalizing r with
  | nil => exact ⟨h, fun i => hrest i (by simp), rfl, rfl⟩
  | cons s splits ih =>
    obtain ⟨p, keep, add⟩ := s
    rw [List.pairwise_cons] at hdistinct
    have hsplit := hsplits (p, keep, add) List.mem_cons_self
    have hlen : (Refinement.applySplit symbols r (p, keep, add)).partitions.length
        = r.partitions.length + 1 := length_split
    have hwork : (Refinement.applySplit symbols r (p, keep, add)).worklist.length
        = r.worklist.length + symbols.length := by simp [Refinement.applySplit]
    have hnext : ∀ t ∈ splits,
        IsSplit (Refinement.applySplit symbols r (p, keep, add)).partitions t.1 t.2.1 t.2.2 := by
      intro t ht
      exact hsplit.of_split (hsplits t (List.mem_cons_of_mem _ ht)) (Ne.symm (hdistinct.1 t ht))
    have hother : ∀ i, (∀ t ∈ splits, t.1 ≠ i) →
        Pure preds (block (Refinement.applySplit symbols r (p, keep, add)).partitions i) := by
      intro i hi
      have hparts := hpure (p, keep, add) List.mem_cons_self
      simp only [Refinement.applySplit, block_split hsplit.lt_length]
      split
      · exact hparts.1
      rename_i hip
      split
      · exact hparts.2
      refine hrest i fun t ht => ?_
      rcases List.mem_cons.mp ht with rfl | ht
      · exact Ne.symm hip
      · exact hi t ht
    obtain ⟨hinv, hall, hlen', hwork'⟩ := ih (h.applySplit hsplit) hnext hdistinct.2
      (fun t ht => hpure t (List.mem_cons_of_mem _ ht)) hother
    refine ⟨hinv, hall, ?_, ?_⟩
    · rw [List.foldl_cons, hlen', hlen, List.length_cons]
      omega
    · rw [List.foldl_cons, hwork', hwork, List.length_cons, Nat.mul_add]
      omega

end Refinement

namespace DFA

variable {self : DFA} {symbols : List Nat} {R : StateSet} {r : Refinement}
  {rest : List (Nat × Nat)} {idx a : Nat}

theorem mem_findPredecessors (h : self.Consistent) {S : StateSet} {x : Nat} :
    x ∈ self.findPredecessors S a ↔ Hits self.transition x a S := by
  unfold findPredecessors
  rw [EpsilonNFA.mem_foldl_union]
  simp only [Finset.notMem_empty, false_or, mem_toVec, h.mem_sources]
  rfl

/-- One round keeps the invariant, and pays for the blocks that it makes. -/
theorem refineStep_spec (hc : self.Consistent) (h : r.Inv self symbols R fun _ _ _ => True)
    (hw : r.worklist = (idx, a) :: rest) :
    (self.refineStep symbols r idx a rest).Inv self symbols R (fun _ _ _ => True) ∧
      (self.refineStep symbols r idx a rest).worklist.length + 1
          + symbols.length * r.partitions.length
        = r.worklist.length
          + symbols.length * (self.refineStep symbols r idx a rest).partitions.length := by
  set S := block r.partitions idx with hS
  have hlen : r.worklist.length = rest.length + 1 := by rw [hw, List.length_cons]
  -- the splitter that is taken off the worklist is remembered
  have hpop : ({ r with worklist := rest } : Refinement).Inv self symbols R
      fun x y b => b = a → Agree self.transition x y b S := by
    refine ⟨h.isPartition, h.final_iff, fun x y hxy b hb hagree hextra => ?_⟩
    refine h.settled x y hxy b hb (fun k hk => ?_) trivial
    rw [hw] at hk
    rcases List.mem_cons.mp hk with heq | hk
    · cases heq
      exact hextra rfl
    · exact hagree k hk
  -- and forgotten once elements of one block agree on it
  have hforget : ∀ r' : Refinement,
      r'.Inv self symbols R (fun x y b => b = a → Agree self.transition x y b S) →
      (∀ x y, Together r'.partitions x y → Agree self.transition x y a S) →
      r'.Inv self symbols R fun _ _ _ => True := by
    intro r' h' hagree
    refine ⟨h'.isPartition, h'.final_iff, fun x y hxy b hb hall _ => ?_⟩
    exact h'.settled x y hxy b hb hall fun hba => hba ▸ hagree x y hxy
  unfold refineStep
  split
  · dsimp only
    rw [← hS]
    split
    · rename_i hempty
      refine ⟨hforget _ hpop fun x y _ => ?_, by dsimp only; omega⟩
      unfold Agree
      rw [← mem_findPredecessors hc, ← mem_findPredecessors hc, hempty]
      simp
    have hsplits : ∀ s ∈ newPartitions r.partitions (self.findPredecessors S a),
        IsSplit r.partitions s.1 s.2.1 s.2.2 := by
      intro s hs
      obtain ⟨hlt, hparts⟩ := mem_newPartitions.mp hs
      exact isSplit_of_parts hlt hparts
    obtain ⟨hinv, hpure, hparts, hwork⟩ := hpop.applySplits hsplits newPartitions_pairwise
      (fun s hs => pure_of_parts (mem_newPartitions.mp hs).2) (fun i hi => pure_of_not_split hi)
    refine ⟨hforget _ hinv fun x y hxy => ?_, ?_⟩
    · obtain ⟨i, hx, hy⟩ := hxy
      unfold Agree
      rw [← mem_findPredecessors hc, ← mem_findPredecessors hc]
      exact hpure i x hx y hy
    · rw [hwork, hparts, Nat.mul_add]
      dsimp only
      omega
  · rename_i hge
    refine ⟨hforget _ hpop fun x y _ => ?_, by dsimp only; omega⟩
    rw [hS, block_eq_empty (not_lt.mp hge)]
    simp [Agree, Hits]

/-- The refinement ends before it is cut off. -/
theorem refine_spec (hc : self.Consistent) {fuel : Nat} (h : r.Inv self symbols R fun _ _ _ => True)
    (hfuel : r.worklist.length + symbols.length * R.card + 1
      ≤ fuel + symbols.length * r.partitions.length) :
    ∃ partitions, self.refine symbols fuel r = some partitions ∧
      Refinement.Inv self symbols R (fun _ _ _ => True) ⟨partitions, []⟩ := by
  induction fuel generalizing r with
  | zero =>
    have := Nat.mul_le_mul_left symbols.length h.isPartition.length_le
    omega
  | succ fuel ih =>
    rw [refine]
    split
    · rename_i hw
      refine ⟨r.partitions, rfl, h.isPartition, h.final_iff, ?_⟩
      rw [← hw]
      exact h.settled
    · rename_i idx a rest hw
      obtain ⟨hinv, hcount⟩ := refineStep_spec hc h hw
      exact ih hinv (by omega)

/-! ## The minimized automaton -/

/-- Putting in the states of one block. -/
theorem get?_foldl_set (map : Dict Nat Nat) (states : List Nat) (partIdx x : Nat) :
    (states.foldl (fun map s => map.set s partIdx) map).get? x
      = if x ∈ states then some partIdx else map.get? x := by
  induction states generalizing map with
  | nil => simp
  | cons s states ih =>
    rw [List.foldl_cons, ih, Dict.get?_set]
    by_cases hx : x ∈ states
    · simp [hx]
    · by_cases hs : s = x
      · simp [hs]
      · simp [hx, hs, Ne.symm hs]

theorem get?_foldl_blocks (blocks : List (StateSet × Nat)) (map : Dict Nat Nat) {x j : Nat}
    (hj : ∀ b ∈ blocks, x ∈ b.1 → b.2 = j) :
    (blocks.foldl (fun map (partition, partIdx) =>
        (toVec partition).foldl (fun map s => map.set s partIdx) map) map).get? x
      = if ∃ b ∈ blocks, x ∈ b.1 then some j else map.get? x := by
  induction blocks generalizing map with
  | nil => simp
  | cons b blocks ih =>
    obtain ⟨partition, partIdx⟩ := b
    rw [List.foldl_cons, ih _ fun b hb => hj b (List.mem_cons_of_mem _ hb), get?_foldl_set]
    have hfirst : x ∈ partition → partIdx = j := hj (partition, partIdx) List.mem_cons_self
    simp only [List.exists_mem_cons_iff, mem_toVec]
    by_cases hx : x ∈ partition
    · simp [hx, hfirst hx]
    · simp only [hx, if_false, false_or]

variable {blocks : List StateSet}

/-- Every state is mapped to the index of its block. -/
theorem get?_stateToPartition (h : IsPartition R blocks) {x j : Nat} :
    (stateToPartition blocks).get? x = some j ↔ x ∈ block blocks j := by
  have hmem : ∀ b ∈ blocks.zipIdx, b.1 = block blocks b.2 := by
    rintro ⟨P, i⟩ hb
    rw [List.mk_mem_zipIdx_iff_getElem?] at hb
    simp [block, List.getD_eq_getElem?_getD, hb]
  have hex : ∀ i, x ∈ block blocks i → (block blocks i, i) ∈ blocks.zipIdx := by
    intro i hi
    have hlt := lt_length_of_mem_block hi
    rw [List.mk_mem_zipIdx_iff_getElem?]
    simp [block, List.getD_eq_getElem?_getD, hlt]
  unfold stateToPartition
  by_cases hx : ∃ i, x ∈ block blocks i
  · obtain ⟨i, hi⟩ := hx
    have hidx : ∀ b ∈ blocks.zipIdx, x ∈ b.1 → b.2 = i := by
      intro b hb hxb
      rw [hmem b hb] at hxb
      exact h.unique _ _ x hxb hi
    rw [get?_foldl_blocks _ _ hidx, if_pos ⟨_, hex i hi, hi⟩, Option.some.injEq]
    constructor
    · rintro rfl
      exact hi
    · exact fun hj => h.unique _ _ x hi hj
  · have hnone : ∀ b ∈ blocks.zipIdx, x ∉ b.1 := by
      intro b hb hxb
      rw [hmem b hb] at hxb
      exact hx ⟨b.2, hxb⟩
    rw [get?_foldl_blocks _ _ fun b hb hxb => absurd hxb (hnone b hb), if_neg]
    · exact iff_of_false (by simp) fun hj => hx ⟨j, hj⟩
    · rintro ⟨b, hb, hxb⟩
      exact hnone b hb hxb
    · exact j

/-- The transition that the representative of a block gives it. -/
def edge (self : DFA) (map : Dict Nat Nat) (representative symbol : Nat) : Option Nat :=
  (self.transition representative symbol).bind map.get?

variable {map : Dict Nat Nat} {m : DFA} {rep i : Nat}

theorem transition_copyTransition (b : Nat) :
    (self.copyTransition map idx rep m b).transition i a
      = if idx = i ∧ b = a then (self.edge map rep a).or (m.transition i a) else m.transition i a := by
  unfold copyTransition
  rw [← edge]
  split
  · rename_i hnone
    split
    · rename_i heq
      rw [← heq.2, hnone, Option.none_or]
    · rfl
  rename_i newDest hsome
  have htrans : (m.addTransition idx b newDest).transition i a
      = if idx = i ∧ b = a then (self.edge map rep a).or (m.transition i a) else m.transition i a := by
    rw [transition_addTransition]
    split
    · rename_i heq
      rw [← heq.2, hsome, Option.some_or]
    · rfl
  dsimp only
  split
  · exact htrans
  · exact htrans

theorem transition_foldl_copyTransition :
    (symbols.foldl (self.copyTransition map idx rep) m).transition i a
      = if idx = i ∧ a ∈ symbols then (self.edge map rep a).or (m.transition i a)
        else m.transition i a := by
  induction symbols generalizing m with
  | nil => simp
  | cons b symbols ih =>
    rw [List.foldl_cons, ih, transition_copyTransition]
    by_cases hi : idx = i
    · by_cases hb : b = a
      · cases self.edge map rep a <;> simp [hi, hb]
      · simp [hi, hb, Ne.symm hb]
    · simp [hi]

variable (self symbols map m) in
/-- What a copy changes besides the transitions: no field that a run looks at. -/
theorem copyTransitions_finalStates (blocks : List (StateSet × Nat)) :
    (blocks.foldl (self.copyTransitions symbols map) m).finalStates = m.finalStates ∧
      (blocks.foldl (self.copyTransitions symbols map) m).startState = m.startState := by
  have hone : ∀ (m : DFA) idx rep b,
      (self.copyTransition map idx rep m b).finalStates = m.finalStates ∧
        (self.copyTransition map idx rep m b).startState = m.startState := by
    intro m idx rep b
    unfold copyTransition
    split
    · exact ⟨rfl, rfl⟩
    · dsimp only
      split <;> exact ⟨rfl, rfl⟩
  have hrow : ∀ (symbols : List Nat) (m : DFA) idx rep,
      (symbols.foldl (self.copyTransition map idx rep) m).finalStates = m.finalStates ∧
        (symbols.foldl (self.copyTransition map idx rep) m).startState = m.startState := by
    intro symbols m idx rep
    induction symbols generalizing m with
    | nil => exact ⟨rfl, rfl⟩
    | cons b symbols ih =>
      obtain ⟨hf, hs⟩ := ih (self.copyTransition map idx rep m b)
      obtain ⟨hf', hs'⟩ := hone m idx rep b
      exact ⟨hf.trans hf', hs.trans hs'⟩
  induction blocks generalizing m with
  | nil => exact ⟨rfl, rfl⟩
  | cons b blocks ih =>
    obtain ⟨partition, partIdx⟩ := b
    obtain ⟨hf, hs⟩ := ih (m := self.copyTransitions symbols map m (partition, partIdx))
    rw [List.foldl_cons, hf, hs]
    cases hhead : (toVec partition).head? with
    | none => simp only [copyTransitions, hhead, and_self]
    | some rep =>
      simp only [copyTransitions, hhead]
      exact hrow symbols m partIdx rep

variable (self symbols map m a) in
theorem transition_foldl_copyTransitions {blocks : List (StateSet × Nat)}
    (hnodup : (blocks.map Prod.snd).Nodup) :
    (∀ i ∉ blocks.map Prod.snd,
        (blocks.foldl (self.copyTransitions symbols map) m).transition i a = m.transition i a) ∧
      ∀ b ∈ blocks, ∀ rep, (toVec b.1).head? = some rep →
        (blocks.foldl (self.copyTransitions symbols map) m).transition b.2 a
          = if a ∈ symbols then (self.edge map rep a).or (m.transition b.2 a)
            else m.transition b.2 a := by
  induction blocks generalizing m with
  | nil => simp
  | cons b blocks ih =>
    obtain ⟨partition, partIdx⟩ := b
    rw [List.map_cons, List.nodup_cons] at hnodup
    obtain ⟨hother, hrow⟩ := ih (m := self.copyTransitions symbols map m (partition, partIdx)) hnodup.2
    have hfar : ∀ i, partIdx ≠ i →
        (self.copyTransitions symbols map m (partition, partIdx)).transition i a
          = m.transition i a := by
      intro i hi
      cases hhead : (toVec partition).head? with
      | none => simp only [copyTransitions, hhead]
      | some rep =>
        simp only [copyTransitions, hhead]
        rw [transition_foldl_copyTransition, if_neg fun h => hi h.1]
    constructor
    · intro i hi
      rw [List.map_cons, List.mem_cons, not_or] at hi
      rw [List.foldl_cons, hother i hi.2, hfar i (Ne.symm hi.1)]
    intro b hb rep hrep
    rw [List.foldl_cons]
    rcases List.mem_cons.mp hb with rfl | hb
    · rw [hother _ hnodup.1]
      simp only [copyTransitions, hrep]
      rw [transition_foldl_copyTransition]
      simp only [true_and]
    · have hne : partIdx ≠ b.2 := fun heq => hnodup.1 (List.mem_map.mpr ⟨b, hb, heq.symm⟩)
      rw [hrow b hb rep hrep, hfar b.2 hne]

variable (map m) in
theorem copyFinalStates_spec (states : List Nat) :
    (∀ j, j ∈ (states.foldl (copyFinalState map) m).finalStates
        ↔ (∃ f ∈ states, map.get? f = some j) ∨ j ∈ m.finalStates) ∧
      (states.foldl (copyFinalState map) m).startState = m.startState ∧
      (states.foldl (copyFinalState map) m).transition = m.transition := by
  induction states generalizing m with
  | nil => simp
  | cons f states ih =>
    obtain ⟨hfinal, hstart, htrans⟩ := ih (m := copyFinalState map m f)
    rw [List.foldl_cons]
    cases hf : map.get? f with
    | none =>
      simp only [copyFinalState, hf] at hfinal hstart htrans ⊢
      refine ⟨fun j => ?_, hstart, htrans⟩
      rw [hfinal]
      simp [hf]
    | some k =>
      simp only [copyFinalState, hf] at hfinal hstart htrans ⊢
      refine ⟨fun j => ?_, hstart, htrans⟩
      rw [hfinal]
      simp only [addFinalState, Finset.mem_insert, List.exists_mem_cons_iff, hf,
        Option.some.injEq]
      grind

theorem addStates_eq (count : Nat) : addStates count = { numStates := count } := by
  unfold addStates
  induction count with
  | zero => rfl
  | succ count ih => rw [List.range_succ, List.foldl_append, ih]; rfl

variable (self map) in
theorem copyStartState_spec (hm : m.startState = none) :
    (self.copyStartState map m).startState = self.startState.bind map.get? ∧
      (self.copyStartState map m).finalStates = m.finalStates ∧
      (self.copyStartState map m).transition = m.transition := by
  unfold copyStartState
  split
  · rename_i newStart h
    exact ⟨h.symm, rfl, rfl⟩
  · rename_i h
    exact ⟨hm.trans h.symm, rfl, rfl⟩

variable (self symbols) in
/-- The minimized automaton: one state for every block, the final ones being those with a
final state, and the transitions of a representative. -/
theorem buildMinimizedDfa_spec (h : IsPartition R blocks) :
    (∀ j, j ∈ (self.buildMinimizedDfa symbols blocks).finalStates
        ↔ ∃ f ∈ self.finalStates, f ∈ block blocks j) ∧
      (self.buildMinimizedDfa symbols blocks).startState
        = self.startState.bind (stateToPartition blocks).get? ∧
      ∀ j, j < blocks.length → ∃ rep ∈ block blocks j, ∀ a,
        (self.buildMinimizedDfa symbols blocks).transition j a
          = if a ∈ symbols then self.edge (stateToPartition blocks) rep a else none := by
  set map := stateToPartition blocks with hmap
  set m₁ := self.copyStartState map (addStates blocks.length) with hm₁
  set m₂ := (toVec self.finalStates).foldl (copyFinalState map) m₁ with hm₂
  set m₃ := blocks.zipIdx.foldl (self.copyTransitions symbols map) m₂ with hm₃
  have hempty : (addStates blocks.length).startState = none ∧
      (addStates blocks.length).finalStates = ∅ ∧
      ∀ i a, (addStates blocks.length).transition i a = none := by
    rw [addStates_eq]
    exact ⟨rfl, rfl, fun _ _ => rfl⟩
  obtain ⟨hs₁, hf₁, ht₁⟩ := copyStartState_spec self map hempty.1
  obtain ⟨hf₂, hs₂, ht₂⟩ := copyFinalStates_spec map m₁ (toVec self.finalStates)
  obtain ⟨hf₃, hs₃⟩ := copyTransitions_finalStates self symbols map m₂ blocks.zipIdx
  have hlast : (self.buildMinimizedDfa symbols blocks).finalStates = m₃.finalStates ∧
      (self.buildMinimizedDfa symbols blocks).startState = m₃.startState ∧
      (self.buildMinimizedDfa symbols blocks).transition = m₃.transition := by
    unfold buildMinimizedDfa
    dsimp only
    split <;> exact ⟨rfl, rfl, rfl⟩
  refine ⟨fun j => ?_, ?_, fun j hj => ?_⟩
  · rw [hlast.1, hf₃, hf₂, hf₁, hempty.2.1]
    simp only [mem_toVec, Finset.notMem_empty, or_false]
    exact exists_congr fun f => and_congr_right fun _ => get?_stateToPartition h
  · rw [hlast.2.1, hs₃, hs₂, hs₁]
  have hmem : (block blocks j, j) ∈ blocks.zipIdx := by
    rw [List.mk_mem_zipIdx_iff_getElem?]
    simp [block, List.getD_eq_getElem?_getD, hj]
  obtain ⟨rep, hrep⟩ : ∃ rep, (toVec (block blocks j)).head? = some rep := by
    obtain ⟨x, hx⟩ := h.nonempty j hj
    obtain ⟨rep, tail, hcons⟩ := List.exists_cons_of_ne_nil (List.ne_nil_of_mem (mem_toVec.mpr hx))
    exact ⟨rep, by rw [hcons]; rfl⟩
  refine ⟨rep, mem_toVec.mp (List.mem_of_head? hrep), fun a => ?_⟩
  have hnone : m₂.transition j a = none := by rw [ht₂, ht₁, hempty.2.2]
  rw [hlast.2.2]
  have hcopy := (transition_foldl_copyTransitions self symbols a map m₂
    (List.nodup_zipIdx_map_snd blocks)).2 _ hmem rep hrep
  rw [hcopy, hnone, Option.or_none]

/-- The transitions of the minimized automaton are those of any state of the block. -/
theorem transition_buildMinimizedDfa (hc : self.Consistent) (hsymbols : ∀ a, a ∈ symbols ↔ a ∈ self.alphabet)
    (hclosed : ∀ x ∈ R, ∀ a y, self.transition x a = some y → y ∈ R)
    (h : Refinement.Inv self symbols R (fun _ _ _ => True) ⟨blocks, []⟩) (a : Nat) {j x : Nat}
    (hx : x ∈ block blocks j) :
    (self.buildMinimizedDfa symbols blocks).transition j a =
      (self.transition x a).bind (stateToPartition blocks).get? := by
  have hR : IsPartition R blocks := h.isPartition
  obtain ⟨-, -, htrans⟩ := buildMinimizedDfa_spec self symbols hR
  obtain ⟨rep, hrep, hedge⟩ := htrans j (lt_length_of_mem_block hx)
  rw [hedge]
  by_cases ha : a ∈ symbols
  · rw [if_pos ha, edge]
    have hrx : ∀ k, Agree self.transition rep x a (block blocks k) :=
      h.settled rep x ⟨j, hrep, hx⟩ a ha (by simp) trivial
    cases hstep : self.transition rep a with
    | some t =>
      have htR : t ∈ R := hclosed rep ((hR.cover rep).mpr ⟨j, hrep⟩) a t hstep
      obtain ⟨k, hk⟩ := (hR.cover t).mp htR
      obtain ⟨u, hu, hxu⟩ := (hrx k).mp ⟨t, hk, hstep⟩
      rw [hxu, Option.bind_some, Option.bind_some, (get?_stateToPartition hR).mpr hk,
        (get?_stateToPartition hR).mpr hu]
    | none =>
      have hnone : self.transition x a = none := by
        rw [Option.eq_none_iff_forall_ne_some]
        intro u hxu
        have huR : u ∈ R := hclosed x ((hR.cover x).mpr ⟨j, hx⟩) a u hxu
        obtain ⟨k, hk⟩ := (hR.cover u).mp huR
        obtain ⟨t, -, hrt⟩ := (hrx k).mpr ⟨u, hk, hxu⟩
        rw [hstep] at hrt
        cases hrt
      rw [hnone]
  · have hnone : self.transition x a = none := by
      rw [Option.eq_none_iff_forall_ne_some]
      intro u hxu
      exact ha ((hsymbols a).mpr (hc.mem_alphabet x a u hxu))
    rw [if_neg ha, hnone, Option.bind_none]

/-- A state of the minimized automaton accepts what the states of its block accept. -/
theorem acceptsFrom_buildMinimizedDfa (hc : self.Consistent) (hsymbols : ∀ a, a ∈ symbols ↔ a ∈ self.alphabet)
    (hclosed : ∀ x ∈ R, ∀ a y, self.transition x a = some y → y ∈ R)
    (h : Refinement.Inv self symbols R (fun _ _ _ => True) ⟨blocks, []⟩) (word : List Nat) {j x : Nat}
    (hx : x ∈ block blocks j) :
    (self.buildMinimizedDfa symbols blocks).acceptsFrom j word = self.acceptsFrom x word := by
  have hR : IsPartition R blocks := h.isPartition
  obtain ⟨hfinal, -, -⟩ := buildMinimizedDfa_spec self symbols hR
  induction word generalizing j x with
  | nil =>
    rw [acceptsFrom, acceptsFrom, decide_eq_decide, hfinal]
    constructor
    · rintro ⟨f, hf, hfj⟩
      exact (h.final_iff f x ⟨j, hfj, hx⟩).mp hf
    · exact fun hfx => ⟨x, hfx, hx⟩
  | cons a word ih =>
    rw [acceptsFrom, acceptsFrom, transition_buildMinimizedDfa hc hsymbols hclosed h a hx]
    cases hxu : self.transition x a with
    | none => rfl
    | some u =>
      obtain ⟨k, hk⟩ := (hR.cover u).mp (hclosed x ((hR.cover x).mpr ⟨j, hx⟩) a u hxu)
      rw [Option.bind_some, (get?_stateToPartition hR).mpr hk]
      exact ih hk

/-! ## Minimization -/

/-- The states that are found hold the start state and are closed under transitions. -/
theorem findReachableStates_spec (h : self.WellFormed)
    (hsymbols : ∀ a, a ∈ symbols ↔ a ∈ self.alphabet) {start : Nat}
    (hstart : self.startState = some start) :
    start ∈ self.findReachableStates symbols ∧
      ∀ x ∈ self.findReachableStates symbols, ∀ a y, self.transition x a = some y →
        y ∈ self.findReachableStates symbols := by
  have hfollow : ∀ x y, y ∈ symbols.filterMap (self.transition x)
      ↔ ∃ a, self.transition x a = some y := by
    intro x y
    rw [List.mem_filterMap]
    refine ⟨fun ⟨a, _, ha⟩ => ⟨a, ha⟩, fun ⟨a, ha⟩ => ⟨a, ?_, ha⟩⟩
    exact (hsymbols a).mpr (h.mem_alphabet x a y ha)
  have hU : ∀ x ∈ Finset.range self.numStates, ∀ y ∈ symbols.filterMap (self.transition x),
      y ∈ Finset.range self.numStates := by
    intro x _ y hy
    obtain ⟨a, ha⟩ := (hfollow x y).mp hy
    exact Finset.mem_range.mpr (h.dest_lt x a y ha)
  have hopen : Explore.Open (fun x => symbols.filterMap (self.transition x)) [start] ∅ := by
    simp [Explore.Open]
  obtain ⟨-, hall, hclosed⟩ := Explore.run_complete (A := .queue) hU le_rfl
    (by simpa using h.start_lt start hstart) hopen
  unfold findReachableStates
  rw [hstart]
  exact ⟨hall start List.mem_cons_self, fun x hx a y ha => hclosed x hx y ((hfollow x y).mpr ⟨a, ha⟩)⟩

variable (symbols) in
/-- The refinement starts with the final and the other states, and all blocks on the worklist. -/
theorem initial_inv {partitions : List StateSet}
    (hp : partitions = [self.finalStates ∩ R, R \ self.finalStates].filter (· ≠ ∅)) :
    Refinement.Inv self symbols R (fun _ _ _ => True)
      ⟨partitions, (List.range partitions.length).flatMap fun idx => symbols.map fun sym => (idx, sym)⟩ := by
  have hdisj : Disjoint (self.finalStates ∩ R) (R \ self.finalStates) := by
    rw [Finset.inter_comm]
    exact (Finset.disjoint_sdiff_inter R self.finalStates).symm
  have hunion : (self.finalStates ∩ R) ∪ (R \ self.finalStates) = R := by
    rw [Finset.inter_comm, Finset.union_comm, Finset.sdiff_union_inter]
  obtain ⟨hpart, htogether⟩ := isPartition_pair hdisj hunion
  rw [← hp] at hpart htogether
  refine ⟨hpart, fun x y hxy => ?_, fun x y _ b hb hagree _ j => ?_⟩
  · rcases htogether x y hxy with ⟨hx, hy⟩ | ⟨hx, hy⟩
    · exact iff_of_true (Finset.mem_inter.mp hx).1 (Finset.mem_inter.mp hy).1
    · exact iff_of_false (Finset.mem_sdiff.mp hx).2 (Finset.mem_sdiff.mp hy).2
  by_cases hj : j < partitions.length
  · apply hagree
    simp [hj, hb]
  · dsimp only
    rw [block_eq_empty (not_lt.mp hj)]
    simp [Agree, Hits]

/-- What the refinement starts with. -/
def initialRefinement (self : DFA) (symbols : List Nat) : Refinement :=
  let reachable := self.findReachableStates symbols
  let partitions := [self.finalStates ∩ reachable, reachable \ self.finalStates].filter (· ≠ ∅)
  ⟨partitions, (List.range partitions.length).flatMap fun idx => symbols.map fun sym => (idx, sym)⟩

/-- Minimization refines the partition to the end, and builds the DFA of its blocks. -/
theorem minimize_eq (order : HashOrder) (h : self.WellFormed) {start : Nat}
    (hstart : self.startState = some start) :
    let symbols := order.iter self.alphabet
    ∃ fuel blocks, self.refine symbols fuel (self.initialRefinement symbols) = some blocks ∧
      Refinement.Inv self symbols (self.findReachableStates symbols) (fun _ _ _ => True) ⟨blocks, []⟩ ∧
      self.minimize order = some (self.buildMinimizedDfa symbols blocks) := by
  have hsymbols := order.mem_iter self.alphabet
  obtain ⟨hmem, hclosed⟩ := findReachableStates_spec h hsymbols hstart
  dsimp only
  set symbols := order.iter self.alphabet with hsym
  set R := self.findReachableStates symbols with hR
  set partitions := [self.finalStates ∩ R, R \ self.finalStates].filter (· ≠ ∅) with hp
  have hinit := initial_inv symbols hp
  have hnum : self.numStates ≠ 0 := Nat.ne_of_gt (Nat.zero_lt_of_lt (h.start_lt start hstart))
  have hne : R ≠ ∅ := Finset.ne_empty_of_mem hmem
  obtain ⟨i, hi⟩ := (hinit.isPartition.cover start).mp hmem
  have hnil : partitions ≠ [] :=
    List.ne_nil_of_length_pos (Nat.zero_lt_of_lt (lt_length_of_mem_block hi))
  set worklist := (List.range partitions.length).flatMap
    fun idx => symbols.map fun sym => (idx, sym) with hw
  have hlen : worklist.length = symbols.length * partitions.length := by
    rw [hw, Nat.mul_comm]
    simp
  have hfuel : worklist.length + symbols.length * R.card + 1
      ≤ symbols.length * R.card + 1 + symbols.length * partitions.length := by omega
  obtain ⟨blocks, hrefine, hinv⟩ := refine_spec h.toConsistent hinit hfuel
  refine ⟨_, blocks, hrefine, hinv, ?_⟩
  unfold minimize
  dsimp only
  rw [if_neg (by simp [hstart, hnum]), ← hsym, ← hR, if_neg hne, ← hp, if_neg hnil, ← hw, hrefine]
  rfl

/-- The start state of the minimized automaton is the block of the start state. -/
theorem startState_buildMinimizedDfa {start j : Nat} (hstart : self.startState = some start)
    (hR : IsPartition R blocks) (hj : start ∈ block blocks j) :
    (self.buildMinimizedDfa symbols blocks).startState = some j := by
  rw [(buildMinimizedDfa_spec self symbols hR).2.1, hstart, Option.bind_some]
  exact (get?_stateToPartition hR).mpr hj

/-- Minimization ends with a DFA for the same language. -/
theorem minimize_spec (order : HashOrder) (h : self.WellFormed) :
    ∃ minimized, self.minimize order = some minimized ∧
      ∀ word, minimized.accepts word = self.accepts word := by
  have hsymbols := order.mem_iter self.alphabet
  cases hstart : self.startState with
  | none =>
    refine ⟨{}, by simp [minimize, hstart], fun word => ?_⟩
    rw [accepts, accepts, hstart]
  | some start =>
    obtain ⟨hmem, hclosed⟩ := findReachableStates_spec h hsymbols hstart
    obtain ⟨-, blocks, -, hinv, hmin⟩ := minimize_eq order h hstart
    refine ⟨_, hmin, fun word => ?_⟩
    obtain ⟨j, hj⟩ := (hinv.isPartition.cover start).mp hmem
    rw [accepts, accepts, startState_buildMinimizedDfa hstart hinv.isPartition hj, hstart]
    exact acceptsFrom_buildMinimizedDfa h.toConsistent hsymbols hclosed hinv word hj

end DFA

/-- For every automaton that the methods build, the subset construction and the minimization
end, and the three automata accept the same words. -/
theorem constructions_preserve_language (calls : List EpsilonNFA.Call) (order order' : HashOrder) :
    ∃ dfa minimized,
      subsetConstruction order (EpsilonNFA.build calls) = some dfa ∧
      dfa.minimize order' = some minimized ∧
      ∀ word,
        (dfa.accepts word = true ↔ word ∈ (EpsilonNFA.build calls).toεNFA.accepts) ∧
        (minimized.accepts word = true ↔ word ∈ (EpsilonNFA.build calls).toεNFA.accepts) := by
  obtain ⟨dfa, hdfa, hwf, hlang⟩ :=
    subsetConstruction_spec order (EpsilonNFA.build_wellFormed calls)
  obtain ⟨minimized, hmin, hsame⟩ := DFA.minimize_spec order' hwf
  exact ⟨dfa, minimized, hdfa, hmin, fun word => ⟨hlang word, by rw [hsame, hlang]⟩⟩

end Angr.Automaton
