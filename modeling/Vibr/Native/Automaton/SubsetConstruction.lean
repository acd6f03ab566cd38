import Vibr.Native.Automaton.Dfa

/-!
# Subset construction

`native/angr/src/automaton/subset_construction.rs`. The worklist is a stack, with its top at
the head here. `none` stands for a panic, and for a loop that is cut off.
-/

namespace Angr.Automaton

structure Subset where
  stateMapping : Dict (List Nat) Nat
  dfa : DFA
  worklist : List StateSet

namespace Subset

/-- The new DFA state for a set that was not seen before. -/
def newState (st : Subset) (nfa : EpsilonNFA) (nextSet : StateSet) : Subset :=
  let (new, dfa) := st.dfa.addState
  { stateMapping := st.stateMapping.set (toVec nextSet) new
    dfa := if (nextSet ∩ nfa.finalStates).Nonempty then dfa.addFinalState new else dfa
    worklist := nextSet :: st.worklist }

def link (st : Subset) (source symbol destination : Nat) : Subset :=
  { st with dfa := st.dfa.addTransition source symbol destination }

/-- The body of the loop over the alphabet. -/
def symbolStep (nfa : EpsilonNFA) (currentSet : StateSet) (current : Nat) (st : Subset)
    (symbol : Nat) : Option Subset := do
  let nextSet ← nfa.moveOnSymbol currentSet symbol
  if nextSet = ∅ then
    return st
  match st.stateMapping.get? (toVec nextSet) with
  | some existing => return st.link current symbol existing
  | none => return (st.newState nfa nextSet).link current symbol st.dfa.numStates

def loop (nfa : EpsilonNFA) (symbols : List Nat) : Nat → Subset → Option Subset
  | 0, _ => none
  | fuel + 1, st =>
    match st.worklist with
    | [] => some st
    | currentSet :: rest => do
      let current ← st.stateMapping.get? (toVec currentSet)
      let st ← symbols.foldlM (symbolStep nfa currentSet current) { st with worklist := rest }
      loop nfa symbols fuel st

end Subset

open Subset in
def subsetConstruction (order : HashOrder) (nfa : EpsilonNFA) : Option DFA := do
  let initialSet := nfa.epsilonClosure nfa.startStates
  if initialSet = ∅ then
    return {}
  let dfa := ({} : DFA).addState.2.setStartState 0
  let dfa := if (initialSet ∩ nfa.finalStates).Nonempty then dfa.addFinalState 0 else dfa
  let st ← loop nfa (order.iter nfa.alphabet) (2 ^ nfa.numStates + 1)
    { stateMapping := [(toVec initialSet, 0)], dfa := dfa, worklist := [initialSet] }
  return st.dfa.setStateMapping (st.stateMapping.map Prod.swap)

namespace Subset

/-! ## Invariant -/

variable {nfa : EpsilonNFA} {st : Subset} {S T R current : StateSet} {i j a : Nat}
  {remaining rest : List Nat}

def Mapped (st : Subset) (S : StateSet) (i : Nat) : Prop := st.stateMapping.get? (toVec S) = some i

/-- The move of a set on a symbol is still to be made: the set waits, or it is the current one
and the symbol is among those that remain. -/
def Pending (st : Subset) (current : StateSet) (remaining : List Nat) (S : StateSet) (a : Nat) : Prop :=
  S ∈ st.worklist ∨ S = current ∧ a ∈ remaining

/-- The move of the NFA from a set is the transition of the DFA from its state. -/
def Moved (st : Subset) (nfa : EpsilonNFA) (S : StateSet) (i a : Nat) : Prop :=
  ∃ R, nfa.moveOnSymbol S a = some R ∧
    if R = ∅ then st.dfa.transition i a = none
    else ∃ j, st.Mapped R j ∧ st.dfa.transition i a = some j

structure Inv (nfa : EpsilonNFA) (current : StateSet) (remaining : List Nat) (st : Subset) : Prop where
  keys : ∀ v ∈ Dict.keys st.stateMapping, ∃ S, v = toVec S ∧ ∀ s ∈ S, s < nfa.numStates
  id_lt : ∀ S i, st.Mapped S i → i < st.dfa.numStates
  inj : ∀ S T i, st.Mapped S i → st.Mapped T i → S = T
  final_iff : ∀ S i, st.Mapped S i → (i ∈ st.dfa.finalStates ↔ (S ∩ nfa.finalStates).Nonempty)
  final_lt : ∀ i ∈ st.dfa.finalStates, i < st.dfa.numStates
  pending : ∀ S i a, st.Mapped S i → st.Pending current remaining S a → st.dfa.transition i a = none
  moved : ∀ S i a, st.Mapped S i → a ∈ nfa.alphabet → ¬ st.Pending current remaining S a →
    st.Moved nfa S i a
  outside : ∀ i a, a ∉ nfa.alphabet → st.dfa.transition i a = none
  transition_lt : ∀ i a j, st.dfa.transition i a = some j →
    i < st.dfa.numStates ∧ j < st.dfa.numStates
  consistent : st.dfa.Consistent
  waiting : ∀ S ∈ st.worklist, ∃ i, st.Mapped S i
  nodup : st.worklist.Nodup
  current_notMem : current ∉ st.worklist

theorem mapped_newState :
    (st.newState nfa R).Mapped S i
      ↔ if R = S then i = st.dfa.numStates else st.Mapped S i := by
  unfold Mapped newState
  rw [Dict.get?_set]
  simp only [toVec_inj, DFA.addState]
  split
  · rw [Option.some.injEq, eq_comm]
  · rfl

@[simp] theorem transition_newState :
    (st.newState nfa R).dfa.transition = st.dfa.transition := by
  unfold newState
  dsimp only
  split <;> rfl

@[simp] theorem numStates_newState :
    (st.newState nfa R).dfa.numStates = st.dfa.numStates + 1 := by
  unfold newState
  dsimp only
  split <;> rfl

theorem consistent_newState (h : st.dfa.Consistent) : (st.newState nfa R).dfa.Consistent := by
  unfold newState
  dsimp only
  split <;> exact ⟨h.mem_sources, h.mem_alphabet⟩

theorem mem_finalStates_newState :
    i ∈ (st.newState nfa R).dfa.finalStates
      ↔ i = st.dfa.numStates ∧ (R ∩ nfa.finalStates).Nonempty ∨ i ∈ st.dfa.finalStates := by
  unfold newState
  dsimp only
  split
  · rename_i h
    simp [DFA.addFinalState, DFA.addState, h]
  · rename_i h
    simp [DFA.addState, h]

/-- A set that was not mapped gets a state without transitions, and waits. -/
theorem Inv.newState (h : st.Inv nfa current remaining) (hcur : ∃ i, st.Mapped current i)
    (hnew : st.stateMapping.get? (toVec R) = none) (hR : ∀ s ∈ R, s < nfa.numStates) :
    (st.newState nfa R).Inv nfa current remaining := by
  have hunmapped : ∀ i, ¬ st.Mapped R i := by
    intro i hi
    rw [Mapped, hnew] at hi
    cases hi
  have hold : ∀ {S i}, st.Mapped S i → (st.newState nfa R).Mapped S i := by
    intro S i hS
    rw [mapped_newState, if_neg]
    · exact hS
    · rintro rfl
      exact hunmapped i hS
  refine
    { keys := ?_, id_lt := ?_, inj := ?_, final_iff := ?_, final_lt := ?_, pending := ?_,
      moved := ?_, outside := ?_, transition_lt := ?_, consistent := consistent_newState h.consistent,
      waiting := ?_, nodup := ?_, current_notMem := ?_ }
  · intro v hv
    obtain ⟨i, hv⟩ := Dict.mem_keys.mp hv
    rcases List.mem_cons.mp hv with heq | hv
    · cases heq
      exact ⟨R, rfl, hR⟩
    · exact h.keys v (Dict.mem_keys.mpr ⟨i, (List.mem_filter.mp hv).1⟩)
  · intro S i hS
    rw [mapped_newState] at hS
    rw [numStates_newState]
    split at hS
    · omega
    · have := h.id_lt S i hS
      omega
  · intro S T i hS hT
    rw [mapped_newState] at hS hT
    split at hS <;> split at hT
    · rename_i hS' hT'
      rw [← hS', ← hT']
    · have := h.id_lt T i hT
      omega
    · have := h.id_lt S i hS
      omega
    · exact h.inj S T i hS hT
  · intro S i hS
    rw [mapped_newState] at hS
    rw [mem_finalStates_newState]
    split at hS
    · rename_i heq
      subst heq hS
      have : st.dfa.numStates ∉ st.dfa.finalStates := fun hmem => lt_irrefl _ (h.final_lt _ hmem)
      simp [this]
    have hlt := h.id_lt S i hS
    rw [← h.final_iff S i hS, or_iff_right]
    rintro ⟨rfl, -⟩
    exact lt_irrefl _ hlt
  · intro i hi
    rw [mem_finalStates_newState] at hi
    rw [numStates_newState]
    rcases hi with ⟨rfl, -⟩ | hi
    · omega
    · have := h.final_lt i hi
      omega
  · intro S i a hS hp
    rw [mapped_newState] at hS
    rw [transition_newState]
    split at hS
    · -- nothing leaves a state that did not exist
      subst hS
      rw [Option.eq_none_iff_forall_ne_some]
      intro j hj
      exact lt_irrefl _ (h.transition_lt _ a j hj).1
    rename_i hne
    apply h.pending S i a hS
    rcases hp with hp | hp
    · exact .inl ((List.mem_cons.mp hp).resolve_left (Ne.symm hne))
    · exact .inr hp
  · intro S i a hS ha hp
    have hne : R ≠ S := by
      rintro rfl
      exact hp (.inl List.mem_cons_self)
    rw [mapped_newState, if_neg hne] at hS
    have hp' : ¬ st.Pending current remaining S a := by
      rintro (hw | hc)
      · exact hp (.inl (List.mem_cons_of_mem _ hw))
      · exact hp (.inr hc)
    obtain ⟨Q, hQ, hmoved⟩ := h.moved S i a hS ha hp'
    refine ⟨Q, hQ, ?_⟩
    rw [transition_newState]
    split
    · rename_i hempty
      rwa [if_pos hempty] at hmoved
    rename_i hempty
    rw [if_neg hempty] at hmoved
    obtain ⟨j, hj, ht⟩ := hmoved
    exact ⟨j, hold hj, ht⟩
  · intro i a ha
    rw [transition_newState]
    exact h.outside i a ha
  · intro i a j hj
    rw [transition_newState] at hj
    rw [numStates_newState]
    have := h.transition_lt i a j hj
    omega
  · intro S hS
    rcases List.mem_cons.mp hS with rfl | hS
    · exact ⟨st.dfa.numStates, by rw [mapped_newState, if_pos rfl]⟩
    · obtain ⟨i, hi⟩ := h.waiting S hS
      exact ⟨i, hold hi⟩
  · refine List.nodup_cons.mpr ⟨fun hmem => ?_, h.nodup⟩
    obtain ⟨i, hi⟩ := h.waiting R hmem
    exact hunmapped i hi
  · intro hmem
    rcases List.mem_cons.mp hmem with rfl | hmem
    · obtain ⟨i, hi⟩ := hcur
      exact hunmapped i hi
    · exact h.current_notMem hmem

/-- The transition for the next symbol is put in: the move on it is made. -/
theorem Inv.link (h : st.Inv nfa current (a :: rest)) (ha : a ∈ nfa.alphabet) (harest : a ∉ rest)
    (hcur : st.Mapped current i) (hmove : nfa.moveOnSymbol current a = some R) (hR : R ≠ ∅)
    (hj : st.Mapped R j) : (st.link i a j).Inv nfa current rest := by
  have hnone : st.dfa.transition i a = none :=
    h.pending current i a hcur (.inr ⟨rfl, List.mem_cons_self⟩)
  have htrans : ∀ k b, (st.link i a j).dfa.transition k b
      = if i = k ∧ a = b then some j else st.dfa.transition k b :=
    fun k b => DFA.transition_addTransition
  refine
    { keys := h.keys, id_lt := h.id_lt, inj := h.inj, final_iff := h.final_iff,
      final_lt := h.final_lt, pending := ?_, moved := ?_, outside := ?_, transition_lt := ?_,
      consistent := h.consistent.addTransition hnone, waiting := h.waiting, nodup := h.nodup,
      current_notMem := h.current_notMem }
  · intro S k b hS hp
    rw [htrans, if_neg]
    · refine h.pending S k b hS ?_
      rcases hp with hp | ⟨hp, hb⟩
      · exact .inl hp
      · exact .inr ⟨hp, List.mem_cons_of_mem _ hb⟩
    rintro ⟨rfl, rfl⟩
    have hS' : S = current := h.inj S current i hS hcur
    subst hS'
    rcases hp with hp | ⟨-, hb⟩
    · exact h.current_notMem hp
    · exact harest hb
  · intro S k b hS hb hp
    by_cases heq : S = current ∧ a = b
    · obtain ⟨rfl, rfl⟩ := heq
      have hk : i = k := Option.some.inj (hcur.symm.trans hS)
      refine ⟨R, hmove, ?_⟩
      rw [if_neg hR, htrans, if_pos ⟨hk, rfl⟩]
      exact ⟨j, hj, rfl⟩
    have hkb : ¬ (i = k ∧ a = b) := by
      rintro ⟨rfl, rfl⟩
      exact heq ⟨h.inj S current i hS hcur, rfl⟩
    have hp' : ¬ st.Pending current (a :: rest) S b := by
      rintro (hw | ⟨rfl, hb'⟩)
      · exact hp (.inl hw)
      · rcases List.mem_cons.mp hb' with rfl | hb'
        · exact heq ⟨rfl, rfl⟩
        · exact hp (.inr ⟨rfl, hb'⟩)
    obtain ⟨Q, hQ, hmoved⟩ := h.moved S k b hS hb hp'
    refine ⟨Q, hQ, ?_⟩
    rw [htrans, if_neg hkb]
    exact hmoved
  · intro k b hb
    rw [htrans, if_neg]
    · exact h.outside k b hb
    · rintro ⟨-, rfl⟩
      exact hb ha
  · intro k b t ht
    rw [htrans] at ht
    split at ht
    · rename_i heq
      cases ht
      rw [← heq.1]
      exact ⟨h.id_lt current i hcur, h.id_lt R j hj⟩
    · exact h.transition_lt k b t ht

/-- There is nothing to put in where the move is empty. -/
theorem Inv.skip (h : st.Inv nfa current (a :: rest)) (harest : a ∉ rest)
    (hmove : nfa.moveOnSymbol current a = some ∅) : st.Inv nfa current rest := by
  refine { h with pending := ?_, moved := ?_ }
  · intro S k b hS hp
    refine h.pending S k b hS ?_
    rcases hp with hp | ⟨hp, hb⟩
    · exact .inl hp
    · exact .inr ⟨hp, List.mem_cons_of_mem _ hb⟩
  intro S k b hS hb hp
  by_cases heq : S = current ∧ a = b
  · obtain ⟨rfl, rfl⟩ := heq
    refine ⟨∅, hmove, ?_⟩
    rw [if_pos rfl]
    exact h.pending S k a hS (.inr ⟨rfl, List.mem_cons_self⟩)
  refine h.moved S k b hS hb ?_
  rintro (hw | ⟨rfl, hb'⟩)
  · exact hp (.inl hw)
  · rcases List.mem_cons.mp hb' with rfl | hb'
    · exact heq ⟨rfl, rfl⟩
    · exact hp (.inr ⟨rfl, hb'⟩)

/-! ## The loops -/

/-- The number of sets that were seen. -/
def seen (st : Subset) : Nat := (Dict.keys st.stateMapping).card

/-- There are no more sets than subsets of the states. -/
theorem Inv.seen_le (h : st.Inv nfa current remaining) : st.seen ≤ 2 ^ nfa.numStates := by
  have hsub : Dict.keys st.stateMapping ⊆ (Finset.range nfa.numStates).powerset.image toVec := by
    intro v hv
    obtain ⟨S, rfl, hS⟩ := h.keys v hv
    refine Finset.mem_image_of_mem _ (Finset.mem_powerset.mpr fun s hs => ?_)
    exact Finset.mem_range.mpr (hS s hs)
  calc st.seen ≤ ((Finset.range nfa.numStates).powerset.image toVec).card := Finset.card_le_card hsub
    _ ≤ (Finset.range nfa.numStates).powerset.card := Finset.card_image_le
    _ = 2 ^ nfa.numStates := by rw [Finset.card_powerset, Finset.card_range]

theorem seen_newState (nfa : EpsilonNFA) (hnew : st.stateMapping.get? (toVec R) = none) :
    (st.newState nfa R).seen = st.seen + 1 := by
  have hkeys : Dict.keys (st.newState nfa R).stateMapping
      = insert (toVec R) (Dict.keys st.stateMapping) := by
    ext v
    rw [Finset.mem_insert, ← Dict.get?_isSome, ← Dict.get?_isSome]
    simp only [newState, Dict.get?_set]
    by_cases h : toVec R = v
    · simp [h]
    · simp [h, Ne.symm h]
  rw [seen, hkeys, Finset.card_insert_of_notMem (Dict.get?_eq_none.mp hnew), seen]

/-- The outcome of some steps of the inner loop: the invariant, for the current set under the
same state, with every new set waiting. -/
def Advances (nfa : EpsilonNFA) (current : StateSet) (i : Nat) (rest : List Nat) (st st' : Subset) :
    Prop :=
  st'.Inv nfa current rest ∧ st'.Mapped current i ∧
    (∀ S k, st.Mapped S k → st'.Mapped S k) ∧ st'.dfa.startState = st.dfa.startState ∧
    st'.worklist.length + st.seen = st.worklist.length + st'.seen

theorem symbolStep_spec (hn : nfa.WellFormed) (h : st.Inv nfa current (a :: rest))
    (ha : a ∈ nfa.alphabet) (harest : a ∉ rest) (hcur : st.Mapped current i) :
    ∃ st', symbolStep nfa current i st a = some st' ∧ Advances nfa current i rest st st' := by
  have hne : a ≠ EPSILON := by
    rintro rfl
    exact hn.epsilon_notMem ha
  obtain ⟨R, hmove, -, hR⟩ := EpsilonNFA.moveOnSymbol_spec (S := current) hn hne
  unfold symbolStep
  rw [hmove, Option.bind_eq_bind, Option.bind_some]
  split
  · rename_i hempty
    subst hempty
    exact ⟨st, rfl, h.skip harest hmove, hcur, fun S k hS => hS, rfl, rfl⟩
  rename_i hempty
  split
  · rename_i existing hmapped
    exact ⟨_, rfl, h.link ha harest hcur hmove hempty hmapped, hcur, fun S k hS => hS, rfl, rfl⟩
  rename_i hnew
  have hold : ∀ S k, st.Mapped S k → (st.newState nfa R).Mapped S k := by
    intro S k hS
    rw [mapped_newState, if_neg]
    · exact hS
    · rintro rfl
      rw [Mapped, hnew] at hS
      cases hS
  have hmapped : (st.newState nfa R).Mapped R st.dfa.numStates := by
    rw [mapped_newState, if_pos rfl]
  have hnewInv := h.newState ⟨i, hcur⟩ hnew hR
  refine ⟨_, rfl, hnewInv.link ha harest (hold current i hcur) hmove hempty hmapped,
    hold current i hcur, hold, ?_, ?_⟩
  · simp only [Subset.link, Subset.newState, DFA.addTransition]
    split <;> rfl
  have hseen : ((st.newState nfa R).link i a st.dfa.numStates).seen = st.seen + 1 :=
    seen_newState nfa hnew
  have hlen : ((st.newState nfa R).link i a st.dfa.numStates).worklist.length
      = st.worklist.length + 1 := rfl
  omega

theorem symbols_spec (hn : nfa.WellFormed) (h : st.Inv nfa current remaining)
    (hsub : ∀ a ∈ remaining, a ∈ nfa.alphabet) (hnodup : remaining.Nodup)
    (hcur : st.Mapped current i) :
    ∃ st', remaining.foldlM (symbolStep nfa current i) st = some st' ∧
      Advances nfa current i [] st st' := by
  induction remaining generalizing st with
  | nil => exact ⟨st, rfl, h, hcur, fun S k hS => hS, rfl, rfl⟩
  | cons a rest ih =>
    obtain ⟨harest, hrest⟩ := List.nodup_cons.mp hnodup
    obtain ⟨st₁, hstep, hinv₁, hcur₁, hold₁, hstart₁, hcount₁⟩ :=
      symbolStep_spec hn h (hsub a List.mem_cons_self) harest hcur
    obtain ⟨st₂, hfold, hinv₂, hcur₂, hold₂, hstart₂, hcount₂⟩ :=
      ih hinv₁ (fun b hb => hsub b (List.mem_cons_of_mem _ hb)) hrest hcur₁
    refine ⟨st₂, ?_, hinv₂, hcur₂, fun S k hS => hold₂ S k (hold₁ S k hS),
      hstart₂.trans hstart₁, by omega⟩
    rw [List.foldlM_cons, hstep]
    exact hfold

/-- Taking a set off the worklist leaves all of its symbols to be looked at. -/
theorem Inv.pop {symbols : List Nat} {waiting : List StateSet} (h : st.Inv nfa current [])
    (hsymbols : ∀ a, a ∈ nfa.alphabet → a ∈ symbols) (hw : st.worklist = S :: waiting) :
    ({ st with worklist := waiting } : Subset).Inv nfa S symbols := by
  have hnodup := h.nodup
  rw [hw, List.nodup_cons] at hnodup
  refine
    { keys := h.keys, id_lt := h.id_lt, inj := h.inj, final_iff := h.final_iff,
      final_lt := h.final_lt, pending := ?_, moved := ?_, outside := h.outside,
      transition_lt := h.transition_lt, consistent := h.consistent, waiting := ?_,
      nodup := hnodup.2, current_notMem := hnodup.1 }
  · intro T k b hT hp
    refine h.pending T k b hT (.inl ?_)
    rw [hw]
    rcases hp with hp | ⟨rfl, -⟩
    · exact List.mem_cons_of_mem _ hp
    · exact List.mem_cons_self
  · intro T k b hT hb hp
    refine h.moved T k b hT hb ?_
    rintro (hmem | ⟨-, hmem⟩)
    · rw [hw] at hmem
      rcases List.mem_cons.mp hmem with rfl | hmem
      · exact hp (.inr ⟨rfl, hsymbols b hb⟩)
      · exact hp (.inl hmem)
    · cases hmem
  · intro T hT
    exact h.waiting T (by rw [hw]; exact List.mem_cons_of_mem _ hT)

/-- The loop ends with nothing to do, before it is cut off: every round takes a set off the
worklist for good. -/
theorem loop_spec (hn : nfa.WellFormed) {symbols : List Nat} (hnodup : symbols.Nodup)
    (hsymbols : ∀ a, a ∈ symbols ↔ a ∈ nfa.alphabet) {fuel : Nat} (h : st.Inv nfa current [])
    (hfuel : 2 ^ nfa.numStates + st.worklist.length + 1 ≤ fuel + st.seen) :
    ∃ st', loop nfa symbols fuel st = some st' ∧ (∃ current', st'.Inv nfa current' []) ∧
      st'.worklist = [] ∧ (∀ S k, st.Mapped S k → st'.Mapped S k) ∧
      st'.dfa.startState = st.dfa.startState := by
  induction fuel generalizing st current with
  | zero =>
    have := h.seen_le
    omega
  | succ fuel ih =>
    rw [loop]
    split
    · rename_i hw
      exact ⟨st, rfl, ⟨current, h⟩, hw, fun S k hS => hS, rfl⟩
    rename_i S waiting hw
    obtain ⟨i, hi⟩ := h.waiting S (by rw [hw]; exact List.mem_cons_self)
    have hpop := h.pop (fun a ha => (hsymbols a).mpr ha) hw
    obtain ⟨st₁, hfold, hinv₁, -, hold₁, hstart₁, hcount₁⟩ :=
      symbols_spec (i := i) hn hpop (fun a ha => (hsymbols a).mp ha) hnodup hi
    have hlen : st.worklist.length = waiting.length + 1 := by rw [hw, List.length_cons]
    have hseen : ({ st with worklist := waiting } : Subset).seen = st.seen := rfl
    dsimp only at hcount₁
    obtain ⟨st₂, hloop, hinv₂, hempty, hold₂, hstart₂⟩ := ih hinv₁ (by omega)
    refine ⟨st₂, ?_, hinv₂, hempty, fun T k hT => hold₂ T k (hold₁ T k hT),
      hstart₂.trans hstart₁⟩
    have hget : st.stateMapping.get? (toVec S) = some i := hi
    rw [hget, Option.bind_eq_bind, Option.bind_some, hfold, Option.bind_eq_bind,
      Option.bind_some]
    exact hloop

/-! ## Language -/

theorem foldl_stepSet_empty (M : εNFA Nat Nat) (word : List Nat) :
    word.foldl M.stepSet ∅ = ∅ := by
  have h := M.evalFrom_empty word
  rwa [εNFA.evalFrom, εNFA.εClosure_empty] at h

/-- There is no move on a symbol that is not in the alphabet. -/
theorem stepSet_eq_empty (hn : nfa.WellFormed) (ha : a ∉ nfa.alphabet) (S : Set Nat) :
    nfa.toεNFA.stepSet S a = ∅ := by
  have hstep : ∀ s, nfa.toεNFA.step s (some a) = ∅ := by
    intro s
    simp only [EpsilonNFA.toεNFA]
    split
    · rfl
    · rename_i hne
      rw [Finset.coe_eq_empty, ← Finset.not_nonempty_iff_eq_empty]
      exact fun hmem => ha (hn.mem_alphabet s a hne hmem)
  simp [εNFA.stepSet, hstep]

/-- Where nothing is left to do, a state accepts what its set accepts. -/
theorem acceptsFrom_iff (hn : nfa.WellFormed) (h : st.Inv nfa current []) (hw : st.worklist = [])
    (word : List Nat) (hS : st.Mapped S i) :
    st.dfa.acceptsFrom i word = true
      ↔ ∃ f ∈ nfa.finalStates, f ∈ word.foldl nfa.toεNFA.stepSet S := by
  have hpending : ∀ T b, ¬ st.Pending current [] T b := by
    intro T b hp
    simp [Pending, hw] at hp
  induction word generalizing S i with
  | nil =>
    rw [DFA.acceptsFrom, decide_eq_true_eq, h.final_iff S i hS, List.foldl_nil]
    simp only [Finset.Nonempty, Finset.mem_inter, Finset.mem_coe]
    exact exists_congr fun f => and_comm
  | cons a word ih =>
    rw [DFA.acceptsFrom, List.foldl_cons]
    by_cases ha : a ∈ nfa.alphabet
    · have hne : a ≠ EPSILON := by
        rintro rfl
        exact hn.epsilon_notMem ha
      obtain ⟨R, hmove, hmoved⟩ := h.moved S i a hS ha (hpending S a)
      obtain ⟨R', hmove', hstep, -⟩ := EpsilonNFA.moveOnSymbol_spec (S := S) hn hne
      obtain rfl : R = R' := Option.some.inj (hmove.symm.trans hmove')
      rw [← hstep]
      split at hmoved
      · rename_i hempty
        rw [hmoved, hempty, Finset.coe_empty, foldl_stepSet_empty]
        simp
      · obtain ⟨j, hj, htrans⟩ := hmoved
        rw [htrans]
        exact ih hj
    · rw [h.outside i a ha, stepSet_eq_empty hn ha, foldl_stepSet_empty]
      simp

/-- The loop starts with the closure of the start states. -/
theorem Inv.initial {S : StateSet} (hS : ∀ s ∈ S, s < nfa.numStates) (hne : S ≠ ∅) {dfa : DFA}
    (hdfa : dfa = if (S ∩ nfa.finalStates).Nonempty
      then (({} : DFA).addState.2.setStartState 0).addFinalState 0
      else ({} : DFA).addState.2.setStartState 0) :
    Inv nfa ∅ [] { stateMapping := [(toVec S, 0)], dfa := dfa, worklist := [S] } := by
  have hmapped : ∀ T i, ({ stateMapping := [(toVec S, 0)], dfa := dfa, worklist := [S] } : Subset).Mapped T i
      ↔ S = T ∧ i = 0 := by
    intro T i
    unfold Mapped
    rw [Dict.get?_cons]
    split
    · rename_i h
      rw [toVec_inj] at h
      simp [h, eq_comm]
    · rename_i h
      rw [toVec_inj] at h
      simp [h]
  have hnum : dfa.numStates = 1 := by
    rw [hdfa]
    split <;> rfl
  have hfinal : ∀ i, i ∈ dfa.finalStates ↔ i = 0 ∧ (S ∩ nfa.finalStates).Nonempty := by
    intro i
    rw [hdfa]
    split
    · rename_i h
      simp [DFA.addFinalState, DFA.setStartState, DFA.addState, h]
    · rename_i h
      simp [DFA.setStartState, DFA.addState, h]
  have htrans : ∀ i a, dfa.transition i a = none := by
    intro i a
    rw [hdfa]
    split <;> rfl
  refine
    { keys := ?_, id_lt := ?_, inj := ?_, final_iff := ?_, final_lt := ?_,
      pending := fun T i a _ _ => htrans i a, moved := ?_, outside := fun i a _ => htrans i a,
      transition_lt := ?_, consistent := ?_, waiting := ?_, nodup := List.nodup_singleton S,
      current_notMem := ?_ }
  · intro v hv
    obtain ⟨i, hv⟩ := Dict.mem_keys.mp hv
    obtain ⟨rfl, -⟩ := Prod.mk.inj (List.mem_singleton.mp hv)
    exact ⟨S, rfl, hS⟩
  · intro T i hT
    rw [((hmapped T i).mp hT).2]
    exact hnum ▸ Nat.one_pos
  · intro T U i hT hU
    rw [← ((hmapped T i).mp hT).1, ← ((hmapped U i).mp hU).1]
  · intro T i hT
    obtain ⟨rfl, rfl⟩ := (hmapped T i).mp hT
    simp [hfinal]
  · intro i hi
    rw [((hfinal i).mp hi).1]
    exact hnum ▸ Nat.one_pos
  · intro T i a hT _ hp
    refine absurd (.inl ?_) hp
    rw [((hmapped T i).mp hT).1]
    exact List.mem_cons_self
  · intro i a j hj
    rw [htrans] at hj
    cases hj
  · rw [hdfa]
    split <;> exact ⟨DFA.Consistent.empty.mem_sources, DFA.Consistent.empty.mem_alphabet⟩
  · intro T hT
    rw [List.mem_singleton.mp hT]
    exact ⟨0, (hmapped S 0).mpr ⟨rfl, rfl⟩⟩
  · simpa using Ne.symm hne

end Subset

open Subset in
/-- The subset construction ends, without a panic, with a DFA for the language of the NFA. -/
theorem subsetConstruction_spec (order : HashOrder) {nfa : EpsilonNFA} (hn : nfa.WellFormed) :
    ∃ dfa, subsetConstruction order nfa = some dfa ∧ dfa.WellFormed ∧
      ∀ word, dfa.accepts word = true ↔ word ∈ nfa.toεNFA.accepts := by
  have hclosure := EpsilonNFA.epsilonClosure_spec hn hn.start_lt
  have hlt := EpsilonNFA.epsilonClosure_lt hn hn.start_lt
  have haccepts : ∀ word, word ∈ nfa.toεNFA.accepts ↔ ∃ f ∈ nfa.finalStates,
      f ∈ word.foldl nfa.toεNFA.stepSet (nfa.epsilonClosure nfa.startStates) := by
    intro word
    rw [hclosure]
    rfl
  unfold subsetConstruction
  dsimp only
  split
  · rename_i hempty
    refine ⟨{}, rfl, ⟨DFA.Consistent.empty, by simp, by simp [DFA.transition]⟩, fun word => ?_⟩
    rw [haccepts, hempty, Finset.coe_empty, foldl_stepSet_empty]
    simp [DFA.accepts]
  rename_i hempty
  have hinit := Inv.initial hlt hempty rfl
  set S := nfa.epsilonClosure nfa.startStates
  set st : Subset := { stateMapping := [(toVec S, 0)], dfa := _, worklist := [S] } with hst
  have hmapped : st.Mapped S 0 := by simp [Mapped, hst]
  have hfuel : 2 ^ nfa.numStates + st.worklist.length + 1 ≤ 2 ^ nfa.numStates + 1 + st.seen := by
    simp [hst, seen, Dict.keys]
  obtain ⟨st', hloop, ⟨current, hinv⟩, hw, hold, hstart⟩ :=
    loop_spec hn (order.nodup nfa.alphabet) (order.mem_iter nfa.alphabet) hinit hfuel
  have hstart' : st'.dfa.startState = some 0 := by
    rw [hstart, hst]
    dsimp only
    split <;> rfl
  refine ⟨st'.dfa.setStateMapping (st'.stateMapping.map Prod.swap), ?_, ?_, fun word => ?_⟩
  · rw [hloop]
    rfl
  · refine ⟨⟨hinv.consistent.mem_sources, hinv.consistent.mem_alphabet⟩, fun start hs => ?_,
      fun i a j hj => (hinv.transition_lt i a j hj).2⟩
    obtain rfl : 0 = start := Option.some.inj (hstart'.symm.trans hs)
    exact hinv.id_lt S 0 (hold S 0 hmapped)
  rw [haccepts, ← acceptsFrom_iff hn hinv hw word (hold S 0 hmapped), DFA.accepts]
  have hs : (st'.dfa.setStateMapping (st'.stateMapping.map Prod.swap)).startState = some 0 :=
    hstart'
  rw [hs]
  simp only [DFA.acceptsFrom_setStateMapping]

end Angr.Automaton
