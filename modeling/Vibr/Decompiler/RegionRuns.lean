import Mathlib
import Vibr.Decompiler.RegionTraces
import Vibr.Lib.Runs

/-!
# Runs

A call is made on a region that is live: neither finalized nor dissolved, nor taken back by a
rollback. Calls that raise an error are not part of a run.
-/

namespace Angr.Overlay

open DiGraph Forest

variable {T V : Type} [DecidableEq T]

inductive Verb (T V : Type) where
  | createSubregion (head : Tx T) (members : Finset (Tx T)) (cyclic cyclicAncestor : Bool)
  | addNode (n : T)
  | removeNode (x : Tx T) (absorbedInto : Option T) (absorbOutEdges : Bool)
  | addEdge (src : T) (dst : Tx T) (d : EdgeData V)
  | detachEdge (src dst : Tx T)
  | hideEdge (src dst : Tx T)
  | hideEdgeToSuccessor (succ : Tx T)
  | removeEdgeWithSuccessorsOnly (src dst : Tx T)
  | markEdge (src dst : Tx T) (attrs : List String)
  | dropEdgeMarksFrom (n : Tx T) (key : String)
  | absorbSuccessorInto (succ newNode : Tx T)
  | replaceNodes (old₀ new : T) (old₁ : Option T) (selfLoop : Bool)
  | finalize (resultNode : Option (Tx T)) (succSnapshot : Finset (Tx T))
  | dissolve

namespace Verb

variable (it : IterOrder T) (s : OverlayManager T V) (live : Finset Nat) (self : Nat)

@[grind =] def exec : Verb T V → Option (OverlayManager T V)
  | createSubregion head ms cyclic cyclicAncestor =>
    (s.createSubregion it self head ms cyclic cyclicAncestor).map Prod.fst
  | addNode n => s.addNode self n
  | removeNode x absorbedInto absorbOutEdges => s.removeNode it self x absorbedInto absorbOutEdges
  | addEdge src dst d => s.addEdge self src dst d
  | detachEdge src dst => some (s.detachEdge it self src dst)
  | hideEdge src dst => some (s.hideEdge it self src dst)
  | hideEdgeToSuccessor succ => some (s.hideEdgeToSuccessor it self succ)
  | removeEdgeWithSuccessorsOnly src dst => some (s.removeEdgeWithSuccessorsOnly self src dst)
  | markEdge src dst attrs => some (s.markEdge self src dst attrs)
  | dropEdgeMarksFrom n key => some (s.dropEdgeMarksFrom it self n key)
  | absorbSuccessorInto succ newNode => s.absorbSuccessorInto it self succ newNode
  | replaceNodes old₀ new old₁ selfLoop => s.replaceNodes it self old₀ new old₁ selfLoop
  | finalize resultNode succSnapshot => s.finalize it self resultNode succSnapshot
  | dissolve => s.dissolve it self

def live' : Verb T V → Finset Nat
  | createSubregion .. => insert s.core.next live
  | finalize .. => live.erase self
  | dissolve => live.erase self
  | _ => live

/-- Edges are given to a node that is there or in `seen`, and the removed one gets none unless it is
in `seen`. -/
def Anchored (seen : Finset T) : Verb T V → Prop
  | removeNode (.node n) (some absorbed) absorbOutEdges =>
    n ∈ (s.core.region self).under → ∀ m ∈ rewired s.core self n absorbed absorbOutEdges,
      m ∈ seen ∪ s.core.graph.nodes.erase n ∧ absorbed ∈ seen ∪ s.core.graph.nodes.erase n
  | _ => True

/-- Edges that are kept are not among those that others are renamed to, and the head of the parent is
not what it is set to. -/
def Fresh : Verb T V → Prop
  | replaceNodes old₀ new old₁ _ => ∀ i ∈ self :: s.core.ancestors self,
      Clean s.core (insert old₀ old₁.toFinset) new i (renamedKinds self i)
  | finalize _ _ => ∀ parent result, s.core.parent self = some parent →
      (s.core.region self).members = {.node result} → (s.core.region parent).head ≠ some (.node result)
  | dissolve => ∀ parent, s.core.parent self = some parent →
      (s.core.region parent).head = some (.region self) ∨ (s.core.region parent).head ≠ (s.core.region self).head
  | _ => True

end Verb

variable {it : IterOrder T} {s s' : OverlayManager T V} {live : Finset Nat} {self : Nat} {verb : Verb T V} {A B : Prop}
variable {seen : Finset T}

/-- Every call on a live region makes a trace. -/
theorem Verb.does (hself : self ∈ live) (htree : Tree s.core live) (hplaced : Placed s.core)
    (hs : verb.exec it s self = some s') (hA : A → verb.Anchored s self seen) (hB : B → verb.Fresh s self) :
    Does it (Ok A B seen) s live s' (verb.live' s live self) := by
  cases verb with
  | createSubregion head ms cyclic cyclicAncestor =>
    obtain ⟨⟨s₁, sub⟩, hs₁, rfl⟩ := Option.map_eq_some_iff.mp hs
    exact does_createSubregion hself hs₁
  | addNode n => exact (does_addNode hself hs).1
  | removeNode x absorbedInto absorbOutEdges =>
    refine does_removeNode hs fun hA' n absorbed hx hn habsorbed => ?_
    subst hx habsorbed
    exact hA hA' hn
  | addEdge src dst d => exact does_addEdge hself hs
  | detachEdge src dst =>
    rw [← Option.some.inj hs]
    exact does_detachEdge
  | hideEdge src dst =>
    rw [← Option.some.inj hs]
    exact does_hideEdge
  | hideEdgeToSuccessor succ =>
    rw [← Option.some.inj hs]
    exact does_hideEdgeToSuccessor
  | removeEdgeWithSuccessorsOnly src dst =>
    rw [← Option.some.inj hs]
    exact does_removeEdgeWithSuccessorsOnly
  | markEdge src dst attrs =>
    rw [← Option.some.inj hs]
    exact does_markEdge attrs
  | dropEdgeMarksFrom n key =>
    rw [← Option.some.inj hs]
    exact does_dropEdgeMarksFrom
  | absorbSuccessorInto succ newNode => exact does_absorbSuccessorInto hs
  | replaceNodes old₀ new old₁ selfLoop => exact does_replaceNodes hself hs hB
  | finalize resultNode succSnapshot => exact does_finalize hself htree hplaced hs hB
  | dissolve => exact does_dissolve hself hs hB

/-! ## Runs of calls -/

/-- A manager, and its live regions. -/
structure World (T V : Type) where
  manager : OverlayManager T V
  live : Finset Nat

namespace World

variable (it : IterOrder T)

/-- The root is live. -/
def start (graph : DiGraph T V) (exposeLoopHeadBackedges : Bool) (head : Option (Tx T)) : World T V where
  manager := .new graph exposeLoopHeadBackedges head
  live := {0}

def call (w : World T V) (c : Nat × Verb T V) : World T V :=
  match c.2.exec it w.manager c.1 with
  | none => w
  | some s => ⟨s, c.2.live' w.manager w.live c.1⟩

/-- The region is live, and the call does not raise an error. -/
def Legal (w : World T V) (c : Nat × Verb T V) : Prop := c.1 ∈ w.live ∧ (c.2.exec it w.manager c.1).isSome

structure Good (w : World T V) : Prop where
  tree : Tree w.manager.core w.live
  placed : Placed w.manager.core

variable {it} {w w' : World T V} {c : Nat × Verb T V}

theorem call_does (h : w.Good) (hlegal : w.Legal it c) (hA : A → c.2.Anchored w.manager c.1 seen)
    (hB : B → c.2.Fresh w.manager c.1) : Does it (Ok A B seen) w.manager w.live (w.call it c).manager (w.call it c).live := by
  obtain ⟨hself, hsome⟩ := hlegal
  obtain ⟨s, hs⟩ := Option.isSome_iff_exists.mp hsome
  unfold World.call
  rw [hs]
  exact Verb.does hself h.tree h.placed hs hA hB

theorem Good.call (h : w.Good) (hlegal : w.Legal it c) : (w.call it c).Good := by
  have hdoes : Does it (Ok False False ∅) w.manager w.live _ _ := call_does h hlegal False.elim False.elim
  obtain ⟨htree, hplaced⟩ := hdoes.good h.tree h.placed
  exact ⟨htree, hplaced⟩

theorem start_good (graph : DiGraph T V) (expose : Bool) (head : Option (Tx T)) : (start graph expose head).Good := by
  have hregion : ∀ i, (start graph expose head).manager.core.region i = if i = 0 then
      { head := head
        cyclic := false
        parent := none
        members := graph.nodes.image .node
        under := graph.nodes }
      else { head := none, cyclic := false, parent := none } := by
    intro i
    unfold start OverlayManager.new
    dsimp only
    rw [Function.update_apply]
  have howner : ∀ n, (start graph expose head).manager.core.owner n = if n ∈ graph.nodes then some 0 else none :=
    fun _ => rfl
  have hparent : ∀ i, (start graph expose head).manager.core.parent i = none := by
    intro i
    rw [Core.parent, hregion]
    split <;> rfl
  have hzero : ∀ i ∈ (start graph expose head).live, i = 0 := fun i hi => Finset.mem_singleton.mp hi
  refine ⟨?_, ?_⟩
  · constructor
    · exact Finset.mem_singleton_self 0
    · exact hparent 0
    · intro i hi
      rw [hzero i hi]
      exact Nat.zero_lt_one
    · intro i _ p hp
      rw [hparent] at hp
      cases hp
    · intro i hi
      rw [hzero i hi]
      exact .refl
    · intro p hp i
      rw [hzero p hp, hregion, hparent]
      simp
    · intro i hi n
      rw [hzero i hi, hregion, howner]
      by_cases hn : n ∈ graph.nodes <;> simp [hn]
    · intro n i hn
      rw [howner] at hn
      split at hn
      · rw [← Option.some.inj hn]
        exact Finset.mem_singleton_self 0
      · cases hn
    · intro i hi
      rw [hzero i hi, hregion, if_pos rfl]
      have hempty : regionsOf (graph.nodes.image Tx.node) = ∅ := by
        ext j
        rw [mem_regionsOf]
        simp
      rw [hempty]
      rfl
    · intro i hi n
      rw [hzero i hi, hregion, howner, if_pos rfl]
      simp only [Option.ite_none_right_eq_some, Option.some.injEq]
      constructor
      · intro hn
        exact ⟨0, ⟨hn, rfl⟩, .refl⟩
      · rintro ⟨o, hn, -⟩
        exact hn.1
    · intro i hi
      rw [hzero i hi, hregion, if_pos rfl]
  · intro n o hn
    rw [howner] at hn
    split at hn
    · assumption
    · cases hn

/-- A call keeps that every node of the graph has an owner, if edges are only given to nodes. -/
theorem owned_call (h : w.Good) (hlegal : w.Legal it c) (hanchored : c.2.Anchored w.manager c.1 ∅)
    (howned : Owned w.manager.core) : Owned (w.call it c).manager.core := by
  have hdoes : Does it (Ok True False ∅) w.manager w.live _ _ := call_does h hlegal (fun _ => hanchored) False.elim
  obtain ⟨log, htrace, -⟩ := hdoes
  exact htrace.owned (fun c ch hok => hok.1 trivial) howned

theorem bare_call (h : w.Good) (hlegal : w.Legal it c) (hbare : Bare w.manager.core w.live) :
    Bare (w.call it c).manager.core (w.call it c).live := by
  have hdoes : Does it (Ok False False ∅) w.manager w.live _ _ := call_does h hlegal False.elim False.elim
  obtain ⟨log, htrace, -⟩ := hdoes
  exact htrace.bare h.tree h.placed hbare

/-- In every state of a run in which edges are only given to nodes, the copies of the ownership agree. -/
theorem tree_of_run {graph : DiGraph T V} {expose : Bool} {head : Option (Tx T)}
    (h : Runs.Reach (call it) (fun w c => w.Legal it c ∧ c.2.Anchored w.manager c.1 ∅) (start graph expose head) w) :
    (∀ n ∈ w.manager.core.graph.nodes, ∃ o ∈ w.live, w.manager.core.owner n = some o ∧
        ∀ i, .node n ∈ (w.manager.core.region i).members ↔ i = o) ∧
      (∀ i ∈ w.live, i ≠ 0 → ∃ p ∈ w.live, w.manager.core.parent i = some p ∧
        ∀ q, .region i ∈ (w.manager.core.region q).members ↔ q = p) ∧
      (∀ i ∈ w.live, (w.manager.core.region i).children = (regionsOf (w.manager.core.region i).members).val) ∧
      ∀ i ∈ w.live, (w.manager.core.region i).under =
          (w.manager.core.region i).members.biUnion w.manager.core.underlying ∧
        ((w.manager.core.region i).members : Set (Tx T)).PairwiseDisjoint w.manager.core.underlying := by
  have hinv := h.invariant (fun w => w.Good ∧ Owned w.manager.core ∧ Bare w.manager.core w.live)
    ⟨start_good graph expose head, fun n hn => ⟨0, if_pos hn⟩, fun i hi => by
      have hne : i ≠ 0 := fun heq => hi (Finset.mem_singleton.mpr heq)
      unfold start OverlayManager.new
      dsimp only
      rw [Function.update_of_ne hne]⟩
    fun w c hinv hok => ⟨hinv.1.call hok.1, owned_call hinv.1 hok.1 hok.2 hinv.2.1, bare_call hinv.1 hok.1 hinv.2.2⟩
  obtain ⟨⟨htree, -⟩, howned, hbare⟩ := hinv
  refine ⟨fun n hn => ?_, fun i hi hne => ?_, htree.children, fun i hi => ⟨htree.under_eq hi, ?_⟩⟩
  · obtain ⟨o, ho⟩ := howned n hn
    refine ⟨o, htree.owner n o ho, ho, fun i => ⟨fun hmem => ?_, ?_⟩⟩
    · by_cases hi : i ∈ w.live
      · exact Option.some.inj (((htree.node i hi n).mp hmem).symm.trans ho)
      · rw [hbare i hi] at hmem
        cases hmem
    · rintro rfl
      exact (htree.node i (htree.owner n i ho) n).mpr ho
  · rcases above_iff.mp (htree.rooted i hi) with heq | ⟨p, hp, -⟩
    · exact absurd heq.symm hne
    · refine ⟨p, htree.parent i hi p hp, hp, fun q => ⟨fun hmem => ?_, ?_⟩⟩
      · by_cases hq : q ∈ w.live
        · exact Option.some.inj (((htree.region q hq i).mp hmem).2.symm.trans hp)
        · rw [hbare q hq] at hmem
          cases hmem
      · rintro rfl
        exact (htree.region q (htree.parent i hi q hp) i).mpr ⟨hi, hp⟩
  · intro x hx y hy hne
    refine Finset.disjoint_left.mpr fun n hnx hny => hne ?_
    exact htree.eq_of_mem_underlying hi hx hy hnx hny

end World

/-! ## Two runs -/

/-- Numbers in ascending order. -/
def ascending : Enumeration Nat := .ascending

/-- Nodes before regions, both in ascending order. -/
@[grind =] def ascendingViews : Enumeration (Tx Nat) where
  list s := ((ascending.list (nodesOf s)).map .node) ++ (ascending.list (regionsOf s)).map .region
  nodup s := by
    refine List.nodup_append'.mpr ⟨(ascending.nodup _).map fun _ _ => Tx.node.inj,
      (ascending.nodup _).map fun _ _ => Tx.region.inj, ?_⟩
    rw [List.disjoint_left]
    intro x hx hx'
    obtain ⟨n, -, rfl⟩ := List.mem_map.mp hx
    obtain ⟨i, -, heq⟩ := List.mem_map.mp hx'
    cases heq
  mem_list s x := by
    rw [List.mem_append, List.mem_map, List.mem_map]
    simp only [ascending.mem_list, mem_nodesOf, mem_regionsOf]
    cases x with
    | node n => simp
    | region i => simp

def inOrder : IterOrder Nat where
  nodes := ascending
  views := ascendingViews

/-- 1 → 2, and 2 → 2. -/
def loopAtEnd : DiGraph Nat Unit :=
  (addEdge { nodes := ∅, edge := fun _ _ => none, closed := by simp } 1 2 EdgeData.empty).addEdge 2 2 EdgeData.empty

namespace World

/-- The loop at 2 as a region of its own, which is finalized. -/
def finalizedLoop : World Nat Unit :=
  ((start loopAtEnd false none).call inOrder (0, .createSubregion (.node 2) {.node 2} true false)).call inOrder
    (1, .finalize none ∅)

theorem finalizedLoop_under : (finalizedLoop.manager.core.region 0).under =
    (finalizedLoop.manager.core.region 0).members.biUnion finalizedLoop.manager.core.underlying :=
  ((@World.tree_of_run Nat Unit _ inOrder finalizedLoop loopAtEnd false none
    (.tail (.tail .refl ⟨by unfold Legal; decide +kernel, trivial⟩)
      ⟨by unfold Legal; decide +kernel, trivial⟩)).2.2.2 0 (by decide +kernel)).1

/-- The edge of 2 to itself is given to 1, which adds 2 to the graph again. -/
theorem removed_node_returns :
    (start loopAtEnd false none).Legal inOrder (0, .removeNode (.node 2) (some 1) true) ∧
      2 ∈ ((start loopAtEnd false none).call inOrder (0, .removeNode (.node 2) (some 1) true)).manager.core.graph.nodes ∧
      ((start loopAtEnd false none).call inOrder (0, .removeNode (.node 2) (some 1) true)).manager.core.owner 2 = none := by
  unfold Legal
  decide +kernel

end World

end Angr.Overlay
