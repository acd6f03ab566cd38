import Vibr.Decompiler.RegionTree

/-!
# Changes

Every verb is a sequence of changes of the core, each with its inverses in the undo log. A
change keeps the tree, and after its inverses the tree is that from before. The graph, the pairs
of edges and the heads come back as well, if the ends of an added edge were there, if no
added pair was there, and if the head of the parent was not yet the node or head that it is
set to.
-/

namespace Angr.Overlay

open DiGraph Forest
open OverlayManager (undo)

variable {T V : Type} [DecidableEq T]

inductive Change (T V : Type) where
  | add (self : Nat) (n : T)
  | remove (owner : Nat) (n : T)
  | addEdge (u v : T) (d : EdgeData V)
  | removeEdge (u v : T)
  | setPairs (i : Nat) (drop added : Pairs T)
  | setHead (i : Nat) (head : Option (Tx T))
  | create (self : Nat) (head : Tx T) (ms : Finset (Tx T)) (cyclic cyclicAncestor : Bool)
  | finalize (self parent : Nat) (result : T)
  | dissolve (self parent : Nat) (hidden : Pairs T)

namespace Change

variable (it : IterOrder T) (c : Core T V) (live : Finset Nat)

def run : Change T V → Core T V
  | add self n => { c with graph := c.graph.addNode n }.adopt self n
  | remove owner n => { c with graph := c.graph.removeNode n }.abandon owner n
  | addEdge u v d => { c with graph := c.graph.addEdge u v d }
  | removeEdge u v => { c with graph := c.graph.removeEdge u v }
  | setPairs i drop added => c.setPairs i drop added
  | setHead i head => c.setHead i head
  | create self head ms cyclic cyclicAncestor => (c.giveNodes ms c.next).carve self head ms cyclic cyclicAncestor
  | finalize self parent result => (c.setOwner result (some parent)).collapse self parent result
  | dissolve self parent hidden =>
    (c.giveNodes (c.region self).members parent).merge self parent (c.region self).members hidden

/-- The inverses of giving nodes away. -/
def takeBack (ms : Finset (Tx T)) : List (Inverse T V) :=
  ((it.nodes.list (nodesOf ms)).map fun n => .setOwner n (c.owner n)).reverse

/-- The last one comes first. -/
def inverses : Change T V → List (Inverse T V)
  | add self n => [.nodeAdded self n, .setOwner n (c.owner n), .removeNode n]
  | remove owner n => [.nodeRemoved owner n, .setOwner n (c.owner n), .restoreNode n (c.graph.edgesAt it.nodes n)]
  | addEdge u v _ => [if c.graph.hasEdge u v then .replaceData u v (c.graph.data u v) else .removeEdge u v]
  | removeEdge u v => [.addEdge u v (c.graph.data u v)]
  | setPairs i drop added => [.setPairs i added drop]
  | setHead i _ => [.setHead i (c.region i).head]
  | create self _ ms _ _ => .createSubregion self c.next :: takeBack it c ms
  | finalize self parent result => [.finalize self parent result (c.region self).pairs, .setOwner result (c.owner result)]
  | dissolve self parent hidden =>
    .dissolve self parent (c.region self).members hidden :: takeBack it c (c.region self).members

/-- The live regions after the change. -/
def live' : Change T V → Finset Nat
  | create .. => insert c.next live
  | finalize self .. => live.erase self
  | dissolve self .. => live.erase self
  | _ => live

def Valid : Change T V → Prop
  | add self n => self ∈ live ∧ n ∉ c.graph.nodes
  | remove owner n => n ∈ c.graph.nodes ∧ c.owner n = some owner
  | addEdge .. => True
  | removeEdge u v => c.graph.hasEdge u v
  | setPairs i drop _ => drop ⊆ (c.region i).pairs
  | setHead .. => True
  | create self _ ms _ _ => self ∈ live ∧ ms ⊆ (c.region self).members
  | finalize self parent result =>
    self ∈ live ∧ c.parent self = some parent ∧ (c.region self).members = {.node result}
  | dissolve self parent hidden =>
    self ∈ live ∧ c.parent self = some parent ∧ Disjoint (c.region parent).pairs hidden

/-- The ends of an added edge are nodes, or among the nodes in `seen`. -/
def Anchored (seen : Finset T) : Change T V → Prop
  | addEdge u v _ => u ∈ seen ∪ c.graph.nodes ∧ v ∈ seen ∪ c.graph.nodes
  | _ => True

/-- The inverse finds pairs and heads as they were. -/
def Fresh : Change T V → Prop
  | setPairs i drop added => Disjoint ((c.region i).pairs \ drop) added
  | finalize _ parent result => (c.region parent).head ≠ some (.node result)
  | dissolve self parent _ =>
    (c.region parent).head = some (.region self) ∨ (c.region parent).head ≠ (c.region self).head
  | _ => True

end Change

variable {it : IterOrder T} {c c' : Core T V} {live live' : Finset Nat} {ch : Change T V} {self i j p : Nat} {n m : T}
variable {ms : Finset (Tx T)} {seen : Finset T}

/-! ## What a change keeps -/

/-- A node that has an owner is in the graph. -/
def Placed (c : Core T V) : Prop := ∀ n o, c.owner n = some o → n ∈ c.graph.nodes

/-- A node of the graph has an owner. -/
def Owned (c : Core T V) : Prop := ∀ n ∈ c.graph.nodes, ∃ o, c.owner n = some o

/-- Regions that are not live have no members. -/
def Bare (c : Core T V) (live : Finset Nat) : Prop := ∀ i ∉ live, (c.region i).members = ∅

omit [DecidableEq T] in
theorem SameTree.of_region {c' : Core T V} (howner : c'.owner = c.owner) (hnext : c'.next = c.next)
    (hregion : c'.region = c.region) : SameTree c c' where
  owner := howner
  next_le := hnext.ge
  parent i _ := by rw [Core.parent, Core.parent, hregion]
  children i _ := by rw [hregion]
  members i _ := by rw [hregion]
  under i _ := by rw [hregion]
  replacement i _ := by rw [hregion]

omit [DecidableEq T] in
theorem SameTree.trans {c'' : Core T V} (h : SameTree c c') (h' : SameTree c' c'') : SameTree c c'' where
  owner := h'.owner.trans h.owner
  next_le := h.next_le.trans h'.next_le
  parent i hi := (h'.parent i (Nat.lt_of_lt_of_le hi h.next_le)).trans (h.parent i hi)
  children i hi := (h'.children i (Nat.lt_of_lt_of_le hi h.next_le)).trans (h.children i hi)
  members i hi := (h'.members i (Nat.lt_of_lt_of_le hi h.next_le)).trans (h.members i hi)
  under i hi := (h'.under i (Nat.lt_of_lt_of_le hi h.next_le)).trans (h.under i hi)
  replacement i hi := (h'.replacement i (Nat.lt_of_lt_of_le hi h.next_le)).trans (h.replacement i hi)

omit [DecidableEq T] in
theorem SameTree.fields (h : SameTree c c') (hi : i < c.next) :
    (c'.region i).parent = (c.region i).parent ∧ (c'.region i).children = (c.region i).children ∧
      (c'.region i).members = (c.region i).members ∧ (c'.region i).under = (c.region i).under ∧
      (c'.region i).replacement = (c.region i).replacement :=
  ⟨h.parent i hi, h.children i hi, h.members i hi, h.under i hi, h.replacement i hi⟩

omit [DecidableEq T] in
theorem SameTree.of_fields (howner : c'.owner = c.owner) (hnext : c.next ≤ c'.next)
    (h : ∀ i < c.next, (c'.region i).parent = (c.region i).parent ∧ (c'.region i).children = (c.region i).children ∧
      (c'.region i).members = (c.region i).members ∧ (c'.region i).under = (c.region i).under ∧
      (c'.region i).replacement = (c.region i).replacement) : SameTree c c' where
  owner := howner
  next_le := hnext
  parent i hi := (h i hi).1
  children i hi := (h i hi).2.1
  members i hi := (h i hi).2.2.1
  under i hi := (h i hi).2.2.2.1
  replacement i hi := (h i hi).2.2.2.2

theorem region_setPairs (c : Core T V) (self : Nat) (drop add : Pairs T) (i : Nat) :
    (c.setPairs self drop add).region i =
      { c.region i with pairs := if i = self then (c.region i).pairs \ drop ∪ add else (c.region i).pairs } := by
  unfold Core.setPairs Core.modify
  by_cases hi : i = self
  · subst hi
    simp
  · simp [hi]

omit [DecidableEq T] in
theorem region_setHead (c : Core T V) (self : Nat) (head : Option (Tx T)) (i : Nat) :
    (c.setHead self head).region i =
      { c.region i with head := if i = self then head else (c.region i).head } := by
  unfold Core.setHead Core.modify
  by_cases hi : i = self
  · subst hi
    simp
  · simp [hi]

theorem SameTree.setPairs (self : Nat) (drop add : Pairs T) : SameTree c (c.setPairs self drop add) where
  owner := rfl
  next_le := Nat.le_refl _
  parent i _ := by rw [Core.parent, region_setPairs]; rfl
  children i _ := by rw [region_setPairs]
  members i _ := by rw [region_setPairs]
  under i _ := by rw [region_setPairs]
  replacement i _ := by rw [region_setPairs]

omit [DecidableEq T] in
theorem SameTree.setHead (self : Nat) (head : Option (Tx T)) : SameTree c (c.setHead self head) where
  owner := rfl
  next_le := Nat.le_refl _
  parent i _ := by rw [Core.parent, region_setHead]; rfl
  children i _ := by rw [region_setHead]
  members i _ := by rw [region_setHead]
  under i _ := by rw [region_setHead]
  replacement i _ := by rw [region_setHead]

theorem Change.tree (h : Tree c live) (hplaced : Placed c) (hvalid : ch.Valid c live) :
    Tree (ch.run c) (ch.live' c live) := by
  cases ch with
  | add self n =>
    obtain ⟨hself, hn⟩ := hvalid
    have hnone : c.owner n = none := Option.eq_none_iff_forall_not_mem.mpr fun o ho => hn (hplaced n o ho)
    have hgraph : Tree { c with graph := c.graph.addNode n } live := h.congr (SameTree.of_region rfl rfl rfl)
    exact hgraph.adopt hself hnone
  | remove owner n =>
    have hgraph : Tree { c with graph := c.graph.removeNode n } live := h.congr (SameTree.of_region rfl rfl rfl)
    exact hgraph.abandon hvalid.2
  | addEdge u v d => exact h.congr (SameTree.of_region rfl rfl rfl)
  | removeEdge u v => exact h.congr (SameTree.of_region rfl rfl rfl)
  | setPairs i drop added => exact h.congr (SameTree.setPairs i drop added)
  | setHead i head => exact h.congr (SameTree.setHead i head)
  | create self head ms cyclic cyclicAncestor => exact h.carve hvalid.1 hvalid.2
  | finalize self parent result => exact h.collapse hvalid.1 hvalid.2.1 hvalid.2.2
  | dissolve self parent hidden => exact h.merge hvalid.1 hvalid.2.1

theorem Change.placed (h : Tree c live) (hplaced : Placed c) (hvalid : ch.Valid c live) : Placed (ch.run c) := by
  intro m o hm
  cases ch with
  | add self n =>
    have hm : Function.update c.owner n (some self) m = some o := hm
    rw [Function.update_apply] at hm
    split at hm
    · rename_i heq
      exact heq ▸ Finset.mem_insert_self _ _
    · exact Finset.mem_insert_of_mem (hplaced m o hm)
  | remove owner n =>
    have hm : Function.update c.owner n none m = some o := hm
    rw [Function.update_apply] at hm
    split at hm
    · cases hm
    · rename_i hne
      exact Finset.mem_erase.mpr ⟨hne, hplaced m o hm⟩
  | addEdge u v d => exact Finset.mem_insert_of_mem (Finset.mem_insert_of_mem (hplaced m o hm))
  | removeEdge u v => exact hplaced m o hm
  | setPairs i drop added => exact hplaced m o hm
  | setHead i head => exact hplaced m o hm
  | create self head ms cyclic cyclicAncestor =>
    have hm : (if .node m ∈ ms then some c.next else c.owner m) = some o := hm
    split at hm
    · rename_i hin
      exact hplaced m self ((h.node self hvalid.1 m).mp (hvalid.2 hin))
    · exact hplaced m o hm
  | finalize self parent result =>
    have hm : Function.update c.owner result (some parent) m = some o := hm
    rw [Function.update_apply] at hm
    split at hm
    · rename_i heq
      subst heq
      exact hplaced m self ((h.node self hvalid.1 m).mp (by simp [hvalid.2.2]))
    · exact hplaced m o hm
  | dissolve self parent hidden =>
    have hm : (if .node m ∈ (c.region self).members then some parent else c.owner m) = some o := hm
    split at hm
    · rename_i hin
      exact hplaced m self ((h.node self hvalid.1 m).mp hin)
    · exact hplaced m o hm

theorem Change.owned (howned : Owned c) (hanchored : ch.Anchored c ∅) : Owned (ch.run c) := by
  intro m hm
  cases ch with
  | add self n =>
    have howner : (Change.run c (.add self n)).owner m = Function.update c.owner n (some self) m := rfl
    rw [howner, Function.update_apply]
    split
    · exact ⟨self, rfl⟩
    · rename_i hne
      exact howned m ((Finset.mem_insert.mp hm).resolve_left hne)
  | remove owner n =>
    have howner : (Change.run c (.remove owner n)).owner m = Function.update c.owner n none m := rfl
    obtain ⟨hne, hm⟩ := Finset.mem_erase.mp hm
    rw [howner, Function.update_of_ne hne]
    exact howned m hm
  | addEdge u v d =>
    rw [Change.Anchored, Finset.empty_union] at hanchored
    rcases Finset.mem_insert.mp hm with rfl | hm
    · exact howned m hanchored.1
    · rcases Finset.mem_insert.mp hm with rfl | hm
      · exact howned m hanchored.2
      · exact howned m hm
  | removeEdge u v => exact howned m hm
  | setPairs i drop added => exact howned m hm
  | setHead i head => exact howned m hm
  | create self head ms cyclic cyclicAncestor =>
    obtain ⟨o, ho⟩ := howned m hm
    by_cases hin : .node m ∈ ms
    · exact ⟨c.next, if_pos hin⟩
    · exact ⟨o, (if_neg hin).trans ho⟩
  | finalize self parent result =>
    have howner : (Change.run c (.finalize self parent result)).owner m =
      Function.update c.owner result (some parent) m := rfl
    rw [howner, Function.update_apply]
    split
    · exact ⟨parent, rfl⟩
    · exact howned m hm
  | dissolve self parent hidden =>
    obtain ⟨o, ho⟩ := howned m hm
    by_cases hin : .node m ∈ (c.region self).members
    · exact ⟨parent, if_pos hin⟩
    · exact ⟨o, (if_neg hin).trans ho⟩

theorem Change.bare (h : Tree c live) (hbare : Bare c live) (hvalid : ch.Valid c live) :
    Bare (ch.run c) (ch.live' c live) := by
  intro i hi
  cases ch with
  | add self n =>
    have hne : i ≠ self := fun heq => hi (heq ▸ hvalid.1)
    have hmembers : ((Change.run c (.add self n)).region i).members =
      if i = self then insert (.node n) (c.region i).members else (c.region i).members := rfl
    rw [hmembers, if_neg hne]
    exact hbare i hi
  | remove owner n =>
    have hne : i ≠ owner := fun heq => hi (heq ▸ h.owner n owner hvalid.2)
    have hmembers : ((Change.run c (.remove owner n)).region i).members =
      if i = owner then (c.region i).members.erase (.node n) else (c.region i).members := rfl
    rw [hmembers, if_neg hne]
    exact hbare i hi
  | addEdge u v d => exact hbare i hi
  | removeEdge u v => exact hbare i hi
  | setPairs j drop added =>
    have hmembers : ((Change.run c (.setPairs j drop added)).region i).members = (c.region i).members := by
      simp only [Change.run, region_setPairs]
    rw [hmembers]
    exact hbare i hi
  | setHead j head =>
    have hmembers : ((Change.run c (.setHead j head)).region i).members = (c.region i).members := by
      simp only [Change.run, region_setHead]
    rw [hmembers]
    exact hbare i hi
  | create self head ms cyclic cyclicAncestor =>
    rw [Change.live', Finset.mem_insert, not_or] at hi
    have hmembers : ((Change.run c (.create self head ms cyclic cyclicAncestor)).region i).members =
      ((c.carve self head ms cyclic cyclicAncestor).region i).members := rfl
    have hne : i ≠ self := fun heq => hi.2 (heq ▸ hvalid.1)
    rw [hmembers, members_carve, if_neg hi.1, if_neg hne]
    exact hbare i hi.2
  | finalize self parent result =>
    obtain ⟨hself, hparent, hone⟩ := hvalid
    have hmembers : ((Change.run c (.finalize self parent result)).region i).members =
      ((c.collapse self parent result).region i).members := rfl
    rw [hmembers, region_collapse c (h.parent_ne hself hparent)]
    by_cases hi_self : i = self
    · rw [if_pos hi_self, hi_self, hone]
      simp
    have hi_live : i ∉ live := fun hmem => hi (Finset.mem_erase.mpr ⟨hi_self, hmem⟩)
    have hi_parent : i ≠ parent := fun heq => hi_live (heq ▸ h.parent self hself parent hparent)
    rw [if_neg hi_self, if_neg hi_parent]
    exact hbare i hi_live
  | dissolve self parent hidden =>
    obtain ⟨hself, hparent, -⟩ := hvalid
    have hmembers : ((Change.run c (.dissolve self parent hidden)).region i).members =
      ((c.merge self parent (c.region self).members hidden).region i).members := rfl
    rw [hmembers, region_merge c (h.parent_ne hself hparent) (h.not_mem_own_members hself hparent (.inl rfl))
      (h.not_mem_own_members hself hparent (.inr rfl))]
    by_cases hi_self : i = self
    · rw [if_pos hi_self]
    have hi_live : i ∉ live := fun hmem => hi (Finset.mem_erase.mpr ⟨hi_self, hmem⟩)
    have hi_parent : i ≠ parent := fun heq => hi_live (heq ▸ h.parent self hself parent hparent)
    rw [if_neg hi_self, if_neg hi_parent]
    have := hbare i hi_live
    split <;> exact this

/-! ## Taking a change back -/

theorem undo_append (log log' : List (Inverse T V)) (c : Core T V) : undo (log ++ log') c = undo log' (undo log c) :=
  List.foldl_append

/-- Taking nodes back changes only the owners. -/
theorem undo_takeBack (c c' : Core T V) (ms : Finset (Tx T)) : undo (Change.takeBack it c ms) c' =
    { c' with owner := fun n => if .node n ∈ ms then c.owner n else c'.owner n } := by
  have hlist : ∀ (l : List T) (c' : Core T V), undo ((l.map fun n => Inverse.setOwner n (c.owner n)).reverse) c' =
      { c' with owner := fun n => if n ∈ l then c.owner n else c'.owner n } := by
    intro l
    induction l with
    | nil => exact fun c' => by simp [undo]
    | cons m l ih =>
      intro c'
      rw [List.map_cons, List.reverse_cons, undo_append, ih]
      have hrun : ∀ c'' : Core T V, undo [Inverse.setOwner m (c.owner m)] c'' =
        { c'' with owner := Function.update c''.owner m (c.owner m) } := fun _ => rfl
      rw [hrun]
      congr 1
      funext n
      rw [Function.update_apply]
      by_cases hn : n = m
      · simp [hn]
      · simp [hn]
  unfold Change.takeBack
  rw [hlist]
  congr 1
  funext n
  simp only [it.nodes.mem_list, mem_nodesOf]

theorem undo_addEdge {u v : T} {d : EdgeData V} : undo (Change.inverses it c (.addEdge u v d)) c' =
    { c' with
      graph := if c.graph.hasEdge u v then c'.graph.replaceData u v (c.graph.data u v) else c'.graph.removeEdge u v } := by
  have hinverses : Change.inverses it c (.addEdge u v d) =
    [if c.graph.hasEdge u v then .replaceData u v (c.graph.data u v) else .removeEdge u v] := rfl
  rw [hinverses]
  split <;> rfl

theorem region_undoCreateSubregion (c : Core T V) (self sub i : Nat) : (c.undoCreateSubregion self sub).region i =
    { c.region i with
      parent := if .region i ∈ (c.region sub).members then some self else c.parent i
      members := if i = self then (c.region i).members.erase (.region sub) ∪ (c.region sub).members
        else (c.region i).members
      children := if i = self then (c.region i).children.erase sub + (regionsOf (c.region sub).members).val
        else (c.region i).children } := by
  unfold Core.undoCreateSubregion Core.modify Core.reparent Core.parent
  by_cases hi : i = self
  · subst hi
    by_cases hin : Tx.region i ∈ (c.region sub).members <;> simp [hin]
  · by_cases hin : Tx.region i ∈ (c.region sub).members <;> simp [hi, hin]

theorem region_undoFinalize (c : Core T V) {self parent : Nat} (hne : parent ≠ self) (result : T) (old : Pairs T)
    (i : Nat) : (c.undoFinalize self parent result old).region i =
    if i = self then
      { c.region i with
        replacement := none
        pairs := old
        members := insert (.node result) (c.region i).members
        under := insert result (c.region i).under }
    else if i = parent then
      { c.region i with
        head := if (c.region i).head = some (.node result) then some (.region self) else (c.region i).head
        children := (c.region i).children + {self}
        members := insert (.region self) ((c.region i).members.erase (.node result)) }
    else c.region i := by
  unfold Core.undoFinalize Core.modify
  by_cases hi : i = self
  · subst hi
    simp [hne.symm]
  by_cases hp : i = parent
  · subst hp
    simp [hne]
  · simp [hi, hp]

theorem region_undoDissolve (c : Core T V) {self parent : Nat} (hne : parent ≠ self) (hself : .region self ∉ ms)
    (hparent : .region parent ∉ ms) (hidden : Pairs T) (i : Nat) :
    (c.undoDissolve self parent ms hidden).region i =
    if i = self then
      { c.region i with
        members := (c.region i).members ∪ ms
        children := (c.region i).children + (regionsOf ms).val }
    else if i = parent then
      { c.region i with
        head := if (c.region i).head = (c.region self).head then some (.region self) else (c.region i).head
        pairs := (c.region i).pairs \ hidden
        children := (c.region i).children + {self} - (regionsOf ms).val
        members := insert (.region self) (c.region i).members \ ms }
    else if .region i ∈ ms then { c.region i with parent := some self }
    else c.region i := by
  unfold Core.undoDissolve Core.modify Core.reparent
  by_cases hi : i = self
  · subst hi
    simp [hne.symm, hself]
  by_cases hp : i = parent
  · subst hp
    simp [hne, hparent]
  · by_cases hms : Tx.region i ∈ ms <;> simp [hi, hp, hms]

omit [DecidableEq T] in
theorem Tree.mem_ancestors_congr (h : Tree c live) (hsame : SameTree c c') (hi : i ∈ live) :
    j ∈ c'.ancestors i ↔ Above c.parent i j := by
  rw [(h.congr hsame).mem_ancestors hi, h.above_congr hsame hi]

theorem undo_add_tree (h : Tree c live) (hself : self ∈ live) (hnone : c.owner n = none)
    (htree' : Tree (Change.run c (.add self n)) live) (hsame : SameTree (Change.run c (.add self n)) c') :
    SameTree c (undo (Change.inverses it c (.add self n)) c') := by
  have hundo : undo (Change.inverses it c (.add self n)) c' =
    { (c'.eraseNode self n).setOwner n (c.owner n) with graph := c'.graph.removeNode n } := rfl
  have hanc : ∀ i, i ∈ c'.ancestors self ↔ i ∈ c.ancestors self := fun i => by
    rw [htree'.mem_ancestors_congr hsame hself, h.mem_ancestors hself]
    rfl
  rw [hundo]
  refine ⟨?_, hsame.next_le, hsame.parent, hsame.children, fun i hi => ?_, fun i hi => ?_, hsame.replacement⟩
  · have howner : c'.owner = Function.update c.owner n (some self) := hsame.owner
    change Function.update c'.owner n (c.owner n) = c.owner
    rw [howner, Function.update_idem, Function.update_eq_self]
  · have hmembers : (c'.region i).members =
      if i = self then insert (.node n) (c.region i).members else (c.region i).members := hsame.members i hi
    change (if i = self then (c'.region i).members.erase (.node n) else (c'.region i).members) = _
    rw [hmembers]
    split
    · rename_i hi_self
      rw [Finset.erase_insert]
      intro hin
      rw [hi_self, h.node self hself, hnone] at hin
      cases hin
    · rfl
  · have hunder : (c'.region i).under =
      if i ∈ c.ancestors self then insert n (c.region i).under else (c.region i).under := hsame.under i hi
    change (if i ∈ c'.ancestors self then (c'.region i).under.erase n else (c'.region i).under) = _
    rw [hunder]
    by_cases hi_anc : i ∈ c.ancestors self
    · rw [if_pos ((hanc i).mpr hi_anc), if_pos hi_anc, Finset.erase_insert]
      intro hin
      have hi_live := h.mem_of_above hself ((h.mem_ancestors hself).mp hi_anc)
      obtain ⟨o, ho, -⟩ := (h.under i hi_live n).mp hin
      rw [hnone] at ho
      cases ho
    · rw [if_neg fun hin => hi_anc ((hanc i).mp hin), if_neg hi_anc]

theorem undo_remove_tree (h : Tree c live) (howner : c.owner n = some p)
    (htree' : Tree (Change.run c (.remove p n)) live) (hsame : SameTree (Change.run c (.remove p n)) c') :
    SameTree c (undo (Change.inverses it c (.remove p n)) c') := by
  have hlive := h.owner n p howner
  have hundo : undo (Change.inverses it c (.remove p n)) c' =
    { (c'.insertNode p n).setOwner n (c.owner n) with
      graph := (c'.graph.addNode n).addEdges (c.graph.edgesAt it.nodes n) } := rfl
  have hanc : ∀ i, i ∈ c'.ancestors p ↔ i ∈ c.ancestors p := fun i => by
    rw [htree'.mem_ancestors_congr hsame hlive, h.mem_ancestors hlive]
    rfl
  rw [hundo]
  refine ⟨?_, hsame.next_le, hsame.parent, hsame.children, fun i hi => ?_, fun i hi => ?_, hsame.replacement⟩
  · have howner' : c'.owner = Function.update c.owner n none := hsame.owner
    change Function.update c'.owner n (c.owner n) = c.owner
    rw [howner', Function.update_idem, Function.update_eq_self]
  · have hmembers : (c'.region i).members =
      if i = p then (c.region i).members.erase (.node n) else (c.region i).members := hsame.members i hi
    change (if i = p then insert (.node n) (c'.region i).members else (c'.region i).members) = _
    rw [hmembers]
    split
    · rename_i hi_owner
      rw [hi_owner]
      exact Finset.insert_erase ((h.node p hlive n).mpr howner)
    · rfl
  · have hunder : (c'.region i).under =
      if i ∈ c.ancestors p then (c.region i).under.erase n else (c.region i).under := hsame.under i hi
    change (if i ∈ c'.ancestors p then insert n (c'.region i).under else (c'.region i).under) = _
    rw [hunder]
    by_cases hi_anc : i ∈ c.ancestors p
    · rw [if_pos ((hanc i).mpr hi_anc), if_pos hi_anc, Finset.insert_erase]
      have habove := (h.mem_ancestors hlive).mp hi_anc
      exact (h.under i (h.mem_of_above hlive habove) n).mpr ⟨p, howner, habove⟩
    · rw [if_neg fun hin => hi_anc ((hanc i).mp hin), if_neg hi_anc]

theorem undo_create_tree {head : Tx T} {cyclic cyclicAncestor : Bool} (h : Tree c live) (hself : self ∈ live)
    (hms : ms ⊆ (c.region self).members)
    (hsame : SameTree (Change.run c (.create self head ms cyclic cyclicAncestor)) c') :
    SameTree c (undo (Change.inverses it c (.create self head ms cyclic cyclicAncestor)) c') := by
  have hnext_le : c.next + 1 ≤ c'.next := hsame.next_le
  have hsub : (c'.region c.next).members = ms :=
    (hsame.members _ (Nat.lt_succ_self _)).trans ((members_carve c _).trans (if_pos rfl))
  have hrun : ∀ i < c.next, (Change.run c (.create self head ms cyclic cyclicAncestor)).region i = _ := fun i hi =>
    (region_carve c i).trans (if_neg (Nat.ne_of_lt hi))
  have hundo : undo (Change.inverses it c (.create self head ms cyclic cyclicAncestor)) c' =
      { c'.undoCreateSubregion self c.next with
        owner := fun n => if .node n ∈ ms then c.owner n else c'.owner n } := undo_takeBack _ _ _
  rw [hundo]
  refine .of_fields ?_ (Nat.le_of_succ_le hnext_le) fun i hi => ?_
  · funext n
    have howner : c'.owner n = if .node n ∈ ms then some c.next else c.owner n := congrFun hsame.owner n
    change (if .node n ∈ ms then c.owner n else c'.owner n) = c.owner n
    rw [howner]
    split <;> rfl
  obtain ⟨hp, hc, hm, hu, hr⟩ := hsame.fields (Nat.lt_succ_of_lt hi)
  rw [hrun i hi] at hp hc hm hu hr
  dsimp only at hp hc hm ⊢
  rw [region_undoCreateSubregion, hsub]
  refine ⟨?_, ?_, ?_, hu, hr⟩
  · change (if .region i ∈ ms then some self else (c'.region i).parent) = c.parent i
    rw [hp]
    split
    · rename_i hin
      exact ((h.region self hself i).mp (hms hin)).2.symm
    · rfl
  · dsimp only
    rw [hc]
    by_cases hi_self : i = self
    · subst hi_self
      have hle : (regionsOf ms).val ≤ (c.region i).children := by
        rw [h.children i hself, Finset.val_le_iff]
        intro j hj
        rw [mem_regionsOf] at hj ⊢
        exact hms hj
      rw [if_pos rfl, if_pos rfl, Multiset.add_comm _ {c.next}, Multiset.singleton_add, Multiset.erase_cons_head]
      exact tsub_add_cancel_of_le hle
    · rw [if_neg hi_self, if_neg hi_self]
  · dsimp only
    rw [hm]
    by_cases hi_self : i = self
    · subst hi_self
      have hout : .region c.next ∉ (c.region i).members \ ms := fun hin =>
        h.next_not_mem ((h.region i hself _).mp (Finset.mem_sdiff.mp hin).1).1
      rw [if_pos rfl, if_pos rfl, Finset.erase_insert hout, Finset.sdiff_union_of_subset hms]
    · rw [if_neg hi_self, if_neg hi_self]

variable {parent : Nat}

theorem undo_finalize_tree {result : T} (h : Tree c live) (hself : self ∈ live)
    (hparent : c.parent self = some parent) (hone : (c.region self).members = {.node result})
    (hsame : SameTree (Change.run c (.finalize self parent result)) c') :
    SameTree c (undo (Change.inverses it c (.finalize self parent result)) c') := by
  have hne := h.parent_ne hself hparent
  have hparent_live := h.parent self hself parent hparent
  have hresult : c.owner result = some self := (h.node self hself result).mp (by simp [hone])
  have hself_mem : .region self ∈ (c.region parent).members := (h.region parent hparent_live self).mpr ⟨hself, hparent⟩
  have hback : ∀ i, (undo (Change.inverses it c (.finalize self parent result)) c').region i = _ :=
    region_undoFinalize c' hne result (c.region self).pairs
  have hrun : ∀ i, (Change.run c (.finalize self parent result)).region i = _ := region_collapse c hne
  refine .of_fields ?_ hsame.next_le fun i hi => ?_
  · have howner : c'.owner = Function.update c.owner result (some parent) := hsame.owner
    change Function.update c'.owner result (c.owner result) = c.owner
    rw [howner, Function.update_idem, Function.update_eq_self]
  obtain ⟨hp, hc, hm, hu, hr⟩ := hsame.fields hi
  rw [hrun] at hp hc hm hu hr
  rw [hback]
  by_cases hi_self : i = self
  · subst hi_self
    rw [if_pos rfl] at hp hc hm hu hr ⊢
    dsimp only at hm hu ⊢
    refine ⟨hp, hc, ?_, ?_, (h.replacement i hself).symm⟩
    · rw [hm, Finset.insert_erase]
      rw [hone]
      exact Finset.mem_singleton_self _
    · rw [hu, Finset.insert_erase]
      exact (h.under i hself result).mpr ⟨i, hresult, .refl⟩
  · rw [if_neg hi_self] at hp hc hm hu hr ⊢
    by_cases hi_parent : i = parent
    · subst hi_parent
      have hout : .node result ∉ (c.region i).members.erase (.region self) := by
        intro hin
        have := (h.node i hparent_live result).mp (Finset.mem_of_mem_erase hin)
        exact hne (Option.some.inj (this.symm.trans hresult))
      rw [if_pos rfl] at hp hc hm hu hr ⊢
      dsimp only at hc hm ⊢
      refine ⟨hp, ?_, ?_, hu, hr⟩
      · rw [hc, Multiset.add_comm, Multiset.singleton_add, Multiset.cons_erase]
        rw [h.children i hparent_live, Finset.mem_val, mem_regionsOf]
        exact hself_mem
      · rw [hm, Finset.erase_insert hout, Finset.insert_erase hself_mem]
    · rw [if_neg hi_parent] at hp hc hm hu hr ⊢
      exact ⟨hp, hc, hm, hu, hr⟩

theorem undo_dissolve_tree {hidden : Pairs T} (h : Tree c live) (hself : self ∈ live)
    (hparent : c.parent self = some parent) (hsame : SameTree (Change.run c (.dissolve self parent hidden)) c') :
    SameTree c (undo (Change.inverses it c (.dissolve self parent hidden)) c') := by
  have hne := h.parent_ne hself hparent
  have hparent_live := h.parent self hself parent hparent
  have hout_self := h.not_mem_own_members hself hparent (.inl rfl)
  have hout_parent := h.not_mem_own_members hself hparent (.inr rfl)
  have hself_mem : .region self ∈ (c.region parent).members := (h.region parent hparent_live self).mpr ⟨hself, hparent⟩
  have hdisjoint : Disjoint (c.region parent).members (c.region self).members := by
    refine Finset.disjoint_left.mpr fun x hx hx' => ?_
    cases x with
    | node n =>
      exact hne (Option.some.inj (((h.node parent hparent_live n).mp hx).symm.trans ((h.node self hself n).mp hx')))
    | region j =>
      exact hne (Option.some.inj
        (((h.region parent hparent_live j).mp hx).2.symm.trans ((h.region self hself j).mp hx').2))
  have hback := region_undoDissolve c' hne hout_self hout_parent hidden
  have hrun : ∀ i, (Change.run c (.dissolve self parent hidden)).region i = _ :=
    region_merge c hne hout_self hout_parent
  have hundo : undo (Change.inverses it c (.dissolve self parent hidden)) c' =
      { c'.undoDissolve self parent (c.region self).members hidden with
        owner := fun n => if .node n ∈ (c.region self).members then c.owner n else c'.owner n } := undo_takeBack _ _ _
  rw [hundo]
  refine .of_fields ?_ hsame.next_le fun i hi => ?_
  · funext n
    have howner : c'.owner n = if .node n ∈ (c.region self).members then some parent else c.owner n :=
      congrFun hsame.owner n
    change (if .node n ∈ (c.region self).members then c.owner n else c'.owner n) = c.owner n
    rw [howner]
    split <;> rfl
  obtain ⟨hp, hc, hm, hu, hr⟩ := hsame.fields hi
  rw [hrun] at hp hc hm hu hr
  dsimp only
  rw [hback]
  by_cases hi_self : i = self
  · subst hi_self
    rw [if_pos rfl] at hp hc hm hu hr ⊢
    dsimp only at hc hm ⊢
    refine ⟨hp, ?_, ?_, hu, hr⟩
    · rw [hc, h.children i hself]
      exact tsub_add_cancel_of_le (le_refl _)
    · rw [hm, Finset.empty_union]
  rw [if_neg hi_self] at hp hc hm hu hr ⊢
  by_cases hi_parent : i = parent
  · subst hi_parent
    have hmem : self ∈ (c.region i).children + (regionsOf (c.region self).members).val := by
      rw [Multiset.mem_add, h.children i hparent_live, Finset.mem_val, mem_regionsOf]
      exact .inl hself_mem
    rw [if_pos rfl] at hp hc hm hu hr ⊢
    dsimp only at hc hm ⊢
    refine ⟨hp, ?_, ?_, hu, hr⟩
    · rw [hc, Multiset.add_comm _ {self}, Multiset.singleton_add, Multiset.cons_erase hmem,
        Multiset.add_sub_cancel_right]
    · rw [hm, Finset.insert_erase (Finset.mem_union_left _ hself_mem), Finset.union_sdiff_cancel_right hdisjoint]
  · rw [if_neg hi_parent] at hp hc hm hu hr ⊢
    split at hp
    · rename_i hin
      rw [if_pos hin] at hc hm hu hr ⊢
      exact ⟨((h.region self hself i).mp hin).2.symm, hc, hm, hu, hr⟩
    · rename_i hin
      rw [if_neg hin] at hc hm hu hr ⊢
      exact ⟨hp, hc, hm, hu, hr⟩

/-- After the inverses of a change the tree is the one from before. -/
theorem Change.undo_tree (h : Tree c live) (hplaced : Placed c) (hvalid : ch.Valid c live)
    (hsame : SameTree (ch.run c) c') : SameTree c (undo (ch.inverses it c) c') := by
  have htree' := ch.tree h hplaced hvalid
  cases ch with
  | add self n =>
    have hnone : c.owner n = none := Option.eq_none_iff_forall_not_mem.mpr fun o ho => hvalid.2 (hplaced n o ho)
    exact undo_add_tree h hvalid.1 hnone htree' hsame
  | remove owner n => exact undo_remove_tree h hvalid.2 htree' hsame
  | addEdge u v d =>
    rw [undo_addEdge]
    exact ⟨hsame.owner, hsame.next_le, hsame.parent, hsame.children, hsame.members, hsame.under, hsame.replacement⟩
  | removeEdge u v =>
    exact ⟨hsame.owner, hsame.next_le, hsame.parent, hsame.children, hsame.members, hsame.under, hsame.replacement⟩
  | setPairs j drop added =>
    have hback : SameTree c' (undo (Change.inverses it c (.setPairs j drop added)) c') :=
      SameTree.setPairs j added drop
    exact ((SameTree.setPairs j drop added).trans hsame).trans hback
  | setHead j head =>
    have hback : SameTree c' (undo (Change.inverses it c (.setHead j head)) c') := SameTree.setHead j (c.region j).head
    exact ((SameTree.setHead j head).trans hsame).trans hback
  | create self head ms cyclic cyclicAncestor => exact undo_create_tree h hvalid.1 hvalid.2 hsame
  | finalize self parent result => exact undo_finalize_tree h hvalid.1 hvalid.2.1 hvalid.2.2 hsame
  | dissolve self parent hidden => exact undo_dissolve_tree h hvalid.1 hvalid.2.1 hsame

theorem nodes_subset_addEdges (g : DiGraph T V) (es : List (T × T × EdgeData V)) : g.nodes ⊆ (g.addEdges es).nodes := by
  induction es generalizing g with
  | nil => exact Finset.Subset.refl _
  | cons e es ih =>
    have hadd : g.nodes ⊆ (g.addEdge e.1 e.2.1 e.2.2).nodes :=
      (Finset.subset_insert _ _).trans (Finset.subset_insert _ _)
    exact hadd.trans (ih _)

/-- Nodes that there were are there again. -/
theorem Change.undo_nodes (hvalid : ch.Valid c live) (hnodes : (ch.run c).graph.nodes ⊆ c'.graph.nodes) :
    c.graph.nodes ⊆ (undo (ch.inverses it c) c').graph.nodes := by
  cases ch with
  | add self n =>
    intro m hm
    have hne : m ≠ n := fun heq => hvalid.2 (heq ▸ hm)
    exact Finset.mem_erase.mpr ⟨hne, hnodes (Finset.mem_insert_of_mem hm)⟩
  | remove owner n =>
    intro m hm
    refine nodes_subset_addEdges (c'.graph.addNode n) (c.graph.edgesAt it.nodes n) ?_
    by_cases heq : m = n
    · exact Finset.mem_insert.mpr (.inl heq)
    · exact Finset.mem_insert_of_mem (hnodes (Finset.mem_erase.mpr ⟨heq, hm⟩))
  | addEdge u v d =>
    have hsub : c.graph.nodes ⊆ c'.graph.nodes :=
      ((Finset.subset_insert _ _).trans (Finset.subset_insert _ _)).trans hnodes
    rw [undo_addEdge]
    dsimp only
    split <;> exact hsub
  | removeEdge u v =>
    exact hnodes.trans ((Finset.subset_insert _ _).trans (Finset.subset_insert _ _))
  | setPairs j drop added => exact hnodes
  | setHead j head => exact hnodes
  | create self head ms cyclic cyclicAncestor =>
    have hundo : undo (Change.inverses it c (.create self head ms cyclic cyclicAncestor)) c' =
      undo (Change.takeBack it c ms) (c'.undoCreateSubregion self c.next) := rfl
    rw [hundo, undo_takeBack]
    exact hnodes
  | finalize self parent result => exact hnodes
  | dissolve self parent hidden =>
    have hundo : undo (Change.inverses it c (.dissolve self parent hidden)) c' =
      undo (Change.takeBack it c (c.region self).members)
        (c'.undoDissolve self parent (c.region self).members hidden) := rfl
    rw [hundo, undo_takeBack]
    exact hnodes

/-- The rest of what a rollback restores; the graph may have more nodes, but only those in `seen`. -/
structure SameRest (seen : Finset T) (c c' : Core T V) : Prop where
  edge : c'.graph.edge = c.graph.edge
  nodes_subset : c.graph.nodes ⊆ c'.graph.nodes
  subset_nodes : c'.graph.nodes ⊆ seen ∪ c.graph.nodes
  expose : c'.exposeLoopHeadBackedges = c.exposeLoopHeadBackedges
  head : ∀ i < c.next, (c'.region i).head = (c.region i).head
  pairs : ∀ i < c.next, (c'.region i).pairs = (c.region i).pairs
  cyclic : ∀ i < c.next, (c'.region i).cyclic = (c.region i).cyclic
  cyclicAncestor : ∀ i < c.next, (c'.region i).cyclicAncestor = (c.region i).cyclicAncestor

theorem SameRest.fields (h : SameRest seen c c') (hi : i < c.next) :
    (c'.region i).head = (c.region i).head ∧ (c'.region i).pairs = (c.region i).pairs ∧
      (c'.region i).cyclic = (c.region i).cyclic ∧ (c'.region i).cyclicAncestor = (c.region i).cyclicAncestor :=
  ⟨h.head i hi, h.pairs i hi, h.cyclic i hi, h.cyclicAncestor i hi⟩

theorem SameRest.of_fields (hedge : c'.graph.edge = c.graph.edge) (hnodes : c.graph.nodes ⊆ c'.graph.nodes)
    (hseen : c'.graph.nodes ⊆ seen ∪ c.graph.nodes)
    (hexpose : c'.exposeLoopHeadBackedges = c.exposeLoopHeadBackedges)
    (h : ∀ i < c.next, (c'.region i).head = (c.region i).head ∧ (c'.region i).pairs = (c.region i).pairs ∧
      (c'.region i).cyclic = (c.region i).cyclic ∧ (c'.region i).cyclicAncestor = (c.region i).cyclicAncestor) :
    SameRest seen c c' :=
  ⟨hedge, hnodes, hseen, hexpose, fun i hi => (h i hi).1, fun i hi => (h i hi).2.1, fun i hi => (h i hi).2.2.1,
    fun i hi => (h i hi).2.2.2⟩

theorem sdiff_union_undo {α : Type} [DecidableEq α] {s drop added : Finset α} (hdrop : drop ⊆ s)
    (hadded : Disjoint (s \ drop) added) : (s \ drop ∪ added) \ added ∪ drop = s := by
  rw [Finset.union_sdiff_cancel_right hadded, Finset.sdiff_union_of_subset hdrop]

theorem undo_finalize_rest {result : T} (h : Tree c live) (hself : self ∈ live)
    (hparent : c.parent self = some parent) (hfresh : (c.region parent).head ≠ some (.node result))
    (hsame : SameRest seen (Change.run c (.finalize self parent result)) c') :
    SameRest seen c (undo (Change.inverses it c (.finalize self parent result)) c') := by
  have hne := h.parent_ne hself hparent
  have hback : ∀ i, (undo (Change.inverses it c (.finalize self parent result)) c').region i = _ :=
    region_undoFinalize c' hne result (c.region self).pairs
  have hrun : ∀ i, (Change.run c (.finalize self parent result)).region i = _ := region_collapse c hne
  refine .of_fields hsame.edge hsame.nodes_subset hsame.subset_nodes hsame.expose fun i hi => ?_
  obtain ⟨hhead, hpairs, hcyclic, hancestor⟩ := hsame.fields hi
  rw [hrun] at hhead hpairs hcyclic hancestor
  rw [hback]
  by_cases hi_self : i = self
  · subst hi_self
    rw [if_pos rfl] at hhead hcyclic hancestor ⊢
    exact ⟨hhead, rfl, hcyclic, hancestor⟩
  rw [if_neg hi_self] at hhead hpairs hcyclic hancestor ⊢
  by_cases hi_parent : i = parent
  · subst hi_parent
    rw [if_pos rfl] at hhead hpairs hcyclic hancestor ⊢
    dsimp only at hhead ⊢
    refine ⟨?_, hpairs, hcyclic, hancestor⟩
    rw [hhead]
    by_cases hold : (c.region i).head = some (.region self)
    · rw [if_pos hold, if_pos rfl, hold]
    · rw [if_neg hold, if_neg hfresh]
  · rw [if_neg hi_parent] at hhead hpairs hcyclic hancestor ⊢
    exact ⟨hhead, hpairs, hcyclic, hancestor⟩

theorem undo_dissolve_rest {hidden : Pairs T} (h : Tree c live) (hself : self ∈ live)
    (hparent : c.parent self = some parent) (hdisjoint : Disjoint (c.region parent).pairs hidden)
    (hfresh : (c.region parent).head = some (.region self) ∨ (c.region parent).head ≠ (c.region self).head)
    (hself_lt : self < c.next) (hsame : SameRest seen (Change.run c (.dissolve self parent hidden)) c') :
    SameRest seen c (undo (Change.inverses it c (.dissolve self parent hidden)) c') := by
  have hne := h.parent_ne hself hparent
  have hout_self := h.not_mem_own_members hself hparent (.inl rfl)
  have hout_parent := h.not_mem_own_members hself hparent (.inr rfl)
  have hback := region_undoDissolve c' hne hout_self hout_parent hidden
  have hrun : ∀ i, (Change.run c (.dissolve self parent hidden)).region i = _ :=
    region_merge c hne hout_self hout_parent
  have hundo : undo (Change.inverses it c (.dissolve self parent hidden)) c' =
      { c'.undoDissolve self parent (c.region self).members hidden with
        owner := fun n => if .node n ∈ (c.region self).members then c.owner n else c'.owner n } := undo_takeBack _ _ _
  have hown : (c'.region self).head = (c.region self).head := by
    rw [hsame.head self hself_lt, hrun, if_pos rfl]
  rw [hundo]
  refine .of_fields hsame.edge hsame.nodes_subset hsame.subset_nodes hsame.expose fun i hi => ?_
  obtain ⟨hhead, hpairs, hcyclic, hancestor⟩ := hsame.fields hi
  rw [hrun] at hhead hpairs hcyclic hancestor
  dsimp only
  rw [hback]
  by_cases hi_self : i = self
  · rw [if_pos hi_self] at hhead hpairs hcyclic hancestor ⊢
    exact ⟨hhead, hpairs, hcyclic, hancestor⟩
  rw [if_neg hi_self] at hhead hpairs hcyclic hancestor ⊢
  by_cases hi_parent : i = parent
  · subst hi_parent
    rw [if_pos rfl] at hhead hpairs hcyclic hancestor ⊢
    dsimp only at hhead hpairs ⊢
    refine ⟨?_, ?_, hcyclic, hancestor⟩
    · rw [hown, hhead]
      by_cases hold : (c.region i).head = some (.region self)
      · rw [if_pos hold, if_pos rfl, hold]
      · rw [if_neg hold, if_neg (hfresh.resolve_left hold)]
    · rw [hpairs, Finset.union_sdiff_cancel_right hdisjoint]
  · rw [if_neg hi_parent] at hhead hpairs hcyclic hancestor ⊢
    by_cases hin : .region i ∈ (c.region self).members
    · rw [if_pos hin] at hhead hpairs hcyclic hancestor ⊢
      exact ⟨hhead, hpairs, hcyclic, hancestor⟩
    · rw [if_neg hin] at hhead hpairs hcyclic hancestor ⊢
      exact ⟨hhead, hpairs, hcyclic, hancestor⟩

/-- The rest is the one from before, if the change has the conditions for it. -/
theorem Change.undo_rest (h : Tree c live) (hvalid : ch.Valid c live) (hanchored : ch.Anchored c seen) (hfresh : ch.Fresh c)
    (hsame : SameRest seen (ch.run c) c') : SameRest seen c (undo (ch.inverses it c) c') := by
  have hkept := @Change.undo_nodes T V _ it c c' live _ hvalid hsame.nodes_subset
  cases ch with
  | add self n =>
    refine ⟨edge_removeNode_of_not_mem hsame.edge hvalid.2, hkept, ?_, hsame.expose, hsame.head, hsame.pairs,
      hsame.cyclic, hsame.cyclicAncestor⟩
    intro m hm
    obtain ⟨hne, hm⟩ := Finset.mem_erase.mp hm
    have hm : m ∈ seen ∪ insert n c.graph.nodes := hsame.subset_nodes hm
    rw [Finset.mem_union, Finset.mem_insert] at hm
    rw [Finset.mem_union]
    exact hm.imp_right fun hm => hm.resolve_left hne
  | remove owner n =>
    have hnodes : c.graph.nodes ⊆ insert n c'.graph.nodes := by
      intro m hm
      by_cases heq : m = n
      · exact heq ▸ Finset.mem_insert_self _ _
      · exact Finset.mem_insert_of_mem (hsame.nodes_subset (Finset.mem_erase.mpr ⟨heq, hm⟩))
    obtain ⟨hedge, hback⟩ := addEdges_of_removeNode it.nodes hnodes hsame.edge
    refine ⟨hedge, hkept, ?_, hsame.expose, hsame.head, hsame.pairs, hsame.cyclic, hsame.cyclicAncestor⟩
    change ((c'.graph.addNode n).addEdges (c.graph.edgesAt it.nodes n)).nodes ⊆ seen ∪ c.graph.nodes
    rw [hback]
    refine Finset.insert_subset (Finset.mem_union_right _ hvalid.1) (hsame.subset_nodes.trans ?_)
    exact Finset.union_subset_union_right (Finset.erase_subset _ _)
  | addEdge u v d =>
    have hnodes : c'.graph.nodes ⊆ seen ∪ c.graph.nodes := by
      refine hsame.subset_nodes.trans (Finset.union_subset Finset.subset_union_left ?_)
      exact Finset.insert_subset hanchored.1 (Finset.insert_subset hanchored.2 Finset.subset_union_right)
    rw [undo_addEdge] at hkept ⊢
    refine ⟨?_, hkept, ?_, hsame.expose, hsame.head, hsame.pairs, hsame.cyclic, hsame.cyclicAncestor⟩
    · dsimp only
      split
      · rename_i hold
        exact edge_replaceData_of_addEdge hsame.edge hold
      · rename_i hnew
        exact edge_removeEdge_of_addEdge hsame.edge (Bool.eq_false_iff.mpr hnew)
    · dsimp only
      split <;> exact hnodes
  | removeEdge u v =>
    refine ⟨edge_addEdge_of_removeEdge hsame.edge hvalid, hkept, ?_, hsame.expose, hsame.head, hsame.pairs,
      hsame.cyclic, hsame.cyclicAncestor⟩
    obtain ⟨hu, hv⟩ := c.graph.closed hvalid
    exact Finset.insert_subset (Finset.mem_union_right _ hu)
      (Finset.insert_subset (Finset.mem_union_right _ hv) hsame.subset_nodes)
  | setPairs j drop added =>
    have hrun : ∀ i, (Change.run c (.setPairs j drop added)).region i = _ := region_setPairs c j drop added
    have hback : ∀ i, (undo (Change.inverses it c (.setPairs j drop added)) c').region i = _ :=
      region_setPairs c' j added drop
    refine .of_fields hsame.edge hsame.nodes_subset hsame.subset_nodes hsame.expose fun i hi => ?_
    obtain ⟨hhead, hpairs, hcyclic, hancestor⟩ := hsame.fields hi
    rw [hrun] at hhead hpairs hcyclic hancestor
    rw [hback]
    refine ⟨hhead, ?_, hcyclic, hancestor⟩
    dsimp only at hpairs ⊢
    rw [hpairs]
    by_cases hij : i = j
    · subst hij
      rw [if_pos rfl, if_pos rfl, sdiff_union_undo hvalid hfresh]
    · rw [if_neg hij, if_neg hij]
  | setHead j head =>
    have hrun : ∀ i, (Change.run c (.setHead j head)).region i = _ := region_setHead c j head
    have hback : ∀ i, (undo (Change.inverses it c (.setHead j head)) c').region i = _ :=
      region_setHead c' j (c.region j).head
    refine .of_fields hsame.edge hsame.nodes_subset hsame.subset_nodes hsame.expose fun i hi => ?_
    obtain ⟨hhead, hpairs, hcyclic, hancestor⟩ := hsame.fields hi
    rw [hrun] at hhead hpairs hcyclic hancestor
    rw [hback]
    refine ⟨?_, hpairs, hcyclic, hancestor⟩
    dsimp only at hhead ⊢
    rw [hhead]
    by_cases hij : i = j
    · rw [if_pos hij, hij]
    · rw [if_neg hij, if_neg hij]
  | create self head ms cyclic cyclicAncestor =>
    have hundo : undo (Change.inverses it c (.create self head ms cyclic cyclicAncestor)) c' =
      undo (Change.takeBack it c ms) (c'.undoCreateSubregion self c.next) := rfl
    have hrun : ∀ i < c.next, (Change.run c (.create self head ms cyclic cyclicAncestor)).region i = _ := fun i hi =>
      (region_carve c i).trans (if_neg (Nat.ne_of_lt hi))
    rw [hundo, undo_takeBack]
    refine .of_fields hsame.edge hsame.nodes_subset hsame.subset_nodes hsame.expose fun i hi => ?_
    have hfields := hsame.fields (Nat.lt_succ_of_lt hi)
    rw [hrun i hi] at hfields
    dsimp only
    rw [region_undoCreateSubregion]
    exact hfields
  | finalize self parent result => exact undo_finalize_rest h hvalid.1 hvalid.2.1 hfresh hsame
  | dissolve self parent hidden =>
    exact undo_dissolve_rest h hvalid.1 hvalid.2.1 hvalid.2.2 hfresh (h.lt_next self hvalid.1) hsame

end Angr.Overlay
