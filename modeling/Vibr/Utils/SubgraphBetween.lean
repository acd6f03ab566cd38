import Vibr.Lib.DiGraph
import Vibr.Lib.Fuel
import Vibr.Lib.Path

/-!
# The subgraph between nodes

`subgraph_between_nodes` first finds the nodes from which the frontier is reached, without the
edges into the source. A search from the source then adds the edges out of these nodes, and at
last what has become a dead end is removed. What is left lies on the paths from the source to the
frontier.
-/

namespace Angr.GraphUtils

open Fuel

inductive SubgraphError where
  | outOfFuel
  | keyError

variable {T V : Type} [DecidableEq T] (E : Enumeration T) (g : DiGraph T V) (source : T) (frontier : Finset T)

/-- The nodes from which the frontier is reached. -/
def reverseSearch : Nat → (reverseQueue : List T) → (reachesFrontier : Finset T) → Except SubgraphError (Finset T)
  | 0, _, _ => .error .outOfFuel
  | _ + 1, [], reaches => .ok reaches
  | fuel + 1, node :: queue, reaches =>
    if node = source then reverseSearch fuel queue reaches
    else
      let preds := (E.list (g.pred node)).filter (· ∉ reaches)
      reverseSearch fuel (queue ++ preds) (reaches ∪ preds.toFinset)

/-- The loop over the edges out of a node. -/
def addOutEdges (reaches traversed : Finset T) (node : T) : List T → DiGraph T V → List T → DiGraph T V × List T
  | [], g0, queue => (g0, queue)
  | succ :: succs, g0, queue =>
    if succ = source ∨ g0.hasEdge node succ then addOutEdges reaches traversed node succs g0 queue
    else
      let g0 := g0.addEdge node succ (g.data node succ)
      if succ ∈ traversed ∨ succ ∈ frontier then addOutEdges reaches traversed node succs g0 queue
      else if succ ∈ reaches then addOutEdges reaches traversed node succs g0 (queue ++ [succ])
      else addOutEdges reaches traversed node succs g0 queue

/-- The search from the source. -/
def forwardSearch (reaches : Finset T) :
    Nat → (queue : List T) → (traversed : Finset T) → DiGraph T V → Except SubgraphError (DiGraph T V)
  | 0, _, _, _ => .error .outOfFuel
  | _ + 1, [], _, g0 => .ok g0
  | fuel + 1, node :: queue, traversed, g0 =>
    let traversed := insert node traversed
    let added := addOutEdges g source frontier reaches traversed node (E.list (g.succ node)) g0 queue
    forwardSearch reaches fuel added.2 traversed added.1

/-- `_removable` -/
def removable (g0 : DiGraph T V) (n : T) : Prop :=
  n ∉ frontier ∧ n ≠ source ∧ (g0.succ n = ∅ ∨ g0.pred n = ∅)

instance (g0 : DiGraph T V) (n : T) : Decidable (removable source frontier g0 n) := by
  unfold removable
  infer_instance

/-- The loop over the neighbors of a node that was removed. -/
def enqueueNeighbors (g0 : DiGraph T V) : List T → (queued : Finset T) → (toRemove : List T) → Finset T × List T
  | [], queued, toRemove => (queued, toRemove)
  | neighbor :: neighbors, queued, toRemove =>
    if neighbor ∈ g0.nodes ∧ neighbor ∉ queued ∧ removable source frontier g0 neighbor then
      enqueueNeighbors g0 neighbors (insert neighbor queued) (toRemove ++ [neighbor])
    else enqueueNeighbors g0 neighbors queued toRemove

/-- The loop that removes dead ends. -/
def prune : Nat → (toRemove : List T) → (queued : Finset T) → DiGraph T V → Except SubgraphError (DiGraph T V)
  | 0, _, _, _ => .error .outOfFuel
  | _ + 1, [], _, g0 => .ok g0
  | fuel + 1, node :: toRemove, queued, g0 =>
    let queued := queued.erase node
    if node ∉ g0.nodes ∨ ¬ removable source frontier g0 node then prune fuel toRemove queued g0
    else
      let neighbors := E.list (g0.pred node) ++ E.list (g0.succ node)
      let g0 := g0.removeNode node
      let next := enqueueNeighbors source frontier g0 neighbors queued toRemove
      prune fuel next.2 next.1 g0

def removeNodesFrom (g0 : DiGraph T V) (nodes : List T) : DiGraph T V := nodes.foldl DiGraph.removeNode g0

def subgraphBetweenNodes (fuel : Nat) (includeFrontier : Bool) : Except SubgraphError (DiGraph T V) :=
  if source ∉ g.nodes ∨ ¬ frontier ⊆ g.nodes then .error .keyError
  else do
    let reaches ← reverseSearch E g source fuel (E.list frontier) frontier
    let g0 ← forwardSearch E g source frontier reaches fuel [source] ∅ DiGraph.empty
    let toRemove := (E.list g0.nodes).filter fun n => removable source frontier g0 n
    let g0 ← prune E source frontier fuel toRemove toRemove.toFinset g0
    .ok (if includeFrontier then g0 else removeNodesFrom g0 (E.list frontier))

/-! ## The reverse search -/

/-- The frontier is reached from a node without going into the source. -/
inductive ReachesFrontier (g : DiGraph T V) (source : T) (frontier : Finset T) : T → Prop
  | frontier {f : T} : f ∈ frontier → ReachesFrontier g source frontier f
  | step {u v : T} : g.hasEdge u v = true → v ≠ source → ReachesFrontier g source frontier v →
      ReachesFrontier g source frontier u

/-- What the reverse search has found, with the nodes that are waiting. -/
structure Reversed (g : DiGraph T V) (source : T) (frontier : Finset T) (queue : List T) (reaches : Finset T) : Prop where
  sound : ∀ v ∈ reaches, ReachesFrontier g source frontier v
  frontier : frontier ⊆ reaches
  waiting : ∀ v ∈ queue, v ∈ reaches
  preds : ∀ v ∈ reaches, v ∈ queue ∨ v = source ∨ g.pred v ⊆ reaches

variable {E g source frontier} {queue : List T} {reaches traversed : Finset T} {g0 : DiGraph T V} {node u v : T}

omit [DecidableEq T] in
theorem Reversed.skip (h : Reversed g source frontier (source :: queue) reaches) :
    Reversed g source frontier queue reaches where
  sound := h.sound
  frontier := h.frontier
  waiting v hv := h.waiting v (List.mem_cons_of_mem _ hv)
  preds v hv := by
    rcases h.preds v hv with hin | hrest
    · rcases List.mem_cons.mp hin with rfl | hin
      · exact .inr (.inl rfl)
      · exact .inl hin
    · exact .inr hrest

theorem Reversed.visit (h : Reversed g source frontier (node :: queue) reaches) (hne : node ≠ source) :
    Reversed g source frontier (queue ++ (E.list (g.pred node)).filter (· ∉ reaches))
      (reaches ∪ ((E.list (g.pred node)).filter (· ∉ reaches)).toFinset) := by
  have hmem : ∀ v, v ∈ (E.list (g.pred node)).filter (· ∉ reaches) ↔ g.hasEdge v node = true ∧ v ∉ reaches := by
    intro v
    rw [List.mem_filter, E.mem_list, DiGraph.mem_pred, decide_eq_true_iff]
  generalize (E.list (g.pred node)).filter (· ∉ reaches) = preds at hmem
  refine ⟨fun v hv => ?_, h.frontier.trans Finset.subset_union_left, fun v hv => ?_, fun v hv => ?_⟩
  · rcases Finset.mem_union.mp hv with hv | hv
    · exact h.sound v hv
    · have hedge := ((hmem v).mp (List.mem_toFinset.mp hv)).1
      exact .step hedge hne (h.sound node (h.waiting node List.mem_cons_self))
  · rcases List.mem_append.mp hv with hv | hv
    · exact Finset.mem_union_left _ (h.waiting v (List.mem_cons_of_mem _ hv))
    · exact Finset.mem_union_right _ (List.mem_toFinset.mpr hv)
  rcases Finset.mem_union.mp hv with hv | hv
  · rcases h.preds v hv with hin | rfl | hsub
    · rcases List.mem_cons.mp hin with rfl | hin
      · refine .inr (.inr fun u hu => ?_)
        by_cases hu_mem : u ∈ reaches
        · exact Finset.mem_union_left _ hu_mem
        · exact Finset.mem_union_right _ (List.mem_toFinset.mpr ((hmem u).mpr ⟨DiGraph.mem_pred.mp hu, hu_mem⟩))
      · exact .inl (List.mem_append_left _ hin)
    · exact .inr (.inl rfl)
    · exact .inr (.inr (hsub.trans Finset.subset_union_left))
  · exact .inl (List.mem_append_right _ (List.mem_toFinset.mp hv))

omit [DecidableEq T] in
/-- With an empty queue the search has found all nodes. -/
theorem Reversed.complete (h : Reversed g source frontier [] reaches) (v : T) :
    v ∈ reaches ↔ ReachesFrontier g source frontier v := by
  refine ⟨h.sound v, fun hv => ?_⟩
  induction hv with
  | frontier hf => exact h.frontier hf
  | step hedge hne _ ih =>
    rcases h.preds _ ih with hin | heq | hsub
    · exact absurd hin List.not_mem_nil
    · exact absurd heq hne
    · exact hsub (DiGraph.mem_pred.mpr hedge)

/-- The nodes that go into the queue were not found before. -/
theorem card_preds : ((E.list (g.pred node)).filter (· ∉ reaches)).length +
    (g.nodes \ (reaches ∪ ((E.list (g.pred node)).filter (· ∉ reaches)).toFinset)).card = (g.nodes \ reaches).card := by
  have hnodup := (E.nodup (g.pred node)).filter (· ∉ reaches)
  have hsub : ((E.list (g.pred node)).filter (· ∉ reaches)).toFinset ⊆ g.nodes \ reaches := by
    intro v hv
    obtain ⟨hpred, hnew⟩ := List.mem_filter.mp (List.mem_toFinset.mp hv)
    have hedge := DiGraph.mem_pred.mp ((E.mem_list _ _).mp hpred)
    exact Finset.mem_sdiff.mpr ⟨(g.closed hedge).1, by simpa using hnew⟩
  rw [← List.toFinset_card_of_nodup hnodup, ← Finset.card_sdiff_add_card_eq_card hsub, sdiff_sdiff_left,
    Finset.sup_eq_union, Nat.add_comm]

theorem reverseSearch_returns (h : Reversed g source frontier queue reaches) :
    ∃ r, Returns (fun n => reverseSearch E g source n queue reaches) r ∧
      ∀ v, v ∈ r ↔ ReachesFrontier g source frontier v := by
  -- each node goes into the queue once
  generalize hm : queue.length + (g.nodes \ reaches).card = m
  induction m generalizing queue reaches with
  | zero =>
    have hnil : queue = [] := List.length_eq_zero_iff.mp (by omega)
    subst hnil
    exact ⟨reaches, Returns.succ (.of_forall fun n => rfl), h.complete⟩
  | succ m ih =>
    cases queue with
    | nil => exact ⟨reaches, Returns.succ (.of_forall fun n => rfl), h.complete⟩
    | cons node queue =>
      rw [List.length_cons] at hm
      by_cases hne : node = source
      · subst hne
        obtain ⟨r, hr, hspec⟩ := ih h.skip (by omega)
        refine ⟨r, Returns.succ ?_, hspec⟩
        simpa only [reverseSearch, if_true] using hr
      have hless : (queue ++ (E.list (g.pred node)).filter (· ∉ reaches)).length +
          (g.nodes \ (reaches ∪ ((E.list (g.pred node)).filter (· ∉ reaches)).toFinset)).card = m := by
        rw [List.length_append, Nat.add_assoc, card_preds]
        omega
      obtain ⟨r, hr, hspec⟩ := ih (h.visit hne) hless
      refine ⟨r, Returns.succ ?_, hspec⟩
      simpa only [reverseSearch, if_neg hne] using hr

/-! ## The search from the source -/

/-- The nodes whose edges are added. -/
inductive Expanded (g : DiGraph T V) (source : T) (frontier : Finset T) : T → Prop
  | source : Expanded g source frontier source
  | step {u v : T} : Expanded g source frontier u → g.hasEdge u v = true → v ≠ source → v ∉ frontier →
      ReachesFrontier g source frontier v → Expanded g source frontier v

/-- A graph of edges of another one. -/
structure EdgesOf (g g0 : DiGraph T V) : Prop where
  edge : ∀ u v, g0.hasEdge u v = true → g0.edge u v = g.edge u v
  ends : ∀ v ∈ g0.nodes, ∃ u, g0.hasEdge u v = true ∨ g0.hasEdge v u = true

/-- The edges that were not added. -/
def missing (g g0 : DiGraph T V) : Finset (T × T) :=
  (g.nodes ×ˢ g.nodes).filter fun e => g.hasEdge e.1 e.2 ∧ ¬ g0.hasEdge e.1 e.2

variable {succs : List T}

theorem EdgesOf.addEdge (h : EdgesOf g g0) (hedge : g.hasEdge u v = true) (hnew : ¬ g0.hasEdge u v = true) :
    EdgesOf g (g0.addEdge u v (g.data u v)) where
  edge a b hab := by
    unfold DiGraph.addEdge
    dsimp only
    split
    · rename_i heq
      have hnone : g0.data u v = DiGraph.EdgeData.empty := by
        unfold DiGraph.data
        rw [Option.not_isSome_iff_eq_none.mp hnew]
        rfl
      rw [hnone, DiGraph.EdgeData.empty_update, DiGraph.some_data hedge, heq.1, heq.2]
    · rename_i hne
      exact h.edge a b ((DiGraph.hasEdge_addEdge.mp hab).resolve_left hne)
  ends x hx := by
    have hcases : x = u ∨ x = v ∨ x ∈ g0.nodes := by simpa [DiGraph.addEdge] using hx
    rcases hcases with rfl | rfl | hx
    · exact ⟨v, .inr (DiGraph.hasEdge_addEdge.mpr (.inl ⟨rfl, rfl⟩))⟩
    · exact ⟨u, .inl (DiGraph.hasEdge_addEdge.mpr (.inl ⟨rfl, rfl⟩))⟩
    · obtain ⟨w, hw⟩ := h.ends x hx
      exact ⟨w, hw.imp (fun h => DiGraph.hasEdge_addEdge.mpr (.inr h)) fun h => DiGraph.hasEdge_addEdge.mpr (.inr h)⟩

theorem missing_addEdge {d : DiGraph.EdgeData V} (hedge : g.hasEdge u v = true) (hnew : ¬ g0.hasEdge u v = true) :
    (missing g (g0.addEdge u v d)).card < (missing g g0).card := by
  refine Finset.card_lt_card ((Finset.ssubset_iff_of_subset fun e he => ?_).mpr ⟨(u, v), ?_, ?_⟩)
  · obtain ⟨hmem, hg, hg0⟩ := Finset.mem_filter.mp he
    exact Finset.mem_filter.mpr ⟨hmem, hg, fun h => hg0 (DiGraph.hasEdge_addEdge.mpr (.inr h))⟩
  · exact Finset.mem_filter.mpr ⟨Finset.mem_product.mpr (g.closed hedge), hedge, hnew⟩
  · intro h
    exact (Finset.mem_filter.mp h).2.2 (DiGraph.hasEdge_addEdge.mpr (.inl ⟨rfl, rfl⟩))

/-- What the loop over the edges out of a node does. -/
structure Added (g : DiGraph T V) (source : T) (frontier reaches traversed : Finset T) (node : T) (succs : List T)
    (g0 : DiGraph T V) (queue : List T) (g0' : DiGraph T V) (queue' : List T) : Prop where
  edgesOf : EdgesOf g g0'
  edges : ∀ a b, g0'.hasEdge a b = true ↔ g0.hasEdge a b = true ∨ (a = node ∧ b ∈ succs ∧ b ≠ source)
  sound : ∀ v ∈ queue', v ∈ queue ∨ (v ∈ succs ∧ v ≠ source ∧ v ∉ frontier ∧ v ∈ reaches)
  keeps : ∀ v ∈ queue, v ∈ queue'
  complete : ∀ v ∈ succs, v ≠ source → v ∉ frontier → v ∈ reaches →
    v ∈ queue' ∨ v ∈ traversed ∨ g0.hasEdge node v = true
  work : queue'.length + (missing g g0').card ≤ queue.length + (missing g g0).card

variable {succ : T} {g0' : DiGraph T V} {queue₁ queue' : List T}

omit [DecidableEq T] in
theorem Added.skip (h : Added g source frontier reaches traversed node succs g0 queue g0' queue')
    (hskip : succ = source ∨ g0.hasEdge node succ = true) :
    Added g source frontier reaches traversed node (succ :: succs) g0 queue g0' queue' where
  edgesOf := h.edgesOf
  edges a b := by
    rw [h.edges]
    refine or_congr_right' fun hnew => and_congr_right fun ha => ?_
    subst ha
    refine ⟨fun hb => ⟨List.mem_cons_of_mem _ hb.1, hb.2⟩, fun hb => ⟨(List.mem_cons.mp hb.1).resolve_left ?_, hb.2⟩⟩
    rintro rfl
    exact hskip.elim hb.2 hnew
  sound v hv := (h.sound v hv).imp_right fun hv => ⟨List.mem_cons_of_mem _ hv.1, hv.2⟩
  keeps := h.keeps
  complete v hv hne hfrontier hreaches := by
    rcases List.mem_cons.mp hv with rfl | hv
    · exact .inr (.inr (hskip.resolve_left hne))
    · exact h.complete v hv hne hfrontier hreaches
  work := h.work

theorem Added.add
    (h : Added g source frontier reaches traversed node succs (g0.addEdge node succ (g.data node succ)) queue₁ g0' queue')
    (hedge : g.hasEdge node succ = true) (hsource : succ ≠ source) (hnew : ¬ g0.hasEdge node succ = true)
    (hsound : ∀ v ∈ queue₁, v ∈ queue ∨ (v = succ ∧ v ∉ frontier ∧ v ∈ reaches)) (hkeeps : ∀ v ∈ queue, v ∈ queue₁)
    (hcomplete : succ ∉ frontier → succ ∈ reaches → succ ∈ queue₁ ∨ succ ∈ traversed)
    (hlength : queue₁.length ≤ queue.length + 1) :
    Added g source frontier reaches traversed node (succ :: succs) g0 queue g0' queue' where
  edgesOf := h.edgesOf
  edges a b := by
    rw [h.edges, DiGraph.hasEdge_addEdge]
    constructor
    · rintro ((⟨rfl, rfl⟩ | hold) | ⟨rfl, hb, hne⟩)
      · exact .inr ⟨rfl, List.mem_cons_self, hsource⟩
      · exact .inl hold
      · exact .inr ⟨rfl, List.mem_cons_of_mem _ hb, hne⟩
    rintro (hold | ⟨rfl, hb, hne⟩)
    · exact .inl (.inr hold)
    · rcases List.mem_cons.mp hb with rfl | hb
      · exact .inl (.inl ⟨rfl, rfl⟩)
      · exact .inr ⟨rfl, hb, hne⟩
  sound v hv := by
    rcases h.sound v hv with hv | hv
    · rcases hsound v hv with hv | ⟨rfl, hv⟩
      · exact .inl hv
      · exact .inr ⟨List.mem_cons_self, hsource, hv⟩
    · exact .inr ⟨List.mem_cons_of_mem _ hv.1, hv.2⟩
  keeps v hv := h.keeps v (hkeeps v hv)
  complete v hv hne hfrontier hreaches := by
    rcases List.mem_cons.mp hv with rfl | hv
    · rcases hcomplete hfrontier hreaches with hin | hin
      · exact .inl (h.keeps v hin)
      · exact .inr (.inl hin)
    rcases h.complete v hv hne hfrontier hreaches with hin | hin | hin
    · exact .inl hin
    · exact .inr (.inl hin)
    · rcases DiGraph.hasEdge_addEdge.mp hin with ⟨-, rfl⟩ | hin
      · exact (hcomplete hfrontier hreaches).imp (h.keeps v) .inl
      · exact .inr (.inr hin)
  work := by
    have hless := missing_addEdge (d := g.data node succ) hedge hnew
    have := h.work
    omega

theorem addOutEdges_spec (hsuccs : ∀ v ∈ succs, g.hasEdge node v = true) (h : EdgesOf g g0) :
    Added g source frontier reaches traversed node succs g0 queue
      (addOutEdges g source frontier reaches traversed node succs g0 queue).1
      (addOutEdges g source frontier reaches traversed node succs g0 queue).2 := by
  induction succs generalizing g0 queue with
  | nil => exact ⟨h, by simp [addOutEdges], by simp [addOutEdges], by simp [addOutEdges], by simp, Nat.le_refl _⟩
  | cons succ succs ih =>
    have hedge := hsuccs succ List.mem_cons_self
    have hrest : ∀ v ∈ succs, g.hasEdge node v = true := fun v hv => hsuccs v (List.mem_cons_of_mem _ hv)
    rw [addOutEdges]
    split
    · rename_i hskip
      exact (ih hrest h).skip hskip
    rename_i hnew
    rw [not_or] at hnew
    have hof := h.addEdge hedge hnew.2
    have hold : ∀ v ∈ queue, v ∈ queue ∨ (v = succ ∧ v ∉ frontier ∧ v ∈ reaches) := fun v hv => .inl hv
    dsimp only
    split
    · rename_i hknown
      refine (ih hrest hof).add hedge hnew.1 hnew.2 hold (fun v hv => hv) (fun hfrontier _ => ?_) (Nat.le_succ _)
      exact .inr (hknown.resolve_right hfrontier)
    rename_i hunknown
    split
    · rename_i hreaches
      rw [not_or] at hunknown
      refine (ih hrest hof).add hedge hnew.1 hnew.2 (fun v hv => ?_) (fun v hv => List.mem_append_left _ hv)
        (fun _ _ => .inl (List.mem_append_right _ (List.mem_singleton_self _))) (by simp)
      rcases List.mem_append.mp hv with hv | hv
      · exact .inl hv
      · rw [List.mem_singleton.mp hv]
        exact .inr ⟨rfl, hunknown.2, hreaches⟩
    · rename_i hdead
      exact (ih hrest hof).add hedge hnew.1 hnew.2 hold (fun v hv => hv) (fun _ hreaches => absurd hreaches hdead)
        (Nat.le_succ _)

/-- The state of the search from the source. -/
structure Forward (g : DiGraph T V) (source : T) (frontier : Finset T) (queue : List T) (traversed : Finset T)
    (g0 : DiGraph T V) : Prop where
  edgesOf : EdgesOf g g0
  waiting : ∀ v ∈ queue, Expanded g source frontier v
  sound : ∀ v ∈ traversed, Expanded g source frontier v
  edges : ∀ a b, g0.hasEdge a b = true ↔ a ∈ traversed ∧ b ≠ source ∧ g.hasEdge a b = true
  start : source ∈ traversed ∨ source ∈ queue
  succs : ∀ a ∈ traversed, ∀ b, g.hasEdge a b = true → b ≠ source → b ∉ frontier → ReachesFrontier g source frontier b →
    b ∈ traversed ∨ b ∈ queue

theorem Forward.visit (hreaches : ∀ v, v ∈ reaches ↔ ReachesFrontier g source frontier v)
    (h : Forward g source frontier (node :: queue) traversed g0)
    (hadded : Added g source frontier reaches (insert node traversed) node (E.list (g.succ node)) g0 queue g0' queue') :
    Forward g source frontier queue' (insert node traversed) g0' := by
  have hnode := h.waiting node List.mem_cons_self
  have hsucc : ∀ v, v ∈ E.list (g.succ node) ↔ g.hasEdge node v = true := fun v => by
    rw [E.mem_list, DiGraph.mem_succ]
  have hmove : ∀ v, v ∈ traversed ∨ v ∈ node :: queue → v ∈ insert node traversed ∨ v ∈ queue' := by
    rintro v (hv | hv)
    · exact .inl (Finset.mem_insert_of_mem hv)
    · rcases List.mem_cons.mp hv with rfl | hv
      · exact .inl (Finset.mem_insert_self _ _)
      · exact .inr (hadded.keeps v hv)
  refine ⟨hadded.edgesOf, fun v hv => ?_, fun v hv => ?_, fun a b => ?_, hmove source h.start,
    fun a ha b hedge hne hfrontier hreach => ?_⟩
  · rcases hadded.sound v hv with hv | ⟨hv, hne, hfrontier, hin⟩
    · exact h.waiting v (List.mem_cons_of_mem _ hv)
    · exact .step hnode ((hsucc v).mp hv) hne hfrontier ((hreaches v).mp hin)
  · rcases Finset.mem_insert.mp hv with rfl | hv
    · exact hnode
    · exact h.sound v hv
  · rw [hadded.edges, h.edges, hsucc, Finset.mem_insert]
    constructor
    · rintro (⟨ha, hb⟩ | ⟨rfl, hedge, hb⟩)
      · exact ⟨.inr ha, hb⟩
      · exact ⟨.inl rfl, hb, hedge⟩
    · rintro ⟨rfl | ha, hb, hedge⟩
      · exact .inr ⟨rfl, hedge, hb⟩
      · exact .inl ⟨ha, hb, hedge⟩
  by_cases hold : a ∈ traversed
  · exact hmove b (h.succs a hold b hedge hne hfrontier hreach)
  have heq : a = node := (Finset.mem_insert.mp ha).resolve_right hold
  subst heq
  rcases hadded.complete b ((hsucc b).mpr hedge) hne hfrontier ((hreaches b).mpr hreach) with hin | hin | hin
  · exact .inr hin
  · exact .inl hin
  · exact absurd ((h.edges a b).mp hin).1 hold

omit [DecidableEq T] in
/-- The edges that the search has added when its queue is empty. -/
theorem Forward.complete (h : Forward g source frontier [] traversed g0) (a b : T) :
    g0.hasEdge a b = true ↔ Expanded g source frontier a ∧ b ≠ source ∧ g.hasEdge a b = true := by
  have hall : ∀ v, Expanded g source frontier v → v ∈ traversed := by
    intro v hv
    induction hv with
    | source => exact h.start.resolve_right List.not_mem_nil
    | step _ hedge hne hfrontier hreach ih =>
      exact (h.succs _ ih _ hedge hne hfrontier hreach).resolve_right List.not_mem_nil
  rw [h.edges]
  exact and_congr_left fun _ => ⟨h.sound a, hall a⟩

theorem forwardSearch_returns (hreaches : ∀ v, v ∈ reaches ↔ ReachesFrontier g source frontier v)
    (h : Forward g source frontier queue traversed g0) :
    ∃ r, Returns (fun n => forwardSearch E g source frontier reaches n queue traversed g0) r ∧ EdgesOf g r ∧
      ∀ a b, r.hasEdge a b = true ↔ Expanded g source frontier a ∧ b ≠ source ∧ g.hasEdge a b = true := by
  -- a node goes into the queue when an edge is added
  generalize hm : queue.length + (missing g g0).card = m
  induction m using Nat.strong_induction_on generalizing queue traversed g0 with
  | _ m ih =>
    cases queue with
    | nil => exact ⟨g0, Returns.succ (.of_forall fun n => rfl), h.edgesOf, h.complete⟩
    | cons node queue =>
      have hsucc : ∀ v ∈ E.list (g.succ node), g.hasEdge node v = true := fun v hv =>
        DiGraph.mem_succ.mp ((E.mem_list _ _).mp hv)
      have hadded := @addOutEdges_spec T V _ g source frontier queue reaches (insert node traversed) g0 node _ hsucc
        h.edgesOf
      have hwork := hadded.work
      rw [List.length_cons] at hm
      obtain ⟨r, hr, hspec⟩ := ih _ (by omega) (h.visit hreaches hadded) rfl
      exact ⟨r, Returns.succ hr, hspec⟩

/-! ## Pruning -/

/-- The nodes that are never dead ends: those that `K` holds of have an edge from one such node and
an edge to one. -/
def NoDeadEnds (source : T) (frontier : Finset T) (g : DiGraph T V) (K : T → Prop) : Prop :=
  ∀ v, K v → v ∉ frontier → v ≠ source → (∃ u ∈ g.nodes, K u ∧ g.hasEdge u v = true) ∧
    ∃ w ∈ g.nodes, K w ∧ g.hasEdge v w = true

/-- A graph of which dead ends have been removed. -/
structure Pruned (source : T) (frontier : Finset T) (g : DiGraph T V) (K : T → Prop) (toRemove : List T)
    (queued : Finset T) (g0 : DiGraph T V) : Prop where
  nodes : g0.nodes ⊆ g.nodes
  edge : ∀ a ∈ g0.nodes, ∀ b ∈ g0.nodes, g0.edge a b = g.edge a b
  keeps : ∀ v ∈ g.nodes, K v → v ∈ g0.nodes
  waiting : ∀ v ∈ queued, v ∈ toRemove
  pending : ∀ v ∈ g0.nodes, removable source frontier g0 v → v ∈ toRemove

variable {toRemove : List T} {queued : Finset T} {K : T → Prop}

theorem enqueueNeighbors_spec (source : T) (frontier : Finset T) (g0 : DiGraph T V) (neighbors : List T)
    (h : ∀ v ∈ queued, v ∈ toRemove) :
    (∀ v ∈ (enqueueNeighbors source frontier g0 neighbors queued toRemove).1,
        v ∈ (enqueueNeighbors source frontier g0 neighbors queued toRemove).2) ∧
      (∀ v ∈ toRemove, v ∈ (enqueueNeighbors source frontier g0 neighbors queued toRemove).2) ∧
      ∀ v ∈ neighbors, v ∈ g0.nodes → removable source frontier g0 v →
        v ∈ (enqueueNeighbors source frontier g0 neighbors queued toRemove).2 := by
  induction neighbors generalizing queued toRemove with
  | nil => exact ⟨h, fun v hv => hv, fun v hv => absurd hv List.not_mem_nil⟩
  | cons neighbor neighbors ih =>
    rw [enqueueNeighbors]
    split
    · have h' : ∀ v ∈ insert neighbor queued, v ∈ toRemove ++ [neighbor] := by
        intro v hv
        rcases Finset.mem_insert.mp hv with rfl | hv
        · exact List.mem_append_right _ (List.mem_singleton_self _)
        · exact List.mem_append_left _ (h v hv)
      obtain ⟨hqueued, hkeeps, hnew⟩ := ih h'
      refine ⟨hqueued, fun v hv => hkeeps v (List.mem_append_left _ hv), fun v hv hmem hremovable => ?_⟩
      rcases List.mem_cons.mp hv with rfl | hv
      · exact hkeeps v (List.mem_append_right _ (List.mem_singleton_self _))
      · exact hnew v hv hmem hremovable
    · rename_i hskip
      obtain ⟨hqueued, hkeeps, hnew⟩ := ih h
      refine ⟨hqueued, hkeeps, fun v hv hmem hremovable => ?_⟩
      rcases List.mem_cons.mp hv with rfl | hv
      · refine hkeeps v (h v ?_)
        by_contra hnot
        exact hskip ⟨hmem, hnot, hremovable⟩
      · exact hnew v hv hmem hremovable

omit [DecidableEq T] in
/-- A node that may be removed is not one of those that `K` holds of. -/
theorem Pruned.not_kept (h : Pruned source frontier g K toRemove queued g0) (hK : NoDeadEnds source frontier g K)
    (hmem : v ∈ g0.nodes) (hremovable : removable source frontier g0 v) : ¬ K v := by
  intro hv
  obtain ⟨hfrontier, hsource, hdegree⟩ := hremovable
  obtain ⟨⟨u, hu, hKu, huv⟩, w, hw, hKw, hvw⟩ := hK v hv hfrontier hsource
  have hedge : ∀ a ∈ g0.nodes, ∀ b ∈ g0.nodes, g0.hasEdge a b = g.hasEdge a b := fun a ha b hb =>
    congrArg Option.isSome (h.edge a ha b hb)
  rcases hdegree with hempty | hempty
  · have hin : w ∈ g0.succ v := DiGraph.mem_succ.mpr ((hedge v hmem w (h.keeps w hw hKw)).trans hvw)
    rw [hempty] at hin
    exact absurd hin (Finset.notMem_empty w)
  · have hin : u ∈ g0.pred v := DiGraph.mem_pred.mpr ((hedge u (h.keeps u hu hKu) v hmem).trans huv)
    rw [hempty] at hin
    exact absurd hin (Finset.notMem_empty u)

theorem Pruned.skip (h : Pruned source frontier g K (node :: toRemove) queued g0)
    (hskip : node ∉ g0.nodes ∨ ¬ removable source frontier g0 node) :
    Pruned source frontier g K toRemove (queued.erase node) g0 where
  nodes := h.nodes
  edge := h.edge
  keeps := h.keeps
  waiting v hv := by
    obtain ⟨hne, hv⟩ := Finset.mem_erase.mp hv
    exact (List.mem_cons.mp (h.waiting v hv)).resolve_left hne
  pending v hmem hremovable := by
    refine (List.mem_cons.mp (h.pending v hmem hremovable)).resolve_left ?_
    rintro rfl
    exact hskip.elim (fun hnot => hnot hmem) fun hnot => hnot hremovable

/-- Only a neighbor of the node that is removed becomes a dead end. -/
theorem removable_removeNode (hne : v ≠ node) (h : removable source frontier (g0.removeNode node) v) :
    removable source frontier g0 v ∨ v ∈ E.list (g0.pred node) ++ E.list (g0.succ node) := by
  obtain ⟨hfrontier, hsource, hdegree⟩ := h
  rw [DiGraph.succ_removeNode, DiGraph.pred_removeNode, if_neg hne, if_neg hne] at hdegree
  by_cases hsucc : node ∈ g0.succ v
  · exact .inr (List.mem_append_left _ ((E.mem_list _ _).mpr (DiGraph.mem_pred.mpr (DiGraph.mem_succ.mp hsucc))))
  by_cases hpred : node ∈ g0.pred v
  · exact .inr (List.mem_append_right _ ((E.mem_list _ _).mpr (DiGraph.mem_succ.mpr (DiGraph.mem_pred.mp hpred))))
  · rw [Finset.erase_eq_of_notMem hsucc, Finset.erase_eq_of_notMem hpred] at hdegree
    exact .inl ⟨hfrontier, hsource, hdegree⟩

theorem Pruned.remove (h : Pruned source frontier g K (node :: toRemove) queued g0) (hK : NoDeadEnds source frontier g K)
    (hmem : node ∈ g0.nodes) (hremovable : removable source frontier g0 node) :
    Pruned source frontier g K
      (enqueueNeighbors source frontier (g0.removeNode node) (E.list (g0.pred node) ++ E.list (g0.succ node))
        (queued.erase node) toRemove).2
      (enqueueNeighbors source frontier (g0.removeNode node) (E.list (g0.pred node) ++ E.list (g0.succ node))
        (queued.erase node) toRemove).1
      (g0.removeNode node) := by
  have hwaiting : ∀ v ∈ queued.erase node, v ∈ toRemove := by
    intro v hv
    obtain ⟨hne, hv⟩ := Finset.mem_erase.mp hv
    exact (List.mem_cons.mp (h.waiting v hv)).resolve_left hne
  obtain ⟨hqueued, hkeeps, hnew⟩ := enqueueNeighbors_spec source frontier (g0.removeNode node)
    (E.list (g0.pred node) ++ E.list (g0.succ node)) hwaiting
  have hnodes : ∀ v, v ∈ (g0.removeNode node).nodes ↔ v ≠ node ∧ v ∈ g0.nodes := fun v => Finset.mem_erase
  refine ⟨fun v hv => h.nodes ((hnodes v).mp hv).2, fun a ha b hb => ?_, fun v hv hKv => ?_, hqueued, fun v hv hrem => ?_⟩
  · obtain ⟨ha, ha_mem⟩ := (hnodes a).mp ha
    obtain ⟨hb, hb_mem⟩ := (hnodes b).mp hb
    exact (if_neg (not_or.mpr ⟨ha, hb⟩)).trans (h.edge a ha_mem b hb_mem)
  · have hv_mem := h.keeps v hv hKv
    refine (hnodes v).mpr ⟨?_, hv_mem⟩
    rintro rfl
    exact h.not_kept hK hmem hremovable hKv
  obtain ⟨hne, hv_mem⟩ := (hnodes v).mp hv
  rcases removable_removeNode (E := E) hne hrem with hold | hneighbor
  · exact hkeeps v ((List.mem_cons.mp (h.pending v hv_mem hold)).resolve_left hne)
  · exact hnew v hneighbor hv hrem

theorem prune_returns (hK : NoDeadEnds source frontier g K) (h : Pruned source frontier g K toRemove queued g0) :
    ∃ r, Returns (fun n => prune E source frontier n toRemove queued g0) r ∧ Pruned source frontier g K [] ∅ r := by
  generalize hm : g0.nodes.card = m
  induction m using Nat.strong_induction_on generalizing toRemove queued g0 with
  | _ m ih =>
    induction toRemove generalizing queued with
    | nil =>
      exact ⟨g0, Returns.succ (.of_forall fun n => rfl),
        ⟨h.nodes, h.edge, h.keeps, fun v hv => absurd hv (Finset.notMem_empty v), h.pending⟩⟩
    | cons node toRemove ih_rest =>
      by_cases hskip : node ∉ g0.nodes ∨ ¬ removable source frontier g0 node
      · obtain ⟨r, hr, hspec⟩ := ih_rest (h.skip hskip)
        refine ⟨r, Returns.succ ?_, hspec⟩
        simpa only [prune, if_pos hskip] using hr
      obtain ⟨hmem, hremovable⟩ := not_or.mp hskip
      rw [not_not] at hmem hremovable
      have hless : (g0.removeNode node).nodes.card < m := by
        rw [← hm]
        exact Finset.card_erase_lt_of_mem hmem
      obtain ⟨r, hr, hspec⟩ := ih _ hless (h.remove (E := E) hK hmem hremovable) rfl
      refine ⟨r, Returns.succ ?_, hspec⟩
      simpa only [prune, if_neg hskip] using hr

/-! ## Paths to the frontier -/

/-- A path of at least one edge from the source to `f`, with neither the source nor nodes of the
frontier in between. -/
def PathTo (g : DiGraph T V) (source : T) (frontier : Finset T) (f : T) (l : List T) : Prop :=
  g.shape.Path source f l ∧ ∃ mid, l = source :: (mid ++ [f]) ∧ ∀ x ∈ mid, x ≠ source ∧ x ∉ frontier

/-- A path to a node of the frontier. -/
def PathToFrontier (g : DiGraph T V) (source : T) (frontier : Finset T) (l : List T) : Prop :=
  ∃ f ∈ frontier, PathTo g source frontier f l

/-- A path to a node of the frontier that is not the source. -/
def Between (g : DiGraph T V) (source : T) (frontier : Finset T) (l : List T) : Prop :=
  ∃ f ∈ frontier, f ≠ source ∧ PathTo g source frontier f l

variable {f : T} {l : List T}

omit [DecidableEq T] in
theorem Expanded.path (h : Expanded g source frontier u) :
    ∃ mid, g.shape.Path source u (source :: mid) ∧ ∀ x ∈ mid, x ≠ source ∧ x ∉ frontier := by
  induction h with
  | source => exact ⟨[], .single source, by simp⟩
  | @step u v _ hedge hne hfrontier _ ih =>
    obtain ⟨mid, hpath, hmid⟩ := ih
    refine ⟨mid ++ [v], hpath.snoc (DiGraph.edge_shape.mpr hedge), fun x hx => ?_⟩
    rcases List.mem_append.mp hx with hx | hx
    · exact hmid x hx
    · rw [List.mem_singleton.mp hx]
      exact ⟨hne, hfrontier⟩

theorem ReachesFrontier.path (h : ReachesFrontier g source frontier v) (hne : v ≠ source) :
    ∃ f ∈ frontier, f ≠ source ∧ ∃ mid, g.shape.Path v f (mid ++ [f]) ∧ ∀ x ∈ mid, x ≠ source ∧ x ∉ frontier := by
  by_cases hv : v ∈ frontier
  · exact ⟨v, hv, hne, [], .single v, by simp⟩
  induction h with
  | frontier hf => exact absurd hf hv
  | @step u w hedge hw_ne hw ih =>
    by_cases hw_mem : w ∈ frontier
    · refine ⟨w, hw_mem, hw_ne, [u], .cons (DiGraph.edge_shape.mpr hedge) (.single w), fun x hx => ?_⟩
      rw [List.mem_singleton.mp hx]
      exact ⟨hne, hv⟩
    obtain ⟨f, hf, hf_ne, mid, hpath, hmid⟩ := ih hw_ne hw_mem
    refine ⟨f, hf, hf_ne, u :: mid, .cons (DiGraph.edge_shape.mpr hedge) hpath, fun x hx => ?_⟩
    rcases List.mem_cons.mp hx with rfl | hx
    · exact ⟨hne, hv⟩
    · exact hmid x hx

omit [DecidableEq T] in
theorem ReachesFrontier.of_path (h : g.shape.Path v f l) (hf : f ∈ frontier) (hl : ∀ x ∈ l.tail, x ≠ source) :
    ReachesFrontier g source frontier v := by
  induction h with
  | single => exact .frontier hf
  | @cons u w f l hedge htail ih =>
    have hw : w ∈ l := htail.head_mem
    exact .step (DiGraph.edge_shape.mp hedge) (hl w hw) (ih hf fun x hx => hl x (List.mem_of_mem_tail hx))

/-- The edges that are followed one after another lie on the paths. -/
theorem exists_between (hu : Expanded g source frontier u) (hedge : g.hasEdge u v = true) (hne : v ≠ source)
    (hv : ReachesFrontier g source frontier v) : ∃ l, Between g source frontier l ∧ [u, v] <:+: l := by
  obtain ⟨front, hfront, hfront_mid⟩ := hu.path
  obtain ⟨f, hf, hf_ne, back, hback, hback_mid⟩ := hv.path hne
  refine ⟨(source :: front) ++ (back ++ [f]), ⟨f, hf, hf_ne, ?_, front ++ back, by simp, fun x hx => ?_⟩, ?_⟩
  · exact hfront.join (DiGraph.edge_shape.mpr hedge) hback
  · exact (List.mem_append.mp hx).elim (hfront_mid x) (hback_mid x)
  · obtain ⟨before, hbefore⟩ := hfront.last
    obtain ⟨after, hafter⟩ := hback.head
    exact ⟨before, after, by rw [hbefore, hafter]; simp⟩

omit [DecidableEq T] in
/-- The edges of a path are followed from an expanded node to the frontier. -/
theorem expanded_of_infix {mid : List T} {a : T} (ha : Expanded g source frontier a) (hf : f ∈ frontier) (hne : f ≠ source)
    (hpath : g.shape.Path a f (a :: (mid ++ [f]))) (hmid : ∀ x ∈ mid, x ≠ source ∧ x ∉ frontier)
    (hpiece : [u, v] <:+: a :: (mid ++ [f])) :
    Expanded g source frontier u ∧ g.hasEdge u v = true ∧ v ≠ source ∧ ReachesFrontier g source frontier v := by
  induction mid generalizing a with
  | nil =>
    obtain ⟨hedge, -⟩ := hpath.edge_of_cons
    rcases FinGraph.pair_infix_cons hpiece with ⟨rfl, rfl⟩ | hpiece
    · exact ⟨ha, DiGraph.edge_shape.mp hedge, hne, .frontier hf⟩
    · exact absurd hpiece.length_le (by simp)
  | cons m mid ih =>
    obtain ⟨hedge, htail⟩ := hpath.edge_of_cons
    obtain ⟨hm_ne, hm⟩ := hmid m List.mem_cons_self
    have hreach : ReachesFrontier g source frontier m := by
      refine .of_path htail hf fun x hx => ?_
      rcases List.mem_append.mp hx with hx | hx
      · exact (hmid x (List.mem_cons_of_mem _ hx)).1
      · rw [List.mem_singleton.mp hx]
        exact hne
    rcases FinGraph.pair_infix_cons hpiece with ⟨rfl, rfl⟩ | hpiece
    · exact ⟨ha, DiGraph.edge_shape.mp hedge, hm_ne, hreach⟩
    · refine ih (.step ha (DiGraph.edge_shape.mp hedge) hm_ne hm hreach) htail ?_ hpiece
      exact fun x hx => hmid x (List.mem_cons_of_mem _ hx)

/-- The edges on the paths. -/
theorem edge_between_iff : (∃ l, Between g source frontier l ∧ [u, v] <:+: l) ↔
    Expanded g source frontier u ∧ g.hasEdge u v = true ∧ v ≠ source ∧ ReachesFrontier g source frontier v := by
  constructor
  · rintro ⟨l, ⟨f, hf, hne, hpath, mid, rfl, hmid⟩, hpiece⟩
    exact expanded_of_infix .source hf hne hpath hmid hpiece
  · rintro ⟨hu, hedge, hne, hv⟩
    exact exists_between hu hedge hne hv

omit [DecidableEq T] in
/-- The nodes on the paths are those with an edge on one. -/
theorem node_between_iff : (∃ l, Between g source frontier l ∧ v ∈ l) ↔
    ∃ l, Between g source frontier l ∧ ∃ u, [u, v] <:+: l ∨ (v = source ∧ [v, u] <:+: l) := by
  constructor
  · rintro ⟨l, hl, hv⟩
    refine ⟨l, hl, ?_⟩
    obtain ⟨f, hf, hne, hpath, mid, rfl, hmid⟩ := hl
    rcases List.mem_cons.mp hv with rfl | hv
    · cases mid with
      | nil => exact ⟨f, .inr ⟨rfl, [], [], rfl⟩⟩
      | cons m mid => exact ⟨m, .inr ⟨rfl, [], mid ++ [f], rfl⟩⟩
    · obtain ⟨u, hu⟩ := FinGraph.exists_pair_infix (a := source) hv
      exact ⟨u, .inl hu⟩
  · rintro ⟨l, hl, u, hpiece | ⟨-, hpiece⟩⟩
    · exact ⟨l, hl, hpiece.subset (by simp)⟩
    · exact ⟨l, hl, hpiece.subset (by simp)⟩

/-! ## The subgraph -/

/-- The nodes that are left. -/
def Kept (g : DiGraph T V) (source : T) (frontier : Finset T) (v : T) : Prop :=
  Expanded g source frontier v ∨ v ∈ frontier

/-- The edges of the nodes that are expanded. -/
structure Searched (g : DiGraph T V) (source : T) (frontier : Finset T) (g0 : DiGraph T V) : Prop where
  edgesOf : EdgesOf g g0
  edges : ∀ a b, g0.hasEdge a b = true ↔ Expanded g source frontier a ∧ b ≠ source ∧ g.hasEdge a b = true

omit [DecidableEq T] in
theorem Kept.reachesFrontier (h : Kept g source frontier v) (hne : v ≠ source) : ReachesFrontier g source frontier v := by
  rcases h with h | h
  · cases h with
    | source => exact absurd rfl hne
    | step _ _ _ _ hreach => exact hreach
  · exact .frontier h

theorem kept_of_edge (hu : Expanded g source frontier u) (hedge : g.hasEdge u v = true) (hne : v ≠ source)
    (hreach : ReachesFrontier g source frontier v) : Kept g source frontier v := by
  by_cases hv : v ∈ frontier
  · exact .inr hv
  · exact .inl (.step hu hedge hne hv hreach)

theorem Searched.noDeadEnds (h : Searched g source frontier g0) : NoDeadEnds source frontier g0 (Kept g source frontier) := by
  intro v hv hfrontier hne
  have hexpanded := hv.resolve_right hfrontier
  have hreach := hv.reachesFrontier hne
  constructor
  · cases hexpanded with
    | source => exact absurd rfl hne
    | @step u v hu hedge _ _ _ =>
      have h0 := (h.edges u v).mpr ⟨hu, hne, hedge⟩
      exact ⟨u, (g0.closed h0).1, .inl hu, h0⟩
  cases hreach with
  | frontier hf => exact absurd hf hfrontier
  | @step v w hedge hw_ne hw =>
    have h0 := (h.edges v w).mpr ⟨hexpanded, hw_ne, hedge⟩
    exact ⟨w, (g0.closed h0).2, kept_of_edge hexpanded hedge hw_ne hw, h0⟩

omit [DecidableEq T] in
/-- Pruning leaves the nodes that are kept. -/
theorem Pruned.mem_iff {sub : DiGraph T V} (h : Searched g source frontier g0)
    (hpruned : Pruned source frontier g0 (Kept g source frontier) [] ∅ sub) :
    v ∈ sub.nodes ↔ v ∈ g0.nodes ∧ Kept g source frontier v := by
  refine ⟨fun hv => ⟨hpruned.nodes hv, ?_⟩, fun hv => hpruned.keeps v hv.1 hv.2⟩
  by_contra hnot
  unfold Kept at hnot
  rw [not_or] at hnot
  -- a node that was not expanded has no edges
  have hsucc : sub.succ v = ∅ := by
    refine Finset.eq_empty_of_forall_notMem fun w hw => hnot.1 ?_
    have hedge := DiGraph.mem_succ.mp hw
    have h0 : g0.hasEdge v w = true := by
      rw [← hedge]
      exact congrArg Option.isSome (hpruned.edge v hv w (sub.closed hedge).2).symm
    exact ((h.edges v w).mp h0).1
  have hne : v ≠ source := by
    rintro rfl
    exact hnot.1 .source
  exact absurd (hpruned.pending v hv ⟨hnot.2, hne, .inl hsucc⟩) List.not_mem_nil

theorem Pruned.edge_iff {sub : DiGraph T V} {d : DiGraph.EdgeData V} (h : Searched g source frontier g0)
    (hpruned : Pruned source frontier g0 (Kept g source frontier) [] ∅ sub) :
    sub.edge u v = some d ↔ g.edge u v = some d ∧ ∃ l, Between g source frontier l ∧ [u, v] <:+: l := by
  rw [edge_between_iff]
  constructor
  · intro hd
    have hedge := DiGraph.hasEdge_of_edge hd
    obtain ⟨hu, hv⟩ := sub.closed hedge
    rw [hpruned.edge u hu v hv] at hd
    have h0 := DiGraph.hasEdge_of_edge hd
    obtain ⟨hexpanded, hne, hg⟩ := (h.edges u v).mp h0
    refine ⟨(h.edgesOf.edge u v h0).symm.trans hd, hexpanded, hg, hne, ?_⟩
    exact ((Pruned.mem_iff h hpruned).mp hv).2.reachesFrontier hne
  rintro ⟨hd, hexpanded, hedge, hne, hreach⟩
  have h0 := (h.edges u v).mpr ⟨hexpanded, hne, hedge⟩
  obtain ⟨hu0, hv0⟩ := g0.closed h0
  have hv := kept_of_edge hexpanded hedge hne hreach
  rw [hpruned.edge u (hpruned.keeps u hu0 (.inl hexpanded)) v (hpruned.keeps v hv0 hv), h.edgesOf.edge u v h0, hd]

/-- The nodes that are left are on the paths, or are the source. -/
theorem Searched.mem_kept_iff (h : Searched g source frontier g0) : (v ∈ g0.nodes ∧ Kept g source frontier v) ↔
    (∃ l, Between g source frontier l ∧ v ∈ l) ∨ (v = source ∧ ∃ w, w ≠ source ∧ g.hasEdge source w = true) := by
  have hon_path : ∀ u, Expanded g source frontier u → g.hasEdge u v = true → v ≠ source →
      ReachesFrontier g source frontier v → ∃ l, Between g source frontier l ∧ v ∈ l := by
    intro u hu hedge hne hreach
    obtain ⟨l, hl, hpiece⟩ := exists_between hu hedge hne hreach
    exact ⟨l, hl, hpiece.subset (by simp)⟩
  constructor
  · intro hv
    obtain ⟨hmem, hkept⟩ := hv
    obtain ⟨u, h0 | h0⟩ := h.edgesOf.ends v hmem
    · obtain ⟨hu, hne, hedge⟩ := (h.edges u v).mp h0
      exact .inl (hon_path u hu hedge hne (hkept.reachesFrontier hne))
    obtain ⟨hv, hu_ne, hedge⟩ := (h.edges v u).mp h0
    cases hv with
    | source => exact .inr ⟨rfl, u, hu_ne, hedge⟩
    | @step w v hw hwv hne _ hreach => exact .inl (hon_path w hw hwv hne hreach)
  · rintro (hpath | ⟨rfl, w, hne, hedge⟩)
    · obtain ⟨l, hl, u, hpiece | ⟨rfl, hpiece⟩⟩ := node_between_iff.mp hpath
      · obtain ⟨hu, hedge, hne, hreach⟩ := edge_between_iff.mp ⟨l, hl, hpiece⟩
        exact ⟨(g0.closed ((h.edges u v).mpr ⟨hu, hne, hedge⟩)).2, kept_of_edge hu hedge hne hreach⟩
      · obtain ⟨hv, hedge, hne, -⟩ := edge_between_iff.mp ⟨l, hl, hpiece⟩
        exact ⟨(g0.closed ((h.edges v u).mpr ⟨hv, hne, hedge⟩)).1, .inl hv⟩
    · exact ⟨(g0.closed ((h.edges v w).mpr ⟨.source, hne, hedge⟩)).1, .inl .source⟩

theorem removeNodesFrom_spec (nodes : List T) (g0 : DiGraph T V) :
    (∀ v, v ∈ (removeNodesFrom g0 nodes).nodes ↔ v ∈ g0.nodes ∧ v ∉ nodes) ∧
      ∀ u v, (removeNodesFrom g0 nodes).edge u v = if u ∈ nodes ∨ v ∈ nodes then none else g0.edge u v := by
  unfold removeNodesFrom
  induction nodes generalizing g0 with
  | nil => simp
  | cons n nodes ih =>
    obtain ⟨hnodes, hedge⟩ := ih (g0.removeNode n)
    constructor
    · intro v
      rw [List.foldl_cons, hnodes, DiGraph.removeNode, Finset.mem_erase, List.mem_cons]
      tauto
    intro u v
    rw [List.foldl_cons, hedge]
    simp only [DiGraph.removeNode, List.mem_cons]
    by_cases hrest : u ∈ nodes ∨ v ∈ nodes
    · rw [if_pos hrest, if_pos (by tauto)]
    · rw [if_neg hrest]
      exact if_congr (by tauto) rfl rfl

/-- Both searches and pruning end, and leave the paths to the frontier. -/
theorem subgraphBetweenNodes_returns (E : Enumeration T) (hsource : source ∈ g.nodes) (hfrontier : frontier ⊆ g.nodes)
    (includeFrontier : Bool) : ∃ g0 sub, Searched g source frontier g0 ∧
      Pruned source frontier g0 (Kept g source frontier) [] ∅ sub ∧
      Returns (fun n => subgraphBetweenNodes E g source frontier n includeFrontier)
        (if includeFrontier then sub else removeNodesFrom sub (E.list frontier)) := by
  have hreversed : Reversed g source frontier (E.list frontier) frontier :=
    ⟨fun v hv => .frontier hv, Finset.Subset.refl _, fun v hv => (E.mem_list _ _).mp hv,
      fun v hv => .inl ((E.mem_list _ _).mpr hv)⟩
  obtain ⟨reaches, hreaches_run, hreaches⟩ := reverseSearch_returns (E := E) hreversed
  have hforward : Forward g source frontier [source] ∅ (DiGraph.empty : DiGraph T V) := by
    refine ⟨⟨fun u v h => absurd h Bool.false_ne_true, fun v hv => absurd hv (Finset.notMem_empty v)⟩, fun v hv => ?_,
      fun v hv => absurd hv (Finset.notMem_empty v), fun a b => ?_, .inr (List.mem_singleton_self _),
      fun a ha => absurd ha (Finset.notMem_empty a)⟩
    · rw [List.mem_singleton.mp hv]
      exact .source
    · simp [DiGraph.hasEdge, DiGraph.empty]
  obtain ⟨g0, hg0_run, hedgesOf, hedges⟩ := forwardSearch_returns (E := E) hreaches hforward
  have hsearched : Searched g source frontier g0 := ⟨hedgesOf, hedges⟩
  have hpruned : Pruned source frontier g0 (Kept g source frontier)
      ((E.list g0.nodes).filter fun n => removable source frontier g0 n)
      ((E.list g0.nodes).filter fun n => removable source frontier g0 n).toFinset g0 := by
    refine ⟨Finset.Subset.refl _, fun _ _ _ _ => rfl, fun v hv _ => hv, fun v hv => List.mem_toFinset.mp hv,
      fun v hv hremovable => ?_⟩
    exact List.mem_filter.mpr ⟨(E.mem_list _ _).mpr hv, decide_eq_true hremovable⟩
  obtain ⟨sub, hsub_run, hsub⟩ := prune_returns (E := E) hsearched.noDeadEnds hpruned
  refine ⟨g0, sub, hsearched, hsub, ?_⟩
  have hok : ¬ (source ∉ g.nodes ∨ ¬ frontier ⊆ g.nodes) := by
    rw [not_or, not_not, not_not]
    exact ⟨hsource, hfrontier⟩
  simp only [subgraphBetweenNodes, if_neg hok]
  refine hreaches_run.bind ?_
  refine hg0_run.bind ?_
  refine hsub_run.bind ?_
  exact .of_forall fun _ => rfl

/-- The subgraph has the nodes and the edges on the paths from the source to the frontier, and the
source if it has an edge to another node. Edges into the source are not followed. -/
theorem subgraphBetweenNodes_spec (E : Enumeration T) (g : DiGraph T V) (source : T) (frontier : Finset T)
    (includeFrontier : Bool) (hsource : source ∈ g.nodes) (hfrontier : frontier ⊆ g.nodes) :
    ∃ sub, Returns (fun n => subgraphBetweenNodes E g source frontier n includeFrontier) sub ∧
      (∀ v, v ∈ sub.nodes ↔ ((∃ l, Between g source frontier l ∧ v ∈ l) ∨
        (v = source ∧ ∃ w, w ≠ source ∧ g.hasEdge source w = true)) ∧ (includeFrontier = true ∨ v ∉ frontier)) ∧
      ∀ u v d, sub.edge u v = some d ↔ g.edge u v = some d ∧ (∃ l, Between g source frontier l ∧ [u, v] <:+: l) ∧
        (includeFrontier = true ∨ (u ∉ frontier ∧ v ∉ frontier)) := by
  obtain ⟨g0, sub, hsearched, hpruned, hrun⟩ := subgraphBetweenNodes_returns E hsource hfrontier includeFrontier
  have hnodes : ∀ v, v ∈ sub.nodes ↔ (∃ l, Between g source frontier l ∧ v ∈ l) ∨
      (v = source ∧ ∃ w, w ≠ source ∧ g.hasEdge source w = true) := fun v =>
    (Pruned.mem_iff hsearched hpruned).trans hsearched.mem_kept_iff
  refine ⟨_, hrun, ?_⟩
  cases includeFrontier with
  | true =>
    refine ⟨fun v => ?_, fun u v d => ?_⟩
    · simpa using hnodes v
    · simpa using Pruned.edge_iff hsearched hpruned
  | false =>
    obtain ⟨hleft, hleft_edge⟩ := removeNodesFrom_spec (E.list frontier) sub
    refine ⟨fun v => ?_, fun u v d => ?_⟩
    · simp only [Bool.false_eq_true, if_false, hleft, E.mem_list, hnodes, false_or]
    · simp only [Bool.false_eq_true, if_false, hleft_edge, E.mem_list, false_or]
      split
      · rename_i hin
        constructor
        · intro h
          cases h
        · intro h
          exact absurd hin (not_or.mpr h.2.2)
      · rename_i hout
        rw [Pruned.edge_iff hsearched hpruned]
        exact ⟨fun h => ⟨h.1, h.2, not_or.mp hout⟩, fun h => ⟨h.1, h.2.1⟩⟩

/-- 0 → 1 → 2, and 1 → 3. -/
def deadEnd : DiGraph Nat Unit :=
  ((DiGraph.empty.addEdge 0 1 DiGraph.EdgeData.empty).addEdge 1 2 DiGraph.EdgeData.empty).addEdge 1 3
    DiGraph.EdgeData.empty

theorem subgraphBetweenNodes_deadEnd :
    ∃ sub, Returns (fun n => subgraphBetweenNodes .ascending deadEnd 0 {2} n true) sub ∧ 1 ∈ sub.nodes := by
  obtain ⟨sub, hrun, hnodes, -⟩ := subgraphBetweenNodes_spec .ascending deadEnd 0 {2} true (by decide) (by decide)
  have h01 : deadEnd.shape.Edge 0 1 := DiGraph.edge_shape.mpr (by decide)
  have h12 : deadEnd.shape.Edge 1 2 := DiGraph.edge_shape.mpr (by decide)
  refine ⟨sub, hrun, (hnodes 1).mpr ⟨.inl ⟨[0, 1, 2], ⟨2, by decide, by decide, ?_, [1], rfl, by decide⟩, by decide⟩, .inl rfl⟩⟩
  exact .cons h01 (.cons h12 (.single 2))

/-- 0 → 1, and 2. -/
def apart : DiGraph Nat Unit := (DiGraph.empty.addEdge 0 1 DiGraph.EdgeData.empty).addNode 2

/-- 0 → 1 → 0. -/
def roundTrip : DiGraph Nat Unit :=
  (DiGraph.empty.addEdge 0 1 DiGraph.EdgeData.empty).addEdge 1 0 DiGraph.EdgeData.empty

/-- The source stays without a path to the frontier, and the paths back to the source are left out. -/
theorem subgraphBetweenNodes_not_paths :
    (∃ sub, Returns (fun n => subgraphBetweenNodes .ascending apart 0 {2} n true) sub ∧ 0 ∈ sub.nodes ∧
        ¬ ∃ l, PathToFrontier apart 0 {2} l ∧ 0 ∈ l) ∧
      ∃ sub, Returns (fun n => subgraphBetweenNodes .ascending roundTrip 0 {0} n true) sub ∧ 1 ∉ sub.nodes ∧
        ∃ l, PathToFrontier roundTrip 0 {0} l ∧ 1 ∈ l := by
  constructor
  · obtain ⟨g0, sub, hsearched, hpruned, hrun⟩ :=
      @subgraphBetweenNodes_returns Nat Unit _ apart 0 {2} .ascending (by decide) (by decide) true
    have hmem := (Pruned.mem_iff hsearched hpruned).mpr (hsearched.mem_kept_iff.mpr (.inr ⟨rfl, 1, by decide, by decide⟩))
    refine ⟨sub, hrun, hmem, ?_⟩
    rintro ⟨l, ⟨f, hf, hpath, -⟩, -⟩
    rw [Finset.mem_singleton.mp hf] at hpath
    rcases Relation.ReflTransGen.cases_tail hpath.reach with heq | ⟨u, -, hedge⟩
    · exact absurd heq (by decide)
    · have hnone : apart.hasEdge u 2 = false := by
        simp [apart, DiGraph.hasEdge, DiGraph.addNode, DiGraph.addEdge, DiGraph.empty]
      rw [DiGraph.edge_shape, hnone] at hedge
      cases hedge
  · obtain ⟨g0, sub, hsearched, hpruned, hrun⟩ :=
      @subgraphBetweenNodes_returns Nat Unit _ roundTrip 0 {0} .ascending (by decide) (by decide) true
    refine ⟨sub, hrun, fun hmem => ?_, [0, 1, 0], ⟨0, by decide, ?_, [1], rfl, by decide⟩, by decide⟩
    · rcases hsearched.mem_kept_iff.mp ((Pruned.mem_iff hsearched hpruned).mp hmem) with ⟨l, ⟨f, hf, hne, -⟩, -⟩ | ⟨heq, -⟩
      · exact hne (Finset.mem_singleton.mp hf)
      · exact absurd heq (by decide)
    · have h01 : roundTrip.shape.Edge 0 1 := DiGraph.edge_shape.mpr (by decide)
      have h10 : roundTrip.shape.Edge 1 0 := DiGraph.edge_shape.mpr (by decide)
      exact .cons h01 (.cons h10 (.single 0))

end Angr.GraphUtils
