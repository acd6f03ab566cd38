import Vibr.Decompiler.RegionChanges

/-!
# Traces

A trace is a sequence of changes; the log of a trace has their inverses. Every verb makes a
trace, and adds the log of it to the undo log, if there is one.
-/

namespace Angr.Overlay

open DiGraph Forest
open OverlayManager (undo)

variable {T V : Type} [DecidableEq T]

/-- Changes that meet `ok`, one after the other. -/
inductive Trace (it : IterOrder T) (ok : Core T V → Change T V → Prop) (c : Core T V) (live : Finset Nat) :
    List (Inverse T V) → Core T V → Finset Nat → Prop
  | refl : Trace it ok c live [] c live
  | tail {c' : Core T V} {live' : Finset Nat} {log : List (Inverse T V)} {ch : Change T V}
      (h : Trace it ok c live log c' live') (hvalid : ch.Valid c' live') (hok : ok c' ch) :
      Trace it ok c live (ch.inverses it c' ++ log) (ch.run c') (ch.live' c' live')

variable {it : IterOrder T} {ok : Core T V → Change T V → Prop} {c c' c'' : Core T V} {live live' live'' : Finset Nat}
variable {log log' : List (Inverse T V)} {seen : Finset T}

namespace Trace

theorem trans (h : Trace it ok c live log c' live') (h' : Trace it ok c' live' log' c'' live'') :
    Trace it ok c live (log' ++ log) c'' live'' := by
  induction h' with
  | refl => exact h
  | tail _ hvalid hok ih =>
    rw [List.append_assoc]
    exact .tail ih hvalid hok

theorem single (ch : Change T V) (hvalid : ch.Valid c live) (hok : ok c ch) :
    Trace it ok c live (ch.inverses it c) (ch.run c) (ch.live' c live) := by
  have h : Trace it ok c live (ch.inverses it c ++ []) (ch.run c) (ch.live' c live) := .tail .refl hvalid hok
  rwa [List.append_nil] at h

theorem good (h : Trace it ok c live log c' live') (htree : Tree c live) (hplaced : Placed c) :
    Tree c' live' ∧ Placed c' := by
  induction h with
  | refl => exact ⟨htree, hplaced⟩
  | tail _ hvalid _ ih =>
    exact ⟨Change.tree ih.1 ih.2 hvalid, Change.placed ih.1 ih.2 hvalid⟩

theorem owned (h : Trace it ok c live log c' live') (hok : ∀ c ch, ok c ch → ch.Anchored c ∅) (howned : Owned c) :
    Owned c' := by
  induction h with
  | refl => exact howned
  | tail _ _ hstep ih => exact Change.owned ih (hok _ _ hstep)

theorem bare (h : Trace it ok c live log c' live') (htree : Tree c live) (hplaced : Placed c) (hbare : Bare c live) :
    Bare c' live' := by
  induction h with
  | refl => exact hbare
  | tail h hvalid _ ih => exact Change.bare (h.good htree hplaced).1 ih hvalid

/-- After the inverses of a trace the tree is the one from before. -/
theorem undo_tree (h : Trace it ok c live log c' live') (htree : Tree c live) (hplaced : Placed c)
    (hsame : SameTree c' c'') : SameTree c (undo log c'') := by
  induction h generalizing c'' with
  | refl => exact hsame
  | tail h hvalid _ ih =>
    obtain ⟨htree', hplaced'⟩ := h.good htree hplaced
    rw [undo_append]
    exact ih (Change.undo_tree htree' hplaced' hvalid hsame)

theorem undo_nodes (h : Trace it ok c live log c' live') (hnodes : c'.graph.nodes ⊆ c''.graph.nodes) :
    c.graph.nodes ⊆ (undo log c'').graph.nodes := by
  induction h generalizing c'' with
  | refl => exact hnodes
  | tail _ hvalid _ ih =>
    rw [undo_append]
    exact ih (Change.undo_nodes hvalid hnodes)

theorem undo_rest (h : Trace it ok c live log c' live') (hok : ∀ c ch, ok c ch → ch.Anchored c seen ∧ ch.Fresh c)
    (htree : Tree c live) (hplaced : Placed c) (hsame : SameRest seen c' c'') : SameRest seen c (undo log c'') := by
  induction h generalizing c'' with
  | refl => exact hsame
  | tail h hvalid hstep ih =>
    obtain ⟨hanchored, hfresh⟩ := hok _ _ hstep
    rw [undo_append]
    exact ih (Change.undo_rest (h.good htree hplaced).1 hvalid hanchored hfresh hsame)

end Trace

/-! ## Primitives -/

/-- A part of a verb makes a trace, and adds its log to the undo log. -/
def Does (it : IterOrder T) (ok : Core T V → Change T V → Prop) (s : OverlayManager T V) (live : Finset Nat)
    (s' : OverlayManager T V) (live' : Finset Nat) : Prop :=
  ∃ log, Trace it ok s.core live log s'.core live' ∧ s'.undoLog = s.undoLog.map (log ++ ·)

variable {s s' s'' : OverlayManager T V} {self i : Nat} {n u v : T} {d : EdgeData V}

namespace Does

theorem refl : Does it ok s live s live := ⟨[], .refl, by simp⟩

theorem trans (h : Does it ok s live s' live') (h' : Does it ok s' live' s'' live'') : Does it ok s live s'' live'' := by
  obtain ⟨log, htrace, hlog⟩ := h
  obtain ⟨log', htrace', hlog'⟩ := h'
  refine ⟨log' ++ log, htrace.trans htrace', ?_⟩
  rw [hlog', hlog, Option.map_map]
  congr 1
  funext l
  exact (List.append_assoc log' log l).symm

/-- Versions do not matter. -/
theorem quiet (h : Does it ok s live s' live') (hcore : s''.core = s'.core) (hlog : s''.undoLog = s'.undoLog) :
    Does it ok s live s'' live' := by
  unfold Does
  rw [hcore, hlog]
  exact h

theorem good (h : Does it ok s live s' live') (htree : Tree s.core live) (hplaced : Placed s.core) :
    Tree s'.core live' ∧ Placed s'.core := by
  obtain ⟨log, htrace, -⟩ := h
  exact htrace.good htree hplaced

end Does

omit [DecidableEq T] in
@[simp] theorem core_bump (s : OverlayManager T V) : s.bump.core = s.core := rfl
omit [DecidableEq T] in
@[simp] theorem undoLog_bump (s : OverlayManager T V) : s.bump.undoLog = s.undoLog := rfl
omit [DecidableEq T] in
@[simp] theorem core_bumpEpoch (s : OverlayManager T V) : s.bumpEpoch.core = s.core := rfl
omit [DecidableEq T] in
@[simp] theorem undoLog_bumpEpoch (s : OverlayManager T V) : s.bumpEpoch.undoLog = s.undoLog := rfl
@[simp] theorem core_touch (s : OverlayManager T V) (x : Tx T) : (s.touch x).core = s.core := rfl
@[simp] theorem undoLog_touch (s : OverlayManager T V) (x : Tx T) : (s.touch x).undoLog = s.undoLog := rfl

@[simp] theorem core_touchAll (s : OverlayManager T V) (xs : List (Tx T)) : (s.touchAll xs).core = s.core := by
  induction xs generalizing s with
  | nil => rfl
  | cons x xs ih => exact ih (s.touch x)

@[simp] theorem undoLog_touchAll (s : OverlayManager T V) (xs : List (Tx T)) :
    (s.touchAll xs).undoLog = s.undoLog := by
  induction xs generalizing s with
  | nil => rfl
  | cons x xs ih => exact ih (s.touch x)

namespace Does

theorem bump (h : Does it ok s live s' live') : Does it ok s live s'.bump live' := h.quiet rfl rfl

theorem bumpEpoch (h : Does it ok s live s' live') : Does it ok s live s'.bumpEpoch live' := h.quiet rfl rfl

theorem touch (h : Does it ok s live s' live') (x : Tx T) : Does it ok s live (s'.touch x) live' := h.quiet rfl rfl

theorem touchAll (h : Does it ok s live s' live') (xs : List (Tx T)) : Does it ok s live (s'.touchAll xs) live' :=
  h.quiet (core_touchAll s' xs) (undoLog_touchAll s' xs)

end Does

theorem core_graphAddEdge (s : OverlayManager T V) (u v : T) (d : EdgeData V) :
    (s.graphAddEdge u v d).core = { s.core with graph := s.core.graph.addEdge u v d } := rfl

theorem does_graphAddEdge (hok : ok s.core (.addEdge u v d)) : Does it ok s live (s.graphAddEdge u v d) live := by
  refine ⟨_, Trace.single (.addEdge u v d) trivial hok, ?_⟩
  rfl

theorem does_graphRemoveEdge (hedge : s.core.graph.hasEdge u v) (hok : ok s.core (.removeEdge u v)) :
    Does it ok s live (s.graphRemoveEdge u v) live := by
  refine ⟨_, Trace.single (.removeEdge u v) hedge hok, ?_⟩
  rfl

theorem core_add (hn : n ∉ s.core.graph.nodes) :
    ((s.graphAddNode n).onNodeAdded self n).core = Change.run s.core (.add self n) := by
  unfold OverlayManager.graphAddNode
  rw [if_neg hn]
  rfl

theorem does_add (hself : self ∈ live) (hn : n ∉ s.core.graph.nodes) (hok : ok s.core (.add self n)) :
    Does it ok s live ((s.graphAddNode n).onNodeAdded self n) live := by
  refine ⟨_, core_add hn ▸ Trace.single (.add self n) ⟨hself, hn⟩ hok, ?_⟩
  unfold OverlayManager.graphAddNode
  rw [if_neg hn]
  cases hlog : s.undoLog with
  | none => simp [OverlayManager.onNodeAdded, OverlayManager.setOwner, OverlayManager.mutate, hlog]
  | some log =>
    simp only [OverlayManager.onNodeAdded, OverlayManager.setOwner, OverlayManager.mutate, undoLog_bump,
      undoLog_touch, hlog, Option.map_some]
    rfl

/-- A node is taken out of the graph, and leaves its owner. -/
theorem does_remove (hs : s.remove it n = some s')
    (hok : ∀ o, ok s.core (.remove o n)) :
    Does it ok s live s' live ∧ ∃ o, s.core.owner n = some o ∧ s'.core = Change.run s.core (.remove o n) := by
  unfold OverlayManager.remove OverlayManager.graphRemoveNode at hs
  split at hs
  · rename_i hn
    rw [Option.bind_some] at hs
    generalize hs₁ : OverlayManager.bump _ = s₁ at hs
    have hcore : s₁.core = { s.core with graph := s.core.graph.removeNode n } := by
      rw [← hs₁]
      simp only [core_bump, core_touchAll, core_touch]
      rfl
    have hundo : s₁.undoLog = s.undoLog.map (.restoreNode n (s.core.graph.edgesAt it.nodes n) :: ·) := by
      rw [← hs₁]
      simp only [undoLog_bump, undoLog_touchAll, undoLog_touch]
      rfl
    have howner : s₁.core.owner n = s.core.owner n := by rw [hcore]
    unfold OverlayManager.onNodeRemoved at hs
    cases ho : s.core.owner n with
    | none =>
      rw [howner, ho] at hs
      cases hs
    | some o =>
      rw [howner, ho] at hs
      have hs := (Option.some.inj hs).symm
      have hcore' : s'.core = Change.run s.core (.remove o n) := by
        rw [hs]
        change ((s₁.core.setOwner n none).eraseNode o n) = _
        rw [hcore]
        rfl
      refine ⟨⟨_, hcore' ▸ Trace.single (.remove o n) ⟨hn, ho⟩ (hok o), ?_⟩, o, rfl, hcore'⟩
      have hlog : s'.undoLog =
          (s₁.undoLog.map (.setOwner n (s₁.core.owner n) :: ·)).map (.nodeRemoved o n :: ·) := by
        rw [hs]
        rfl
      rw [hlog, hundo, howner, Option.map_map, Option.map_map]
      rfl
  · cases hs

theorem core_addPairs (added : Pairs T) : (s.addPairs self added).core = s.core.setPairs self ∅ added := by
  unfold OverlayManager.addPairs
  split
  · rename_i hempty
    subst hempty
    unfold Core.setPairs Core.modify
    simp
  · rfl

theorem does_addPairs {added : Pairs T} (hok : ok s.core (.setPairs self ∅ added)) :
    Does it ok s live (s.addPairs self added) live := by
  unfold OverlayManager.addPairs
  split
  · exact .refl
  · exact ⟨_, Trace.single (.setPairs self ∅ added) (Finset.empty_subset _) hok, rfl⟩

theorem does_dropPairs {removed : Pairs T} (hremoved : removed ⊆ (s.core.region self).pairs)
    (hok : ok s.core (.setPairs self removed ∅)) : Does it ok s live (s.dropPairs self removed) live := by
  unfold OverlayManager.dropPairs
  split
  · exact .refl
  · exact ⟨_, Trace.single (.setPairs self removed ∅) hremoved hok, rfl⟩

theorem setOwners_spec (ns : List T) (hnodup : ns.Nodup) (o : Option Nat) :
    (s.setOwners ns o).core = { s.core with owner := fun n => if n ∈ ns then o else s.core.owner n } ∧
      (s.setOwners ns o).undoLog = s.undoLog.map ((ns.map fun n => Inverse.setOwner n (s.core.owner n)).reverse ++ ·) := by
  induction ns generalizing s with
  | nil =>
    refine ⟨by simp [OverlayManager.setOwners], ?_⟩
    simp [OverlayManager.setOwners]
  | cons n ns ih =>
    obtain ⟨hn, hnodup⟩ := List.nodup_cons.mp hnodup
    obtain ⟨hcore, hlog⟩ := @ih (s.setOwner n o) hnodup
    have hcons : s.setOwners (n :: ns) o = (s.setOwner n o).setOwners ns o := rfl
    have howner : ∀ m, (s.setOwner n o).core.owner m = if m = n then o else s.core.owner m := fun m =>
      Function.update_apply s.core.owner n o m
    rw [hcons]
    constructor
    · rw [hcore]
      have hsame : (s.setOwner n o).core = { s.core with owner := (s.setOwner n o).core.owner } := rfl
      rw [hsame]
      dsimp only
      congr 1
      funext m
      rw [howner]
      by_cases hm : m = n
      · simp [hm]
      · simp [hm]
    · have hinverses : (ns.map fun m => Inverse.setOwner m ((s.setOwner n o).core.owner m) : List (Inverse T V)) =
          ns.map fun m => Inverse.setOwner m (s.core.owner m) := by
        refine List.map_congr_left fun m hm => ?_
        have hne : m ≠ n := fun heq => hn (heq ▸ hm)
        rw [howner, if_neg hne]
      have hfirst : (s.setOwner n o).undoLog = s.undoLog.map (.setOwner n (s.core.owner n) :: ·) := rfl
      rw [hlog, hinverses, hfirst, Option.map_map, List.map_cons, List.reverse_cons]
      congr 1
      funext l
      simp

theorem setOwners_nodesOf (ms : Finset (Tx T)) (o : Nat) :
    (s.setOwners (it.nodes.list (nodesOf ms)) (some o)).core = s.core.giveNodes ms o ∧
      (s.setOwners (it.nodes.list (nodesOf ms)) (some o)).undoLog =
        s.undoLog.map (Change.takeBack it s.core ms ++ ·) := by
  obtain ⟨hcore, hlog⟩ := @setOwners_spec T V _ s (it.nodes.list (nodesOf ms)) (it.nodes.nodup _) (some o)
  refine ⟨?_, hlog⟩
  rw [hcore]
  unfold Core.giveNodes
  simp only [it.nodes.mem_list, mem_nodesOf]

/-! ## Edges -/

/-- Under `A` the ends of added edges are nodes or in `seen`, and under `B` the inverses find pairs and
heads as they were. -/
def Ok (A B : Prop) (seen : Finset T) (c : Core T V) (ch : Change T V) : Prop :=
  (A → ch.Anchored c seen) ∧ (B → ch.Fresh c)

variable {A B : Prop} {succ src dst x : Tx T}

theorem core_addEdges (edges : List (T × T × EdgeData V)) :
    (edges.foldl (fun s e => s.graphAddEdge e.1 e.2.1 e.2.2) s).core =
      { s.core with graph := s.core.graph.addEdges edges } := by
  induction edges generalizing s with
  | nil => rfl
  | cons e edges ih => exact ih

/-- Edges are added one after the other. -/
theorem does_addEdges {edges : List (T × T × EdgeData V)}
    (hends : A → ∀ e ∈ edges, e.1 ∈ seen ∪ s.core.graph.nodes ∧ e.2.1 ∈ seen ∪ s.core.graph.nodes) :
    Does it (Ok A B seen) s live (edges.foldl (fun s e => s.graphAddEdge e.1 e.2.1 e.2.2) s) live := by
  induction edges generalizing s with
  | nil => exact .refl
  | cons e edges ih =>
    have hfirst : Does it (Ok A B seen) s live (s.graphAddEdge e.1 e.2.1 e.2.2) live :=
      does_graphAddEdge ⟨fun hA => hends hA e List.mem_cons_self, fun _ => trivial⟩
    refine hfirst.trans (ih fun hA e' he' => ?_)
    obtain ⟨hu, hv⟩ := hends hA e' (List.mem_cons_of_mem _ he')
    have hgrow : seen ∪ s.core.graph.nodes ⊆ seen ∪ (s.graphAddEdge e.1 e.2.1 e.2.2).core.graph.nodes :=
      Finset.union_subset_union_right ((Finset.subset_insert _ _).trans (Finset.subset_insert _ _))
    exact ⟨hgrow hu, hgrow hv⟩

/-- Different edges are removed one after the other. -/
theorem does_removeEdges {edges : List (T × T)} (hnodup : edges.Nodup) (hedges : ∀ e ∈ edges, s.core.graph.hasEdge e.1 e.2) :
    Does it (Ok A B seen) s live (edges.foldl (fun s e => s.graphRemoveEdge e.1 e.2) s) live ∧
      (edges.foldl (fun s e => s.graphRemoveEdge e.1 e.2) s).core.region = s.core.region := by
  induction edges generalizing s with
  | nil => exact ⟨.refl, rfl⟩
  | cons e edges ih =>
    obtain ⟨hnot, hnodup⟩ := List.nodup_cons.mp hnodup
    have hfirst : Does it (Ok A B seen) s live (s.graphRemoveEdge e.1 e.2) live :=
      does_graphRemoveEdge (hedges e List.mem_cons_self) ⟨fun _ => trivial, fun _ => trivial⟩
    obtain ⟨hrest, hregion⟩ := @ih (s.graphRemoveEdge e.1 e.2) hnodup fun e' he' => by
      have hne : ¬ (e'.1 = e.1 ∧ e'.2 = e.2) := fun heq => hnot (Prod.ext heq.1 heq.2 ▸ he')
      have hedge := hedges e' (List.mem_cons_of_mem _ he')
      unfold DiGraph.hasEdge at hedge ⊢
      change ((if e'.1 = e.1 ∧ e'.2 = e.2 then none else s.core.graph.edge e'.1 e'.2).isSome) = true
      rwa [if_neg hne]
    exact ⟨hfirst.trans hrest, hregion⟩

theorem mem_underlyingEdgePairs {e : T × T} : e ∈ s.core.underlyingEdgePairs it src dst ↔
    e.1 ∈ s.core.underlying src ∧ e.2 ∈ s.core.underlying dst ∧ s.core.graph.hasEdge e.1 e.2 := by
  obtain ⟨u, v⟩ := e
  unfold Core.underlyingEdgePairs
  simp only [List.mem_flatMap, List.mem_map, List.mem_filter, it.nodes.mem_list, mem_succ, decide_eq_true_eq,
    Prod.mk.injEq]
  constructor
  · rintro ⟨u', hu, v', ⟨hedge, hv⟩, rfl, rfl⟩
    exact ⟨hu, hv, hedge⟩
  · rintro ⟨hu, hv, hedge⟩
    exact ⟨u, hu, v, ⟨hedge, hv⟩, rfl, rfl⟩

theorem underlyingEdgePairs_nodup : (s.core.underlyingEdgePairs it src dst).Nodup := by
  unfold Core.underlyingEdgePairs
  refine List.nodup_flatMap.mpr ⟨fun u _ => ?_, ?_⟩
  · refine ((it.nodes.nodup _).filter _).map fun v v' heq => ?_
    exact (Prod.mk.inj heq).2
  refine (it.nodes.nodup _).imp fun {u u'} hne => ?_
  rw [Function.onFun, List.disjoint_left]
  intro e he he'
  obtain ⟨_, _, rfl⟩ := List.mem_map.mp he
  obtain ⟨_, _, heq⟩ := List.mem_map.mp he'
  exact hne (Prod.mk.inj heq).1.symm

theorem does_hideEdgeToSuccessor : Does it (Ok A B seen) s live (s.hideEdgeToSuccessor it self succ) live := by
  unfold OverlayManager.hideEdgeToSuccessor
  dsimp only
  split
  · exact .refl
  refine (((does_addPairs ⟨fun _ => trivial, fun _ => ?_⟩).touch _).touchAll _).bump
  refine Finset.disjoint_left.mpr fun e he he' => ?_
  obtain ⟨⟨u, v⟩, hmem, rfl⟩ := Finset.mem_image.mp he'
  obtain ⟨-, -, hhidden⟩ := Finset.mem_filter.mp hmem
  rw [Finset.sdiff_empty] at he
  exact hhidden (by simpa [Core.isHidden] using he)

theorem disjoint_sdiff_pairs (pairs added : Pairs T) : Disjoint (pairs \ ∅) (added \ pairs) := by
  rw [Finset.sdiff_empty]
  exact Finset.disjoint_sdiff

theorem does_detachEdge : Does it (Ok A B seen) s live (s.detachEdge it self src dst) live := by
  unfold OverlayManager.detachEdge
  dsimp only
  obtain ⟨hremoved, hregion⟩ := @does_removeEdges T V _ it live seen s A B _ (@underlyingEdgePairs_nodup T V _ it s src dst)
    fun e he => (mem_underlyingEdgePairs.mp he).2.2
  split
  · exact hremoved.bump
  · refine (((hremoved.trans (does_dropPairs (Finset.filter_subset _ _) ⟨fun _ => trivial, fun _ => ?_⟩)).touch _).touch
      _).bump
    exact Finset.disjoint_empty_right _

theorem does_markEdge (attrs : List String) : Does it (Ok A B seen) s live (s.markEdge self src dst attrs) live := by
  unfold OverlayManager.markEdge
  induction attrs generalizing s with
  | nil => exact .refl
  | cons key attrs ih =>
    rw [List.foldl_cons]
    refine Does.trans ?_ ih
    split
    · exact .refl
    rename_i hnew
    refine (((does_addPairs ⟨fun _ => trivial, fun _ => ?_⟩).touch _).touch _).bump
    rw [Change.Fresh, Finset.sdiff_empty, Finset.disjoint_singleton_right]
    exact hnew

theorem does_dropEdgeMarksFrom {key : String} : Does it (Ok A B seen) s live (s.dropEdgeMarksFrom it self x key) live := by
  unfold OverlayManager.dropEdgeMarksFrom
  dsimp only
  split
  · exact .refl
  · refine (((does_dropPairs (Finset.filter_subset _ _) ⟨fun _ => trivial, fun _ => ?_⟩).touch _).touchAll _).bump
    exact Finset.disjoint_empty_right _

theorem does_removeEdgeWithSuccessorsOnly :
    Does it (Ok A B seen) s live (s.removeEdgeWithSuccessorsOnly self src dst) live := by
  unfold OverlayManager.removeEdgeWithSuccessorsOnly
  split
  · exact .refl
  rename_i hnew
  refine (((does_addPairs ⟨fun _ => trivial, fun _ => ?_⟩).touch _).touch _).bump
  rw [Change.Fresh, Finset.sdiff_empty, Finset.disjoint_singleton_right]
  exact hnew

theorem does_hideEdge : Does it (Ok A B seen) s live (s.hideEdge it self src dst) live := by
  unfold OverlayManager.hideEdge
  dsimp only
  split
  · exact .refl
  · exact (((does_addPairs ⟨fun _ => trivial, fun _ => disjoint_sdiff_pairs _ _⟩).touch _).touch _).bump

theorem does_absorbSuccessorInto {newNode : Tx T} (hs : s.absorbSuccessorInto it self succ newNode = some s') :
    Does it (Ok A B seen) s live s' live := by
  unfold OverlayManager.absorbSuccessorInto at hs
  dsimp only at hs
  split at hs
  · cases hs
  rw [← Option.some.inj hs]
  refine Does.trans ?_ does_hideEdgeToSuccessor
  split
  · exact .refl
  refine ((does_addPairs ⟨fun _ => trivial, fun _ => ?_⟩).touch _).touchAll _
  refine Finset.disjoint_left.mpr fun e he he' => ?_
  rw [Finset.sdiff_empty] at he
  obtain ⟨y, hy, rfl⟩ := List.mem_map.mp (List.mem_toFinset.mp he')
  have hnew := (List.mem_filter.mp hy).2
  simp only [decide_eq_true_eq] at hnew
  exact hnew.2 he

/-! ## Nodes -/

theorem does_addNode (hself : self ∈ live) (hs : s.addNode self n = some s') :
    Does it (Ok A B seen) s live s' live ∧ s'.core = Change.run s.core (.add self n) := by
  unfold OverlayManager.addNode at hs
  split at hs
  · cases hs
  · rename_i hn
    rw [← Option.some.inj hs]
    exact ⟨(does_add hself hn ⟨fun _ => trivial, fun _ => trivial⟩).bump, core_add hn⟩

/-- A node is added if it is new. -/
theorem does_ensure (hself : self ∈ live)
    (hs : s.ensureNode self n = some s') :
    Does it (Ok A B seen) s live s' live ∧ n ∈ s'.core.graph.nodes ∧ s.core.graph.nodes ⊆ s'.core.graph.nodes := by
  unfold OverlayManager.ensureNode at hs
  split at hs
  · rename_i hn
    rw [← Option.some.inj hs]
    exact ⟨.refl, hn, Finset.Subset.refl _⟩
  · obtain ⟨hdoes, hcore⟩ := @does_addNode T V _ it live seen s s' self n A B hself hs
    rw [hcore]
    exact ⟨hdoes, Finset.mem_insert_self _ _, Finset.subset_insert _ _⟩

theorem does_addEdge (hself : self ∈ live) (hs : s.addEdge self u dst d = some s') :
    Does it (Ok A B seen) s live s' live := by
  unfold OverlayManager.addEdge at hs
  obtain ⟨v, -, hs⟩ := Option.bind_eq_some_iff.mp hs
  obtain ⟨s₁, hs₁, hs⟩ := Option.bind_eq_some_iff.mp hs
  obtain ⟨s₂, hs₂, hs⟩ := Option.bind_eq_some_iff.mp hs
  obtain ⟨hdoes₁, hu, -⟩ := @does_ensure T V _ it live seen s s₁ self u A B hself hs₁
  obtain ⟨hdoes₂, hv, hsub⟩ := @does_ensure T V _ it live seen s₁ s₂ self v A B hself hs₂
  rw [← Option.some.inj hs]
  have hedge : Does it (Ok A B seen) s₂ live (s₂.graphAddEdge u v d) live :=
    does_graphAddEdge ⟨fun _ => ⟨Finset.mem_union_right _ (hsub hu), Finset.mem_union_right _ hv⟩, fun _ => trivial⟩
  refine ((((hdoes₁.trans hdoes₂).trans hedge)).trans (does_dropPairs (Finset.filter_subset _ _) ?_)).bump
  exact ⟨fun _ => trivial, fun _ => Finset.disjoint_empty_right _⟩

/-- The nodes whose edges are given to the node that another one is absorbed into. -/
def rewired (c : Core T V) (self : Nat) (n absorbed : T) (absorbOutEdges : Bool) : Finset T :=
  ((c.graph.pred n).filter fun u => u ∉ (c.region self).under ∧ u ≠ absorbed ∧ ¬ c.isHidden self u n) ∪
    (c.graph.succ n).filter fun v => absorbOutEdges ∧ v ≠ absorbed ∧ ¬ c.isHidden self n v

theorem does_removeNode {absorbedInto : Option T} {absorbOutEdges : Bool}
    (hs : s.removeNode it self x absorbedInto absorbOutEdges = some s')
    (hrewired : A → ∀ n absorbed, x = .node n → n ∈ (s.core.region self).under → absorbedInto = some absorbed →
      ∀ m ∈ rewired s.core self n absorbed absorbOutEdges,
        m ∈ seen ∪ s.core.graph.nodes.erase n ∧ absorbed ∈ seen ∪ s.core.graph.nodes.erase n) :
    Does it (Ok A B seen) s live s' live := by
  cases x with
  | region i =>
    rw [← Option.some.inj hs]
    exact does_hideEdgeToSuccessor
  | node n =>
    unfold OverlayManager.removeNode at hs
    dsimp only at hs
    split at hs
    · rw [← Option.some.inj hs]
      exact does_hideEdgeToSuccessor
    rename_i hn
    have hn : n ∈ (s.core.region self).under := not_not.mp hn
    obtain ⟨s₂, hs₂, hs⟩ := Option.bind_eq_some_iff.mp hs
    obtain ⟨hremoved, o, -, hcore⟩ := @does_remove T V _ it (Ok A B seen) live s s₂ n hs₂
      fun o => ⟨fun _ => trivial, fun _ => trivial⟩
    have hnodes : s₂.core.graph.nodes = s.core.graph.nodes.erase n := by rw [hcore]; rfl
    cases absorbedInto with
    | none =>
      rw [← Option.some.inj hs]
      exact hremoved.bump
    | some absorbed =>
      rw [← Option.some.inj hs]
      unfold OverlayManager.rewire OverlayManager.rewireOut
      -- both loops add edges between nodes that are left
      have hins : ∀ (s₃ : OverlayManager T V) (l : List (T × EdgeData V)),
          l.foldl (fun s e => s.graphAddEdge e.1 absorbed e.2) s₃ =
            (l.map fun e => (e.1, absorbed, e.2)).foldl (fun s e => s.graphAddEdge e.1 e.2.1 e.2.2) s₃ :=
        fun s₃ l => by rw [List.foldl_map]
      have houts : ∀ (s₃ : OverlayManager T V) (l : List (T × EdgeData V)),
          l.foldl (fun s e => s.graphAddEdge absorbed e.1 e.2) s₃ =
            (l.map fun e => (absorbed, e.1, e.2)).foldl (fun s e => s.graphAddEdge e.1 e.2.1 e.2.2) s₃ :=
        fun s₃ l => by rw [List.foldl_map]
      have hleft : A → ∀ m ∈ rewired s.core self n absorbed absorbOutEdges,
          m ∈ seen ∪ s₂.core.graph.nodes ∧ absorbed ∈ seen ∪ s₂.core.graph.nodes := by
        intro hA
        rw [hnodes]
        exact hrewired hA n absorbed rfl hn rfl
      rw [hins, houts]
      refine (Does.trans ((hremoved.trans (does_addEdges fun hA e he => ?_)).trans (does_addEdges fun hA e he => ?_))
        (does_addPairs ⟨fun _ => trivial, fun _ => disjoint_sdiff_pairs _ _⟩)).bump
      · simp only [List.mem_map, List.mem_filter, it.nodes.mem_list, decide_eq_true_eq] at he
        obtain ⟨_, ⟨m, ⟨hm, hm'⟩, rfl⟩, rfl⟩ := he
        exact hleft hA m (Finset.mem_union_left _ (Finset.mem_filter.mpr ⟨hm, hm'⟩))
      simp only [List.mem_map, List.mem_filter, it.nodes.mem_list, decide_eq_true_eq] at he
      obtain ⟨_, ⟨m, ⟨hm, hm'⟩, rfl⟩, rfl⟩ := he
      obtain ⟨hm_mem, habsorbed⟩ := hleft hA m (Finset.mem_union_right _ (Finset.mem_filter.mpr ⟨hm, hm'⟩))
      rw [core_addEdges]
      have hgrow : ∀ es, seen ∪ s₂.core.graph.nodes ⊆ seen ∪ (s₂.core.graph.addEdges es).nodes :=
        fun es => Finset.union_subset_union_right (nodes_subset_addEdges _ es)
      exact ⟨hgrow _ habsorbed, hgrow _ hm_mem⟩

/-! ## Replacing nodes -/

variable {old : Finset T} {new : T} {kinds kinds' : Kind → Bool} {j : Nat}

open OverlayManager (isOneOf renamed renamedPair)

/-- No edge that is kept is one that another edge is renamed to. -/
def Clean (c : Core T V) (old : Finset T) (new : T) (i : Nat) (kinds : Kind → Bool) : Prop :=
  ∀ e ∈ (c.region i).pairs, kinds e.1 → (isOneOf old e.2.1 ∨ isOneOf old e.2.2) →
    renamedPair old new e ∈ (c.region i).pairs →
      isOneOf old (renamedPair old new e).2.1 ∨ isOneOf old (renamedPair old new e).2.2

theorem Clean.mono (h : Clean c old new i kinds) (hle : ∀ k, kinds' k → kinds k) : Clean c old new i kinds' :=
  fun e he hk => h e he (hle e.1 hk)

theorem isOneOf_renamed {x : Tx T} : isOneOf old (renamed old new x) ↔ isOneOf old x ∧ new ∈ old := by
  unfold renamed
  split
  · rename_i hx
    rw [hx]
    simp [isOneOf]
  · rename_i hx
    simp [hx]

theorem does_remapPairs (hclean : B → Clean s.core old new i kinds) :
    Does it (Ok A B seen) s live (s.remapPairs old new i kinds) live := by
  unfold OverlayManager.remapPairs
  dsimp only
  split
  · exact .refl
  refine ⟨_, Trace.single (.setPairs i _ _) (Finset.filter_subset _ _) ⟨fun _ => trivial, fun hB => ?_⟩, rfl⟩
  refine Finset.disjoint_left.mpr fun e' he he' => ?_
  obtain ⟨hin, hkept⟩ := Finset.mem_sdiff.mp he
  obtain ⟨e, hstale, rfl⟩ := Finset.mem_image.mp he'
  obtain ⟨hmem, hk, hold⟩ := Finset.mem_filter.mp hstale
  exact hkept (Finset.mem_filter.mpr ⟨hin, hk, hclean hB e hmem hk hold hin⟩)

theorem region_remapPairs (s : OverlayManager T V) (j : Nat) :
    (s.remapPairs old new j kinds).core = s.core.setPairs j
      ((s.core.region j).pairs.filter fun e => kinds e.1 ∧ (isOneOf old e.2.1 ∨ isOneOf old e.2.2))
      (((s.core.region j).pairs.filter fun e => kinds e.1 ∧ (isOneOf old e.2.1 ∨ isOneOf old e.2.2)).image
        (renamedPair old new)) := by
  unfold OverlayManager.remapPairs
  dsimp only
  split
  · rename_i hempty
    rw [hempty]
    unfold Core.setPairs Core.modify
    simp
  · rfl

/-- Renaming other edges first changes nothing about that. -/
theorem Clean.remapPairs (h : Clean s.core old new i kinds) :
    Clean (s.remapPairs old new j kinds').core old new i kinds := by
  intro e he hk hold hin
  by_cases hnew : new ∈ old
  · -- what is renamed to an old node is renamed again
    rw [renamedPair, isOneOf_renamed, isOneOf_renamed]
    exact hold.imp (fun h => ⟨h, hnew⟩) fun h => ⟨h, hnew⟩
  have hfixed : ∀ e' : Kind × Tx T × Tx T, ¬ (isOneOf old (renamedPair old new e').2.1 ∨
      isOneOf old (renamedPair old new e').2.2) := by
    intro e' hcase
    rw [renamedPair, isOneOf_renamed, isOneOf_renamed] at hcase
    rcases hcase with hcase | hcase
    · exact hnew hcase.2
    · exact hnew hcase.2
  rw [region_remapPairs, region_setPairs] at he hin
  dsimp only at he hin
  by_cases hij : i = j
  · subst hij
    rw [if_pos rfl, Finset.mem_union, Finset.mem_sdiff] at he hin
    have hkind : (renamedPair old new e).1 = e.1 := rfl
    -- the edge itself was not renamed, so that its kind is not among the renamed ones
    have he : e ∈ (s.core.region i).pairs ∧ ¬ kinds' e.1 := by
      rcases he with ⟨hmem, hnot⟩ | hmem
      · exact ⟨hmem, fun hk' => hnot (Finset.mem_filter.mpr ⟨hmem, hk', hold⟩)⟩
      · obtain ⟨e', -, rfl⟩ := Finset.mem_image.mp hmem
        exact absurd hold (hfixed e')
    rcases hin with ⟨hmem, -⟩ | hmem
    · exact h e he.1 hk hold hmem
    · obtain ⟨e', hstale, heq⟩ := Finset.mem_image.mp hmem
      have hkind' : e'.1 = e.1 := (congrArg Prod.fst heq).trans hkind
      exact absurd (hkind' ▸ (Finset.mem_filter.mp hstale).2.1) he.2
  · rw [if_neg hij] at he hin
    exact h e he hk hold hin

/-- The kinds of edges that are renamed at a region around `self`. -/
def renamedKinds (self i : Nat) (k : Kind) : Bool := !k.isMark || i = self

theorem does_remapBookkeeping (hclean : B → ∀ i ∈ self :: s.core.ancestors self,
    Clean s.core old new i (renamedKinds self i)) : Does it (Ok A B seen) s live (s.remapBookkeeping self old new) live := by
  unfold OverlayManager.remapBookkeeping
  generalize s.core.ancestors self = ancestors at hclean
  induction ancestors generalizing s with
  | nil => exact .refl
  | cons i ancestors ih =>
    rw [List.foldl_cons]
    have hi : B → Clean s.core old new i fun k => !k.isMark := fun hB =>
      (hclean hB i (by simp)).mono fun k hk => by simp_all [renamedKinds]
    have hself : B → Clean s.core old new self Kind.isMark := fun hB =>
      (hclean hB self (by simp)).mono fun k hk => by simp [renamedKinds]
    refine Does.trans ?_ (ih fun hB j hj => ?_)
    · refine (((does_remapPairs fun hB => (hi hB).mono ?_).trans (does_remapPairs fun hB => ((hi hB).mono ?_).remapPairs)).trans
        (does_remapPairs fun hB => ((hi hB).mono ?_).remapPairs.remapPairs)).trans
        (does_remapPairs fun hB => (hself hB).remapPairs.remapPairs.remapPairs)
      all_goals
        intro k hk
        simp only [decide_eq_true_eq] at hk
        rw [hk]
        rfl
    have hj : j ∈ self :: i :: ancestors := by
      rcases List.mem_cons.mp hj with rfl | hj
      · exact List.mem_cons_self
      · exact List.mem_cons_of_mem _ (List.mem_cons_of_mem _ hj)
    exact (hclean hB j hj).remapPairs.remapPairs.remapPairs.remapPairs

/-- The pairs, the heads and the chains of parents are the same. -/
structure SameMarks (c c' : Core T V) : Prop where
  pairs : ∀ i, (c'.region i).pairs = (c.region i).pairs
  head : ∀ i, (c'.region i).head = (c.region i).head
  ancestors : ∀ i, c'.ancestors i = c.ancestors i

omit [DecidableEq T] in
theorem SameMarks.trans (h : SameMarks c c') (h' : SameMarks c' c'') : SameMarks c c'' where
  pairs i := (h'.pairs i).trans (h.pairs i)
  head i := (h'.head i).trans (h.head i)
  ancestors i := (h'.ancestors i).trans (h.ancestors i)

theorem Clean.congr (h : Clean c old new i kinds) (hsame : SameMarks c c') : Clean c' old new i kinds := by
  unfold Clean
  rw [hsame.pairs]
  exact h

theorem does_removeAll {ns : List T} (hs : s.removeAll it ns = some s') : Does it (Ok A B seen) s live s' live ∧
    SameMarks s.core s'.core ∧ s'.core.graph.nodes = s.core.graph.nodes \ ns.toFinset := by
  induction ns generalizing s with
  | nil =>
    rw [← Option.some.inj hs]
    exact ⟨.refl, ⟨fun _ => rfl, fun _ => rfl, fun _ => rfl⟩, by simp⟩
  | cons n ns ih =>
    obtain ⟨s₁, hs₁, hs⟩ := Option.bind_eq_some_iff.mp hs
    obtain ⟨hremoved, o, -, hcore⟩ := @does_remove T V _ it (Ok A B seen) live s s₁ n hs₁
      fun o => ⟨fun _ => trivial, fun _ => trivial⟩
    obtain ⟨hdoes, hsame, hnodes⟩ := ih hs
    have hfirst : SameMarks s.core s₁.core := by
      rw [hcore]
      exact ⟨fun _ => rfl, fun _ => rfl, fun _ => rfl⟩
    refine ⟨hremoved.trans hdoes, hfirst.trans hsame, ?_⟩
    rw [hnodes, hcore, List.toFinset_cons, Finset.sdiff_insert]
    ext m
    simp only [Change.run, Core.abandon, Core.setOwner, Core.eraseNode, DiGraph.removeNode, Finset.mem_sdiff,
      Finset.mem_erase]
    tauto

theorem mem_rewiredEdges {g : DiGraph T V} {under : Finset T} {old₀ : T} {old₁ : Option T} {selfLoop : Bool}
    {e : T × T × EdgeData V} (he : e ∈ OverlayManager.rewiredEdges it g under old₀ old₁ new selfLoop) :
    (e.1 = new ∨ e.1 ∈ g.nodes \ insert old₀ old₁.toFinset) ∧
      (e.2.1 = new ∨ e.2.1 ∈ g.nodes \ insert old₀ old₁.toFinset) := by
  have hsource : ∀ {a b : T}, a ∈ g.pred b → a ∉ insert old₀ old₁.toFinset → a ∈ g.nodes \ insert old₀ old₁.toFinset :=
    fun ha hnot => Finset.mem_sdiff.mpr ⟨(g.closed (mem_pred.mp ha)).1, hnot⟩
  have htarget : ∀ {a b : T}, b ∈ g.succ a → b ∉ insert old₀ old₁.toFinset → b ∈ g.nodes \ insert old₀ old₁.toFinset :=
    fun hb hnot => Finset.mem_sdiff.mpr ⟨(g.closed (mem_succ.mp hb)).2, hnot⟩
  unfold OverlayManager.rewiredEdges at he
  dsimp only at he
  rcases List.mem_append.mp he with he | he
  · rcases List.mem_append.mp he with he | he
    · obtain ⟨u, hu, he⟩ := List.mem_filterMap.mp he
      rw [it.nodes.mem_list] at hu
      split at he
      · rename_i hnot
        rw [← Option.some.inj he]
        exact ⟨.inr (hsource hu hnot), .inl rfl⟩
      split at he
      · rw [← Option.some.inj he]
        exact ⟨.inl rfl, .inl rfl⟩
      · cases he
    · obtain ⟨o, -, he⟩ := List.mem_flatMap.mp he
      obtain ⟨u, hu, he⟩ := List.mem_filterMap.mp he
      rw [it.nodes.mem_list] at hu
      split at he
      · rename_i hnot
        rw [← Option.some.inj he]
        exact ⟨.inr (hsource hu hnot.1), .inl rfl⟩
      · cases he
  · obtain ⟨o, -, he⟩ := List.mem_flatMap.mp he
    obtain ⟨v, hv, he⟩ := List.mem_filterMap.mp he
    rw [it.nodes.mem_list] at hv
    split at he
    · rename_i hnot
      rw [← Option.some.inj he]
      exact ⟨.inl rfl, .inr (htarget hv hnot)⟩
    split at he
    · rw [← Option.some.inj he]
      exact ⟨.inl rfl, .inl rfl⟩
    · cases he

theorem does_replaceHead : Does it (Ok A B seen) s live (s.replaceHead self old new) live := by
  unfold OverlayManager.replaceHead
  dsimp only
  split
  · exact ⟨_, Trace.single (.setHead self (some (.node new))) trivial ⟨fun _ => trivial, fun _ => trivial⟩, rfl⟩
  · exact .refl

theorem does_replaceNodes {old₀ : T} {old₁ : Option T} {selfLoop : Bool} (hself : self ∈ live)
    (hs : s.replaceNodes it self old₀ new old₁ selfLoop = some s')
    (hclean : B → ∀ i ∈ self :: s.core.ancestors self,
      Clean s.core (insert old₀ old₁.toFinset) new i (renamedKinds self i)) : Does it (Ok A B seen) s live s' live := by
  unfold OverlayManager.replaceNodes at hs
  dsimp only at hs
  split at hs
  · obtain ⟨s₁, hs₁, hs⟩ := Option.bind_eq_some_iff.mp hs
    obtain ⟨hremoved, hsame₁, hnodes₁⟩ := @does_removeAll T V _ it live seen s s₁ A B _ hs₁
    rw [← Option.some.inj hs]
    generalize hs₂ : (if new ∈ s₁.core.graph.nodes then s₁ else (s₁.graphAddNode new).onNodeAdded self new) = s₂
    have hadded : Does it (Ok A B seen) s₁ live s₂ live ∧ SameMarks s₁.core s₂.core ∧
        s₂.core.graph.nodes = insert new s₁.core.graph.nodes := by
      rw [← hs₂]
      split
      · rename_i hnew
        exact ⟨.refl, ⟨fun _ => rfl, fun _ => rfl, fun _ => rfl⟩, (Finset.insert_eq_of_mem hnew).symm⟩
      rename_i hnew
      refine ⟨does_add hself hnew ⟨fun _ => trivial, fun _ => trivial⟩, ?_, ?_⟩
      · rw [core_add hnew]
        exact ⟨fun _ => rfl, fun _ => rfl, fun _ => rfl⟩
      · rw [core_add hnew]
        rfl
    obtain ⟨hadded, hsame₂, hnodes₂⟩ := hadded
    have hold : (old₀ :: old₁.toList).toFinset = insert old₀ old₁.toFinset := by
      ext m
      simp
    have hedges : Does it (Ok A B seen) s₂ live ((OverlayManager.rewiredEdges it s.core.graph (s₂.core.region self).under old₀ old₁ new
        selfLoop).foldl (fun s e => s.graphAddEdge e.1 e.2.1 e.2.2) s₂) live := by
      refine does_addEdges fun _ e he => ?_
      have hin : ∀ m, m = new ∨ m ∈ s.core.graph.nodes \ insert old₀ old₁.toFinset → m ∈ s₂.core.graph.nodes := by
        rintro m (rfl | hm)
        · rw [hnodes₂]
          exact Finset.mem_insert_self _ _
        · rw [hnodes₂, hnodes₁, hold]
          exact Finset.mem_insert_of_mem hm
      exact (mem_rewiredEdges he).imp (fun h => Finset.mem_union_right _ (hin _ h)) fun h => Finset.mem_union_right _ (hin _ h)
    have hsame₃ : SameMarks s₂.core ((OverlayManager.rewiredEdges it s.core.graph (s₂.core.region self).under old₀ old₁ new
        selfLoop).foldl (fun s e => s.graphAddEdge e.1 e.2.1 e.2.2) s₂).core := by
      rw [core_addEdges]
      exact ⟨fun _ => rfl, fun _ => rfl, fun _ => rfl⟩
    have hsame := (hsame₁.trans hsame₂).trans hsame₃
    refine (Does.trans (((hremoved.trans hadded).trans hedges).trans (does_remapBookkeeping fun hB i hi => ?_))
      does_replaceHead).bump
    rw [hsame.ancestors] at hi
    exact (hclean hB i hi).congr hsame
  · cases hs

/-! ## The life of a region -/

theorem does_createSubregion {head : Tx T} {ms : Finset (Tx T)} {cyclic cyclicAncestor : Bool} {sub : Nat}
    (hself : self ∈ live) (hs : s.createSubregion it self head ms cyclic cyclicAncestor = some (s', sub)) :
    Does it (Ok A B seen) s live s' (insert s.core.next live) := by
  unfold OverlayManager.createSubregion at hs
  dsimp only at hs
  split at hs
  · rename_i hasserts
    obtain ⟨hs', -⟩ := Prod.mk.inj (Option.some.inj hs)
    obtain ⟨hcore, hlog⟩ := @setOwners_nodesOf T V _ it s ms s.core.next
    generalize s.setOwners (it.nodes.list (nodesOf ms)) (some s.core.next) = s₁ at hs' hcore hlog
    rw [← hs']
    refine Does.bump (Does.bumpEpoch ⟨Change.inverses it s.core (.create self head ms cyclic cyclicAncestor), ?_, ?_⟩)
    · change Trace it (Ok A B seen) s.core live _ (s₁.core.carve self head ms cyclic cyclicAncestor) (insert s.core.next live)
      rw [hcore]
      exact Trace.single (.create self head ms cyclic cyclicAncestor) ⟨hself, hasserts.2.1⟩
        ⟨fun _ => trivial, fun _ => trivial⟩
    · change s₁.undoLog.map (.createSubregion self s.core.next :: ·) = _
      rw [hlog, Option.map_map]
      rfl
  · cases hs

/-- The successors are connected again, if they are in the graph. -/
theorem does_reconnect {result : T} {loopHead : Option T} {snapshot : List (Tx T)}
    (hresult : result ∈ s.core.graph.nodes) : Does it (Ok A B seen) s live (s.reconnect result loopHead snapshot) live ∧
      ∃ g, (s.reconnect result loopHead snapshot).core = { s.core with graph := g } := by
  unfold OverlayManager.reconnect
  induction snapshot generalizing s with
  | nil => exact ⟨.refl, s.core.graph, rfl⟩
  | cons x snapshot ih =>
    rw [List.foldl_cons]
    split
    · exact ih hresult
    rename_i e _
    split
    · rename_i hcond
      have hmem : result ∈ (s.graphAddEdge result e EdgeData.empty).core.graph.nodes := Finset.mem_insert_self _ _
      obtain ⟨hrest, g, hg⟩ := ih hmem
      have hfirst : Does it (Ok A B seen) s live (s.graphAddEdge result e EdgeData.empty) live :=
        does_graphAddEdge ⟨fun _ => ⟨Finset.mem_union_right _ hresult, Finset.mem_union_right _ hcond.2.2.1⟩, fun _ => trivial⟩
      exact ⟨hfirst.trans hrest, g, hg⟩
    · exact ih hresult

theorem does_removeSelfLoop {result : T} : Does it (Ok A B seen) s live (s.removeSelfLoop result) live ∧
    ∃ g, (s.removeSelfLoop result).core = { s.core with graph := g } ∧ g.nodes = s.core.graph.nodes := by
  unfold OverlayManager.removeSelfLoop
  split
  · rename_i hloop
    exact ⟨does_graphRemoveEdge hloop ⟨fun _ => trivial, fun _ => trivial⟩, _, rfl, rfl⟩
  · exact ⟨.refl, _, rfl, rfl⟩

theorem does_finalize {resultNode : Option (Tx T)} {succSnapshot : Finset (Tx T)} (hself : self ∈ live)
    (htree : Tree s.core live) (hplaced : Placed s.core) (hs : s.finalize it self resultNode succSnapshot = some s')
    (hfresh : B → ∀ parent result, s.core.parent self = some parent → (s.core.region self).members = {.node result} →
      (s.core.region parent).head ≠ some (.node result)) : Does it (Ok A B seen) s live s' (live.erase self) := by
  unfold OverlayManager.finalize at hs
  dsimp only at hs
  split at hs
  · rename_i parent result hparent _
    split at hs
    · rename_i hasserts
      obtain ⟨hmembers, -⟩ := hasserts
      have hresult : s.core.owner result = some self := (htree.node self hself result).mp (by simp [hmembers])
      have hin := hplaced result self hresult
      obtain ⟨hloop, g₁, hg₁, hnodes⟩ := @does_removeSelfLoop T V _ it live seen s A B result
      generalize s.removeSelfLoop result = s₁ at hs hloop hg₁
      have hin₁ : result ∈ s₁.core.graph.nodes := by
        rw [hg₁]
        change result ∈ g₁.nodes
        rwa [hnodes]
      generalize (if (s₁.core.region parent).cyclic then _ else none : Option T) = loopHead at hs
      obtain ⟨hreconnect, g₂, hg₂⟩ := @does_reconnect T V _ it live seen s₁ A B result loopHead (it.views.list succSnapshot) hin₁
      generalize s₁.reconnect result loopHead (it.views.list succSnapshot) = s₂ at hs hreconnect hg₂
      have hcore₂ : s₂.core = { s.core with graph := g₂ } := by rw [hg₂, hg₁]
      have hvalid : Change.Valid s₂.core live (.finalize self parent result) := by
        rw [hcore₂]
        exact ⟨hself, hparent, hmembers⟩
      have hpairs : (s₂.core.region self).pairs = (s.core.region self).pairs := by rw [hcore₂]
      rw [← Option.some.inj hs]
      refine Does.bump (Does.bumpEpoch ((hloop.trans hreconnect).trans
        ⟨_, Trace.single (.finalize self parent result) hvalid ⟨fun _ => trivial, fun hB => ?_⟩, ?_⟩))
      · rw [hcore₂]
        exact hfresh hB parent result hparent hmembers
      change (s₂.undoLog.map (.setOwner result (s₂.core.owner result) :: ·)).map
        (.finalize self parent result (s.core.region self).pairs :: ·) = _
      rw [Option.map_map, ← hpairs]
      rfl
    · cases hs
  · cases hs

theorem does_dissolve (hself : self ∈ live) (hs : s.dissolve it self = some s')
    (hfresh : B → ∀ parent, s.core.parent self = some parent → (s.core.region parent).head = some (.region self) ∨
      (s.core.region parent).head ≠ (s.core.region self).head) : Does it (Ok A B seen) s live s' (live.erase self) := by
  unfold OverlayManager.dissolve at hs
  dsimp only at hs
  split at hs
  · cases hs
  rename_i parent hparent
  split at hs
  · obtain ⟨hcore, hlog⟩ := @setOwners_nodesOf T V _ it s (s.core.region self).members parent
    generalize s.setOwners (it.nodes.list (nodesOf (s.core.region self).members)) (some parent) = s₁ at hs hcore hlog
    generalize hhidden : (s.core.region self).pairs.filter (fun e => e.1 = .hidden) \ (s.core.region parent).pairs =
      hidden at hs
    have hdisjoint : Disjoint (s.core.region parent).pairs hidden := by
      rw [← hhidden]
      exact Finset.disjoint_sdiff
    rw [← Option.some.inj hs]
    refine Does.bump (Does.bumpEpoch ⟨Change.inverses it s.core (.dissolve self parent hidden), ?_, ?_⟩)
    · change Trace it (Ok A B seen) s.core live _ (s₁.core.merge self parent (s.core.region self).members hidden)
        (live.erase self)
      rw [hcore]
      exact Trace.single (.dissolve self parent hidden) ⟨hself, hparent, hdisjoint⟩
        ⟨fun _ => trivial, fun hB => hfresh hB parent hparent⟩
    · change s₁.undoLog.map (.dissolve self parent (s.core.region self).members hidden :: ·) = _
      rw [hlog, Option.map_map]
      rfl
  · cases hs

end Angr.Overlay
