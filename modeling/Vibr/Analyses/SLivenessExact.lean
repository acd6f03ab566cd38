import Mathlib.Algebra.Order.BigOperators.Group.Finset
import Mathlib.Data.List.TakeWhile
import Vibr.Analyses.SLiveness

/-!
# What the liveness analysis computes

The phi assignments of a block are parallel: on the edge from a predecessor all their
sources for it are read, and then all their destinations are written. The walk takes them
one after the other, last one first, and takes each destination out of the live set of
the edge after the sources of the later assignments have been put in. A source that is
the destination of its own or of an earlier assignment is so lost. The walk also does
not know that a call defines its `fp_ret_expr`.
-/

namespace Angr.SLiveness

open Liveness

variable {K : Type*} [DecidableEq K]

namespace Statement

/-- The variables that a statement defines. -/
def allDefs : Statement K → List Nat
  | .sideEffect expr retExpr fpRetExpr extraDefs =>
    (Statement.sideEffect (K := K) expr retExpr fpRetExpr extraDefs).defs ++ fpRetExpr.toList
  | stmt => stmt.defs

/-- The source of a phi assignment for the predecessor `pred`. -/
def source (pred : K) : Statement K → Option Nat
  | .phi _ srcAndVvars => (srcAndVvars.find? fun source => source.1 = pred).bind Prod.snd
  | _ => none

/-- The predecessors that a phi assignment has sources for. -/
def sourceBlocks : Statement K → List K
  | .phi _ srcAndVvars => srcAndVvars.map Prod.fst
  | _ => []

end Statement

variable {stmt : Statement K}

namespace Graph

variable (g : Graph K)

def phis (block : K) : List (Statement K) := (g.statements block).takeWhile Statement.isPhi

def body (block : K) : List (Statement K) := (g.statements block).dropWhile Statement.isPhi

def Edge (pred block : K) : Prop := block ∈ g.successors pred

/-- A graph in SSA form, all of whose blocks are reachable from the entry, without
head-controlled loop blocks. -/
structure SSA (entry : K) : Prop where
  entry_mem : entry ∈ g.nodes
  closed : ∀ pred ∈ g.nodes, ∀ block ∈ g.successors pred, block ∈ g.nodes
  mem_predecessors : ∀ block ∈ g.nodes, ∀ pred, pred ∈ g.predecessors block ↔ pred ∈ g.nodes ∧ g.Edge pred block
  reachable : ∀ block ∈ g.nodes, Relation.ReflTransGen g.Edge entry block
  not_headControlled : ∀ block ∈ g.nodes, isHeadControlledLoopBlock (g.statements block) = false
  phis_first : ∀ block ∈ g.nodes, ∀ stmt ∈ g.body block, stmt.isPhi = false
  sources : ∀ block ∈ g.nodes, ∀ stmt ∈ g.phis block,
    stmt.sourceBlocks.Nodup ∧ ∀ pred, pred ∈ stmt.sourceBlocks ↔ pred ∈ g.predecessors block
  one_definition : ∀ block ∈ g.nodes, ∀ block' ∈ g.nodes, ∀ (v i i' : Nat) (stmt stmt' : Statement K),
    (g.statements block)[i]? = some stmt → (g.statements block')[i']? = some stmt' →
    v ∈ stmt.allDefs → v ∈ stmt'.allDefs → block = block' ∧ i = i'

/-- What `networkx.dfs_postorder_nodes` lists: the reachable blocks, each one once. -/
structure PostOrder (entry : K) (order : List K) : Prop where
  nodup : order.Nodup
  mem_iff : ∀ block, block ∈ order ↔ Relation.ReflTransGen g.Edge entry block

/-! ## Events -/

/-- The events of statements one after the other; `defsOf` are the variables they define. -/
def bodyEvents (defsOf : Statement K → List Nat) (stmts : List (Statement K)) : List (Nat ⊕ Nat) :=
  stmts.flatMap fun stmt => stmt.vvars.map use ++ (defsOf stmt).map define

/-- The sources of the phi assignments for the predecessor `pred`. -/
def phiUses (pred : K) (phis : List (Statement K)) : List Nat := phis.filterMap (Statement.source pred)

/-- Those that are the destination neither of their own nor of an earlier assignment. -/
def keptUses (pred : K) : List (Statement K) → List Nat
  | [] => []
  | stmt :: phis => ((stmt.source pred).toList ++ keptUses pred phis).filter (· ∉ stmt.defs)

/-- What happens on an edge into `block`: uses, the destinations of the phi assignments,
and the other statements. -/
def edgeEvents (uses : List Nat) (defsOf : Statement K → List Nat) (block : K) : List (Nat ⊕ Nat) :=
  uses.map use ++ (((g.phis block).flatMap Statement.defs).map define ++ bodyEvents defsOf (g.body block))

def events (pred block : K) : List (Nat ⊕ Nat) :=
  g.edgeEvents (phiUses pred (g.phis block)) Statement.allDefs block

/-- The events without the phi sources that the walk loses. -/
def keptEvents (pred block : K) : List (Nat ⊕ Nat) :=
  g.edgeEvents (keptUses pred (g.phis block)) Statement.allDefs block

/-- The events as the walk takes them. -/
def walkEvents (pred block : K) : List (Nat ⊕ Nat) :=
  g.edgeEvents (keptUses pred (g.phis block)) Statement.defs block

variable {g} {v : Nat} {uses : List Nat} {defsOf : Statement K → List Nat} {block pred : K}

omit [DecidableEq K] in
theorem reaches_edgeEvents : Reaches v (g.edgeEvents uses defsOf block) ↔
    v ∈ uses ∨ v ∉ (g.phis block).flatMap Statement.defs ∧ Reaches v (bodyEvents defsOf (g.body block)) := by
  rw [edgeEvents, reaches_append, reaches_append, reaches_uses]
  simp [not_reaches_defines, use, define]

omit [DecidableEq K] in
theorem define_mem_edgeEvents : define v ∈ g.edgeEvents uses defsOf block ↔
    v ∈ (g.phis block).flatMap Statement.defs ∨ define v ∈ bodyEvents defsOf (g.body block) := by
  simp [edgeEvents, use, define]

omit [DecidableEq K] in
theorem phis_append_body : g.phis block ++ g.body block = g.statements block := List.takeWhile_append_dropWhile

omit [DecidableEq K] in
theorem isPhi_of_mem_phis (h : stmt ∈ g.phis block) : stmt.isPhi = true :=
  List.mem_takeWhile_imp h

end Graph

/-! ## The walk over a block -/

section Walk

open Graph

variable {v : Nat} {block pred : K} {live : Finset Nat} {stmts phis : List (Statement K)}

/-- The walk over statements without phi assignments. -/
theorem walk_body (block : K) (live : Finset Nat) (h : ∀ stmt ∈ stmts, stmt.isPhi = false) :
    ∃ liveIn, stmts.foldr (walkStatement false block) (live, []) = (liveIn, []) ∧
      ∀ v, v ∈ liveIn ↔ Reaches v (bodyEvents Statement.defs stmts) ∨
        define v ∉ bodyEvents Statement.defs stmts ∧ v ∈ live := by
  induction stmts with
  | nil => exact ⟨live, rfl, fun v => by simp [bodyEvents, not_reaches_nil]⟩
  | cons stmt stmts ih =>
    obtain ⟨liveIn, hwalk, hmem⟩ := ih fun stmt' h' => h stmt' (List.mem_cons_of_mem _ h')
    have hphi := h stmt List.mem_cons_self
    have hstep : walkStatement false block stmt (liveIn, []) =
        (liveIn \ stmt.defs.toFinset ∪ stmt.vvars.toFinset, []) := by
      cases stmt with
      | phi dst srcAndVvars => cases hphi
      | _ => rfl
    refine ⟨liveIn \ stmt.defs.toFinset ∪ stmt.vvars.toFinset, ?_, fun v => ?_⟩
    · rw [List.foldr_cons, hwalk, hstep]
    have hevents : bodyEvents Statement.defs (stmt :: stmts) =
        stmt.vvars.map use ++ (stmt.defs.map define ++ bodyEvents Statement.defs stmts) := by
      simp [bodyEvents]
    rw [hevents, reaches_append, reaches_append, reaches_uses]
    simp only [Finset.mem_union, Finset.mem_sdiff, List.mem_toFinset, hmem, not_reaches_defines,
      List.mem_append, List.mem_map, use, define, reduceCtorEq, and_false, exists_false, false_or,
      not_false_eq_true, true_and, Sum.inr.injEq, exists_eq_right, not_or]
    tauto

/-- The sources of one phi assignment. -/
theorem get?_walkSources {dst : Nat} {srcAndVvars : List (K × Option Nat)} {byPred : Dict K (Finset Nat)}
    (hnodup : (srcAndVvars.map Prod.fst).Nodup) :
    Dict.get? (srcAndVvars.foldl (walkSource dst live) byPred) pred =
      if pred ∈ srcAndVvars.map Prod.fst then
        some (((byPred.get? pred).getD live ∪
          ((Statement.phi dst srcAndVvars).source pred).toList.toFinset).erase dst)
      else byPred.get? pred := by
  induction srcAndVvars generalizing byPred with
  | nil => rfl
  | cons source srcAndVvars ih =>
    obtain ⟨src, vvar⟩ := source
    rw [List.map_cons, List.nodup_cons] at hnodup
    rw [List.foldl_cons, ih hnodup.2, walkSource, Dict.get?_set]
    by_cases hsrc : src = pred
    · subst hsrc
      simp [hnodup.1, Statement.source]
    have hsource : (Statement.phi dst ((src, vvar) :: srcAndVvars)).source pred =
        (Statement.phi dst srcAndVvars).source pred := by
      simp [Statement.source, hsrc]
    have hmem : pred ∈ ((src, vvar) :: srcAndVvars).map Prod.fst ↔ pred ∈ srcAndVvars.map Prod.fst := by
      rw [List.map_cons, List.mem_cons]
      exact or_iff_right (Ne.symm hsrc)
    rw [if_neg hsrc, hsource, if_congr hmem rfl rfl]

/-- One phi assignment of the walk. -/
theorem walkStatement_phi {dst : Nat} {srcAndVvars : List (K × Option Nat)}
    {w : Finset Nat × Dict K (Finset Nat)} :
    (walkStatement false block (.phi dst srcAndVvars) w).2 =
      srcAndVvars.foldl (walkSource dst (w.1 \ {dst})) w.2 := by
  simp [walkStatement, Statement.defs]

/-- The live set of an edge after the phi assignments of a block. -/
theorem walk_phis (block : K) (live : Finset Nat) (hphi : ∀ stmt ∈ phis, stmt.isPhi = true)
    (hnodup : ∀ stmt ∈ phis, stmt.sourceBlocks.Nodup) (hpred : ∀ stmt ∈ phis, pred ∈ stmt.sourceBlocks) (hne : phis ≠ []) :
    ∃ onEdge, Dict.get? (phis.foldr (walkStatement false block) (live, [])).2 pred = some onEdge ∧
      ∀ v, v ∈ onEdge ↔ v ∈ keptUses pred phis ∨ v ∉ phis.flatMap Statement.defs ∧ v ∈ live := by
  induction phis with
  | nil => exact absurd rfl hne
  | cons stmt phis ih =>
    cases stmt with
    | phi dst srcAndVvars =>
      have hpred' : pred ∈ srcAndVvars.map Prod.fst := hpred _ List.mem_cons_self
      have hnodup' : (srcAndVvars.map Prod.fst).Nodup := hnodup _ List.mem_cons_self
      rw [List.foldr_cons, walkStatement_phi, get?_walkSources hnodup', if_pos hpred']
      refine ⟨_, rfl, fun v => ?_⟩
      by_cases hnil : phis = []
      · subst hnil
        simp [keptUses, Statement.defs]
        tauto
      obtain ⟨onEdge, hget, hmem⟩ := ih (fun stmt h => hphi stmt (List.mem_cons_of_mem _ h))
        (fun stmt h => hnodup stmt (List.mem_cons_of_mem _ h))
        (fun stmt h => hpred stmt (List.mem_cons_of_mem _ h)) hnil
      rw [hget]
      simp [hmem, keptUses, Statement.defs]
      tauto
    | _ => cases hphi _ List.mem_cons_self

theorem walk_phis_none (hphi : ∀ stmt ∈ phis, stmt.isPhi = true)
    (hnodup : ∀ stmt ∈ phis, stmt.sourceBlocks.Nodup) (hpred : ∀ stmt ∈ phis, pred ∉ stmt.sourceBlocks) :
    Dict.get? (phis.foldr (walkStatement false block) (live, [])).2 pred = none := by
  induction phis with
  | nil => rfl
  | cons stmt phis ih =>
    cases stmt with
    | phi dst srcAndVvars =>
      have hpred' : pred ∉ srcAndVvars.map Prod.fst := hpred _ List.mem_cons_self
      have hnodup' : (srcAndVvars.map Prod.fst).Nodup := hnodup _ List.mem_cons_self
      rw [List.foldr_cons, walkStatement_phi, get?_walkSources hnodup', if_neg hpred']
      exact ih (fun stmt h => hphi stmt (List.mem_cons_of_mem _ h))
        (fun stmt h => hnodup stmt (List.mem_cons_of_mem _ h))
        (fun stmt h => hpred stmt (List.mem_cons_of_mem _ h))
    | _ => cases hphi _ List.mem_cons_self

end Walk

/-! ## The live set of an edge -/

section EdgeLive

open Graph

variable {g : Graph K} {entry block pred : K} {live live' : Finset Nat} {v : Nat}

/-- The live set that a walk over `block` gives the edge from `pred`. -/
def edgeLive (g : Graph K) (block : K) (live : Finset Nat) (pred : K) : Finset Nat :=
  ((walk block (g.statements block) live).2.get? pred).getD (walk block (g.statements block) live).1

theorem walk_eq (live : Finset Nat) (hg : g.SSA entry) (hblock : block ∈ g.nodes) :
    ∃ liveIn, walk block (g.statements block) live =
        (g.phis block).foldr (walkStatement false block) (liveIn, []) ∧
      ∀ v, v ∈ liveIn ↔ Reaches v (bodyEvents Statement.defs (g.body block)) ∨
        define v ∉ bodyEvents Statement.defs (g.body block) ∧ v ∈ live := by
  obtain ⟨liveIn, hbody, hmem⟩ := walk_body block live (hg.phis_first block hblock)
  refine ⟨liveIn, ?_, hmem⟩
  unfold walk walkedStatements
  rw [hg.not_headControlled block hblock, if_neg Bool.false_ne_true, ← phis_append_body, List.foldr_append, hbody]

/-- What is live on an edge: what the walk meets a use of, and what is live out of the
block and not defined in it. -/
theorem mem_edgeLive (hg : g.SSA entry) (hblock : block ∈ g.nodes) (hpred : pred ∈ g.nodes)
    (hedge : g.Edge pred block) : v ∈ edgeLive g block live pred ↔
      Reaches v (g.walkEvents pred block) ∨ define v ∉ g.walkEvents pred block ∧ v ∈ live := by
  obtain ⟨liveIn, hwalk, hmem⟩ := walk_eq live hg hblock
  have hwalkEvents : (Reaches v (g.walkEvents pred block) ∨ define v ∉ g.walkEvents pred block ∧ v ∈ live) ↔
      v ∈ keptUses pred (g.phis block) ∨ v ∉ (g.phis block).flatMap Statement.defs ∧ v ∈ liveIn := by
    rw [walkEvents, reaches_edgeEvents, define_mem_edgeEvents, hmem]
    tauto
  rw [edgeLive, hwalk, hwalkEvents]
  by_cases hnil : g.phis block = []
  · rw [hnil]
    simp [keptUses]
  obtain ⟨onEdge, hget, honEdge⟩ := walk_phis block liveIn
    (fun stmt h => isPhi_of_mem_phis h) (fun stmt h => (hg.sources block hblock stmt h).1)
    (fun stmt h => ((hg.sources block hblock stmt h).2 pred).mpr
      ((hg.mem_predecessors block hblock pred).mpr ⟨hpred, hedge⟩)) hnil
  rw [hget]
  exact honEdge v

theorem edgeLive_mono (hg : g.SSA entry) (hblock : block ∈ g.nodes) (hpred : pred ∈ g.nodes)
    (hedge : g.Edge pred block) (hle : live ⊆ live') : edgeLive g block live pred ⊆ edgeLive g block live' pred := by
  intro v hv
  rw [mem_edgeLive hg hblock hpred hedge] at hv ⊢
  exact hv.imp_right fun h => ⟨h.1, hle h.2⟩

/-- Which edges get a live set of their own does not depend on the variables. -/
theorem get?_walk_none (hg : g.SSA entry) (hblock : block ∈ g.nodes)
    (h : (walk block (g.statements block) live).2.get? pred = none) :
    (walk block (g.statements block) live').2.get? pred = none := by
  obtain ⟨liveIn, hwalk, -⟩ := walk_eq live hg hblock
  obtain ⟨liveIn', hwalk', -⟩ := walk_eq live' hg hblock
  rw [hwalk']
  rw [hwalk] at h
  by_cases hnil : g.phis block = []
  · rw [hnil]
    rfl
  have hnodup : ∀ stmt ∈ g.phis block, stmt.sourceBlocks.Nodup := fun stmt h => (hg.sources block hblock stmt h).1
  by_cases hpred : pred ∈ g.predecessors block
  · obtain ⟨onEdge, hget, -⟩ := walk_phis block liveIn
      (fun stmt h => isPhi_of_mem_phis h) hnodup
      (fun stmt h => ((hg.sources block hblock stmt h).2 pred).mpr hpred) hnil
    rw [h] at hget
    cases hget
  · exact walk_phis_none (fun stmt h => isPhi_of_mem_phis h) hnodup
      fun stmt h hmem => hpred (((hg.sources block hblock stmt h).2 pred).mp hmem)

end EdgeLive

/-! ## The work list -/

section Worklist

open Graph

variable {g : Graph K} {entry block pred : K} {s : State K} {v : Nat}

/-- The sets of a walked block are those of a walk from its live-out set. -/
structure Synced (g : Graph K) (s : State K) : Prop where
  unwalked : ∀ block, block ∉ s.walked →
    s.liveIns block = ∅ ∧ s.liveOuts block = ∅ ∧ ∀ pred, s.liveOnEdges pred block = none
  walked : ∀ block ∈ s.walked, s.liveIns block = (walk block (g.statements block) (s.liveOuts block)).1 ∧
    ∀ pred, s.liveOnEdges pred block = (walk block (g.statements block) (s.liveOuts block)).2.get? pred
  grows : ∀ block ∈ g.nodes, s.liveOuts block ⊆ joined g s block
  sound : ∀ block ∈ g.nodes, ∀ v ∈ s.liveOuts block, LiveOut g.Edge g.walkEvents block v

/-- The invariant of the loop: a block that is not on the work list agrees with its
successors. -/
structure Inv (g : Graph K) (s : State K) : Prop extends Synced g s where
  worklist : ∀ block ∈ s.worklist, block ∈ g.nodes
  stable : ∀ block ∈ g.nodes, block ∉ s.worklist → block ∈ s.walked ∧ s.liveOuts block = joined g s block

theorem mem_joined (hg : g.SSA entry) (hblock : block ∈ g.nodes) :
    v ∈ joined g s block ↔ ∃ succ, g.Edge block succ ∧ v ∈ s.onEdge block succ := by
  have hfold : ∀ succs : List K, v ∈ succs.foldr (fun succ live => s.onEdge block succ ∪ live) ∅ ↔
      ∃ succ ∈ succs, v ∈ s.onEdge block succ := by
    intro succs
    induction succs with
    | nil => simp
    | cons succ succs ih => simp [ih]
  rw [joined, hfold]
  simp [hg.not_headControlled block hblock, Graph.Edge]

theorem Synced.onEdge_walked (h : Synced g s) (hwalked : block ∈ s.walked) (pred : K) :
    s.onEdge pred block = edgeLive g block (s.liveOuts block) pred := by
  obtain ⟨hin, hedges⟩ := h.walked block hwalked
  rw [State.onEdge, edgeLive, hin, hedges]

theorem Synced.onEdge_unwalked (h : Synced g s) (hwalked : block ∉ s.walked) (pred : K) : s.onEdge pred block = ∅ := by
  obtain ⟨hin, -, hedges⟩ := h.unwalked block hwalked
  rw [State.onEdge, hin, hedges]
  rfl

/-- What flows into a block is live out of it. -/
theorem Synced.joined_sound (hg : g.SSA entry) (h : Synced g s) (hblock : block ∈ g.nodes) (hv : v ∈ joined g s block) :
    LiveOut g.Edge g.walkEvents block v := by
  obtain ⟨succ, hedge, hv⟩ := (mem_joined hg hblock).mp hv
  have hsucc : succ ∈ g.nodes := hg.closed block hblock succ hedge
  by_cases hwalked : succ ∈ s.walked
  · rw [h.onEdge_walked hwalked, mem_edgeLive hg hsucc hblock hedge] at hv
    rcases hv with hreach | ⟨hno, hv⟩
    · exact .here hedge hreach
    · exact .step hedge hno (h.sound succ hsucc v hv)
  · rw [h.onEdge_unwalked hwalked] at hv
    exact absurd hv (Finset.notMem_empty v)

theorem inv_init {order : List K} (horder : ∀ block, block ∈ order ↔ block ∈ g.nodes) :
    Inv g ({ worklist := order } : State K) where
  worklist block hblock := (horder block).mp hblock
  unwalked _ _ := ⟨rfl, rfl, fun _ => rfl⟩
  walked _ hwalked := absurd hwalked List.not_mem_nil
  stable block hblock hnot := absurd ((horder block).mpr hblock) hnot
  grows _ _ := Finset.empty_subset _
  sound _ _ v hv := absurd hv (Finset.notMem_empty v)

theorem mem_foldl_worklist {preds worklist : List K} : pred ∈ preds.foldl (fun worklist pred =>
      if pred ∈ worklist then worklist else worklist ++ [pred]) worklist ↔ pred ∈ worklist ∨ pred ∈ preds := by
  induction preds generalizing worklist with
  | nil => simp
  | cons p preds ih =>
    rw [List.foldl_cons, ih, List.mem_cons]
    split
    · rename_i hp
      constructor
      · exact fun h => h.imp_right .inr
      rintro (h | rfl | h)
      · exact .inl h
      · exact .inl hp
      · exact .inr h
    · rw [List.mem_append, List.mem_singleton, or_assoc]

variable {live : Finset Nat}

theorem rewalk_liveOnEdges : (rewalk g s block live).liveOnEdges pred block =
    ((walk block (g.statements block) live).2.get? pred).or (s.liveOnEdges pred block) := if_pos rfl

/-- The condition under which the predecessors of a block are put on the work list. -/
def Changed (g : Graph K) (s : State K) (block : K) (live : Finset Nat) : Prop :=
  live ≠ s.liveOuts block ∨ s.liveIns block ≠ (walk block (g.statements block) live).1 ∨
    ∃ p ∈ (walk block (g.statements block) live).2, s.liveOnEdges p.1 block ≠ some p.2

theorem rewalk_worklist_changed (h : Changed g s block live) (a : K) :
    a ∈ (rewalk g s block live).worklist ↔ a ∈ s.worklist ∨ a ∈ g.predecessors block := by
  have hworklist : (rewalk g s block live).worklist = (g.predecessors block).foldl (fun worklist pred =>
      if pred ∈ worklist then worklist else worklist ++ [pred]) s.worklist := if_pos h
  rw [hworklist, mem_foldl_worklist]

theorem Synced.rewalk_edges (hg : g.SSA entry) (h : Synced g s) (hblock : block ∈ g.nodes) (live : Finset Nat)
    (pred : K) : (rewalk g s block live).liveOnEdges pred block =
      (walk block (g.statements block) live).2.get? pred := by
  have hold : (walk block (g.statements block) live).2.get? pred = none → s.liveOnEdges pred block = none := by
    intro hnone
    by_cases hwalked : block ∈ s.walked
    · rw [(h.walked block hwalked).2 pred]
      exact get?_walk_none hg hblock hnone
    · exact (h.unwalked block hwalked).2.2 pred
  rw [rewalk_liveOnEdges]
  cases hget : (walk block (g.statements block) live).2.get? pred with
  | none => rw [hold hget]; rfl
  | some onEdge => rfl

theorem Synced.rewalk_onEdge (hg : g.SSA entry) (h : Synced g s) (hblock : block ∈ g.nodes) (live : Finset Nat)
    (pred : K) : (rewalk g s block live).onEdge pred block = edgeLive g block live pred := by
  have hin : (rewalk g s block live).liveIns block = (walk block (g.statements block) live).1 :=
    Function.update_self _ _ _
  rw [State.onEdge, h.rewalk_edges hg hblock, hin, edgeLive]

omit [DecidableEq K] in
theorem rewalk_onEdge_of_ne [DecidableEq K] {succ : K} (hne : succ ≠ block) (pred : K) :
    (rewalk g s block live).onEdge pred succ = s.onEdge pred succ := by
  have hin : (rewalk g s block live).liveIns succ = s.liveIns succ := Function.update_of_ne hne _ _
  have hedges : (rewalk g s block live).liveOnEdges pred succ = s.liveOnEdges pred succ := if_neg hne
  rw [State.onEdge, hin, hedges, State.onEdge]

/-- A walk that changes nothing leaves the live sets of the edges; otherwise the
predecessors are put on the work list. -/
theorem rewalk_changed :
    (∀ pred, (rewalk g s block live).onEdge pred block = s.onEdge pred block) ∧
        (rewalk g s block live).worklist = s.worklist ∨
      ∀ a, a ∈ (rewalk g s block live).worklist ↔ a ∈ s.worklist ∨ a ∈ g.predecessors block := by
  by_cases hchanged : Changed g s block live
  · exact .inr (rewalk_worklist_changed hchanged)
  refine .inl ⟨fun pred => ?_, if_neg hchanged⟩
  simp only [Changed, not_or, not_exists, not_and, not_not] at hchanged
  obtain ⟨-, hin, hedges⟩ := hchanged
  have hin' : (rewalk g s block live).liveIns block = s.liveIns block :=
    (Function.update_self _ _ _).trans hin.symm
  have hedges' : (rewalk g s block live).liveOnEdges pred block = s.liveOnEdges pred block := by
    rw [rewalk_liveOnEdges]
    cases hget : (walk block (g.statements block) live).2.get? pred with
    | none => rfl
    | some onEdge => exact (hedges (pred, onEdge) (Dict.mem_of_get?_eq_some hget)).symm
  rw [State.onEdge, hin', hedges', State.onEdge]

/-- The live sets of the edges grow when a block is walked from a larger set. -/
theorem Synced.onEdge_le_rewalk (hg : g.SSA entry) (h : Synced g s) (hblock : block ∈ g.nodes)
    (hle : s.liveOuts block ⊆ live) {succ : K} (hpred : pred ∈ g.nodes) (hedge : g.Edge pred succ) :
    s.onEdge pred succ ⊆ (rewalk g s block live).onEdge pred succ := by
  by_cases heq : succ = block
  · subst heq
    rw [h.rewalk_onEdge hg hblock]
    by_cases hwalked : succ ∈ s.walked
    · rw [h.onEdge_walked hwalked]
      exact edgeLive_mono hg hblock hpred hedge hle
    · rw [h.onEdge_unwalked hwalked]
      exact Finset.empty_subset _
  · rw [rewalk_onEdge_of_ne heq]

theorem Synced.rewalk (hg : g.SSA entry) (h : Synced g s) (hblock : block ∈ g.nodes) :
    Synced g (rewalk g s block (joined g s block)) := by
  have hle : ∀ a ∈ g.nodes, joined g s a ⊆ joined g (SLiveness.rewalk g s block (joined g s block)) a := by
    intro a ha v hv
    obtain ⟨succ, hedge, hv⟩ := (mem_joined hg ha).mp hv
    exact (mem_joined hg ha).mpr
      ⟨succ, hedge, h.onEdge_le_rewalk hg hblock (h.grows block hblock) ha hedge hv⟩
  refine
    { unwalked := ?_
      walked := ?_
      grows := ?_
      sound := ?_ }
  · intro a ha
    rw [SLiveness.rewalk, List.mem_cons, not_or] at ha
    obtain ⟨hin, hout, hedges⟩ := h.unwalked a ha.2
    refine ⟨(Function.update_of_ne ha.1 _ _).trans hin, (Function.update_of_ne ha.1 _ _).trans hout, fun pred => ?_⟩
    exact (if_neg ha.1).trans (hedges pred)
  · intro a ha
    by_cases heq : a = block
    · subst heq
      have hout : (SLiveness.rewalk g s a (joined g s a)).liveOuts a = joined g s a := Function.update_self _ _ _
      rw [hout]
      exact ⟨Function.update_self _ _ _, fun pred => h.rewalk_edges hg hblock _ pred⟩
    have hmem : a ∈ s.walked := (List.mem_cons.mp ha).resolve_left heq
    have hout : (SLiveness.rewalk g s block (joined g s block)).liveOuts a = s.liveOuts a :=
      Function.update_of_ne heq _ _
    obtain ⟨hin, hedges⟩ := h.walked a hmem
    rw [hout]
    exact ⟨(Function.update_of_ne heq _ _).trans hin, fun pred => (if_neg heq).trans (hedges pred)⟩
  · intro a ha
    by_cases heq : a = block
    · subst heq
      have hout : (SLiveness.rewalk g s a (joined g s a)).liveOuts a = joined g s a := Function.update_self _ _ _
      rw [hout]
      exact hle a ha
    have hout : (SLiveness.rewalk g s block (joined g s block)).liveOuts a = s.liveOuts a :=
      Function.update_of_ne heq _ _
    rw [hout]
    exact (h.grows a ha).trans (hle a ha)
  · intro a ha v hv
    by_cases heq : a = block
    · subst heq
      have hout : (SLiveness.rewalk g s a (joined g s a)).liveOuts a = joined g s a := Function.update_self _ _ _
      rw [hout] at hv
      exact h.joined_sound hg ha hv
    have hout : (SLiveness.rewalk g s block (joined g s block)).liveOuts a = s.liveOuts a :=
      Function.update_of_ne heq _ _
    rw [hout] at hv
    exact h.sound a ha v hv

/-- Blocks whose successors' sets have changed are on the work list again. -/
theorem joined_rewalk (hg : g.SSA entry) (hblock : block ∈ g.nodes) {a : K} (ha : a ∈ g.nodes)
    (hnot : a ∉ (rewalk g s block live).worklist) : joined g (rewalk g s block live) a = joined g s a := by
  ext v
  rw [mem_joined hg ha, mem_joined hg ha]
  refine exists_congr fun succ => and_congr_right fun hedge => ?_
  by_cases heq : succ = block
  · subst heq
    rcases rewalk_changed (g := g) (s := s) with ⟨hsame, -⟩ | hlist
    · rw [hsame]
    · have hpred : a ∈ g.predecessors succ := (hg.mem_predecessors succ hblock a).mpr ⟨ha, hedge⟩
      exact absurd ((hlist a).mpr (.inr hpred)) hnot
  · rw [rewalk_onEdge_of_ne heq]

theorem mem_rewalk_worklist {a : K} (h : a ∈ s.worklist) : a ∈ (rewalk g s block live).worklist := by
  rcases rewalk_changed (g := g) (s := s) with ⟨-, hlist⟩ | hlist
  · rw [hlist]
    exact h
  · exact (hlist a).mpr (.inl h)

theorem of_mem_rewalk_worklist {a : K} (h : a ∈ (rewalk g s block live).worklist) :
    a ∈ s.worklist ∨ a ∈ g.predecessors block := by
  rcases rewalk_changed (g := g) (s := s) with ⟨-, hlist⟩ | hlist
  · rw [hlist] at h
    exact .inl h
  · exact (hlist a).mp h

theorem Inv.round (hg : g.SSA entry) (h : Inv g s) : Inv g (round g s) := by
  unfold SLiveness.round
  split
  · exact h
  rename_i block worklist hworklist
  have hblock : block ∈ g.nodes := h.worklist block (hworklist ▸ List.mem_cons_self)
  have hrest : ∀ a ∈ worklist, a ∈ g.nodes := fun a ha => h.worklist a (hworklist ▸ List.mem_cons_of_mem _ ha)
  have hstable : ∀ a ∈ g.nodes, a ∉ worklist → a ≠ block → a ∈ s.walked ∧ s.liveOuts a = joined g s a := by
    intro a ha hnot hne
    refine h.stable a ha ?_
    rw [hworklist, List.mem_cons, not_or]
    exact ⟨hne, hnot⟩
  have hsynced : Synced g { s with worklist } := ⟨h.unwalked, h.walked, h.grows, h.sound⟩
  dsimp only
  split
  · rename_i hskip
    refine { hsynced with worklist := hrest, stable := fun a ha hnot => ?_ }
    by_cases heq : a = block
    · subst heq
      exact ⟨hskip.2, hskip.1.symm⟩
    · exact hstable a ha hnot heq
  refine { hsynced.rewalk hg hblock with worklist := fun a ha => ?_, stable := fun a ha hnot => ?_ }
  · rcases of_mem_rewalk_worklist ha with ha | ha
    · exact hrest a ha
    · exact ((hg.mem_predecessors block hblock a).mp ha).1
  rw [joined_rewalk hg hblock ha hnot]
  by_cases heq : a = block
  · subst heq
    exact ⟨List.mem_cons_self, Function.update_self _ _ _⟩
  · obtain ⟨hwalked, hout⟩ := hstable a ha (fun hmem => hnot (mem_rewalk_worklist hmem)) heq
    exact ⟨List.mem_cons_of_mem _ hwalked, (Function.update_of_ne heq _ _).trans hout⟩

/-- Every variable that is live somewhere is used on some edge. -/
theorem exists_vars (hg : g.SSA entry) :
    ∃ vars : Finset Nat, ∀ block ∈ g.nodes, ∀ v, LiveOut g.Edge g.walkEvents block v → v ∈ vars := by
  refine ⟨g.nodes.toFinset.biUnion fun a => g.nodes.toFinset.biUnion fun b =>
    ((g.walkEvents a b).filterMap Sum.getLeft?).toFinset, fun block hblock v hlive => ?_⟩
  refine hlive.induction (motive := fun a => a ∈ g.nodes → _) ?_ ?_ hblock
  · rintro a b hedge ⟨before, after, hevents, -⟩ ha
    simp only [Finset.mem_biUnion, List.mem_toFinset, List.mem_filterMap]
    refine ⟨a, ha, b, hg.closed a ha b hedge, use v, ?_, rfl⟩
    rw [hevents]
    exact List.mem_append_right _ List.mem_cons_self
  · exact fun a b hedge _ _ ih ha => ih (hg.closed a ha b hedge)

/-- How much the live-out sets can still grow, and how many blocks are still to be walked. -/
def rest (g : Graph K) (vars : Finset Nat) (s : State K) : Nat :=
  (∑ block ∈ g.nodes.toFinset, (vars \ s.liveOuts block).card) + (g.nodes.toFinset.filter (· ∉ s.walked)).card

theorem rest_rewalk (hblock : block ∈ g.nodes) {vars live : Finset Nat} (hvars : live ⊆ vars)
    (hle : s.liveOuts block ⊆ live) (hnew : ¬ (live = s.liveOuts block ∧ block ∈ s.walked)) :
    rest g vars (rewalk g s block live) < rest g vars s := by
  have hcard : ∀ a, (vars \ (rewalk g s block live).liveOuts a).card ≤ (vars \ s.liveOuts a).card := by
    intro a
    refine Finset.card_le_card (Finset.sdiff_subset_sdiff le_rfl ?_)
    by_cases heq : a = block
    · subst heq
      exact hle.trans (Function.update_self a live s.liveOuts).ge
    · exact (Function.update_of_ne heq live s.liveOuts).ge
  have hsub : g.nodes.toFinset.filter (· ∉ (rewalk g s block live).walked) ⊆
      g.nodes.toFinset.filter (· ∉ s.walked) :=
    Finset.monotone_filter_right _ fun a _ ha hmem => ha (List.mem_cons_of_mem _ hmem)
  have hmem : block ∈ g.nodes.toFinset := List.mem_toFinset.mpr hblock
  unfold rest
  by_cases hsame : live = s.liveOuts block
  · -- the block is walked for the first time
    have hunwalked : block ∉ s.walked := fun hmem => hnew ⟨hsame, hmem⟩
    refine Nat.add_lt_add_of_le_of_lt (Finset.sum_le_sum fun a _ => hcard a) (Finset.card_lt_card ?_)
    refine Finset.ssubset_iff_of_subset hsub |>.mpr ⟨block, ?_, ?_⟩
    · exact Finset.mem_filter.mpr ⟨hmem, hunwalked⟩
    · exact fun h => (Finset.mem_filter.mp h).2 List.mem_cons_self
  refine Nat.add_lt_add_of_lt_of_le (Finset.sum_lt_sum (fun a _ => hcard a) ⟨block, hmem, ?_⟩)
    (Finset.card_le_card hsub)
  have hout : (rewalk g s block live).liveOuts block = live := Function.update_self _ _ _
  rw [hout]
  obtain ⟨v, hv, hnot⟩ := Finset.exists_of_ssubset (hle.ssubset_of_ne (Ne.symm hsame))
  refine Finset.card_lt_card (Finset.ssubset_iff_of_subset (Finset.sdiff_subset_sdiff le_rfl hle) |>.mpr ⟨v, ?_, ?_⟩)
  · exact Finset.mem_sdiff.mpr ⟨hvars hv, hnot⟩
  · exact fun h => (Finset.mem_sdiff.mp h).2 hv

/-- The loop ends, in a state that every block agrees with. -/
theorem exists_loop (hg : g.SSA entry) (h : Inv g s) :
    ∃ fuel s', loop g fuel s = some s' ∧ Inv g s' ∧ s'.worklist = [] := by
  obtain ⟨vars, hvars⟩ := exists_vars hg
  -- a round lets the sets grow or shortens the work list
  induction hrest : rest g vars s using Nat.strong_induction_on generalizing s with
  | _ n ihn =>
    induction hlength : s.worklist.length using Nat.strong_induction_on generalizing s with
    | _ m ihm =>
      by_cases hnil : s.worklist = []
      · exact ⟨0, s, if_pos hnil, h, hnil⟩
      obtain ⟨block, worklist, hworklist⟩ := List.exists_cons_of_ne_nil hnil
      have hblock : block ∈ g.nodes := h.worklist block (hworklist ▸ List.mem_cons_self)
      have hnext : ∃ fuel s', loop g fuel (round g s) = some s' ∧ Inv g s' ∧ s'.worklist = [] := by
        by_cases hskip : joined g s block = s.liveOuts block ∧ block ∈ s.walked
        · have hround : SLiveness.round g s = { s with worklist } := by
            unfold SLiveness.round
            rw [hworklist]
            exact if_pos hskip
          refine ihm worklist.length ?_ (h.round hg) ?_ ?_
          · rw [← hlength, hworklist]
            exact Nat.lt_succ_self _
          · rw [hround]
            exact hrest
          · rw [hround]
        · have hround : SLiveness.round g s = rewalk g { s with worklist } block (joined g s block) := by
            unfold SLiveness.round
            rw [hworklist]
            exact if_neg hskip
          refine ihn _ ?_ (h.round hg) rfl
          have hlt : rest g vars (rewalk g { s with worklist } block (joined g s block)) <
              rest g vars { s with worklist } :=
            rest_rewalk hblock (fun v hv => hvars block hblock v (h.joined_sound hg hblock hv))
              (h.grows block hblock) hskip
          rw [hround, ← hrest]
          exact hlt
      obtain ⟨fuel, s', hloop, hinv, hdone⟩ := hnext
      refine ⟨fuel + 1, s', ?_, hinv, hdone⟩
      rw [loop, if_neg hnil]
      exact hloop

theorem loop_unique {fuel fuel' : Nat} {s₁ s₂ : State K} (h₁ : loop g fuel s = some s₁)
    (h₂ : loop g fuel' s = some s₂) : s₁ = s₂ := by
  induction fuel generalizing fuel' s with
  | zero =>
    rw [loop] at h₁
    split at h₁
    · rename_i hnil
      cases fuel' <;> simp_all [loop]
    · cases h₁
  | succ fuel ih =>
    rw [loop] at h₁
    split at h₁
    · rename_i hnil
      cases fuel' <;> simp_all [loop]
    rename_i hnil
    cases fuel' with
    | zero => simp [loop, hnil] at h₂
    | succ fuel' =>
      rw [loop, if_neg hnil] at h₂
      exact ih h₁ h₂

/-- The live-out sets that the analysis returns. -/
theorem mem_liveOuts (hg : g.SSA entry) (h : Inv g s) (hdone : s.worklist = []) (hblock : block ∈ g.nodes) :
    v ∈ s.liveOuts block ↔ LiveOut g.Edge g.walkEvents block v := by
  have hagree : ∀ a ∈ g.nodes, a ∈ s.walked ∧ s.liveOuts a = joined g s a := fun a ha =>
    h.stable a ha (hdone ▸ List.not_mem_nil)
  refine ⟨h.sound block hblock v, fun hlive => ?_⟩
  have hmem : ∀ a b, g.Edge a b → (Reaches v (g.walkEvents a b) ∨ define v ∉ g.walkEvents a b ∧ v ∈ s.liveOuts b) →
      a ∈ g.nodes → v ∈ s.liveOuts a := by
    intro a b hedge hv ha
    have hb : b ∈ g.nodes := hg.closed a ha b hedge
    rw [(hagree a ha).2, mem_joined hg ha]
    refine ⟨b, hedge, ?_⟩
    rw [h.onEdge_walked (hagree b hb).1, mem_edgeLive hg hb ha hedge]
    exact hv
  refine hlive.induction (motive := fun a => a ∈ g.nodes → v ∈ s.liveOuts a) ?_ ?_ hblock
  · exact fun a b hedge hreach => hmem a b hedge (.inl hreach)
  · exact fun a b hedge hno _ ih ha => hmem a b hedge (.inr ⟨hno, ih (hg.closed a ha b hedge)⟩) ha

end Worklist

/-! ## Exactness -/

section Exact

open Graph

variable {g : Graph K} {entry block pred : K} {v : Nat} {stmts phis : List (Statement K)}

namespace Graph

/-- A phi assignment of `block` reads `v` for `pred`, and `v` is the destination of that or
of an earlier phi assignment of `block`. -/
def LostUse (g : Graph K) (pred block : K) (v : Nat) : Prop :=
  ∃ before stmt after, g.phis block = before ++ stmt :: after ∧ stmt.source pred = some v ∧
    v ∈ (before ++ [stmt]).flatMap Statement.defs

/-- `v` is live before the statements `after` that end `block`. -/
def LiveBefore (g : Graph K) (block : K) (after : List (Statement K)) (v : Nat) : Prop :=
  Reaches v (bodyEvents Statement.allDefs after) ∨
    define v ∉ bodyEvents Statement.allDefs after ∧ LiveOut g.Edge g.events block v

/-- A lost phi source is live out of the predecessor for another reason, and what a call
defines as its `fp_ret_expr` only, if it is live after the call, is also live out of the
predecessors of the call's block. -/
structure Harmless (g : Graph K) : Prop where
  phi : ∀ pred ∈ g.nodes, ∀ block, g.Edge pred block → ∀ v, g.LostUse pred block v →
    LiveOut g.Edge g.keptEvents pred v
  fpRet : ∀ pred ∈ g.nodes, ∀ block, g.Edge pred block → ∀ before stmt after v,
    g.body block = before ++ stmt :: after → v ∈ stmt.allDefs → v ∉ stmt.defs →
    g.LiveBefore block after v → LiveOut g.Edge g.events pred v

end Graph

omit [DecidableEq K] in
theorem Statement.mem_allDefs (h : v ∈ stmt.defs) : v ∈ stmt.allDefs := by
  cases stmt with
  | sideEffect expr retExpr fpRetExpr extraDefs => exact List.mem_append_left _ h
  | _ => exact h

theorem mem_phiUses_of_kept (h : v ∈ keptUses pred phis) : v ∈ phiUses pred phis := by
  induction phis with
  | nil => exact h
  | cons stmt phis ih =>
    obtain ⟨hmem, -⟩ := List.mem_filter.mp h
    rw [phiUses, List.filterMap_cons]
    rcases List.mem_append.mp hmem with hmem | hmem
    · rw [Option.mem_toList] at hmem
      rw [hmem]
      exact List.mem_cons_self
    have := ih hmem
    cases stmt.source pred with
    | none => exact this
    | some u => exact List.mem_cons_of_mem _ this

theorem kept_or_lost (h : v ∈ phiUses pred phis) : v ∈ keptUses pred phis ∨
    ∃ before stmt after, phis = before ++ stmt :: after ∧ stmt.source pred = some v ∧
      v ∈ (before ++ [stmt]).flatMap Statement.defs := by
  induction phis with
  | nil => exact .inl h
  | cons stmt phis ih =>
    have hcases : stmt.source pred = some v ∨ v ∈ phiUses pred phis := by
      obtain ⟨stmt', hmem, hsource⟩ := List.mem_filterMap.mp h
      rcases List.mem_cons.mp hmem with rfl | hmem
      · exact .inl hsource
      · exact .inr (List.mem_filterMap.mpr ⟨stmt', hmem, hsource⟩)
    rw [keptUses, List.mem_filter, List.mem_append, Option.mem_toList, decide_eq_true_eq]
    rcases hcases with hsource | hmem
    · by_cases hdst : v ∈ stmt.defs
      · exact .inr ⟨[], stmt, phis, rfl, hsource, by simpa using hdst⟩
      · exact .inl ⟨.inl hsource, hdst⟩
    rcases ih hmem with hkept | ⟨before, stmt', after, rfl, hsource, hdst⟩
    · by_cases hdst : v ∈ stmt.defs
      · -- an earlier destination takes it out again
        obtain ⟨stmt', hmem', hsource⟩ := List.mem_filterMap.mp hmem
        obtain ⟨before, after, rfl⟩ := List.append_of_mem hmem'
        refine .inr ⟨stmt :: before, stmt', after, rfl, hsource, ?_⟩
        exact List.mem_flatMap.mpr ⟨stmt, List.mem_cons_self, hdst⟩
      · exact .inl ⟨.inr hkept, hdst⟩
    · refine .inr ⟨stmt :: before, stmt', after, rfl, hsource, ?_⟩
      rw [List.cons_append, List.flatMap_cons]
      exact List.mem_append_right _ hdst

variable {defsOf : Statement K → List Nat}

omit [DecidableEq K] in
theorem bodyEvents_cons :
    bodyEvents defsOf (stmt :: stmts) =
      stmt.vvars.map use ++ ((defsOf stmt).map define ++ bodyEvents defsOf stmts) := by
  simp [bodyEvents]

omit [DecidableEq K] in
theorem reaches_bodyEvents_cons :
    Reaches v (bodyEvents defsOf (stmt :: stmts)) ↔
      v ∈ stmt.vvars ∨ v ∉ defsOf stmt ∧ Reaches v (bodyEvents defsOf stmts) := by
  rw [bodyEvents_cons, reaches_append, reaches_append, reaches_uses]
  simp [not_reaches_defines, use, define]

omit [DecidableEq K] in
theorem define_mem_bodyEvents : define v ∈ bodyEvents defsOf stmts ↔ ∃ stmt ∈ stmts, v ∈ defsOf stmt := by
  simp [bodyEvents, use, define]

omit [DecidableEq K] in
/-- The walk knows fewer definitions. -/
theorem reaches_defs (h : Reaches v (bodyEvents Statement.allDefs stmts)) :
    Reaches v (bodyEvents Statement.defs stmts) := by
  induction stmts with
  | nil => exact h
  | cons stmt stmts ih =>
    rw [reaches_bodyEvents_cons] at h ⊢
    exact h.imp_right fun h => ⟨fun hmem => h.1 (Statement.mem_allDefs hmem), ih h.2⟩

omit [DecidableEq K] in
theorem define_defs (h : define v ∉ bodyEvents Statement.allDefs stmts) :
    define v ∉ bodyEvents Statement.defs stmts := by
  rw [define_mem_bodyEvents] at h ⊢
  exact fun ⟨stmt, hmem, hdef⟩ => h ⟨stmt, hmem, Statement.mem_allDefs hdef⟩

omit [DecidableEq K] in
/-- A definition that the walk does not know, and what is met after it. -/
theorem reaches_allDefs (h : Reaches v (bodyEvents Statement.defs stmts)) :
    Reaches v (bodyEvents Statement.allDefs stmts) ∨
      ∃ before stmt after, stmts = before ++ stmt :: after ∧ v ∈ stmt.allDefs ∧ v ∉ stmt.defs ∧
        Reaches v (bodyEvents Statement.allDefs after) := by
  induction stmts with
  | nil => exact .inl h
  | cons stmt stmts ih =>
    rw [reaches_bodyEvents_cons] at h ⊢
    rcases h with huse | ⟨hno, h⟩
    · exact .inl (.inl huse)
    rcases ih h with hreach | ⟨before, stmt', after, rfl, hrest⟩
    · by_cases hdef : v ∈ stmt.allDefs
      · exact .inr ⟨[], stmt, stmts, rfl, hdef, hno, hreach⟩
      · exact .inl (.inr ⟨hdef, hreach⟩)
    · exact .inr ⟨stmt :: before, stmt', after, rfl, hrest⟩

omit [DecidableEq K] in
theorem define_allDefs (h : define v ∉ bodyEvents Statement.defs stmts) :
    define v ∉ bodyEvents Statement.allDefs stmts ∨
      ∃ before stmt after, stmts = before ++ stmt :: after ∧ v ∈ stmt.allDefs ∧ v ∉ stmt.defs ∧
        define v ∉ bodyEvents Statement.allDefs after := by
  induction stmts with
  | nil => exact .inl h
  | cons stmt stmts ih =>
    rw [define_mem_bodyEvents] at h
    have hstmt : v ∉ stmt.defs := fun hmem => h ⟨stmt, List.mem_cons_self, hmem⟩
    have hrest : define v ∉ bodyEvents Statement.defs stmts := by
      rw [define_mem_bodyEvents]
      exact fun ⟨stmt', hmem, hdef⟩ => h ⟨stmt', List.mem_cons_of_mem _ hmem, hdef⟩
    rcases ih hrest with hno | ⟨before, stmt', after, rfl, hlast⟩
    · by_cases hdef : v ∈ stmt.allDefs
      · exact .inr ⟨[], stmt, stmts, rfl, hdef, hstmt, hno⟩
      refine .inl ?_
      rw [define_mem_bodyEvents] at hno ⊢
      rintro ⟨stmt', hmem, hdef'⟩
      rcases List.mem_cons.mp hmem with rfl | hmem
      · exact hdef hdef'
      · exact hno ⟨stmt', hmem, hdef'⟩
    · exact .inr ⟨stmt :: before, stmt', after, rfl, hlast⟩

omit [DecidableEq K] in
/-- Two places that define one variable are the same place. -/
theorem one_place (hg : g.SSA entry) {block' : K} (hblock : block ∈ g.nodes) (hblock' : block' ∈ g.nodes)
    {before after before' after' : List (Statement K)} {stmt stmt' : Statement K}
    (h : g.statements block = before ++ stmt :: after) (h' : g.statements block' = before' ++ stmt' :: after')
    (hv : v ∈ stmt.allDefs) (hv' : v ∈ stmt'.allDefs) : block = block' ∧ before.length = before'.length := by
  refine hg.one_definition block hblock block' hblock' v _ _ stmt stmt' ?_ ?_ hv hv'
  · rw [h]
    simp
  · rw [h']
    simp

omit [DecidableEq K] in
/-- What a phi assignment defines is defined by no other statement. -/
theorem not_defined_in_body (hg : g.SSA entry) {block' : K} (hblock : block ∈ g.nodes) (hblock' : block' ∈ g.nodes)
    {stmt stmt' : Statement K} (hphi : stmt ∈ g.phis block) (hv : v ∈ stmt.allDefs) (hmem : stmt' ∈ g.body block') :
    v ∉ stmt'.allDefs := by
  intro hv'
  obtain ⟨before, after, hphis⟩ := List.append_of_mem hphi
  obtain ⟨before', after', hbody⟩ := List.append_of_mem hmem
  have h : g.statements block = before ++ stmt :: (after ++ g.body block) := by
    rw [← phis_append_body, hphis]
    simp
  have h' : g.statements block' = (g.phis block' ++ before') ++ stmt' :: after' := by
    rw [← phis_append_body, hbody]
    simp
  obtain ⟨rfl, hlength⟩ := one_place hg hblock hblock' h h' hv hv'
  rw [hphis] at hlength
  simp at hlength

/-- What the walk finds live is live. -/
theorem liveOut_of_walk (hg : g.SSA entry) (hok : g.Harmless) (hblock : block ∈ g.nodes)
    (h : LiveOut g.Edge g.walkEvents block v) : LiveOut g.Edge g.events block v := by
  refine h.induction (motive := fun a => a ∈ g.nodes → LiveOut g.Edge g.events a v) ?_ ?_ hblock
  · intro a b hedge hreach ha
    rw [walkEvents, reaches_edgeEvents] at hreach
    rcases hreach with huse | ⟨hno, hreach⟩
    · exact .here hedge (reaches_edgeEvents.mpr (.inl (mem_phiUses_of_kept huse)))
    · rcases reaches_allDefs hreach with hreach | ⟨before, stmt, after, hbody, hdef, hnot, hreach⟩
      · exact .here hedge (reaches_edgeEvents.mpr (.inr ⟨hno, hreach⟩))
      · exact hok.fpRet a ha b hedge before stmt after v hbody hdef hnot (.inl hreach)
  intro a b hedge hno _ ih ha
  have hlive : LiveOut g.Edge g.events b v := ih (hg.closed a ha b hedge)
  rw [walkEvents, define_mem_edgeEvents, not_or] at hno
  rcases define_allDefs hno.2 with hbody | ⟨before, stmt, after, hbody, hdef, hnot, hafter⟩
  · refine .step hedge ?_ hlive
    rw [events, define_mem_edgeEvents, not_or]
    exact ⟨hno.1, hbody⟩
  · exact hok.fpRet a ha b hedge before stmt after v hbody hdef hnot (.inr ⟨hafter, hlive⟩)

/-- The walk knows fewer definitions than there are. -/
theorem walk_of_kept (h : LiveOut g.Edge g.keptEvents block v) : LiveOut g.Edge g.walkEvents block v := by
  refine h.induction (motive := fun a => LiveOut g.Edge g.walkEvents a v) ?_ ?_
  · intro a b hedge hreach
    refine .here hedge ?_
    rw [keptEvents, reaches_edgeEvents] at hreach
    rw [walkEvents, reaches_edgeEvents]
    exact hreach.imp_right fun h => ⟨h.1, reaches_defs h.2⟩
  intro a b hedge hno _ ih
  refine .step hedge ?_ ih
  rw [keptEvents, define_mem_edgeEvents, not_or] at hno
  rw [walkEvents, define_mem_edgeEvents, not_or]
  exact ⟨hno.1, define_defs hno.2⟩

/-- What is live is found by the walk. -/
theorem walk_of_liveOut (hg : g.SSA entry) (hok : g.Harmless) (hblock : block ∈ g.nodes)
    (h : LiveOut g.Edge g.events block v) : LiveOut g.Edge g.walkEvents block v := by
  refine h.induction (motive := fun a => a ∈ g.nodes → LiveOut g.Edge g.walkEvents a v) ?_ ?_ hblock
  · intro a b hedge hreach ha
    rw [events, reaches_edgeEvents] at hreach
    rcases hreach with huse | ⟨hno, hreach⟩
    · rcases kept_or_lost huse with hkept | hlost
      · exact .here hedge (reaches_edgeEvents.mpr (.inl hkept))
      · exact walk_of_kept (hok.phi a ha b hedge v hlost)
    · exact .here hedge (reaches_edgeEvents.mpr (.inr ⟨hno, reaches_defs hreach⟩))
  intro a b hedge hno _ ih ha
  refine .step hedge ?_ (ih (hg.closed a ha b hedge))
  rw [events, define_mem_edgeEvents, not_or] at hno
  rw [walkEvents, define_mem_edgeEvents, not_or]
  exact ⟨hno.1, define_defs hno.2⟩

/-- If the walk finds what is live and nothing else, the graph is harmless. -/
theorem harmless_of_exact (hg : g.SSA entry)
    (h : ∀ block ∈ g.nodes, ∀ v, LiveOut g.Edge g.walkEvents block v ↔ LiveOut g.Edge g.events block v) :
    g.Harmless where
  phi := by
    rintro pred hpred block hedge v ⟨before, stmt, after, hphis, hsource, hdst⟩
    have hblock : block ∈ g.nodes := hg.closed pred hpred block hedge
    have huse : v ∈ phiUses pred (g.phis block) :=
      List.mem_filterMap.mpr ⟨stmt, hphis ▸ List.mem_append_right _ List.mem_cons_self, hsource⟩
    have hlive : LiveOut g.Edge g.walkEvents pred v :=
      (h pred hpred v).mpr (.here hedge (reaches_edgeEvents.mpr (.inl huse)))
    -- the variable is the destination of a phi assignment, and so no call defines it
    obtain ⟨stmt', hmem, hdef⟩ := List.mem_flatMap.mp hdst
    have hphi : stmt' ∈ g.phis block := by
      rw [hphis]
      rcases List.mem_append.mp hmem with hmem | hmem
      · exact List.mem_append_left _ hmem
      · rw [List.mem_singleton.mp hmem]
        exact List.mem_append_right _ List.mem_cons_self
    have hnone : ∀ b ∈ g.nodes, ∀ before stmt after, g.body b = before ++ stmt :: after → v ∉ stmt.allDefs := by
      intro b hb before stmt after hbody
      exact not_defined_in_body hg hblock hb hphi (Statement.mem_allDefs hdef)
        (hbody ▸ List.mem_append_right _ List.mem_cons_self)
    refine hlive.induction (motive := fun a => a ∈ g.nodes → LiveOut g.Edge g.keptEvents a v) ?_ ?_ hpred
    · intro a b hedge hreach ha
      refine .here hedge ?_
      rw [walkEvents, reaches_edgeEvents] at hreach
      rw [keptEvents, reaches_edgeEvents]
      refine hreach.imp_right fun hreach => ⟨hreach.1, ?_⟩
      rcases reaches_allDefs hreach.2 with hreach | ⟨before, stmt, after, hbody, hdef, -⟩
      · exact hreach
      · exact absurd hdef (hnone b (hg.closed a ha b hedge) before stmt after hbody)
    intro a b hedge hno _ ih ha
    have hb : b ∈ g.nodes := hg.closed a ha b hedge
    refine .step hedge ?_ (ih hb)
    rw [walkEvents, define_mem_edgeEvents, not_or] at hno
    rw [keptEvents, define_mem_edgeEvents, not_or]
    refine ⟨hno.1, ?_⟩
    rcases define_allDefs hno.2 with hbody | ⟨before, stmt, after, hbody, hdef, -⟩
    · exact hbody
    · exact absurd hdef (hnone b hb before stmt after hbody)
  fpRet := by
    intro pred hpred block hedge before stmt after v hbody hdef hnot hafter
    have hblock : block ∈ g.nodes := hg.closed pred hpred block hedge
    refine (h pred hpred v).mp ?_
    have hstatements : g.statements block = (g.phis block ++ before) ++ stmt :: after := by
      rw [← phis_append_body, hbody]
      simp
    -- nothing before the call defines the variable
    have hphis : v ∉ (g.phis block).flatMap Statement.defs := by
      intro hmem
      obtain ⟨stmt', hphi, hdef'⟩ := List.mem_flatMap.mp hmem
      exact not_defined_in_body hg hblock hblock hphi (Statement.mem_allDefs hdef')
        (hbody ▸ List.mem_append_right _ List.mem_cons_self) hdef
    have hbefore : define v ∉ bodyEvents Statement.defs before := by
      rw [define_mem_bodyEvents]
      rintro ⟨stmt', hmem, hdef'⟩
      obtain ⟨before', after', rfl⟩ := List.append_of_mem hmem
      have hstatements' : g.statements block = (g.phis block ++ before') ++ stmt' :: (after' ++ stmt :: after) := by
        rw [hstatements]
        simp
      have hlength := (one_place hg hblock hblock hstatements hstatements' hdef (Statement.mem_allDefs hdef')).2
      simp at hlength
    have hsplit : bodyEvents Statement.defs (g.body block) =
        bodyEvents Statement.defs before ++ bodyEvents Statement.defs (stmt :: after) := by
      rw [hbody, bodyEvents, List.flatMap_append]
      rfl
    rcases hafter with hreach | ⟨hno, hlive⟩
    · refine .here hedge (reaches_edgeEvents.mpr (.inr ⟨hphis, ?_⟩))
      rw [hsplit, reaches_append, reaches_bodyEvents_cons]
      exact .inr ⟨hbefore, .inr ⟨hnot, reaches_defs hreach⟩⟩
    refine .step hedge ?_ ((h block hblock v).mpr hlive)
    rw [walkEvents, define_mem_edgeEvents, not_or]
    refine ⟨hphis, ?_⟩
    rw [define_mem_bodyEvents]
    rintro ⟨stmt', hmem, hdef'⟩
    rw [hbody, List.mem_append, List.mem_cons] at hmem
    rcases hmem with hmem | rfl | hmem
    · exact hbefore (define_mem_bodyEvents.mpr ⟨stmt', hmem, hdef'⟩)
    · exact hnot hdef'
    · exact define_defs hno (define_mem_bodyEvents.mpr ⟨stmt', hmem, hdef'⟩)

/-- The analysis returns, and its live-out sets are those of the paths. -/
def Exact (g : Graph K) (order : List K) : Prop :=
  ∃ s, Analyzes g order s ∧
    ∀ block ∈ g.nodes, ∀ v, v ∈ s.liveOuts block ↔ LiveOut g.Edge g.events block v

/-- The analysis returns for every graph in SSA form. -/
theorem exists_analyzes (hg : g.SSA entry) {order : List K} (horder : g.PostOrder entry order) :
    ∃ s, Analyzes g order s ∧ ∀ block ∈ g.nodes, ∀ v,
      v ∈ s.liveOuts block ↔ LiveOut g.Edge g.walkEvents block v := by
  have hmem : ∀ block, block ∈ order ↔ block ∈ g.nodes := by
    intro block
    rw [horder.mem_iff]
    constructor
    · intro hreach
      induction hreach with
      | refl => exact hg.entry_mem
      | tail _ hedge ih => exact hg.closed _ ih _ hedge
    · exact hg.reachable block
  obtain ⟨fuel, s, hloop, hinv, hdone⟩ := exists_loop hg (inv_init hmem)
  exact ⟨s, ⟨fuel, hloop⟩, fun block hblock v => mem_liveOuts hg hinv hdone hblock⟩

/-- The analysis is exact if and only if the graph is harmless. -/
theorem exact_iff (hg : g.SSA entry) {order : List K} (horder : g.PostOrder entry order) :
    Exact g order ↔ g.Harmless := by
  obtain ⟨s, hs, hmem⟩ := exists_analyzes hg horder
  constructor
  · rintro ⟨s', ⟨fuel', hloop'⟩, hexact⟩
    obtain ⟨fuel, hloop⟩ := hs
    obtain rfl := loop_unique hloop hloop'
    exact harmless_of_exact hg fun block hblock v => (hmem block hblock v).symm.trans (hexact block hblock v)
  · intro hok
    refine ⟨s, hs, fun block hblock v => (hmem block hblock v).trans ?_⟩
    exact ⟨liveOut_of_walk hg hok hblock, walk_of_liveOut hg hok hblock⟩

end Exact

/-! ## Loops of one block -/

section Loops

/-- A block that is entered from block `0` and from itself. -/
def loopGraph (init statements : List (Statement Nat)) : Graph Nat where
  nodes := [0, 1]
  successors block := if block ≤ 1 then [1] else []
  predecessors block := if block = 1 then [0, 1] else []
  statements block := if block = 0 then init else if block = 1 then statements else []

/-- `vvar_10 = phi(vvar_1, vvar_12); vvar_12 = vvar_10 + 1`. -/
def countLoop : Graph Nat := loopGraph
  [.assignment (some 1) (.node [] false) []]
  [.phi 10 [(0, some 1), (1, some 12)], .assignment (some 12) (.node [.virtualVariable 10 false] false) []]

/-- `vvar_10 = phi(vvar_1, vvar_11); vvar_11 = phi(vvar_2, vvar_10)`. -/
def swapLoop : Graph Nat := loopGraph
  [.assignment (some 1) (.node [] false) [], .assignment (some 2) (.node [] false) []]
  [.phi 10 [(0, some 1), (1, some 11)], .phi 11 [(0, some 2), (1, some 10)]]

variable {init statements : List (Statement Nat)}

theorem loopGraph_edge {a b : Nat} : (loopGraph init statements).Edge a b ↔ a ≤ 1 ∧ b = 1 := by
  unfold Graph.Edge loopGraph
  dsimp only
  split <;> simp_all

theorem loopGraph_reach {block : Nat} :
    Relation.ReflTransGen (loopGraph init statements).Edge 0 block ↔ block = 1 ∨ block = 0 := by
  constructor
  · intro h
    cases h with
    | refl => exact .inr rfl
    | tail _ hedge => exact .inl (loopGraph_edge.mp hedge).2
  · rintro (rfl | rfl)
    · exact .single (loopGraph_edge.mpr ⟨Nat.zero_le 1, rfl⟩)
    · exact .refl

theorem loopGraph_postOrder :
    (loopGraph init statements).PostOrder 0 [1, 0] where
  nodup := by decide
  mem_iff block := by
    rw [loopGraph_reach]
    simp

/-- The definitions of a graph, place by place. -/
theorem one_definition_of_places {g : Graph Nat}
    (h : ∀ block ∈ g.nodes, ∀ block' ∈ g.nodes, ∀ (i : Fin (g.statements block).length)
      (i' : Fin (g.statements block').length), ∀ v ∈ ((g.statements block).get i).allDefs,
      v ∈ ((g.statements block').get i').allDefs → block = block' ∧ i.val = i'.val) :
    ∀ block ∈ g.nodes, ∀ block' ∈ g.nodes, ∀ (v i i' : Nat) (stmt stmt' : Statement Nat),
      (g.statements block)[i]? = some stmt → (g.statements block')[i']? = some stmt' →
      v ∈ stmt.allDefs → v ∈ stmt'.allDefs → block = block' ∧ i = i' := by
  intro block hblock block' hblock' v i i' stmt stmt' hi hi' hv hv'
  obtain ⟨hlt, rfl⟩ := List.getElem?_eq_some_iff.mp hi
  obtain ⟨hlt', rfl⟩ := List.getElem?_eq_some_iff.mp hi'
  exact h block hblock block' hblock' ⟨i, hlt⟩ ⟨i', hlt'⟩ v hv hv'

theorem loopGraph_ssa
    (hhead : ∀ block ∈ [0, 1], isHeadControlledLoopBlock ((loopGraph init statements).statements block) = false)
    (hphis : ∀ block ∈ [0, 1], ∀ stmt ∈ (loopGraph init statements).body block, stmt.isPhi = false)
    (hsources : ∀ block ∈ [0, 1], ∀ stmt ∈ (loopGraph init statements).phis block, block = 1 ∧ stmt.sourceBlocks = [0, 1])
    (hdefs : ∀ block ∈ [0, 1], ∀ block' ∈ [0, 1], ∀ (i : Fin ((loopGraph init statements).statements block).length) (i' : Fin ((loopGraph init statements).statements block').length), ∀ v ∈ (((loopGraph init statements).statements block).get i).allDefs, v ∈ (((loopGraph init statements).statements block').get i').allDefs → block = block' ∧ i.val = i'.val) :
    (loopGraph init statements).SSA 0 where
  entry_mem := List.mem_cons_self
  closed _ _ block hblock := by
    rw [(loopGraph_edge.mp hblock).2]
    exact List.mem_cons_of_mem _ List.mem_cons_self
  mem_predecessors block _ pred := by
    rw [loopGraph_edge]
    by_cases hblock : block = 1
    · simp [loopGraph, hblock]
      omega
    · simp [loopGraph, hblock]
  reachable block hblock := by
    rw [loopGraph_reach]
    exact (by simpa [loopGraph] using hblock : block = 0 ∨ block = 1).symm
  not_headControlled := hhead
  phis_first := hphis
  sources block hblock stmt hstmt := by
    obtain ⟨rfl, hsources⟩ := hsources block hblock stmt hstmt
    rw [hsources]
    exact ⟨by decide, fun pred => Iff.rfl⟩
  one_definition := one_definition_of_places hdefs

theorem countLoop_ssa : countLoop.SSA 0 :=
  loopGraph_ssa (by decide) (by decide) (by decide) (by decide)

theorem swapLoop_ssa : swapLoop.SSA 0 :=
  loopGraph_ssa (by decide) (by decide) (by decide) (by decide)

/-- No phi assignment reads an earlier destination, and there are no calls. -/
theorem countLoop_exact : Exact countLoop [1, 0] := by
  refine (exact_iff countLoop_ssa loopGraph_postOrder).mpr ⟨?_, ?_⟩
  · rintro pred - block hedge v ⟨before, stmt, after, hphis, hsource, hdst⟩
    obtain rfl : block = 1 := (loopGraph_edge.mp hedge).2
    have hkept : ∀ pred ∈ [0, 1], ∀ stmt ∈ countLoop.phis 1, stmt.source pred ≠ some 10 ∧ stmt.defs = [10] := by
      decide
    have hpred : pred = 0 ∨ pred = 1 := by
      have := (loopGraph_edge.mp hedge).1
      omega
    have hmem : ∀ {stmt'}, stmt' ∈ before ++ [stmt] → stmt' ∈ countLoop.phis 1 := by
      intro stmt' hmem
      rw [hphis]
      simp only [List.mem_append, List.mem_cons, List.not_mem_nil, or_false] at hmem ⊢
      tauto
    obtain ⟨stmt', hmem', hdef⟩ := List.mem_flatMap.mp hdst
    rw [(hkept 0 (by decide) stmt' (hmem hmem')).2, List.mem_singleton] at hdef
    subst hdef
    exact absurd hsource (hkept pred (by simpa using hpred) stmt (hmem (by simp))).1
  · rintro pred - block hedge before stmt after v hbody hdef hnot -
    obtain rfl : block = 1 := (loopGraph_edge.mp hedge).2
    have hsame : ∀ stmt ∈ countLoop.body 1, stmt.allDefs = stmt.defs := by decide
    rw [hsame stmt (hbody ▸ List.mem_append_right _ List.mem_cons_self)] at hdef
    exact absurd hdef hnot

/-- The second phi assignment reads the destination of the first, which is then taken out of
the live set of the edge. -/
theorem swapLoop_not_exact : swapLoop.SSA 0 ∧ swapLoop.PostOrder 0 [1, 0] ∧ ¬ Exact swapLoop [1, 0] := by
  refine ⟨swapLoop_ssa, loopGraph_postOrder, ?_⟩
  rintro ⟨s, ⟨fuel, hloop⟩, hexact⟩
  have hrun : ((loop swapLoop 5 { worklist := [1, 0] }).map fun s => s.liveOuts 1) = some {11} := by decide
  obtain ⟨s', hs', hout⟩ := Option.map_eq_some_iff.mp hrun
  obtain rfl := loop_unique hloop hs'
  have hlive : LiveOut swapLoop.Edge swapLoop.events 1 10 :=
    .here (loopGraph_edge.mpr ⟨le_rfl, rfl⟩) (Graph.reaches_edgeEvents.mpr (.inl (by decide)))
  have hmem := (hexact 1 (by decide) 10).mpr hlive
  rw [hout] at hmem
  exact absurd hmem (by decide)

end Loops

end Angr.SLiveness
