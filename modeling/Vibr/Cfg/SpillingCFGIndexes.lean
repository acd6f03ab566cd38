import Vibr.Cfg.SpillingCFG

/-!
# The indexes of spilling control-flow graphs

Three indexes follow the graph: out-degrees, destinations of calls, and keys by address. The
invariant adds what the operations rely on to keep them so: the jump kinds of all edges are
strings, and those at the source and at the destination of an edge are the same.
-/

namespace Angr.SpillingCFG

variable {self : SpillingCFG} {E : Enumeration K} {stale : Finset K} {src dst key : K} {attr edata : EdgeData}

/-! ## Keys by address -/

def keysAt (keys : Finset K) (addr : Addr) : Finset K := keys.filter (blockKeyToAddr · = addr)

/-- The index has the keys `keys`, and no address without keys. -/
def Indexes (keysByAddr : Dict Addr (Finset K)) (keys : Finset K) : Prop :=
  ∀ addr, keysByAddr.get? addr = if keysAt keys addr = ∅ then none else some (keysAt keys addr)

variable {keysByAddr : Dict Addr (Finset K)} {keys : Finset K}

theorem Indexes.getD (h : Indexes keysByAddr keys) (addr : Addr) :
    (keysByAddr.get? addr).getD ∅ = keysAt keys addr := by
  rw [h addr]
  split
  · rename_i hempty
    exact hempty.symm
  · rfl

theorem Indexes.addKey (h : Indexes keysByAddr keys) (key : K) :
    Indexes (addKey keysByAddr (blockKeyToAddr key) key) (insert key keys) := by
  intro addr
  unfold SpillingCFG.addKey keysAt
  rw [Dict.get?_set, Finset.filter_insert, h.getD]
  split
  · rename_i heq
    subst heq
    rw [if_neg (Finset.insert_ne_empty _ _)]
    rfl
  · exact h addr

theorem Indexes.discardKey (h : Indexes keysByAddr keys) (key : K) :
    Indexes (discardKey keysByAddr (blockKeyToAddr key) key) (keys.erase key) := by
  intro addr
  have hkeys : keysAt (keys.erase key) addr =
      if blockKeyToAddr key = addr then (keysAt keys addr).erase key else keysAt keys addr := by
    ext k
    unfold keysAt
    split
    · rw [Finset.mem_filter, Finset.mem_erase, Finset.mem_erase, Finset.mem_filter, and_assoc]
    rename_i hne
    rw [Finset.mem_filter, Finset.mem_erase, Finset.mem_filter, and_assoc, and_iff_right_iff_imp]
    rintro ⟨-, haddr⟩ rfl
    exact hne haddr
  unfold SpillingCFG.discardKey
  dsimp only
  rw [h.getD, hkeys]
  by_cases haddr : blockKeyToAddr key = addr
  · subst haddr
    rw [if_pos rfl]
    split
    · rw [Dict.get?_restrict, if_neg (by simp)]
    · rw [Dict.get?_set, if_pos rfl]
  rw [if_neg haddr]
  split
  · rw [Dict.get?_restrict, if_pos (by simpa using Ne.symm haddr), h addr]
  · rw [Dict.get?_set, if_neg haddr, h addr]

theorem Indexes.foldl_addKey (h : Indexes keysByAddr keys) {nodes : Dict K CFGNode}
    (hnodes : ∀ p ∈ nodes, getBlockKey p.2 = p.1) :
    Indexes (nodes.foldl (fun d p => SpillingCFG.addKey d p.2.addr p.1) keysByAddr) (keys ∪ Dict.keys nodes) := by
  induction nodes generalizing keysByAddr keys with
  | nil => simpa [Dict.keys] using h
  | cons p nodes ih =>
    have haddr : p.2.addr = blockKeyToAddr p.1 := by
      rw [← hnodes p List.mem_cons_self, blockKeyToAddr_getBlockKey]
    have hunion : keys ∪ Dict.keys (p :: nodes) = insert p.1 keys ∪ Dict.keys nodes := by
      rw [Dict.keys, List.map_cons, List.toFinset_cons, Finset.union_insert, Finset.insert_union]
      rfl
    rw [List.foldl_cons, haddr, hunion]
    exact ih (h.addKey p.1) fun p hp => hnodes p (List.mem_cons_of_mem _ hp)

/-! ## The invariant -/

/-- There is a call from `u` to `v`. -/
def Call (graph : SpillingDiGraph) (u v : K) : Prop :=
  ∃ edata, graph.adj.edge u v = some edata ∧ isCall edata = some true

/-- The indexes are in step with the graph. -/
structure InStep (cfg : SpillingCFG) : Prop where
  outDegree : ∀ key, cfg.outDegreeByKey key = (cfg.graph.adj.succ key).card
  callDst : ∀ key, key ∈ cfg.callDstKeys ↔ ∃ src, Call cfg.graph src key
  keysByAddr : Indexes cfg.keysByAddr cfg.graph.adj.nodes

/-- Every edge has a jump kind that is a string, the same at both ends. -/
def Kinds (graph : SpillingDiGraph) : Prop :=
  ∀ u v edata, graph.adj.edge u v = some edata →
    ∃ jk, jumpkind edata = some jk ∧ jumpkind (graph.predData u v) = some jk

/-- The invariant, where the index may have `stale` keys. -/
structure Inv (stale : Finset K) (cfg : SpillingCFG) : Prop where
  nodes_keys : Dict.keys cfg.nodes = cfg.graph.adj.nodes
  nodes_key : ∀ p ∈ cfg.nodes, getBlockKey p.2 = p.1
  kinds : Kinds cfg.graph
  outDegree : ∀ key, cfg.outDegreeByKey key = (cfg.graph.adj.succ key).card
  callDst : ∀ key, key ∈ cfg.callDstKeys ↔ ∃ src, Call cfg.graph src key
  keysByAddr : Indexes cfg.keysByAddr (stale ∪ cfg.graph.adj.nodes)

theorem Inv.inStep (h : Inv ∅ self) : InStep self :=
  ⟨h.outDegree, h.callDst, by simpa using h.keysByAddr⟩

/-! ## Adding nodes and edges -/

theorem addNode_inv (h : Inv stale self) (node : CFGNode) : Inv stale (self.addNode node) where
  nodes_keys := by
    change Dict.keys (self.nodes.set _ _) = insert _ self.graph.adj.nodes
    rw [Dict.keys_set, h.nodes_keys]
  nodes_key p hp := by
    rcases Dict.mem_set hp with rfl | hp
    · rfl
    · exact h.nodes_key p hp
  kinds := h.kinds
  outDegree key := by
    change self.outDegreeByKey key = ((self.graph.adj.addNode _).succ key).card
    rw [DiGraph.succ_addNode, h.outDegree]
  callDst := h.callDst
  keysByAddr := by
    change Indexes (addKey self.keysByAddr node.addr (getBlockKey node)) (stale ∪ insert _ self.graph.adj.nodes)
    rw [← blockKeyToAddr_getBlockKey, Finset.union_insert]
    exact h.keysByAddr.addKey _

/-- A call whose edge is added again, as something else, is not the only one. -/
def KeepsCall (graph : SpillingDiGraph) (src dst : K) (attr : EdgeData) : Prop :=
  Call graph src dst → (attr "jumpkind").isSome → isCall attr = some true ∨ ∃ u, u ≠ src ∧ Call graph u dst

theorem jumpkind_update (d attr : EdgeData) :
    jumpkind (d.update attr) = if (attr "jumpkind").isSome then jumpkind attr else jumpkind d := by
  unfold jumpkind DiGraph.EdgeData.update
  cases attr "jumpkind" <;> rfl

/-- The empty jump kind of an edge without one is no call. -/
theorem isCall_of_missing (h : attr "jumpkind" = none) : isCall attr = some false := by
  unfold isCall jumpkind
  rw [h]
  decide

variable {graph : SpillingDiGraph}

theorem addEdge_kinds (h : Kinds graph) {jk : String} (hjk : jumpkind attr = some jk) :
    Kinds (graph.addEdge src dst attr) := by
  intro u v edata hedge
  change (if u = src ∧ v = dst then some ((graph.adj.data src dst).update attr) else graph.adj.edge u v) =
    some edata at hedge
  change ∃ jk, _ ∧ jumpkind (if u = src ∧ v = dst then (graph.adj.addEdge src dst attr).data src dst
    else graph.predData u v) = some jk
  split at hedge
  · rename_i huv
    have hdata : (graph.adj.addEdge src dst attr).data src dst = (graph.adj.data src dst).update attr :=
      DiGraph.data_of_edge (if_pos ⟨rfl, rfl⟩)
    have hsome : ∃ jk, jumpkind ((graph.adj.data src dst).update attr) = some jk := by
      rw [jumpkind_update]
      split
      · exact ⟨jk, hjk⟩
      cases hold : graph.adj.edge src dst with
      | none => exact ⟨"", by rw [DiGraph.data, hold]; rfl⟩
      | some old =>
        obtain ⟨jk', hjk', -⟩ := h src dst old hold
        exact ⟨jk', by rw [DiGraph.data_of_edge hold, hjk']⟩
    obtain ⟨jk', hjk'⟩ := hsome
    rw [if_pos huv, hdata, ← Option.some.inj hedge]
    exact ⟨jk', hjk', hjk'⟩
  · rename_i huv
    rw [if_neg huv]
    exact h u v edata hedge

/-- The calls after an edge has been added. -/
theorem call_addEdge {u v : K} :
    Call (graph.addEdge src dst attr) u v ↔
      if u = src ∧ v = dst then isCall ((graph.adj.data src dst).update attr) = some true else Call graph u v := by
  have hedge : (graph.addEdge src dst attr).adj.edge u v =
      if u = src ∧ v = dst then some ((graph.adj.data src dst).update attr) else graph.adj.edge u v := rfl
  unfold Call
  rw [hedge]
  split
  · exact ⟨fun ⟨edata, heq, hcall⟩ => Option.some.inj heq ▸ hcall, fun hcall => ⟨_, rfl, hcall⟩⟩
  · rfl

theorem addEdge_callDst {call : Bool} (hcall : isCall attr = some call) (hkeep : KeepsCall graph src dst attr) :
    (∃ u, Call (graph.addEdge src dst attr) u key) ↔ (key = dst ∧ call = true) ∨ ∃ u, Call graph u key := by
  have hupdate : isCall ((graph.adj.data src dst).update attr) =
      if (attr "jumpkind").isSome then isCall attr else isCall (graph.adj.data src dst) := by
    unfold isCall
    rw [jumpkind_update]
    split <;> rfl
  by_cases hkey : key = dst
  swap
  · simp [call_addEdge, hkey]
  subst hkey
  simp only [call_addEdge, and_true, true_and]
  by_cases hattr : (attr "jumpkind").isSome
  · rw [if_pos hattr, hcall] at hupdate
    rw [hupdate, Option.some.injEq]
    constructor
    · rintro ⟨u, hu⟩
      split at hu
      · exact .inl hu
      · exact .inr ⟨u, hu⟩
    rintro (htrue | ⟨u, hu⟩)
    · exact ⟨src, by rwa [if_pos rfl]⟩
    by_cases hsrc : u = src
    · subst hsrc
      rcases hkeep hu hattr with htrue | ⟨u', hne, hu'⟩
      · rw [hcall, Option.some.injEq] at htrue
        exact ⟨u, by rwa [if_pos rfl]⟩
      · exact ⟨u', by rwa [if_neg hne]⟩
    · exact ⟨u, by rwa [if_neg hsrc]⟩
  · have hmissing : attr "jumpkind" = none := by simpa using hattr
    rw [isCall_of_missing hmissing, Option.some.injEq] at hcall
    rw [if_neg hattr] at hupdate
    subst hcall
    have hsame : isCall (graph.adj.data src key) = some true ↔ Call graph src key := by
      unfold Call DiGraph.data
      cases graph.adj.edge src key with
      | none =>
        have hempty : isCall (DiGraph.EdgeData.empty : EdgeData) = some false := isCall_of_missing rfl
        simp [hempty]
      | some edata => simp
    have hiff : ∀ u, (if u = src then isCall (graph.adj.data src key) = some true else Call graph u key) ↔
        Call graph u key := by
      intro u
      split
      · rename_i hu
        rw [hu, hsame]
      · rfl
    simp only [hupdate, hiff]
    simp

theorem nodes_addEdge (hsrc : src ∈ graph.adj.nodes) (hdst : dst ∈ graph.adj.nodes) :
    (graph.addEdge src dst attr).adj.nodes = graph.adj.nodes := by
  change insert src (insert dst graph.adj.nodes) = graph.adj.nodes
  rw [Finset.insert_eq_of_mem hdst, Finset.insert_eq_of_mem hsrc]

theorem addEdgeByKey_inv (h : Inv stale self) (hsrc : src ∈ self.graph.adj.nodes) (hdst : dst ∈ self.graph.adj.nodes)
    (hjk : jumpkind attr ≠ none) (hkeep : KeepsCall self.graph src dst attr) :
    ∃ self', self.addEdgeByKey src dst attr = some self' ∧ Inv stale self' ∧
      self'.graph = self.graph.addEdge src dst attr := by
  obtain ⟨jk, hjk⟩ := Option.ne_none_iff_exists'.mp hjk
  obtain ⟨call, hcall⟩ : ∃ call, isCall attr = some call := ⟨isCallKind jk, by rw [isCall, hjk]; rfl⟩
  have hnodes : (self.graph.addEdge src dst attr).adj.nodes = self.graph.adj.nodes := nodes_addEdge hsrc hdst
  unfold addEdgeByKey
  dsimp only
  rw [if_pos hsrc, if_pos hdst, hcall]
  refine ⟨_, rfl, ?_, rfl⟩
  refine
    { nodes_keys := by rw [hnodes]; exact h.nodes_keys
      nodes_key := h.nodes_key
      kinds := addEdge_kinds h.kinds hjk
      outDegree := fun key => ?_
      callDst := fun key => ?_
      keysByAddr := by rw [hnodes]; exact h.keysByAddr }
  · have hold := h.outDegree key
    unfold outDegreeByKey at hold ⊢
    change _ = (((self.graph.adj.addEdge src dst attr).succ key).card : Int)
    rw [DiGraph.succ_addEdge]
    dsimp only
    by_cases hedge : self.graph.adj.hasEdge src dst
    · rw [if_pos hedge, hold]
      split
      · rename_i hkey
        rw [Finset.insert_eq_of_mem (DiGraph.mem_succ.mpr (hkey ▸ hedge))]
      · rfl
    rw [if_neg hedge, Dict.get?_set]
    by_cases hkey : key = src
    · subst hkey
      rw [if_pos rfl, if_pos rfl, hold, Finset.card_insert_of_notMem fun hmem => hedge (DiGraph.mem_succ.mp hmem)]
      simp
    · rw [if_neg (Ne.symm hkey), if_neg hkey, hold]
  · change key ∈ (if call then insert dst self.callDstKeys else self.callDstKeys) ↔ _
    rw [addEdge_callDst hcall hkeep, ← h.callDst]
    cases call <;> simp

/-! ## Removing nodes and edges -/

theorem hasOtherCall_spec {skip : K} {inEdges : List (K × EdgeData)} (h : ∀ p ∈ inEdges, isCall p.2 ≠ none) :
    ∃ other, hasOtherCall skip inEdges = some other ∧
      (other = true ↔ ∃ p ∈ inEdges, p.1 ≠ skip ∧ isCall p.2 = some true) := by
  induction inEdges with
  | nil => exact ⟨false, rfl, by simp⟩
  | cons p inEdges ih =>
    obtain ⟨pred, edata⟩ := p
    obtain ⟨other, hother, hiff⟩ := ih fun p hp => h p (List.mem_cons_of_mem _ hp)
    obtain ⟨call, hcall⟩ := Option.ne_none_iff_exists'.mp (h (pred, edata) List.mem_cons_self)
    dsimp only at hcall
    unfold hasOtherCall
    by_cases hskip : pred = skip
    · rw [if_pos hskip]
      exact ⟨other, hother, by simp [hiff, hskip]⟩
    rw [if_neg hskip, hcall]
    cases call with
    | true => exact ⟨true, rfl, by simp [hskip, hcall]⟩
    | false => exact ⟨other, hother, by simp [hiff, hcall]⟩

theorem Kinds.isCall_pred (h : Kinds graph) {u v : K} (hedge : graph.adj.edge u v = some edata) :
    isCall (graph.predData u v) = isCall edata ∧ isCall edata ≠ none := by
  obtain ⟨jk, hjk, hpred⟩ := h u v edata hedge
  unfold isCall
  rw [hjk, hpred]
  exact ⟨rfl, by simp⟩

/-- `key` stays a destination of calls if another block than `src` calls it. -/
theorem dropCall_spec (h : Kinds graph) (calls : Finset K) :
    ∃ calls', dropCall E graph src key calls = some calls' ∧
      ∀ k, k ∈ calls' ↔ k ∈ calls ∧ (k = key → ∃ u, u ≠ src ∧ Call graph u key) := by
  have hmem : ∀ p : K × EdgeData, p ∈ graph.inEdges E key ↔
      graph.adj.hasEdge p.1 key = true ∧ p.2 = graph.predData p.1 key := by
    intro p
    unfold SpillingDiGraph.inEdges
    rw [List.mem_map]
    constructor
    · rintro ⟨u, hu, rfl⟩
      exact ⟨DiGraph.mem_pred.mp ((E.mem_list _ _).mp hu), rfl⟩
    · rintro ⟨hedge, hdata⟩
      exact ⟨p.1, (E.mem_list _ _).mpr (DiGraph.mem_pred.mpr hedge), by rw [← hdata]⟩
  have hkinds : ∀ p ∈ graph.inEdges E key, isCall p.2 ≠ none := by
    intro p hp
    obtain ⟨hedge, hdata⟩ := (hmem p).mp hp
    obtain ⟨edata, hedata⟩ := Option.isSome_iff_exists.mp hedge
    rw [hdata, (h.isCall_pred hedata).1]
    exact (h.isCall_pred hedata).2
  obtain ⟨other, hother, hiff⟩ := @hasOtherCall_spec src _ hkinds
  have hcall : other = true ↔ ∃ u, u ≠ src ∧ Call graph u key := by
    rw [hiff]
    constructor
    · rintro ⟨p, hp, hne, hp_call⟩
      obtain ⟨hedge, hdata⟩ := (hmem p).mp hp
      obtain ⟨edata, hedata⟩ := Option.isSome_iff_exists.mp hedge
      rw [hdata, (h.isCall_pred hedata).1] at hp_call
      exact ⟨p.1, hne, edata, hedata, hp_call⟩
    · rintro ⟨u, hne, edata, hedata, hu_call⟩
      refine ⟨(u, graph.predData u key), (hmem _).mpr ⟨DiGraph.hasEdge_of_edge hedata, rfl⟩, hne, ?_⟩
      rw [(h.isCall_pred hedata).1, hu_call]
  refine ⟨if other then calls else calls.erase key, by rw [dropCall, hother]; rfl, fun k => ?_⟩
  cases other with
  | true => simp [← hcall]
  | false =>
    rw [← hcall]
    simp [and_comm]

/-- The destinations that lose their last call with a block. -/
theorem dropCalls_spec (h : Kinds graph) {succs : List K} (hsuccs : ∀ k ∈ succs, graph.adj.hasEdge key k = true)
    (calls : Finset K) :
    ∃ calls', dropCalls E graph key succs calls = some calls' ∧
      ∀ k, k ∈ calls' ↔ k ∈ calls ∧ (k ∈ succs → Call graph key k → ∃ u, u ≠ key ∧ Call graph u k) := by
  induction succs generalizing calls with
  | nil => exact ⟨calls, rfl, fun k => by simp⟩
  | cons succ succs ih =>
    have ih := ih fun k hk => hsuccs k (List.mem_cons_of_mem _ hk)
    obtain ⟨edata, hedata⟩ := Option.isSome_iff_exists.mp (hsuccs succ List.mem_cons_self)
    obtain ⟨call, hcall⟩ := Option.ne_none_iff_exists'.mp (h.isCall_pred hedata).2
    have hcall_iff : Call graph key succ ↔ call = true := by
      constructor
      · rintro ⟨edata', hedata', hcall'⟩
        rw [hedata] at hedata'
        rw [← Option.some.inj hedata', hcall] at hcall'
        exact Option.some.inj hcall'
      · rintro rfl
        exact ⟨edata, hedata, hcall⟩
    unfold dropCalls
    rw [DiGraph.data_of_edge hedata, hcall]
    dsimp only
    split
    · rename_i hif
      obtain ⟨calls₁, heq₁, hcalls₁⟩ := @dropCall_spec E key succ graph h calls
      obtain ⟨calls₂, heq₂, hcalls₂⟩ := ih calls₁
      refine ⟨calls₂, by rw [heq₁]; exact heq₂, fun k => ?_⟩
      rw [hcalls₂, hcalls₁, List.mem_cons, and_assoc]
      refine and_congr_right fun _ => ?_
      by_cases hk : k = succ
      · subst hk
        simp only [true_or, true_imp_iff, hcall_iff, hif.1]
        exact ⟨And.left, fun hother => ⟨hother, fun _ => hother⟩⟩
      · simp [hk]
    · rename_i hif
      obtain ⟨calls', heq, hcalls'⟩ := ih calls
      refine ⟨calls', heq, fun k => ?_⟩
      rw [hcalls', List.mem_cons]
      refine and_congr_right fun hmem => ?_
      by_cases hk : k = succ
      · subst hk
        have hno : ¬ Call graph key k := fun hc => hif ⟨hcall_iff.mp hc, hmem⟩
        simp [hno]
      · simp [hk]

theorem get?_decrement (cache : Dict K Int) (k : K) :
    ((decrement cache key).get? k) = if k = key then (cache.get? k).map (· - 1) else cache.get? k := by
  unfold decrement
  split
  · rename_i hnone
    split
    · rename_i hk
      rw [hk, hnone]
      rfl
    · rfl
  rename_i degree hdegree
  rw [Dict.get?_set]
  by_cases hk : k = key
  · rw [if_pos hk.symm, if_pos hk, hk, hdegree]
    rfl
  · rw [if_neg (Ne.symm hk), if_neg hk]

theorem get?_foldl_decrement {preds : List K} (hnodup : preds.Nodup) (cache : Dict K Int) (k : K) :
    ((preds.foldl decrement cache).get? k) = if k ∈ preds then (cache.get? k).map (· - 1) else cache.get? k := by
  induction preds generalizing cache with
  | nil => rfl
  | cons key preds ih =>
    obtain ⟨hnew, hnodup⟩ := List.nodup_cons.mp hnodup
    rw [List.foldl_cons, ih hnodup, get?_decrement]
    by_cases hk : k = key
    · subst hk
      simp [hnew]
    · simp [hk]

/-- The cached out-degree of a block that loses an edge. -/
theorem Inv.outDegree_erase (h : Inv stale self) (hmem : dst ∈ self.graph.adj.succ src) :
    ((self.outDegreeCache.get? src).map (· - 1)).getD 0 = (((self.graph.adj.succ src).erase dst).card : Int) := by
  have hold := h.outDegree src
  have hpos : 0 < (self.graph.adj.succ src).card := Finset.card_pos.mpr ⟨dst, hmem⟩
  unfold outDegreeByKey at hold
  rw [Finset.card_erase_of_mem hmem]
  cases hget : self.outDegreeCache.get? src with
  | none =>
    rw [hget, Option.getD_none] at hold
    omega
  | some degree =>
    rw [hget, Option.getD_some] at hold
    rw [Option.map_some, Option.getD_some, hold]
    omega

theorem call_removeEdge {u v : K} :
    Call { graph with adj := graph.adj.removeEdge src dst } u v ↔ ¬ (u = src ∧ v = dst) ∧ Call graph u v := by
  have hedge : (graph.adj.removeEdge src dst).edge u v =
      if u = src ∧ v = dst then none else graph.adj.edge u v := rfl
  unfold Call
  rw [hedge]
  by_cases huv : u = src ∧ v = dst <;> simp [huv]

theorem call_removeNode {u v : K} : Call (graph.removeNode key) u v ↔ (u ≠ key ∧ v ≠ key) ∧ Call graph u v := by
  have hedge : (graph.removeNode key).adj.edge u v =
      if u = key ∨ v = key then none else graph.adj.edge u v := rfl
  unfold Call
  rw [hedge]
  by_cases huv : u = key ∨ v = key
  · have hnot : ¬ (u ≠ key ∧ v ≠ key) := by tauto
    simp [huv, hnot]
  · have hboth : u ≠ key ∧ v ≠ key := by tauto
    simp [hboth]

/-- Removing edges keeps the jump kinds of the others. -/
theorem Kinds.mono (h : Kinds graph) {adj : DiGraph K Attr}
    (hle : ∀ u v edata, adj.edge u v = some edata → graph.adj.edge u v = some edata) :
    Kinds { graph with adj := adj } :=
  fun u v edata hedge => h u v edata (hle u v edata hedge)

/-- The destinations of calls over the other edges. -/
theorem callsWithout_spec (h : Inv ∅ self) (hedge : self.graph.adj.hasEdge src dst = true) :
    ∃ calls, self.callsWithout E src dst = some calls ∧
      ∀ k, k ∈ calls ↔ ∃ u, ¬ (u = src ∧ k = dst) ∧ Call self.graph u k := by
  obtain ⟨edata, hedata⟩ := Option.isSome_iff_exists.mp hedge
  have hsame : ¬ Call self.graph src dst →
      ∀ k, k ∈ self.callDstKeys ↔ ∃ u, ¬ (u = src ∧ k = dst) ∧ Call self.graph u k := by
    intro hno k
    rw [h.callDst]
    constructor
    · rintro ⟨u, hu⟩
      refine ⟨u, ?_, hu⟩
      rintro ⟨rfl, rfl⟩
      exact hno hu
    · rintro ⟨u, -, hu⟩
      exact ⟨u, hu⟩
  unfold callsWithout
  split
  · obtain ⟨call, hcall⟩ := Option.ne_none_iff_exists'.mp (h.kinds.isCall_pred hedata).2
    rw [hedata]
    dsimp only
    rw [hcall]
    cases call with
    | true =>
      obtain ⟨calls, heq, hcalls⟩ := @dropCall_spec E src dst self.graph h.kinds self.callDstKeys
      refine ⟨calls, heq, fun k => ?_⟩
      rw [hcalls, h.callDst]
      by_cases hk : k = dst
      · subst hk
        simp only [true_imp_iff, and_true]
        exact ⟨And.right, fun hother => ⟨hother.imp fun _ => And.right, hother⟩⟩
      · simp [hk]
    | false =>
      refine ⟨_, rfl, hsame ?_⟩
      rintro ⟨edata', hedata', htrue⟩
      rw [hedata] at hedata'
      rw [← Option.some.inj hedata', hcall] at htrue
      cases htrue
  · rename_i hdst
    exact ⟨_, rfl, hsame fun hcall => hdst ((h.callDst dst).mpr ⟨src, hcall⟩)⟩

theorem removeEdgeByKey_inv (h : Inv ∅ self) (hedge : self.graph.adj.hasEdge src dst = true) :
    ∃ self', self.removeEdgeByKey E src dst = some self' ∧ Inv ∅ self' := by
  obtain ⟨calls, hcalls_eq, hcalls⟩ := @callsWithout_spec self E src dst h hedge
  unfold removeEdgeByKey SpillingDiGraph.removeEdge
  rw [hcalls_eq, if_pos hedge]
  refine ⟨_, rfl, ?_⟩
  refine
    { nodes_keys := h.nodes_keys
      nodes_key := h.nodes_key
      kinds := h.kinds.mono fun u v edata huv => ?_
      outDegree := fun key => ?_
      callDst := fun key => ?_
      keysByAddr := h.keysByAddr }
  · change (if u = src ∧ v = dst then none else self.graph.adj.edge u v) = some edata at huv
    split at huv
    · cases huv
    · exact huv
  · change ((decrement self.outDegreeCache src).get? key).getD 0 = _
    rw [get?_decrement, DiGraph.succ_removeEdge]
    split
    · rename_i hkey
      subst hkey
      exact h.outDegree_erase (DiGraph.mem_succ.mpr hedge)
    · exact h.outDegree key
  · dsimp only
    rw [hcalls]
    simp only [call_removeEdge]

theorem removeNode_inv (h : Inv ∅ self) (node : CFGNode) :
    ∃ self', self.removeNode E node = some self' ∧ Inv ∅ self' := by
  obtain ⟨key, hkey⟩ : ∃ key, getBlockKey node = key := ⟨_, rfl⟩
  have hindex : Indexes (discardKey self.keysByAddr node.addr key) (∅ ∪ self.graph.adj.nodes.erase key) := by
    rw [← blockKeyToAddr_getBlockKey, hkey, Finset.empty_union]
    exact (by simpa using h.keysByAddr : Indexes self.keysByAddr self.graph.adj.nodes).discardKey key
  have hnodes : Dict.keys (self.nodes.restrict (· ≠ key)) = self.graph.adj.nodes.erase key := by
    rw [Dict.keys_restrict, h.nodes_keys, ← Finset.filter_ne']
    simp
  have hnodes_key : ∀ p ∈ self.nodes.restrict (· ≠ key), getBlockKey p.2 = p.1 :=
    fun p hp => h.nodes_key p (List.mem_filter.mp hp).1
  unfold removeNode
  dsimp only
  rw [hkey]
  split
  · rename_i hmem
    have hsuccs : ∀ k ∈ E.list (self.graph.adj.succ key), self.graph.adj.hasEdge key k = true :=
      fun k hk => DiGraph.mem_succ.mp ((E.mem_list _ _).mp hk)
    obtain ⟨calls, hcalls_eq, hcalls⟩ := @dropCalls_spec E key self.graph h.kinds _ hsuccs (self.callDstKeys.erase key)
    rw [hcalls_eq]
    refine ⟨_, rfl, ?_⟩
    refine
      { nodes_keys := hnodes
        nodes_key := hnodes_key
        kinds := h.kinds.mono fun u v edata huv => ?_
        outDegree := fun k => ?_
        callDst := fun k => ?_
        keysByAddr := hindex }
    · change (if u = key ∨ v = key then none else self.graph.adj.edge u v) = some edata at huv
      split at huv
      · cases huv
      · exact huv
    · change ((Dict.restrict _ (· ≠ key)).get? k).getD 0 = (((self.graph.adj.removeNode key).succ k).card : Int)
      rw [Dict.get?_restrict, get?_foldl_decrement (E.nodup _), DiGraph.succ_removeNode]
      by_cases hk : k = key
      · simp [hk]
      rw [if_pos (by simpa using hk), if_neg hk]
      by_cases hpred : key ∈ self.graph.adj.succ k
      · have hlist : k ∈ E.list (self.graph.adj.pred key) :=
          (E.mem_list _ _).mpr (DiGraph.mem_pred.mpr (DiGraph.mem_succ.mp hpred))
        rw [if_pos hlist]
        exact h.outDegree_erase hpred
      have hlist : k ∉ E.list (self.graph.adj.pred key) := fun hin =>
        hpred (DiGraph.mem_succ.mpr (DiGraph.mem_pred.mp ((E.mem_list _ _).mp hin)))
      rw [if_neg hlist, Finset.erase_eq_of_notMem hpred]
      exact h.outDegree k
    · change k ∈ calls ↔ ∃ u, Call (self.graph.removeNode key) u k
      simp only [call_removeNode]
      rw [hcalls, Finset.mem_erase, h.callDst]
      constructor
      · rintro ⟨⟨hne, u, hu⟩, hother⟩
        by_cases hu_key : u = key
        · subst hu_key
          have hlist : k ∈ E.list (self.graph.adj.succ u) := by
            obtain ⟨edata, hedata, -⟩ := hu
            exact (E.mem_list _ _).mpr (DiGraph.mem_succ.mpr (DiGraph.hasEdge_of_edge hedata))
          obtain ⟨u', hne', hu'⟩ := hother hlist hu
          exact ⟨u', ⟨hne', hne⟩, hu'⟩
        · exact ⟨u, ⟨hu_key, hne⟩, hu⟩
      · rintro ⟨u, ⟨hu_key, hne⟩, hu⟩
        exact ⟨⟨hne, u, hu⟩, fun _ _ => ⟨u, hu_key, hu⟩⟩
  · rename_i hmem
    have herase : self.graph.adj.nodes.erase key = self.graph.adj.nodes := Finset.erase_eq_of_notMem hmem
    refine ⟨_, rfl, ?_⟩
    refine
      { nodes_keys := hnodes.trans herase
        nodes_key := hnodes_key
        kinds := h.kinds
        outDegree := fun k => ?_
        callDst := h.callDst
        keysByAddr := by rw [← herase]; exact hindex }
    change ((Dict.restrict _ (· ≠ key)).get? k).getD 0 = _
    rw [Dict.get?_restrict]
    by_cases hk : k = key
    · have hempty : self.graph.adj.succ k = ∅ := by
        refine Finset.eq_empty_of_forall_notMem fun v hv => hmem ?_
        exact hk ▸ (self.graph.adj.closed (DiGraph.mem_succ.mp hv)).1
      dsimp only
      rw [hempty]
      simp [hk]
    · rw [if_pos (by simpa using hk)]
      exact h.outDegree k

end Angr.SpillingCFG
