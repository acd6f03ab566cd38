import Vibr.Cfg.SpillingCFGIndexes
import Vibr.Lib.Runs

/-!
# Runs of spilling control-flow graphs

The operations on whole graphs copy the indexes, rebuild them, or, in `fromNetworkx`, build
them on what is left of the old ones. A run is any sequence of operations, with entries
going through the store in between.
-/

namespace Angr.SpillingCFG

variable {self : SpillingCFG} {E : Enumeration K} {stale : Finset K} {src dst key : K} {attr edata : EdgeData}

/-! ## Whole graphs -/

theorem copy_inv (h : Inv ∅ self) : Inv ∅ self.copy :=
  { h with
    kinds := fun u v edata hedge => by
      have hedge : self.graph.adj.edge u v = some edata := hedge
      obtain ⟨jk, hjk, -⟩ := h.kinds u v edata hedge
      change ∃ jk, _ ∧ jumpkind (self.graph.adj.data u v) = some jk
      rw [DiGraph.data_of_edge hedge]
      exact ⟨jk, hjk, hjk⟩ }

theorem addEdge_inv {src dst : CFGNode} (h : Inv stale self) (hsrc : getBlockKey src ∈ self.graph.adj.nodes)
    (hdst : getBlockKey dst ∈ self.graph.adj.nodes) (hjk : jumpkind attr ≠ none)
    (hkeep : KeepsCall self.graph (getBlockKey src) (getBlockKey dst) attr) :
    ∃ self', self.addEdge src dst attr = some self' ∧ Inv stale self' ∧
      self'.graph = self.graph.addEdge (getBlockKey src) (getBlockKey dst) attr := by
  have hnodes : Inv stale
      { self with nodes := (self.nodes.set (getBlockKey src) src).set (getBlockKey dst) dst } := by
    refine { h with nodes_keys := ?_, nodes_key := fun p hp => ?_ }
    · dsimp only
      rw [Dict.keys_set, Dict.keys_set, h.nodes_keys, Finset.insert_eq_of_mem hsrc, Finset.insert_eq_of_mem hdst]
    rcases Dict.mem_set hp with rfl | hp
    · rfl
    · rcases Dict.mem_set hp with rfl | hp
      · rfl
      · exact h.nodes_key p hp
  exact addEdgeByKey_inv hnodes hsrc hdst hjk hkeep

theorem foldl_addNode_inv (h : Inv stale self) (nodes : List CFGNode) :
    Inv stale (nodes.foldl addNode self) ∧
      ∀ k, k ∈ (nodes.foldl addNode self).graph.adj.nodes ↔
        k ∈ nodes.map getBlockKey ∨ k ∈ self.graph.adj.nodes := by
  induction nodes generalizing self with
  | nil => exact ⟨h, fun k => by simp⟩
  | cons node nodes ih =>
    obtain ⟨hinv, hmem⟩ := ih (addNode_inv h node)
    refine ⟨hinv, fun k => ?_⟩
    rw [List.foldl_cons, hmem]
    change _ ∨ k ∈ insert (getBlockKey node) self.graph.adj.nodes ↔ _
    rw [Finset.mem_insert, List.map_cons, List.mem_cons]
    tauto

theorem foldl_addNode_edge (nodes : List CFGNode) (u v : K) :
    (nodes.foldl addNode self).graph.adj.edge u v = self.graph.adj.edge u v := by
  induction nodes generalizing self with
  | nil => rfl
  | cons node nodes ih => rw [List.foldl_cons, ih]; rfl

/-- The keys of the ends of an edge. -/
def ends (e : CFGNode × CFGNode × EdgeData) : K × K := (getBlockKey e.1, getBlockKey e.2.1)

/-- Edges between different keys are added. -/
theorem addEdges_inv {edges : List (CFGNode × CFGNode × EdgeData)} (h : Inv stale self)
    (hends : ∀ e ∈ edges, (ends e).1 ∈ self.graph.adj.nodes ∧ (ends e).2 ∈ self.graph.adj.nodes)
    (hjk : ∀ e ∈ edges, jumpkind e.2.2 ≠ none) (hnodup : (edges.map ends).Nodup)
    (hnew : ∀ e ∈ edges, self.graph.adj.hasEdge (ends e).1 (ends e).2 = false) :
    ∃ self', addEdges edges self = some self' ∧ Inv stale self' ∧
      self'.graph.adj.nodes = self.graph.adj.nodes := by
  induction edges generalizing self with
  | nil => exact ⟨self, rfl, h, rfl⟩
  | cons e edges ih =>
    obtain ⟨src, dst, edata⟩ := e
    obtain ⟨hfirst, hnodup⟩ := List.nodup_cons.mp hnodup
    obtain ⟨hsrc, hdst⟩ := hends _ List.mem_cons_self
    have hno : KeepsCall self.graph (getBlockKey src) (getBlockKey dst) edata := by
      rintro ⟨edata', hedata', -⟩
      have hfalse := hnew (src, dst, edata) List.mem_cons_self
      change self.graph.adj.hasEdge (getBlockKey src) (getBlockKey dst) = false at hfalse
      rw [DiGraph.hasEdge_of_edge hedata'] at hfalse
      cases hfalse
    obtain ⟨self₁, heq₁, h₁, hgraph₁⟩ := addEdge_inv h hsrc hdst (hjk _ List.mem_cons_self) hno
    have hnodes₁ : self₁.graph.adj.nodes = self.graph.adj.nodes := by
      rw [hgraph₁]
      exact nodes_addEdge hsrc hdst
    have hnew₁ : ∀ e ∈ edges, self₁.graph.adj.hasEdge (ends e).1 (ends e).2 = false := by
      intro e he
      have hne : ¬ ((ends e).1 = getBlockKey src ∧ (ends e).2 = getBlockKey dst) := fun hboth =>
        hfirst (List.mem_map.mpr ⟨e, he, Prod.ext hboth.1 hboth.2⟩)
      have hold := hnew e (List.mem_cons_of_mem _ he)
      rw [hgraph₁]
      change (if _ ∧ _ then _ else self.graph.adj.edge (ends e).1 (ends e).2).isSome = false
      rw [if_neg hne]
      exact hold
    obtain ⟨self₂, heq₂, h₂, hnodes₂⟩ := ih h₁
      (fun e he => by rw [hnodes₁]; exact hends e (List.mem_cons_of_mem _ he))
      (fun e he => hjk e (List.mem_cons_of_mem _ he)) hnodup hnew₁
    exact ⟨self₂, by rw [addEdges, heq₁]; exact heq₂, h₂, hnodes₂.trans hnodes₁⟩

/-- A graph whose nodes have all the keys of the old one takes its place. -/
theorem fromNetworkx_inv {nx : NxGraph} (h : Inv ∅ self)
    (hcover : ∀ k ∈ self.graph.adj.nodes, k ∈ nx.nodes.map getBlockKey)
    (hjk : ∀ e ∈ nx.edges, jumpkind e.2.2 ≠ none) (hnodup : (nx.edges.map ends).Nodup) :
    ∃ self', self.fromNetworkx nx = some self' ∧ Inv ∅ self' := by
  have hstart : Inv self.graph.adj.nodes { keysByAddr := self.keysByAddr } :=
    { nodes_keys := rfl
      nodes_key := fun p hp => absurd hp List.not_mem_nil
      kinds := fun u v edata hedge => by cases hedge
      outDegree := fun key => rfl
      callDst := fun key => ⟨fun hk => absurd hk (Finset.notMem_empty key), fun ⟨u, edata, hedge, _⟩ => by cases hedge⟩
      keysByAddr := by
        change Indexes self.keysByAddr (self.graph.adj.nodes ∪ ∅)
        rw [Finset.union_empty]
        exact h.inStep.keysByAddr }
  obtain ⟨hadded, hmem⟩ := foldl_addNode_inv hstart nx.nodes
  have hends : ∀ e ∈ nx.edges,
      (ends e).1 ∈ (nx.nodes.foldl addNode { keysByAddr := self.keysByAddr }).graph.adj.nodes ∧
        (ends e).2 ∈ (nx.nodes.foldl addNode { keysByAddr := self.keysByAddr }).graph.adj.nodes := by
    intro e he
    obtain ⟨hsrc, hdst⟩ := nx.closed e he
    exact ⟨(hmem _).mpr (.inl (List.mem_map_of_mem hsrc)), (hmem _).mpr (.inl (List.mem_map_of_mem hdst))⟩
  obtain ⟨self', heq, h', hnodes⟩ := addEdges_inv hadded hends hjk hnodup fun e he => by
    rw [DiGraph.hasEdge, foldl_addNode_edge]
    rfl
  refine ⟨self', heq, { h' with keysByAddr := ?_ }⟩
  have hsub : self.graph.adj.nodes ⊆ self'.graph.adj.nodes := fun k hk => by
    rw [hnodes]
    exact (hmem k).mpr (.inl (hcover k hk))
  rw [Finset.empty_union, ← Finset.union_eq_right.mpr hsub]
  exact h'.keysByAddr

theorem callDsts_spec {edges : List (K × EdgeData)} (h : ∀ p ∈ edges, isCall p.2 ≠ none) :
    ∃ keys, callDsts edges = some keys ∧ ∀ k, k ∈ keys ↔ ∃ p ∈ edges, p.1 = k ∧ isCall p.2 = some true := by
  induction edges with
  | nil => exact ⟨∅, rfl, fun k => by simp⟩
  | cons p edges ih =>
    obtain ⟨dst, edata⟩ := p
    obtain ⟨keys, hkeys, hmem⟩ := ih fun p hp => h p (List.mem_cons_of_mem _ hp)
    obtain ⟨call, hcall⟩ := Option.ne_none_iff_exists'.mp (h (dst, edata) List.mem_cons_self)
    refine ⟨if call then insert dst keys else keys, by rw [callDsts, hcall, hkeys], fun k => ?_⟩
    have hhead : (∃ p ∈ (dst, edata) :: edges, p.1 = k ∧ isCall p.2 = some true) ↔
        (dst = k ∧ call = true) ∨ k ∈ keys := by
      rw [hmem, List.exists_mem_cons_iff]
      dsimp only at hcall ⊢
      rw [hcall, Option.some.injEq]
    rw [hhead]
    cases call <;> simp [eq_comm]

theorem mem_edgeList {graph : SpillingDiGraph} {p : K × EdgeData} :
    p ∈ edgeList E graph ↔ ∃ u, graph.adj.edge u p.1 = some p.2 := by
  unfold edgeList
  rw [List.mem_flatMap]
  constructor
  · rintro ⟨u, -, hp⟩
    obtain ⟨v, hv, rfl⟩ := List.mem_map.mp hp
    exact ⟨u, (DiGraph.some_data (DiGraph.mem_succ.mp ((E.mem_list _ _).mp hv))).symm⟩
  rintro ⟨u, hedge⟩
  have hhas := DiGraph.hasEdge_of_edge hedge
  refine ⟨u, (E.mem_list _ _).mpr (graph.adj.closed hhas).1, List.mem_map.mpr ⟨p.1, ?_, ?_⟩⟩
  · exact (E.mem_list _ _).mpr (DiGraph.mem_succ.mpr hhas)
  · rw [DiGraph.data_of_edge hedge]

theorem pickle_inv (h : Inv ∅ self) : ∃ self', self.pickle E = some self' ∧ Inv ∅ self' := by
  have hkinds : ∀ p ∈ edgeList E self.graph, isCall p.2 ≠ none := by
    intro p hp
    obtain ⟨u, hedge⟩ := mem_edgeList.mp hp
    exact (h.kinds.isCall_pred hedge).2
  obtain ⟨keys, hkeys, hmem⟩ := callDsts_spec hkinds
  refine ⟨_, by rw [pickle, hkeys]; rfl, ?_⟩
  refine { h with outDegree := fun key => ?_, callDst := fun key => ?_, keysByAddr := ?_ }
  · unfold outDegreeByKey
    dsimp only
    rw [Dict.get?_map_mk]
    by_cases hkey : key ∈ self.graph.adj.nodes
    · rw [if_pos ((E.mem_list _ _).mpr hkey), Option.getD_some]
    have hempty : self.graph.adj.succ key = ∅ :=
      Finset.eq_empty_of_forall_notMem fun v hv => hkey (self.graph.adj.closed (DiGraph.mem_succ.mp hv)).1
    rw [if_neg fun hin => hkey ((E.mem_list _ _).mp hin), hempty]
    rfl
  · dsimp only
    rw [hmem]
    constructor
    · rintro ⟨p, hp, rfl, hcall⟩
      obtain ⟨u, hedge⟩ := mem_edgeList.mp hp
      exact ⟨u, p.2, hedge, hcall⟩
    · rintro ⟨u, edata, hedge, hcall⟩
      exact ⟨(key, edata), mem_edgeList.mpr ⟨u, hedge⟩, rfl, hcall⟩
  · rw [← h.nodes_keys]
    exact Indexes.foldl_addKey (fun addr => rfl) h.nodes_key

/-! ## The store -/

/-- The data have a jump kind that the store knows. -/
def Supported (edata : EdgeData) : Prop := ∃ jk ∈ cfgJumpkinds, edata "jumpkind" = some (.str jk)

theorem jumpkind_throughStore (h : Supported edata) : jumpkind (throughStore edata) = jumpkind edata := by
  obtain ⟨jk, hjk, hedata⟩ := h
  have hstore : throughStore edata "jumpkind" = some (.str jk) := by
    unfold throughStore
    rw [hedata]
    exact if_pos hjk
  unfold jumpkind
  rw [hstore, hedata]

/-- The entries that go through the store have jump kinds that it knows. -/
def Storable (graph : SpillingDiGraph) (out into : Finset K) : Prop :=
  ∀ u v edata, graph.adj.edge u v = some edata →
    (u ∈ out → Supported edata) ∧ (v ∈ into → Supported (graph.predData u v))

theorem spill_inv {out into : Finset K} (h : Inv ∅ self) (hstorable : Storable self.graph out into) :
    Inv ∅ (self.spill out into) := by
  have hedge : ∀ u v, (self.graph.spill out into).adj.edge u v =
      (self.graph.adj.edge u v).map fun edata => if u ∈ out then throughStore edata else edata := fun _ _ => rfl
  have hkind : ∀ u v edata, self.graph.adj.edge u v = some edata →
      jumpkind (if u ∈ out then throughStore edata else edata) = jumpkind edata := by
    intro u v edata huv
    split
    · rename_i hu
      exact jumpkind_throughStore ((hstorable u v edata huv).1 hu)
    · rfl
  have hcall : ∀ u v, Call (self.graph.spill out into) u v ↔ Call self.graph u v := by
    intro u v
    unfold Call isCall
    rw [hedge]
    constructor
    · rintro ⟨edata', hmap, htrue⟩
      obtain ⟨edata, huv, rfl⟩ := Option.map_eq_some_iff.mp hmap
      rw [hkind u v edata huv] at htrue
      exact ⟨edata, huv, htrue⟩
    rintro ⟨edata, huv, htrue⟩
    refine ⟨_, by rw [huv]; rfl, ?_⟩
    rw [hkind u v edata huv]
    exact htrue
  refine { h with kinds := fun u v edata' hmap => ?_, outDegree := fun key => ?_, callDst := fun key => ?_ }
  · change (self.graph.spill out into).adj.edge u v = some edata' at hmap
    rw [hedge] at hmap
    obtain ⟨edata, huv, rfl⟩ := Option.map_eq_some_iff.mp hmap
    obtain ⟨jk, hjk, hpred⟩ := h.kinds u v edata huv
    refine ⟨jk, (hkind u v edata huv).trans hjk, ?_⟩
    change jumpkind (if v ∈ into then throughStore (self.graph.predData u v) else self.graph.predData u v) = some jk
    split
    · rename_i hv
      rw [jumpkind_throughStore ((hstorable u v edata huv).2 hv), hpred]
    · exact hpred
  · have hsucc : (self.graph.spill out into).adj.succ key = self.graph.adj.succ key := by
      ext v
      rw [DiGraph.mem_succ, DiGraph.mem_succ, DiGraph.hasEdge, hedge, Option.isSome_map]
      rfl
    change self.outDegreeByKey key = (((self.graph.spill out into).adj.succ key).card : Int)
    rw [hsucc]
    exact h.outDegree key
  · change key ∈ self.callDstKeys ↔ ∃ u, Call (self.graph.spill out into) u key
    simp only [hcall]
    exact h.callDst key

/-! ## Runs -/

inductive Op
  | addNode (node : CFGNode)
  | addEdge (src dst : CFGNode) (attr : EdgeData)
  | addEdgeByKey (src dst : K) (attr : EdgeData)
  | removeEdge (E : Enumeration K) (src dst : CFGNode)
  | removeNode (E : Enumeration K) (node : CFGNode)
  | copy
  | fromNetworkx (nx : NxGraph)
  | pickle (E : Enumeration K)
  | spill (out into : Finset K)

/-- After `copy` and `pickle` a run goes on with the new graph. -/
def apply (self : SpillingCFG) : Op → Option SpillingCFG
  | .addNode node => some (self.addNode node)
  | .addEdge src dst attr => self.addEdge src dst attr
  | .addEdgeByKey src dst attr => self.addEdgeByKey src dst attr
  | .removeEdge E src dst => self.removeEdge E src dst
  | .removeNode E node => self.removeNode E node
  | .copy => some self.copy
  | .fromNetworkx nx => self.fromNetworkx nx
  | .pickle E => self.pickle E
  | .spill out into => some (self.spill out into)

/-- `none` once an operation has raised. -/
def step (state : Option SpillingCFG) (op : Op) : Option SpillingCFG := state.bind fun self => self.apply op

/-- An edge between nodes of the graph that has a string for its jump kind, if any, and does
not turn the only call of its destination into something else. -/
def EdgeOk (self : SpillingCFG) (src dst : K) (attr : EdgeData) : Prop :=
  src ∈ self.graph.adj.nodes ∧ dst ∈ self.graph.adj.nodes ∧ jumpkind attr ≠ none ∧ KeepsCall self.graph src dst attr

/-- The steps that keep the indexes in step. -/
def OpOk (self : SpillingCFG) : Op → Prop
  | .addEdge src dst attr => EdgeOk self (getBlockKey src) (getBlockKey dst) attr
  | .addEdgeByKey src dst attr => EdgeOk self src dst attr
  | .removeEdge _ src dst => self.graph.adj.hasEdge (getBlockKey src) (getBlockKey dst) = true
  | .fromNetworkx nx =>
    (∀ k ∈ self.graph.adj.nodes, k ∈ nx.nodes.map getBlockKey) ∧
      (∀ e ∈ nx.edges, jumpkind e.2.2 ≠ none) ∧ (nx.edges.map ends).Nodup
  | .spill out into => Storable self.graph out into
  | .addNode _ | .removeNode _ _ | .copy | .pickle _ => True

def Admissible (state : Option SpillingCFG) (op : Op) : Prop := ∀ self ∈ state, OpOk self op

theorem apply_inv (h : Inv ∅ self) {op : Op} (hop : OpOk self op) : ∃ self', self.apply op = some self' ∧ Inv ∅ self' := by
  cases op with
  | addNode node => exact ⟨_, rfl, addNode_inv h node⟩
  | addEdge src dst attr =>
    obtain ⟨hsrc, hdst, hjk, hkeep⟩ := hop
    obtain ⟨self', heq, h', -⟩ := addEdge_inv h hsrc hdst hjk hkeep
    exact ⟨self', heq, h'⟩
  | addEdgeByKey src dst attr =>
    obtain ⟨hsrc, hdst, hjk, hkeep⟩ := hop
    obtain ⟨self', heq, h', -⟩ := addEdgeByKey_inv h hsrc hdst hjk hkeep
    exact ⟨self', heq, h'⟩
  | removeEdge E src dst => exact removeEdgeByKey_inv h hop
  | removeNode E node => exact removeNode_inv h node
  | copy => exact ⟨_, rfl, copy_inv h⟩
  | fromNetworkx nx =>
    obtain ⟨hcover, hjk, hnodup⟩ := hop
    exact fromNetworkx_inv h hcover hjk hnodup
  | pickle E => exact pickle_inv h
  | spill out into => exact ⟨_, rfl, spill_inv h hop⟩

theorem inv_empty : Inv ∅ {} where
  nodes_keys := rfl
  nodes_key p hp := absurd hp List.not_mem_nil
  kinds u v edata hedge := by cases hedge
  outDegree key := rfl
  callDst key := ⟨fun hk => absurd hk (Finset.notMem_empty key), fun ⟨u, edata, hedge, _⟩ => by cases hedge⟩
  keysByAddr addr := rfl

def caller : CFGNode := .cfgNode 0x400000 (some 10)

def callee : CFGNode := .cfgNode 0x400100 (some 8)

/-- The data of an edge with a jump kind. -/
def kind (jk : String) : EdgeData := fun attr => if attr = "jumpkind" then some (.str jk) else none

/-- A call that goes through the store. -/
def callRun : List Op :=
  [.addNode caller, .addNode callee, .addEdge caller callee (kind "Ijk_Call"), .spill {getBlockKey caller} ∅]

/-- A call that is added again as a jump. -/
def readdRun : List Op :=
  [.addNode caller, .addNode callee, .addEdge caller callee (kind "Ijk_Call"),
    .addEdge caller callee (kind "Ijk_Boring")]

end Angr.SpillingCFG