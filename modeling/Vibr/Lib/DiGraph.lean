import Vibr.Lib.FinGraph

/-!
# Directed graphs

A graph has finitely many nodes, at most one edge from a node to another, and data on its
edges: a dictionary that is extended when an edge is added again. As in the usual libraries,
adding an edge adds its ends, and removing a node removes its edges.
-/

namespace DiGraph

variable {T V : Type*}

abbrev EdgeData (V : Type*) := String → Option V

namespace EdgeData

def empty : EdgeData V := fun _ => none

/-- The entries of the second dictionary take the place of those of the first. -/
def update (d e : EdgeData V) : EdgeData V := fun k => (e k).or (d k)

@[simp] theorem empty_update (d : EdgeData V) : empty.update d = d := by
  funext k
  simp [update, empty]

@[simp] theorem update_self (d : EdgeData V) : d.update d = d := by
  funext k
  cases h : d k <;> simp [update, h]

end EdgeData

end DiGraph

open DiGraph in
@[ext] structure DiGraph (T V : Type*) where
  nodes : Finset T
  edge : T → T → Option (EdgeData V)
  closed : ∀ {u v}, (edge u v).isSome → u ∈ nodes ∧ v ∈ nodes

namespace DiGraph

variable {T V : Type*} [DecidableEq T] (g : DiGraph T V) {u v w : T} {d : EdgeData V}

def hasEdge (u v : T) : Bool := (g.edge u v).isSome

/-- `adj[u]`, without the data. -/
def succ (u : T) : Finset T := g.nodes.filter fun v => g.hasEdge u v

def pred (v : T) : Finset T := g.nodes.filter fun u => g.hasEdge u v

def data (u v : T) : EdgeData V := (g.edge u v).getD EdgeData.empty

def empty : DiGraph T V where
  nodes := ∅
  edge _ _ := none
  closed h := by cases h

def addNode (n : T) : DiGraph T V where
  nodes := insert n g.nodes
  edge := g.edge
  closed h := ⟨Finset.mem_insert_of_mem (g.closed h).1, Finset.mem_insert_of_mem (g.closed h).2⟩

def removeNode (n : T) : DiGraph T V where
  nodes := g.nodes.erase n
  edge u v := if u = n ∨ v = n then none else g.edge u v
  closed {u v} h := by
    split at h
    · cases h
    · rename_i hne
      rw [not_or] at hne
      exact ⟨Finset.mem_erase.mpr ⟨hne.1, (g.closed h).1⟩, Finset.mem_erase.mpr ⟨hne.2, (g.closed h).2⟩⟩

def addEdge (u v : T) (d : EdgeData V) : DiGraph T V where
  nodes := insert u (insert v g.nodes)
  edge a b := if a = u ∧ b = v then some ((g.data u v).update d) else g.edge a b
  closed {a b} h := by
    split at h
    · rename_i heq
      simp [heq]
    · have := g.closed h
      simp [this]

def removeEdge (u v : T) : DiGraph T V where
  nodes := g.nodes
  edge a b := if a = u ∧ b = v then none else g.edge a b
  closed {a b} h := by
    split at h
    · cases h
    · exact g.closed h

/-- The data of an edge are cleared, and set to others. -/
def replaceData (u v : T) (d : EdgeData V) : DiGraph T V where
  nodes := g.nodes
  edge a b := if (a = u ∧ b = v) ∧ g.hasEdge u v then some d else g.edge a b
  closed {a b} h := by
    split at h
    · rename_i heq
      rw [heq.1.1, heq.1.2]
      exact g.closed heq.2
    · exact g.closed h

/-- The graph without the data. -/
def shape : FinGraph T where
  nodes := g.nodes
  edges := (g.nodes ×ˢ g.nodes).filter fun e => g.hasEdge e.1 e.2
  closed h := Finset.mem_product.mp (Finset.mem_filter.mp h).1

variable {g}

omit [DecidableEq T] in
@[simp] theorem edge_shape : g.shape.Edge u v ↔ g.hasEdge u v = true := by
  unfold FinGraph.Edge shape
  rw [Finset.mem_filter]
  exact and_iff_right_of_imp fun h => Finset.mem_product.mpr (g.closed h)

omit [DecidableEq T] in
theorem mem_succ : v ∈ g.succ u ↔ g.hasEdge u v = true := by
  unfold succ
  rw [Finset.mem_filter]
  exact ⟨And.right, fun h => ⟨(g.closed h).2, h⟩⟩

omit [DecidableEq T] in
theorem mem_pred : u ∈ g.pred v ↔ g.hasEdge u v = true := by
  unfold pred
  rw [Finset.mem_filter]
  exact ⟨And.right, fun h => ⟨(g.closed h).1, h⟩⟩

omit [DecidableEq T] in
theorem edge_eq_none (h : u ∉ g.nodes ∨ v ∉ g.nodes) : g.edge u v = none := by
  by_contra hne
  have := g.closed (Option.isSome_iff_ne_none.mpr hne)
  tauto

omit [DecidableEq T] in
theorem some_data (h : g.hasEdge u v = true) : some (g.data u v) = g.edge u v := by
  obtain ⟨d, hd⟩ := Option.isSome_iff_exists.mp h
  rw [data, hd]
  rfl

omit [DecidableEq T] in
theorem hasEdge_of_edge (h : g.edge u v = some d) : g.hasEdge u v = true := by
  rw [hasEdge, h]
  rfl

omit [DecidableEq T] in
theorem data_of_edge (h : g.edge u v = some d) : g.data u v = d := by
  rw [data, h]
  rfl

theorem hasEdge_addEdge {a b : T} : (g.addEdge u v d).hasEdge a b = true ↔ (a = u ∧ b = v) ∨ g.hasEdge a b = true := by
  unfold hasEdge addEdge
  dsimp only
  split <;> simp [*]

theorem hasEdge_removeNode {a b : T} : (g.removeNode w).hasEdge a b = true ↔ a ≠ w ∧ b ≠ w ∧ g.hasEdge a b = true := by
  unfold hasEdge removeNode
  dsimp only
  split
  · rename_i h
    simp only [Option.isSome_none, Bool.false_eq_true, false_iff]
    tauto
  · rename_i h
    tauto

theorem succ_addNode : (g.addNode w).succ u = g.succ u := by
  ext v
  rw [mem_succ, mem_succ]
  rfl

theorem succ_addEdge : (g.addEdge u v d).succ w = if w = u then insert v (g.succ w) else g.succ w := by
  ext x
  rw [mem_succ]
  by_cases hw : w = u
  · rw [if_pos hw, Finset.mem_insert, mem_succ]
    by_cases hx : x = v <;> simp [hasEdge, addEdge, hw, hx]
  · rw [if_neg hw, mem_succ]
    simp [hasEdge, addEdge, hw]

theorem succ_removeEdge : (g.removeEdge u v).succ w = if w = u then (g.succ w).erase v else g.succ w := by
  ext x
  rw [mem_succ]
  by_cases hw : w = u
  · rw [if_pos hw, Finset.mem_erase, mem_succ]
    by_cases hx : x = v <;> simp [hasEdge, removeEdge, hw, hx]
  · rw [if_neg hw, mem_succ]
    simp [hasEdge, removeEdge, hw]

theorem succ_removeNode : (g.removeNode v).succ w = if w = v then ∅ else (g.succ w).erase v := by
  ext x
  rw [mem_succ]
  by_cases hw : w = v
  · simp [hasEdge, removeNode, hw]
  · rw [if_neg hw, Finset.mem_erase, mem_succ]
    by_cases hx : x = v <;> simp [hasEdge, removeNode, hw, hx]

theorem pred_removeNode : (g.removeNode v).pred w = if w = v then ∅ else (g.pred w).erase v := by
  ext x
  rw [mem_pred, hasEdge_removeNode]
  split
  · rename_i hw
    simp [hw]
  · rename_i hw
    rw [Finset.mem_erase, mem_pred]
    exact and_congr_right fun _ => and_iff_right hw

/-! ## Taking a change back -/

variable {g' : DiGraph T V}

theorem edge_removeNode_of_not_mem (hedge : g'.edge = g.edge) (h : v ∉ g.nodes) : (g'.removeNode v).edge = g.edge := by
  funext a b
  simp only [removeNode, hedge]
  split
  · rename_i hab
    refine (edge_eq_none ?_).symm
    rcases hab with rfl | rfl
    · exact .inl h
    · exact .inr h
  · rfl

theorem edge_removeEdge_of_addEdge (hedge : g'.edge = (g.addEdge u v d).edge) (h : g.hasEdge u v = false) :
    (g'.removeEdge u v).edge = g.edge := by
  funext a b
  simp only [removeEdge, hedge, addEdge]
  split
  · rename_i hab
    rw [hab.1, hab.2]
    exact (Option.isSome_eq_false_iff.mp h |> Option.isNone_iff_eq_none.mp).symm
  · rfl

theorem edge_replaceData_of_addEdge (hedge : g'.edge = (g.addEdge u v d).edge) (h : g.hasEdge u v = true) :
    (g'.replaceData u v (g.data u v)).edge = g.edge := by
  have hadded : g'.hasEdge u v = true := by simp [hasEdge, hedge, addEdge]
  funext a b
  simp only [replaceData, hadded, and_true, hedge, addEdge]
  split
  · rename_i hab
    rw [hab.1, hab.2, some_data h]
  · rfl

theorem edge_addEdge_of_removeEdge (hedge : g'.edge = (g.removeEdge u v).edge) (h : g.hasEdge u v = true) :
    (g'.addEdge u v (g.data u v)).edge = g.edge := by
  have hnone : g'.data u v = EdgeData.empty := by simp [data, hedge, removeEdge]
  funext a b
  simp only [addEdge, hnone, EdgeData.empty_update, hedge, removeEdge]
  split
  · rename_i hab
    rw [hab.1, hab.2, some_data h]
  · rfl

def addEdges (g : DiGraph T V) (es : List (T × T × EdgeData V)) : DiGraph T V :=
  es.foldl (fun g e => g.addEdge e.1 e.2.1 e.2.2) g

/-- The edges that end at a node, and then those that start at it. -/
def edgesAt (g : DiGraph T V) (E : Enumeration T) (n : T) : List (T × T × EdgeData V) :=
  (E.list (g.pred n)).map (fun u => (u, n, g.data u n)) ++
    (E.list (g.succ n)).map fun v => (n, v, g.data n v)

omit [DecidableEq T] in
theorem mem_edgesAt {E : Enumeration T} {n : T} {e : T × T × EdgeData V} :
    e ∈ g.edgesAt E n ↔ (e.1 = n ∨ e.2.1 = n) ∧ g.edge e.1 e.2.1 = some e.2.2 := by
  have hdata : ∀ {a b : T} {d : EdgeData V},
      (g.hasEdge a b = true ∧ g.data a b = d ↔ g.edge a b = some d) := by
    intro a b d
    constructor
    · rintro ⟨h, rfl⟩
      exact (some_data h).symm
    · intro h
      exact ⟨by simp [hasEdge, h], by simp [data, h]⟩
  obtain ⟨a, b, d⟩ := e
  simp only [edgesAt, List.mem_append, List.mem_map, E.mem_list, mem_pred, mem_succ, Prod.mk.injEq]
  constructor
  · rintro (⟨u, hu, rfl, rfl, hd⟩ | ⟨v, hv, rfl, rfl, hd⟩)
    · exact ⟨.inr rfl, hdata.mp ⟨hu, hd⟩⟩
    · exact ⟨.inl rfl, hdata.mp ⟨hv, hd⟩⟩
  rintro ⟨rfl | rfl, he⟩
  · obtain ⟨hedge, hd⟩ := hdata.mpr he
    exact .inr ⟨b, hedge, rfl, rfl, hd⟩
  · obtain ⟨hedge, hd⟩ := hdata.mpr he
    exact .inl ⟨a, hedge, rfl, rfl, hd⟩

/-- Edges of a graph, added to a part of it. -/
theorem addEdges_of_le {g₀ : DiGraph T V} {es : List (T × T × EdgeData V)} (hnodes : g₀.nodes ⊆ g.nodes)
    (hle : ∀ a b, g.edge a b = none ∨ g.edge a b = g₀.edge a b) (hes : ∀ e ∈ es, g₀.edge e.1 e.2.1 = some e.2.2) :
    (g.addEdges es).nodes = g.nodes ∧
      ∀ a b, g.edge a b = g₀.edge a b ∨ (∃ d, (a, b, d) ∈ es) → (g.addEdges es).edge a b = g₀.edge a b := by
  induction es generalizing g with
  | nil => exact ⟨rfl, fun a b h => h.resolve_right (by simp)⟩
  | cons e es ih =>
    obtain ⟨u, v, d⟩ := e
    have he : g₀.edge u v = some d := hes _ List.mem_cons_self
    have hend := g₀.closed (u := u) (v := v) (by rw [he]; rfl)
    have hupdate : (g.data u v).update d = d := by
      rcases hle u v with h | h
      · simp [data, h]
      · simp [data, h, he]
    have hsame : (g.addEdge u v d).nodes = g.nodes := by
      simp only [addEdge, Finset.insert_eq_of_mem (hnodes hend.2), Finset.insert_eq_of_mem (hnodes hend.1)]
    have hedge : ∀ a b, (g.addEdge u v d).edge a b = if a = u ∧ b = v then g₀.edge u v else g.edge a b := by
      intro a b
      simp only [addEdge, hupdate, he]
    have hstep := ih (g := g.addEdge u v d) (hsame ▸ hnodes)
      (fun a b => by
        rw [hedge]
        split
        · rename_i hab
          rw [hab.1, hab.2]
          exact .inr rfl
        · exact hle a b)
      fun e he => hes e (List.mem_cons_of_mem _ he)
    refine ⟨hstep.1.trans hsame, fun a b h => hstep.2 a b ?_⟩
    rw [hedge]
    split
    · rename_i hab
      rw [hab.1, hab.2]
      exact .inl rfl
    rename_i hab
    refine h.imp_right ?_
    rintro ⟨d', hd'⟩
    refine ⟨d', (List.mem_cons.mp hd').resolve_left ?_⟩
    rintro heq
    cases heq
    exact hab ⟨rfl, rfl⟩

/-- A node that was removed is added again, with its edges. -/
theorem addEdges_of_removeNode (E : Enumeration T) {n : T} (hnodes : g.nodes ⊆ insert n g'.nodes)
    (hedge : g'.edge = (g.removeNode n).edge) :
    ((g'.addNode n).addEdges (g.edgesAt E n)).edge = g.edge ∧
      ((g'.addNode n).addEdges (g.edgesAt E n)).nodes = insert n g'.nodes := by
  have hpart : ∀ a b, (g'.addNode n).edge a b = if a = n ∨ b = n then none else g.edge a b := by
    intro a b
    simp only [addNode, hedge, removeNode]
  obtain ⟨hsame, hall⟩ := @addEdges_of_le T V _ (g'.addNode n) g (g.edgesAt E n) hnodes
    (fun a b => by
      rw [hpart]
      split
      · exact .inl rfl
      · exact .inr rfl)
    fun e he => (mem_edgesAt.mp he).2
  refine ⟨?_, hsame⟩
  funext a b
  refine hall a b ?_
  rw [hpart]
  split
  · rename_i hab
    cases hd : g.edge a b with
    | none => exact .inl rfl
    | some d => exact .inr ⟨d, mem_edgesAt.mpr ⟨hab, hd⟩⟩
  · exact .inl rfl

end DiGraph
