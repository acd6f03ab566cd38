import Vibr.Claripy.Frontend.Split

/-!
# Connected components

Two constraints are connected if a chain of constraints leads from one to the other in which neighbours share a variable.
The loop of `_split_constraints` joins connected constraints only, and keeps apart only what is not connected, in whatever
order the constraints come.
-/

namespace Claripy.ConstrainedFrontend

/-- Two constraints of a list have a variable in common. -/
def Shares (cs : List Ast) (c d : Ast) : Prop := c ∈ cs ∧ d ∈ cs ∧ ∃ x ∈ c.vars, x ∈ d.vars

/-- A chain of constraints, each of which shares a variable with the one before. -/
def Chained (cs : List Ast) : Ast → Ast → Prop := Relation.ReflTransGen (Shares cs)

variable {conns : Connections} {cs : List Ast} {c d : Ast} {n : Nat}

theorem Shares.symm (h : Shares cs c d) : Shares cs d c := by
  obtain ⟨hc, hd, x, hxc, hxd⟩ := h
  exact ⟨hd, hc, x, hxd, hxc⟩

theorem Chained.symm (h : Chained cs c d) : Chained cs d c := by
  induction h with
  | refl => exact Relation.ReflTransGen.refl
  | tail _ hstep ih => exact Relation.ReflTransGen.head hstep.symm ih

/-! ## The loop joins what is connected -/

/-- The constraints that a variable is connected with are connected with one another. -/
def Joined (cs : List Ast) (conns : Connections) : Prop :=
  ∀ v p, conns.get? v = some p → ∀ i ∈ p.2, ∀ j ∈ p.2, ∀ c d, cs[i]? = some c → cs[j]? = some d → Chained cs c d

/-- One round joins the constraint with those it shares a variable with, and so with all that these are joined with. -/
theorem Joined.connect (hjoined : Joined cs conns) (h : Linked cs n conns) (hc : cs[n]? = some c) :
    Joined cs (connect conns n c) := by
  obtain ⟨-, hidx⟩ := connected_spec conns n c.varList
  simp only [Ast.mem_varList] at hidx
  have hcmem := List.mem_of_getElem? hc
  have hreach : ∀ i ∈ (connected conns n c.varList).2, ∀ d, cs[i]? = some d → Chained cs c d := by
    intro i hi d hd
    rcases (hidx i).mp hi with rfl | ⟨v, hv, p, hp, hip⟩
    · rw [Option.some.inj (hc.symm.trans hd)]
      exact Relation.ReflTransGen.refl
    -- the variable occurs in one of the constraints it is connected with
    obtain ⟨k, hk, e, he, hve⟩ := h.occurs hp
    have hstep : Shares cs c e := ⟨hcmem, List.mem_of_getElem? he, v, hv, hve⟩
    exact (Relation.ReflTransGen.single hstep).trans (hjoined v p hp k hk i hip e d he hd)
  intro v p hp i hi j hj d e hd he
  unfold ConstrainedFrontend.connect at hp
  rw [get?_setAll] at hp
  split at hp
  · cases hp
    exact (hreach i hi d hd).symm.trans (hreach j hj e he)
  · exact hjoined v p hp i hi j hj d e hd he

theorem Joined.connections (rest : List Ast) (hjoined : Joined cs conns) (h : Linked cs n conns)
    (hrest : ∀ i, cs[n + i]? = rest[i]?) : Joined cs (connections n rest conns) := by
  induction rest generalizing n conns with
  | nil => exact hjoined
  | cons c rest ih =>
    have hc : cs[n]? = some c := by simpa using hrest 0
    refine ih (hjoined.connect h hc) (h.connect hc) fun i => ?_
    have := hrest (i + 1)
    rwa [List.getElem?_cons_succ, show n + (i + 1) = n + 1 + i by omega] at this

/-! ## Selected constraints -/

theorem filterMap_range (cs : List Ast) : (List.range cs.length).filterMap (cs[·]?) = cs := by
  induction cs with
  | nil => rfl
  | cons c cs ih =>
    rw [List.length_cons, List.range_succ_eq_map, List.filterMap_cons, List.filterMap_map]
    exact congrArg (c :: ·) ih

theorem select_eq (cs : List Ast) (indices : List Nat) :
    select cs indices = ((List.range cs.length).filter (· ∈ indices)).filterMap (cs[·]?) := by
  unfold select
  rw [List.filterMap_filter]
  refine List.filterMap_congr fun i _ => ?_
  simp only [decide_eq_true_eq]

/-- Groups of indices that do not overlap select once every constraint that one of them has. -/
theorem select_perm {groups : List (List Nat)} {P : Ast → Bool} (hdisjoint : groups.Pairwise List.Disjoint)
    (hmem : ∀ i c, cs[i]? = some c → ((∃ g ∈ groups, i ∈ g) ↔ P c = true)) :
    (groups.flatMap (select cs)).Perm (cs.filter P) := by
  have hindices : (groups.flatMap fun g => (List.range cs.length).filter (· ∈ g)).Perm
      ((List.range cs.length).filter fun i => (cs[i]?).any P) := by
    refine (List.perm_ext_iff_of_nodup ?_ (List.nodup_range.filter _)).mpr fun i => ?_
    · refine List.nodup_flatMap.mpr ⟨fun g _ => List.nodup_range.filter _, hdisjoint.imp fun hgg i hi hi' => ?_⟩
      exact hgg (of_decide_eq_true (List.mem_filter.mp hi).2) (of_decide_eq_true (List.mem_filter.mp hi').2)
    rw [List.mem_flatMap, List.mem_filter, List.mem_range]
    constructor
    · rintro ⟨g, hg, hi⟩
      obtain ⟨hlt, hig⟩ := List.mem_filter.mp hi
      have hlt := List.mem_range.mp hlt
      refine ⟨hlt, ?_⟩
      rw [List.getElem?_eq_getElem hlt]
      exact (hmem i _ (List.getElem?_eq_getElem hlt)).mp ⟨g, hg, of_decide_eq_true hig⟩
    rintro ⟨hlt, hP⟩
    rw [List.getElem?_eq_getElem hlt] at hP
    obtain ⟨g, hg, hig⟩ := (hmem i _ (List.getElem?_eq_getElem hlt)).mpr hP
    exact ⟨g, hg, List.mem_filter.mpr ⟨List.mem_range.mpr hlt, decide_eq_true hig⟩⟩
  have hperm := hindices.filterMap (cs[·]?)
  rw [List.filterMap_flatMap] at hperm
  have hselect : groups.flatMap (select cs) =
      groups.flatMap fun g => ((List.range cs.length).filter (· ∈ g)).filterMap (cs[·]?) :=
    congrArg (fun f => groups.flatMap f) (funext (select_eq cs))
  have hfilter : ((List.range cs.length).filter fun i => (cs[i]?).any P).filterMap (cs[·]?) = cs.filter P := by
    conv_rhs => rw [← filterMap_range cs, List.filter_filterMap]
    rw [List.filterMap_filter]
    refine List.filterMap_congr fun i _ => ?_
    cases cs[i]? <;> simp [Option.filter]
  rwa [hselect, ← hfilter]

/-! ## The groups -/

/-- The groups have every constraint with variables once, they have no variables in common, and the constraints of a group
are those that chains lead to. -/
structure IsComponents (cs : List Ast) (groups : List (List String × List Ast)) : Prop where
  perm : (groups.flatMap Prod.snd).Perm (cs.filter (·.vars ≠ ∅))
  unique : ∀ c ∈ cs, c.vars ≠ ∅ → ∃! g, g ∈ groups ∧ c ∈ g.2
  vars : ∀ g ∈ groups, ∀ x, x ∈ g.1 ↔ x ∈ varsOf g.2
  disjoint : groups.Pairwise fun g g' => List.Disjoint g.1 g'.1
  linked : ∀ c ∈ cs, ∀ d ∈ cs, c.vars ≠ ∅ → d.vars ≠ ∅ → ((∃ g ∈ groups, c ∈ g.2 ∧ d ∈ g.2) ↔ Chained cs c d)

section Groups

variable {constraints : List Ast} {p p' : List String × List Nat}

/-- What the variables are connected with, each set once. -/
def connectedSets (constraints : List Ast) : List (List String × List Nat) :=
  ((connections 0 (constraints.flatMap conjuncts) []).map Prod.snd).dedup

theorem mem_connectedSets : p ∈ connectedSets constraints ↔
    ∃ v, (connections 0 (constraints.flatMap conjuncts) []).get? v = some p := by
  have hfaith := faithful_connections (n := 0) (constraints.flatMap conjuncts)
    (Dict.faithful_nil (α := String) (β := List String × List Nat))
  unfold connectedSets
  rw [List.mem_dedup, List.mem_map]
  constructor
  · rintro ⟨b, hb, rfl⟩
    exact ⟨b.1, hfaith b hb⟩
  · rintro ⟨v, hp⟩
    exact ⟨(v, p), Dict.mem_of_get?_eq_some hp, rfl⟩

theorem splitConstraints_false (constraints : List Ast) : splitConstraints constraints false =
    (connectedSets constraints).map fun p => (p.1, select (constraints.flatMap conjuncts) p.2) := by
  unfold splitConstraints connectedSets
  simp

theorem linked_connections (constraints : List Ast) : Linked (constraints.flatMap conjuncts)
    (constraints.flatMap conjuncts).length (connections 0 (constraints.flatMap conjuncts) []) :=
  (linked_nil _).connections _ fun i => by rw [Nat.zero_add]

theorem joined_connections (constraints : List Ast) : Joined (constraints.flatMap conjuncts)
    (connections 0 (constraints.flatMap conjuncts) []) := by
  refine Joined.connections _ ?_ (linked_nil _) fun i => by rw [Nat.zero_add]
  intro v p hp
  cases hp

/-- Sets that have a variable in common are one set. -/
theorem eq_of_shared {x : String} (hp : p ∈ connectedSets constraints) (hp' : p' ∈ connectedSets constraints)
    (hx : x ∈ p.1) (hx' : x ∈ p'.1) : p = p' := by
  obtain ⟨v, hv⟩ := mem_connectedSets.mp hp
  obtain ⟨v', hv'⟩ := mem_connectedSets.mp hp'
  have hlink := linked_connections constraints
  exact Option.some.inj ((hlink.shared hv x hx).symm.trans (hlink.shared hv' x hx'))

/-- A constraint has its variables where its index is. -/
theorem var_of_index {i : Nat} (hp : p ∈ connectedSets constraints) (hi : i ∈ p.2) :
    ∃ c x, (constraints.flatMap conjuncts)[i]? = some c ∧ x ∈ c.vars ∧ ∀ y ∈ c.vars, y ∈ p.1 := by
  obtain ⟨v, hv⟩ := mem_connectedSets.mp hp
  obtain ⟨-, c, hc, hne, hvars⟩ := (linked_connections constraints).sound hv i hi
  obtain ⟨x, hx⟩ := Finset.nonempty_iff_ne_empty.mpr hne
  exact ⟨c, x, hc, hx, hvars⟩

theorem disjoint_connectedSets (constraints : List Ast) :
    (connectedSets constraints).Pairwise fun p p' => List.Disjoint p.1 p'.1 ∧ List.Disjoint p.2 p'.2 := by
  refine List.Nodup.pairwise_of_forall_ne (List.nodup_dedup _) fun p hp p' hp' hne => ⟨?_, ?_⟩
  · exact fun x hx hx' => hne (eq_of_shared hp hp' hx hx')
  intro i hi hi'
  obtain ⟨c, x, hc, hx, hvars⟩ := var_of_index hp hi
  obtain ⟨c', -, hc', -, hvars'⟩ := var_of_index hp' hi'
  obtain rfl := Option.some.inj (hc.symm.trans hc')
  exact hne (eq_of_shared hp hp' (hvars x hx) (hvars' x hx))

/-- The groups have every constraint with variables once. -/
theorem splitConstraints_perm (constraints : List Ast) : ((splitConstraints constraints false).flatMap Prod.snd).Perm
    ((constraints.flatMap conjuncts).filter (·.vars ≠ ∅)) := by
  have hflat : (splitConstraints constraints false).flatMap Prod.snd =
      ((connectedSets constraints).map Prod.snd).flatMap (select (constraints.flatMap conjuncts)) := by
    rw [splitConstraints_false, List.flatMap_map, List.flatMap_map]
  rw [hflat]
  refine select_perm ?_ fun i c hc => ?_
  · exact List.pairwise_map.mpr ((disjoint_connectedSets constraints).imp fun h => h.2)
  rw [decide_eq_true_eq]
  constructor
  · rintro ⟨g, hg, hi⟩
    obtain ⟨p, hp, rfl⟩ := List.mem_map.mp hg
    obtain ⟨c', x, hc', hx, -⟩ := var_of_index hp hi
    obtain rfl := Option.some.inj (hc.symm.trans hc')
    exact Finset.ne_empty_of_mem hx
  intro hne
  obtain ⟨x, hx⟩ := Finset.nonempty_iff_ne_empty.mpr hne
  obtain ⟨p, hp, hi⟩ := (linked_connections constraints).cover (List.getElem?_eq_some_iff.mp hc).1 hc hx
  exact ⟨p.2, List.mem_map_of_mem (mem_connectedSets.mpr ⟨x, hp⟩), hi⟩

/-- Constraints of one group are those that a chain connects. -/
theorem same_group_iff {c d : Ast} (hc : c ∈ constraints.flatMap conjuncts) (hcv : c.vars ≠ ∅) :
    (∃ g ∈ splitConstraints constraints false, c ∈ g.2 ∧ d ∈ g.2) ↔ Chained (constraints.flatMap conjuncts) c d := by
  have hsplit := isSplit_splitConstraints constraints
  constructor
  · rintro ⟨g, hg, hcg, hdg⟩
    obtain ⟨v, p, hp, rfl⟩ := mem_splitConstraints.mp hg
    obtain ⟨i, hi, hci⟩ := mem_select.mp hcg
    obtain ⟨j, hj, hdj⟩ := mem_select.mp hdg
    exact joined_connections constraints v p hp i hi j hj c d hci hdj
  intro hchain
  induction hchain with
  | refl =>
    obtain ⟨g, hg, hcg⟩ := hsplit.cover c hc hcv
    exact ⟨g, hg, hcg, hcg⟩
  | @tail e d _ hstep ih =>
    obtain ⟨g, hg, hcg, heg⟩ := ih
    obtain ⟨-, hd, x, hxe, hxd⟩ := hstep
    obtain ⟨g', hg', hdg⟩ := hsplit.cover d hd (Finset.ne_empty_of_mem hxd)
    have hx := (hsplit.vars g hg x).mpr (mem_varsOf.mpr ⟨e, heg, hxe⟩)
    have hx' := (hsplit.vars g' hg' x).mpr (mem_varsOf.mpr ⟨d, hdg, hxd⟩)
    rw [← hsplit.disjoint g hg g' hg' x hx hx'] at hdg
    exact ⟨g, hg, hcg, hdg⟩

/-- The groups are the connected components; constraints without variables are a group of their own, if it is asked for. -/
theorem splitConstraints_components (constraints : List Ast) :
    IsComponents (constraints.flatMap conjuncts) (splitConstraints constraints false) ∧
      splitConstraints constraints true = splitConstraints constraints false ++
        if (constraints.flatMap conjuncts).filter (·.vars = ∅) ≠ []
        then [(["CONCRETE"], (constraints.flatMap conjuncts).filter (·.vars = ∅))] else [] := by
  have hsplit := isSplit_splitConstraints constraints
  refine ⟨⟨splitConstraints_perm constraints, fun c hc hne => ?_, hsplit.vars, ?_, ?_⟩, splitConstraints_true constraints⟩
  · obtain ⟨g, hg, hcg⟩ := hsplit.cover c hc hne
    obtain ⟨x, hx⟩ := Finset.nonempty_iff_ne_empty.mpr hne
    refine ⟨g, ⟨hg, hcg⟩, ?_⟩
    rintro g' ⟨hg', hcg'⟩
    exact hsplit.disjoint g' hg' g hg x ((hsplit.vars g' hg' x).mpr (mem_varsOf.mpr ⟨c, hcg', hx⟩))
      ((hsplit.vars g hg x).mpr (mem_varsOf.mpr ⟨c, hcg, hx⟩))
  · rw [splitConstraints_false, List.pairwise_map]
    exact (disjoint_connectedSets constraints).imp fun h => h.1
  · exact fun c hc d _ hcv _ => same_group_iff hc hcv

end Groups

end Claripy.ConstrainedFrontend
