import Vibr.Claripy.Frontend.Constrained

/-!
# Independent constraints

`_split_constraints` of `claripy/frontend/constrained_frontend.py`. The loop keeps,
for every variable met so far, the variables and the constraints it is connected
with. The source keeps these in two dictionaries that it always sets together;
here they are one dictionary of pairs. Indices are read back in ascending order.
-/

namespace Claripy.ConstrainedFrontend

abbrev Connections := Dict String (List String × List Nat)

/-- What constraint `n`, with the variables `vs`, is connected with. -/
def connected (conns : Connections) (n : Nat) (vs : List String) : List String × List Nat :=
  vs.foldl (fun acc v => match conns.get? v with
    | some p => (acc.1 ∪ p.1, acc.2 ∪ p.2)
    | none => acc) (vs, [n])

def setAll (conns : Connections) (p : List String × List Nat) : List String → Connections
  | [] => conns
  | v :: vs => setAll (conns.set v p) p vs

/-- One round of the loop. -/
def connect (conns : Connections) (n : Nat) (c : Ast) : Connections :=
  setAll conns (connected conns n c.varList) (connected conns n c.varList).1

def connections : Nat → List Ast → Connections → Connections
  | _, [], conns => conns
  | n, c :: cs, conns => connections (n + 1) cs (connect conns n c)

/-- The constraints with the given indices. -/
def select (cs : List Ast) (indices : List Nat) : List Ast :=
  (List.range cs.length).filterMap fun i => if i ∈ indices then cs[i]? else none

def splitConstraints (constraints : List Ast) (concrete : Bool) : List (List String × List Ast) :=
  let splitted := constraints.flatMap conjuncts
  let groups := ((connections 0 splitted []).map Prod.snd).dedup.map fun p =>
    (p.1, select splitted p.2)
  let concreteConstraints := splitted.filter (·.vars = ∅)
  groups ++ if concrete ∧ concreteConstraints ≠ [] then [(["CONCRETE"], concreteConstraints)] else []

/-! ## The loop -/

variable {conns : Connections} {n : Nat} {cs : List Ast}

theorem connected_spec (conns : Connections) (n : Nat) (vs : List String) :
    (∀ x, x ∈ (connected conns n vs).1 ↔ x ∈ vs ∨ ∃ v ∈ vs, ∃ p, conns.get? v = some p ∧ x ∈ p.1) ∧
      ∀ i, i ∈ (connected conns n vs).2 ↔ i = n ∨ ∃ v ∈ vs, ∃ p, conns.get? v = some p ∧ i ∈ p.2 := by
  have hfold : ∀ (us : List String) (acc : List String × List Nat),
      let r := us.foldl (fun acc v => match conns.get? v with
        | some p => (acc.1 ∪ p.1, acc.2 ∪ p.2)
        | none => acc) acc
      (∀ x, x ∈ r.1 ↔ x ∈ acc.1 ∨ ∃ v ∈ us, ∃ p, conns.get? v = some p ∧ x ∈ p.1) ∧
        ∀ i, i ∈ r.2 ↔ i ∈ acc.2 ∨ ∃ v ∈ us, ∃ p, conns.get? v = some p ∧ i ∈ p.2 := by
    intro us
    induction us with
    | nil => intro acc; simp
    | cons u us ih =>
      intro acc
      simp only [List.foldl_cons, List.mem_cons]
      cases hu : conns.get? u with
      | none =>
        refine ⟨fun x => ?_, fun i => ?_⟩
        · rw [(ih _).1]
          simp [hu]
        · rw [(ih _).2]
          simp [hu]
      | some p =>
        refine ⟨fun x => ?_, fun i => ?_⟩
        · rw [(ih _).1]
          simp [-Prod.exists, hu, List.mem_union_iff, or_assoc]
        · rw [(ih _).2]
          simp [-Prod.exists, hu, List.mem_union_iff, or_assoc]
  obtain ⟨h₁, h₂⟩ := hfold vs (vs, [n])
  exact ⟨h₁, fun i => (h₂ i).trans (by simp [-Prod.exists])⟩

theorem get?_setAll (conns : Connections) (p : List String × List Nat) (vs : List String)
    (x : String) : (setAll conns p vs).get? x = if x ∈ vs then some p else conns.get? x := by
  induction vs generalizing conns with
  | nil => simp [setAll]
  | cons v vs ih =>
    rw [setAll, ih, Dict.get?_set]
    by_cases hx : x ∈ vs
    · simp [hx]
    · by_cases hv : v = x
      · simp [hv]
      · simp [hx, hv, Ne.symm hv]

/-- The state of the loop before constraint `n`: the connected sets are disjoint,
each holds the constraints over its variables, and its variables occur in them. -/
structure Linked (cs : List Ast) (n : Nat) (conns : Connections) : Prop where
  self : ∀ {v p}, conns.get? v = some p → v ∈ p.1
  shared : ∀ {v p}, conns.get? v = some p → ∀ u ∈ p.1, conns.get? u = some p
  sound : ∀ {v p}, conns.get? v = some p → ∀ i ∈ p.2,
    i < n ∧ ∃ c, cs[i]? = some c ∧ c.vars ≠ ∅ ∧ ∀ x ∈ c.vars, x ∈ p.1
  occurs : ∀ {v p}, conns.get? v = some p → ∃ i ∈ p.2, ∃ c, cs[i]? = some c ∧ v ∈ c.vars
  cover : ∀ {i c x}, i < n → cs[i]? = some c → x ∈ c.vars → ∃ p, conns.get? x = some p ∧ i ∈ p.2

theorem linked_nil (cs : List Ast) : Linked cs 0 [] :=
  ⟨by simp, by simp, by simp, by simp, by simp⟩

/-- One round keeps the state of the loop. -/
theorem Linked.connect (h : Linked cs n conns) {c : Ast} (hc : cs[n]? = some c) :
    Linked cs (n + 1) (connect conns n c) := by
  obtain ⟨hvars, hidx⟩ := connected_spec conns n c.varList
  set q := connected conns n c.varList with hq
  have hget : ∀ x, (ConstrainedFrontend.connect conns n c).get? x =
      if x ∈ q.1 then some q else conns.get? x := fun x => get?_setAll conns q q.1 x
  simp only [Ast.mem_varList] at hvars hidx
  -- An old set that meets the new one was merged into it.
  have hmerge : ∀ {u p}, u ∈ q.1 → conns.get? u = some p →
      (∀ x ∈ p.1, x ∈ q.1) ∧ ∀ i ∈ p.2, i ∈ q.2 := by
    intro u p hu hp
    rcases (hvars u).mp hu with hu | ⟨v, hv, p', hp', hu⟩
    · exact ⟨fun x hx => (hvars x).mpr (.inr ⟨u, hu, p, hp, hx⟩),
        fun i hi => (hidx i).mpr (.inr ⟨u, hu, p, hp, hi⟩)⟩
    · obtain rfl : p' = p := Option.some.inj ((h.shared hp' u hu).symm.trans hp)
      exact ⟨fun x hx => (hvars x).mpr (.inr ⟨v, hv, p', hp', hx⟩),
        fun i hi => (hidx i).mpr (.inr ⟨v, hv, p', hp', hi⟩)⟩
  have hn : ∀ x ∈ c.vars, x ∈ q.1 := fun x hx => (hvars x).mpr (.inl hx)
  refine ⟨?_, ?_, ?_, ?_, ?_⟩
  · intro v p hp
    rw [hget] at hp
    split at hp
    · rename_i hv; cases hp; exact hv
    · exact h.self hp
  · intro v p hp u hu
    rw [hget] at hp ⊢
    split at hp
    · cases hp; simp [hu]
    rename_i hv
    have hold := h.shared hp u hu
    have hu' : u ∉ q.1 := fun hq => hv ((hmerge hq hold).1 v (h.self hp))
    simp [hu', hold]
  · intro v p hp i hi
    rw [hget] at hp
    split at hp
    · cases hp
      rename_i hv
      rcases (hidx i).mp hi with rfl | ⟨u, hu, p', hp', hi⟩
      · refine ⟨Nat.lt_succ_self _, c, hc, ?_, hn⟩
        rintro hempty
        rcases (hvars v).mp hv with hv | ⟨u, hu, _⟩ <;> simp_all
      · obtain ⟨hlt, c', hc', hne, hx⟩ := h.sound hp' i hi
        exact ⟨by omega, c', hc', hne, fun x hxc => (hmerge (hn u hu) hp').1 x (hx x hxc)⟩
    · obtain ⟨hlt, c', hc', hne, hx⟩ := h.sound hp i hi
      exact ⟨by omega, c', hc', hne, hx⟩
  · intro v p hp
    rw [hget] at hp
    split at hp
    · rename_i hv
      cases hp
      rcases (hvars v).mp hv with hv | ⟨u, hu, p', hp', hv⟩
      · exact ⟨n, (hidx n).mpr (.inl rfl), c, hc, hv⟩
      · obtain ⟨i, hi, c', hc', hvc⟩ := h.occurs (h.shared hp' v hv)
        exact ⟨i, (hmerge (hn u hu) hp').2 i hi, c', hc', hvc⟩
    · exact h.occurs hp
  · intro i c' x hi hc' hx
    rw [hget]
    rcases Nat.lt_succ_iff_lt_or_eq.mp hi with hi | rfl
    · obtain ⟨p, hp, hip⟩ := h.cover hi hc' hx
      by_cases hxq : x ∈ q.1
      · exact ⟨q, by simp [hxq], (hmerge hxq hp).2 i hip⟩
      · exact ⟨p, by simp [hxq, hp], hip⟩
    · obtain rfl : c = c' := Option.some.inj (hc.symm.trans hc')
      exact ⟨q, by simp [hn x hx], (hidx i).mpr (.inl rfl)⟩

theorem Linked.connections (rest : List Ast) (h : Linked cs n conns)
    (hrest : ∀ i, cs[n + i]? = rest[i]?) :
    Linked cs cs.length (connections n rest conns) := by
  induction rest generalizing n conns with
  | nil =>
    have hlen : cs.length ≤ n := by simpa using hrest 0
    refine ⟨h.self, h.shared, fun hp i hi => ?_, h.occurs, fun hi hc hx => h.cover (by omega) hc hx⟩
    obtain ⟨-, c, hc, hrest⟩ := h.sound hp i hi
    exact ⟨(List.getElem?_eq_some_iff.mp hc).1, c, hc, hrest⟩
  | cons c rest ih =>
    refine ih (h.connect (by simpa using hrest 0)) fun i => ?_
    have := hrest (i + 1)
    rwa [List.getElem?_cons_succ, show n + (i + 1) = n + 1 + i by omega] at this

/-! ## The groups -/

/-- The groups are a partition of the constraints that have variables: a group's
variables are those of its constraints, and groups that share one are the same. -/
structure IsSplit (cs : List Ast) (groups : List (List String × List Ast)) : Prop where
  mem : ∀ g ∈ groups, ∀ c ∈ g.2, c ∈ cs ∧ c.vars ≠ ∅
  vars : ∀ g ∈ groups, ∀ x, x ∈ g.1 ↔ x ∈ varsOf g.2
  disjoint : ∀ g ∈ groups, ∀ g' ∈ groups, ∀ x, x ∈ g.1 → x ∈ g'.1 → g = g'
  cover : ∀ c ∈ cs, c.vars ≠ ∅ → ∃ g ∈ groups, c ∈ g.2

theorem faithful_connections (rest : List Ast) (h : Dict.Faithful conns) :
    Dict.Faithful (connections n rest conns) := by
  have hset : ∀ (vs : List String) (p : List String × List Nat) (conns : Connections),
      Dict.Faithful conns → Dict.Faithful (setAll conns p vs) := by
    intro vs p
    induction vs with
    | nil => exact fun _ h => h
    | cons v vs ih => exact fun conns h => ih _ (h.set v p)
  induction rest generalizing n conns with
  | nil => exact h
  | cons c rest ih => exact ih (hset _ _ _ h)

theorem mem_select {indices : List Nat} {c : Ast} :
    c ∈ select cs indices ↔ ∃ i ∈ indices, cs[i]? = some c := by
  simp only [select, List.mem_filterMap, List.mem_range, Option.ite_none_right_eq_some]
  constructor
  · rintro ⟨i, -, hi, hc⟩
    exact ⟨i, hi, hc⟩
  · rintro ⟨i, hi, hc⟩
    exact ⟨i, (List.getElem?_eq_some_iff.mp hc).1, hi, hc⟩

variable {constraints : List Ast}

theorem mem_splitConstraints {g : List String × List Ast} :
    g ∈ splitConstraints constraints false ↔
      ∃ v p, (connections 0 (constraints.flatMap conjuncts) []).get? v = some p ∧
        g = (p.1, select (constraints.flatMap conjuncts) p.2) := by
  have hfaith := faithful_connections (n := 0) (constraints.flatMap conjuncts)
    (Dict.faithful_nil (α := String) (β := List String × List Nat))
  simp only [splitConstraints, Bool.false_eq_true, false_and, if_false, List.append_nil,
    List.mem_map, List.mem_dedup]
  constructor
  · rintro ⟨p, ⟨b, hb, rfl⟩, rfl⟩
    exact ⟨b.1, b.2, hfaith b hb, rfl⟩
  · rintro ⟨v, p, hp, rfl⟩
    exact ⟨p, ⟨(v, p), Dict.mem_of_get?_eq_some hp, rfl⟩, rfl⟩

theorem isSplit_splitConstraints (constraints : List Ast) :
    IsSplit (constraints.flatMap conjuncts) (splitConstraints constraints false) := by
  have hlink := (linked_nil (constraints.flatMap conjuncts)).connections
    (constraints.flatMap conjuncts) (fun i => by rw [Nat.zero_add])
  constructor
  · rintro g hg c hc
    obtain ⟨v, p, hp, rfl⟩ := mem_splitConstraints.mp hg
    obtain ⟨i, hi, hci⟩ := mem_select.mp hc
    obtain ⟨-, c', hc', hne, -⟩ := hlink.sound hp i hi
    obtain rfl : c = c' := Option.some.inj (hci.symm.trans hc')
    exact ⟨List.mem_of_getElem? hci, hne⟩
  · rintro g hg x
    obtain ⟨v, p, hp, rfl⟩ := mem_splitConstraints.mp hg
    rw [mem_varsOf]
    constructor
    · intro hx
      obtain ⟨i, hi, c, hc, hxc⟩ := hlink.occurs (hlink.shared hp x hx)
      exact ⟨c, mem_select.mpr ⟨i, hi, hc⟩, hxc⟩
    rintro ⟨c, hc, hxc⟩
    obtain ⟨i, hi, hci⟩ := mem_select.mp hc
    obtain ⟨-, c', hc', -, hsub⟩ := hlink.sound hp i hi
    obtain rfl : c = c' := Option.some.inj (hci.symm.trans hc')
    exact hsub x hxc
  · rintro g hg g' hg' x hx hx'
    obtain ⟨v, p, hp, rfl⟩ := mem_splitConstraints.mp hg
    obtain ⟨v', p', hp', rfl⟩ := mem_splitConstraints.mp hg'
    obtain rfl : p = p' := Option.some.inj ((hlink.shared hp x hx).symm.trans (hlink.shared hp' x hx'))
    rfl
  · intro c hc hne
    obtain ⟨x, hx⟩ := Finset.nonempty_iff_ne_empty.mpr hne
    obtain ⟨i, hi, rfl⟩ := List.mem_iff_getElem.mp hc
    obtain ⟨p, hp, hip⟩ := hlink.cover hi (List.getElem?_eq_getElem hi) hx
    exact ⟨_, mem_splitConstraints.mpr ⟨x, p, hp, rfl⟩, mem_select.mpr ⟨i, hip, List.getElem?_eq_getElem hi⟩⟩

theorem splitConstraints_true (constraints : List Ast) :
    splitConstraints constraints true = splitConstraints constraints false ++
      if (constraints.flatMap conjuncts).filter (·.vars = ∅) ≠ []
      then [(["CONCRETE"], (constraints.flatMap conjuncts).filter (·.vars = ∅))] else [] := by
  by_cases hne : (constraints.flatMap conjuncts).filter (·.vars = ∅) = [] <;>
    simp [splitConstraints, hne]

theorem mem_of_mem_splitConstraints {g : List String × List Ast} {c : Ast}
    (hg : g ∈ splitConstraints constraints true) (hc : c ∈ g.2) : c ∈ constraints.flatMap conjuncts := by
  rw [splitConstraints_true] at hg
  rcases List.mem_append.mp hg with hg | hg
  · exact ((isSplit_splitConstraints constraints).mem g hg c hc).1
  split at hg
  · obtain rfl := List.mem_singleton.mp hg
    exact List.mem_of_mem_filter hc
  · simp at hg

theorem sat_flatMap_conjuncts {ρ : Assignment} : Sat (constraints.flatMap conjuncts) ρ ↔ Sat constraints ρ := by
  simp only [Sat, List.mem_flatMap]
  constructor
  · intro h c hc
    exact (sat_conjuncts c).mp fun d hd => h d ⟨c, hc, hd⟩
  · rintro h d ⟨c, hc, hd⟩
    exact (sat_conjuncts c).mpr (h c hc) d hd

/-- Satisfying all groups and the concrete constraints is satisfying the list. -/
theorem sat_splitConstraints {ρ : Assignment} :
    (∀ g ∈ splitConstraints constraints true, Sat g.2 ρ) ↔ Sat constraints ρ := by
  have hsplit := isSplit_splitConstraints constraints
  rw [← sat_flatMap_conjuncts]
  constructor
  · intro h c hc
    rw [splitConstraints_true] at h
    by_cases hne : c.vars = ∅
    · have hmem : c ∈ (constraints.flatMap conjuncts).filter (·.vars = ∅) := by simp [hc, hne]
      refine h (["CONCRETE"], _) (List.mem_append_right _ ?_) c hmem
      rw [if_pos (List.ne_nil_of_mem hmem)]
      exact List.mem_singleton_self _
    · obtain ⟨g, hg, hcg⟩ := hsplit.cover c hc hne
      exact h g (List.mem_append_left _ hg) c hcg
  · exact fun h g hg c hc => h c (mem_of_mem_splitConstraints hg hc)

end Claripy.ConstrainedFrontend
