import Vibr.Utils.Condensation

/-!
# The quasi-topological order

The sorted places are expanded into blocks of nodes. A node is a block, and so is a component:
whatever head is chosen, and whatever edges are removed from it, sorting what is left of the
component returns its nodes. The order inside of a block does not matter.
-/

namespace Angr.GraphUtils

variable {T : Type} [DecidableEq T] {S : Setting T} {g : FinGraph T} {n u v x y : T} {scc : Finset T} {p q : Place T}
variable {components : List (Finset T)} {places : List (Place T)} {out : List T}

/-! ## Blocks -/

/-- The nodes of a place. -/
def members (sccs : List (Finset T)) : Place T → Finset T
  | .node n => {n}
  | .scc i _ => sccs.getD i ∅
  | .head => ∅

theorem mem_members (hp : p ∈ (collapse S (sccs S g) g).nodes) :
    x ∈ members (sccs S g) p ↔ x ∈ g.nodes ∧ place S (sccs S g) x = p := by
  obtain ⟨n, hn, rfl⟩ := mem_collapse.mp hp
  rcases place_cases S g n with ⟨scc, hscc, hn_mem, i, hi, hplace⟩ | ⟨-, hplace⟩
  · have hget : members (sccs S g) (place S (sccs S g) n) = scc := by
      rw [hplace]
      simp only [members, List.getD_eq_getElem?_getD, hi, Option.getD_some]
    have hcomponent := (eq_component hscc hn_mem).2
    rw [hget]
    constructor
    · intro hx
      have hx_mem := (eq_component hscc hx).1
      rw [← hcomponent, FinGraph.mem_component hn] at hx
      exact ⟨hx_mem, (place_eq_iff hx_mem hn).mpr hx.symm⟩
    · rintro ⟨hx_mem, heq⟩
      rw [← hcomponent, FinGraph.mem_component hn]
      exact ((place_eq_iff hx_mem hn).mp heq).symm
  · rw [hplace]
    simp only [members, Finset.mem_singleton]
    constructor
    · rintro rfl
      exact ⟨hn, hplace⟩
    rintro ⟨-, heq⟩
    rcases place_cases S g x with ⟨_, _, _, i, _, hcase⟩ | ⟨_, hcase⟩
    · rw [hcase] at heq
      cases heq
    · rw [hcase] at heq
      exact Place.node.inj heq

/-- The nodes of the places, place by place. -/
inductive Expands (sccs : List (Finset T)) : List (Place T) → List T → Prop
  | nil : Expands sccs [] []
  | cons {p : Place T} {places : List (Place T)} {block out : List T} (hnodup : block.Nodup)
      (hblock : ∀ x, x ∈ block ↔ x ∈ members sccs p) (hout : Expands sccs places out) :
      Expands sccs (p :: places) (block ++ out)

omit [DecidableEq T] in
theorem Expands.mem (h : Expands components places out) : x ∈ out ↔ ∃ p ∈ places, x ∈ members components p := by
  induction h with
  | nil => simp
  | cons _ hblock _ ih => rw [List.mem_append, hblock, ih, List.exists_mem_cons_iff]

omit [DecidableEq T] in
theorem Expands.nodup (h : Expands components places out)
    (hdisjoint : places.Pairwise fun p q => Disjoint (members components p) (members components q)) : out.Nodup := by
  induction h with
  | nil => exact List.nodup_nil
  | cons hnodup hblock hout ih =>
    obtain ⟨hhead, htail⟩ := List.pairwise_cons.mp hdisjoint
    refine List.nodup_append'.mpr ⟨hnodup, ih htail, fun x hx hx' => ?_⟩
    obtain ⟨q, hq, hmem⟩ := hout.mem.mp hx'
    exact Finset.disjoint_left.mp (hhead q hq) ((hblock x).mp hx) hmem

omit [DecidableEq T] in
theorem Expands.append {before after : List (Place T)} (h : Expands components (before ++ after) out) :
    ∃ front back, out = front ++ back ∧ Expands components before front ∧ Expands components after back := by
  induction before generalizing out with
  | nil => exact ⟨[], out, rfl, .nil, h⟩
  | cons p before ih =>
    cases h with
    | cons hnodup hblock hout =>
      obtain ⟨front, back, rfl, hfront, hback⟩ := ih hout
      exact ⟨_ ++ front, back, (List.append_assoc _ _ _).symm, .cons hnodup hblock hfront, hback⟩

omit [DecidableEq T] in
/-- Nodes are in the order of their places. -/
theorem Expands.before (h : Expands components places out) (hpq : Dfs.Before places p q)
    (hx : x ∈ members components p) (hy : y ∈ members components q) : Dfs.Before out x y := by
  obtain ⟨before, after, rfl, hp, hq⟩ := hpq
  obtain ⟨front, back, rfl, hfront, hback⟩ := h.append
  exact ⟨front, back, rfl, hfront.mem.mpr ⟨p, hp, hx⟩, hback.mem.mpr ⟨q, hq, hy⟩⟩

omit [DecidableEq T] in
theorem expand_expands {append : List T → Finset T → Option (List T)}
    (happend : ∀ ordered, ∀ scc ∈ components, ∃ block, append ordered scc = some (ordered ++ block) ∧ block.Nodup ∧
      ∀ x, x ∈ block ↔ x ∈ scc)
    (hplaces : ∀ i addr, .scc i addr ∈ places → i < components.length) (ordered : List T) :
    ∃ out, expand append components places ordered = some (ordered ++ out) ∧ Expands components places out := by
  induction places generalizing ordered with
  | nil => exact ⟨[], by simp [expand], .nil⟩
  | cons p places ih =>
    have hrest : ∀ i addr, .scc i addr ∈ places → i < components.length := fun i addr h =>
      hplaces i addr (List.mem_cons_of_mem _ h)
    cases p with
    | head =>
      obtain ⟨out, hout, hexpands⟩ := ih hrest ordered
      exact ⟨out, hout, @Expands.cons _ _ _ _ [] _ List.nodup_nil (by simp [members]) hexpands⟩
    | node n =>
      obtain ⟨out, hout, hexpands⟩ := ih hrest (ordered ++ [n])
      refine ⟨[n] ++ out, ?_, .cons (List.nodup_singleton n) (by simp [members]) hexpands⟩
      rw [expand, hout, List.append_assoc]
    | scc i addr =>
      have hi := hplaces i addr List.mem_cons_self
      obtain ⟨block, hblock, hnodup, hmem⟩ := happend ordered _ (List.getElem_mem hi)
      obtain ⟨out, hout, hexpands⟩ := ih hrest (ordered ++ block)
      refine ⟨block ++ out, ?_, .cons hnodup (fun x => ?_) hexpands⟩
      · rw [expand, List.getElem?_eq_getElem hi]
        simp only [hblock, Option.bind_some, hout, List.append_assoc]
      · rw [hmem]
        simp only [members, List.getD_eq_getElem?_getD, List.getElem?_eq_getElem hi, Option.getD_some]

/-! ## The head of a component -/

theorem shortestPathLength_of_reach (h : g.Reach u v) (hu : u ∈ g.nodes) : ∃ k, shortestPathLength g u v = some k := by
  obtain ⟨k, hk, hmem⟩ := h.exists_layer_lt_card hu
  refine Option.isSome_iff_exists.mp (List.find?_isSome.mpr ⟨k, List.mem_range.mpr hk, ?_⟩)
  exact decide_eq_true hmem

/-- A loop that does not fail keeps its invariant. -/
theorem foldlM_spec {α β : Type} {P : β → Prop} {f : β → α → Option β} {l : List α}
    (hstep : ∀ s, P s → ∀ a ∈ l, ∃ s', f s a = some s' ∧ P s') {s : β} (hs : P s) :
    ∃ s', l.foldlM f s = some s' ∧ P s' := by
  induction l generalizing s with
  | nil => exact ⟨s, rfl, hs⟩
  | cons a l ih =>
    obtain ⟨s', hs', hP⟩ := hstep s hs a List.mem_cons_self
    obtain ⟨s'', hs'', hP'⟩ := ih (fun s hs b hb => hstep s hs b (List.mem_cons_of_mem _ hb)) hP
    refine ⟨s'', ?_, hP'⟩
    rw [List.foldlM_cons, hs']
    exact hs''

theorem totalDistance_of_reach {nodes : List T} (hn : n ∈ g.nodes) (hreach : ∀ m ∈ nodes, g.Reach n m) :
    ∃ d, totalDistance g nodes n = some d := by
  obtain ⟨d, hd, -⟩ := @foldlM_spec T Nat (fun _ => True)
    (fun sum other => if other = n then some sum else (shortestPathLength g n other).map (sum + ·)) nodes
    (fun sum _ m hm => by
      obtain ⟨k, hk⟩ := shortestPathLength_of_reach (hreach m hm) hn
      by_cases heq : m = n
      · exact ⟨sum, if_pos heq, trivial⟩
      · exact ⟨sum + k, by rw [if_neg heq, hk, Option.map_some], trivial⟩) 0 trivial
  exact ⟨d, hd⟩

omit [DecidableEq T] in
theorem nearer_mem {nodes : List T} {best : Option (T × Nat)} {distance : Nat} (hn : n ∈ nodes)
    (hbest : ∀ b ∈ best, b.1 ∈ nodes) : (nearer best n distance).1 ∈ nodes := by
  cases best with
  | none => exact hn
  | some b =>
    unfold nearer
    dsimp only
    split
    · exact hn
    · exact hbest b rfl

/-- Of nodes that reach each other one is nearest. -/
theorem nearest_mem {nodes : List T} (hnodes : nodes ≠ []) (hmem : ∀ n ∈ nodes, n ∈ g.nodes)
    (hreach : ∀ n ∈ nodes, ∀ m ∈ nodes, g.Reach n m) : ∃ n ∈ nodes, nearest g nodes = some n := by
  have hstep : ∀ best : Option (T × Nat), (∀ b ∈ best, b.1 ∈ nodes) → ∀ n ∈ nodes,
      ∃ b : T × Nat, ((totalDistance g nodes n).map fun distance => some (nearer best n distance)) = some (some b) ∧
        b.1 ∈ nodes := by
    intro best hbest n hn
    obtain ⟨distance, hdistance⟩ := totalDistance_of_reach (hmem n hn) (hreach n hn)
    exact ⟨nearer best n distance, by rw [hdistance, Option.map_some], nearer_mem hn hbest⟩
  unfold nearest
  obtain ⟨n, rest, hcons⟩ := List.exists_cons_of_ne_nil hnodes
  obtain ⟨b, hb, hb_mem⟩ := hstep none (fun _ h => absurd h (Option.not_mem_none _)) n (hcons ▸ List.mem_cons_self)
  -- after the first node there is always a best one
  obtain ⟨best, hbest, b', rfl, hb'_mem⟩ := @foldlM_spec T (Option (T × Nat)) (fun best => ∃ b, best = some b ∧ b.1 ∈ nodes)
    (fun best n => (totalDistance g nodes n).map fun distance => some (nearer best n distance)) rest
    (fun best ⟨b, hbest, hmem⟩ m hm => by
      obtain ⟨b', hb', hmem'⟩ := hstep best (fun c hc => by
        rw [hbest] at hc
        rw [← Option.mem_some.mp hc]
        exact hmem) m (hcons ▸ List.mem_cons_of_mem n hm)
      exact ⟨some b', hb', b', rfl, hmem'⟩) (some b) ⟨b, rfl, hb_mem⟩
  refine ⟨b'.1, hb'_mem, ?_⟩
  generalize totalDistance g nodes = total at hb hbest
  rw [hcons, List.foldlM_cons, hb, Option.bind_eq_bind, Option.bind_some, hbest]
  rfl

/-- The nodes of a component reach each other. -/
structure Knot (g : FinGraph T) (scc : Finset T) : Prop where
  mem : ∀ n ∈ scc, n ∈ g.nodes
  reach : ∀ n ∈ scc, ∀ m ∈ scc, g.Reach n m

theorem headBelow_mem (h : Knot g scc) (parent : T) :
    ∃ head, headBelow S g scc parent = some head ∧ ∀ n ∈ head, n ∈ scc := by
  unfold headBelow
  dsimp only
  have hsub : ∀ n ∈ S.nodes.list (scc ∩ g.succ parent), n ∈ scc := fun n hn =>
    (Finset.mem_inter.mp ((S.nodes.mem_list _ n).mp hn)).1
  split
  · exact ⟨none, rfl, fun _ h => absurd h (Option.not_mem_none _)⟩
  rename_i hne
  split
  · exact ⟨_, rfl, fun n hn => hsub n (List.mem_of_mem_head? hn)⟩
  have hsorted : ∀ n, n ∈ sortNodes S (S.nodes.list (scc ∩ g.succ parent)) → n ∈ scc := fun n hn =>
    hsub n (List.mem_mergeSort.mp hn)
  have hnodes : sortNodes S (S.nodes.list (scc ∩ g.succ parent)) ≠ [] := by
    obtain ⟨m, hm⟩ := Finset.nonempty_iff_ne_empty.mpr hne
    exact List.ne_nil_of_mem (List.mem_mergeSort.mpr ((S.nodes.mem_list _ m).mpr hm))
  obtain ⟨n, hn, hnearest⟩ := nearest_mem hnodes (fun n hn => h.mem n (hsorted n hn))
    fun n hn m hm => h.reach n (hsorted n hn) m (hsorted m hm)
  refine ⟨some n, by rw [hnearest, Option.map_some], fun m hm => ?_⟩
  rw [← Option.mem_some.mp hm]
  exact hsorted n hn

theorem headFromParents_mem (h : Knot g scc) (parents : List T) :
    ∃ head, headFromParents S g scc parents = some head ∧ ∀ n ∈ head, n ∈ scc := by
  induction parents with
  | nil => exact ⟨none, rfl, fun _ h => absurd h (Option.not_mem_none _)⟩
  | cons parent parents ih =>
    obtain ⟨head, hhead, hmem⟩ := headBelow_mem h parent
    unfold headFromParents
    rw [hhead]
    cases head with
    | none => exact ih
    | some n => exact ⟨some n, rfl, hmem⟩

/-- Whatever the hints are, the head is a node of the component. -/
theorem loopHead_mem (h : Knot g scc) (hscc : scc.Nonempty) (ordered : List T) (candidates : Option (List T)) :
    ∃ head ∈ scc, loopHead S g ordered scc candidates = some head := by
  unfold loopHead
  split
  · rename_i n hn
    obtain ⟨hints, -, hfind⟩ := Option.bind_eq_some_iff.mp hn
    exact ⟨n, (S.nodes.mem_list _ n).mp (List.mem_of_find?_eq_some hfind), rfl⟩
  obtain ⟨head, hhead, hmem⟩ := @headFromParents_mem T _ S g scc h ordered.reverse
  rw [hhead]
  cases head with
  | some n => exact ⟨n, hmem n rfl, rfl⟩
  | none =>
    obtain ⟨m, hm⟩ := hscc
    have hm : m ∈ sortNodes S (S.nodes.list scc) := List.mem_mergeSort.mpr ((S.nodes.mem_list _ m).mpr hm)
    obtain ⟨n, rest, hcons⟩ := List.exists_cons_of_ne_nil (List.ne_nil_of_mem hm)
    refine ⟨n, ?_, by rw [hcons, List.head?_cons]⟩
    have hn : n ∈ sortNodes S (S.nodes.list scc) := hcons ▸ List.mem_cons_self
    exact (S.nodes.mem_list _ n).mp (List.mem_mergeSort.mp hn)

/-! ## Panic mode -/

/-- The stack of a search for back edges: no node is on it twice, and all but the last have been
visited. -/
structure Searching (next : T → List T) (stack : List (T × List T)) (visited : Finset T) : Prop where
  nodup : (stack.map Prod.fst).Nodup
  children_nodup : ∀ x ∈ stack, x.2.Nodup
  children_next : ∀ x ∈ stack, ∀ child ∈ x.2, child ∈ next x.1
  below : ∀ x ∈ stack.tail, x.1 ∈ visited

/-- The search has not come to an edge. -/
def Ahead (next : T → List T) (stack : List (T × List T)) (visited : Finset T) (e : T × T) : Prop :=
  (∃ children, (e.1, children) ∈ stack ∧ e.2 ∈ children) ∨
    e.1 ∉ visited ∧ e.1 ∉ stack.map Prod.fst ∧ e.2 ∈ next e.1

section
variable {next : T → List T} {stack : List (T × List T)} {visited finished : Finset T} {node child : T} {children : List T}

theorem Searching.leave (h : Searching next ((node, []) :: stack) visited) : Searching next stack (insert node visited) where
  nodup := (List.nodup_cons.mp h.nodup).2
  children_nodup x hx := h.children_nodup x (List.mem_cons_of_mem _ hx)
  children_next x hx := h.children_next x (List.mem_cons_of_mem _ hx)
  below x hx := Finset.mem_insert_of_mem (h.below x (List.mem_of_mem_tail hx))

theorem Searching.skip (h : Searching next ((node, child :: children) :: stack) visited) :
    Searching next ((node, children) :: stack) (insert node visited) where
  nodup := h.nodup
  children_nodup x hx := by
    rcases List.mem_cons.mp hx with rfl | hx
    · exact (List.nodup_cons.mp (h.children_nodup _ List.mem_cons_self)).2
    · exact h.children_nodup x (List.mem_cons_of_mem _ hx)
  children_next x hx c hc := by
    rcases List.mem_cons.mp hx with rfl | hx
    · exact h.children_next _ List.mem_cons_self c (List.mem_cons_of_mem _ hc)
    · exact h.children_next x (List.mem_cons_of_mem _ hx) c hc
  below x hx := Finset.mem_insert_of_mem (h.below x hx)

omit [DecidableEq T] in
/-- A node that has not been visited is not on the stack. -/
theorem Searching.not_on_stack (h : Searching next ((node, children) :: stack) visited) (hnode : child ≠ node)
    (hvisited : child ∉ visited) : child ∉ ((node, children) :: stack).map Prod.fst := by
  intro hmem
  rw [List.map_cons, List.mem_cons, List.mem_map] at hmem
  rcases hmem with rfl | ⟨x, hx, rfl⟩
  · exact hnode rfl
  · exact hvisited (h.below x hx)

theorem Searching.push (h : Searching next ((node, child :: children) :: stack) visited)
    (hnext : ∀ n, (next n).Nodup) (hchild : child ∉ insert node visited) :
    Searching next ((child, next child) :: (node, children) :: stack) (insert node visited) := by
  have hskip := h.skip
  rw [Finset.mem_insert, not_or] at hchild
  refine ⟨List.nodup_cons.mpr ⟨?_, hskip.nodup⟩, fun x hx => ?_, fun x hx => ?_, fun x hx => ?_⟩
  · exact h.not_on_stack hchild.1 hchild.2
  · rcases List.mem_cons.mp hx with rfl | hx
    · exact hnext child
    · exact hskip.children_nodup x hx
  · rcases List.mem_cons.mp hx with rfl | hx
    · exact fun c hc => hc
    · exact hskip.children_next x hx
  · rcases List.mem_cons.mp hx with rfl | hx
    · exact Finset.mem_insert_self _ _
    · exact hskip.below x hx

theorem Ahead.leave {e : T × T} (h : Ahead next stack (insert node visited) e) :
    Ahead next ((node, []) :: stack) visited e := by
  rcases h with ⟨children, hmem, hchild⟩ | ⟨hvisited, hstack, hnext⟩
  · exact .inl ⟨children, List.mem_cons_of_mem _ hmem, hchild⟩
  rw [Finset.mem_insert, not_or] at hvisited
  refine .inr ⟨hvisited.2, ?_, hnext⟩
  rw [List.map_cons, List.mem_cons, not_or]
  exact ⟨hvisited.1, hstack⟩

theorem Ahead.skip {e : T × T} (h : Ahead next ((node, children) :: stack) (insert node visited) e) :
    Ahead next ((node, child :: children) :: stack) visited e := by
  rcases h with ⟨children', hmem, hchild⟩ | ⟨hvisited, hstack, hnext⟩
  · rcases List.mem_cons.mp hmem with heq | hmem
    · obtain ⟨hnode, rfl⟩ := Prod.mk.inj heq
      exact .inl ⟨child :: children', hnode ▸ List.mem_cons_self, List.mem_cons_of_mem _ hchild⟩
    · exact .inl ⟨children', List.mem_cons_of_mem _ hmem, hchild⟩
  · exact .inr ⟨fun hmem => hvisited (Finset.mem_insert_of_mem hmem), hstack, hnext⟩

theorem Ahead.push {e : T × T} (h : Ahead next ((child, next child) :: (node, children) :: stack) (insert node visited) e)
    (hsearching : Searching next ((node, child :: children) :: stack) visited) (hchild : child ∉ insert node visited) :
    Ahead next ((node, child :: children) :: stack) visited e := by
  rcases h with ⟨children', hmem, hmem'⟩ | ⟨hvisited, hstack, hnext⟩
  · rcases List.mem_cons.mp hmem with heq | hmem
    · obtain ⟨hnode, rfl⟩ := Prod.mk.inj heq
      rw [Finset.mem_insert, not_or] at hchild
      rw [← hnode] at hchild hmem'
      exact .inr ⟨hchild.2, hsearching.not_on_stack hchild.1 hchild.2, hmem'⟩
    · exact Ahead.skip (.inl ⟨children', hmem, hmem'⟩)
  · exact Ahead.skip (.inr ⟨hvisited, fun hmem => hstack (List.mem_cons_of_mem _ hmem), hnext⟩)

/-- No edge is found twice. -/
theorem dfsBackEdges_nodup (hnext : ∀ n, (next n).Nodup) {fuel : Nat} (h : Searching next stack visited) :
    (dfsBackEdges next fuel stack visited finished).Nodup ∧
      ∀ e ∈ dfsBackEdges next fuel stack visited finished, Ahead next stack visited e := by
  induction fuel generalizing stack visited finished with
  | zero => exact ⟨List.nodup_nil, fun e he => absurd he List.not_mem_nil⟩
  | succ fuel ih =>
    match stack with
    | [] => exact ⟨List.nodup_nil, fun e he => absurd he List.not_mem_nil⟩
    | (node, []) :: stack =>
      obtain ⟨hnodup, hahead⟩ := @ih stack (insert node visited) (insert node finished) h.leave
      exact ⟨hnodup, fun e he => (hahead e he).leave⟩
    | (node, child :: children) :: stack =>
      obtain ⟨hnodup, hahead⟩ := @ih ((node, children) :: stack) (insert node visited) finished h.skip
      rw [dfsBackEdges]
      split
      · split
        · refine ⟨List.nodup_cons.mpr ⟨fun hmem => ?_, hnodup⟩, fun e he => ?_⟩
          · -- the other children of the node are not this one
            rcases hahead _ hmem with ⟨children', hstack, hchild⟩ | ⟨hvisited, -⟩
            · rcases List.mem_cons.mp hstack with heq | hstack
              · obtain ⟨-, rfl⟩ := Prod.mk.inj heq
                exact (List.nodup_cons.mp (h.children_nodup _ List.mem_cons_self)).1 hchild
              · exact (List.nodup_cons.mp h.nodup).1 (List.mem_map.mpr ⟨_, hstack, rfl⟩)
            · exact hvisited (Finset.mem_insert_self _ _)
          · rcases List.mem_cons.mp he with rfl | he
            · exact .inl ⟨child :: children, List.mem_cons_self, List.mem_cons_self⟩
            · exact (hahead e he).skip
        · exact ⟨hnodup, fun e he => (hahead e he).skip⟩
      · rename_i hchild
        split
        · obtain ⟨hnodup, hahead⟩ := @ih _ _ finished (h.push hnext hchild)
          exact ⟨hnodup, fun e he => (hahead e he).push h hchild⟩
        · exact ⟨hnodup, fun e he => (hahead e he).skip⟩

variable {U : Finset T}

theorem backEdgesWork_leave :
    backEdgesWork next U stack (insert node visited) < backEdgesWork next U ((node, []) :: stack) visited := by
  have hseen : insert node visited ∪ (stack.map Prod.fst).toFinset =
      visited ∪ (((node, []) :: stack).map Prod.fst).toFinset := by
    ext x
    simp
  unfold backEdgesWork
  rw [hseen]
  generalize ∑ x ∈ _, (1 + (next x).length) = rest
  rw [List.map_cons, List.sum_cons]
  omega

theorem backEdgesWork_skip : backEdgesWork next U ((node, children) :: stack) (insert node visited) <
    backEdgesWork next U ((node, child :: children) :: stack) visited := by
  have hseen : insert node visited ∪ (((node, children) :: stack).map Prod.fst).toFinset =
      visited ∪ (((node, child :: children) :: stack).map Prod.fst).toFinset := by
    ext x
    simp
  unfold backEdgesWork
  rw [hseen]
  generalize ∑ x ∈ _, (1 + (next x).length) = rest
  simp only [List.map_cons, List.sum_cons, List.length_cons]
  omega

theorem backEdgesWork_push (h : Searching next ((node, child :: children) :: stack) visited)
    (hchild : child ∉ insert node visited) (hU : child ∈ U) :
    backEdgesWork next U ((child, next child) :: (node, children) :: stack) (insert node visited) <
      backEdgesWork next U ((node, child :: children) :: stack) visited := by
  rw [Finset.mem_insert, not_or] at hchild
  have hnot : child ∉ visited ∪ (((node, child :: children) :: stack).map Prod.fst).toFinset := by
    rw [Finset.mem_union, List.mem_toFinset, not_or]
    exact ⟨hchild.2, h.not_on_stack hchild.1 hchild.2⟩
  have hseen : insert node visited ∪ (((child, next child) :: (node, children) :: stack).map Prod.fst).toFinset =
      insert child (visited ∪ (((node, child :: children) :: stack).map Prod.fst).toFinset) := by
    ext x
    simp
  have hsplit := Finset.sum_erase_add _ (fun x => 1 + (next x).length) (Finset.mem_sdiff.mpr ⟨hU, hnot⟩)
  unfold backEdgesWork
  rw [hseen, Finset.sdiff_insert, ← hsplit]
  generalize ∑ x ∈ _, (1 + (next x).length) = rest
  simp only [List.map_cons, List.sum_cons, List.length_cons]
  omega

/-- More rounds than those of `backEdgesWork` change nothing. -/
theorem dfsBackEdges_of_work_le (hnext : ∀ n, (next n).Nodup) (hU : ∀ n, ∀ m ∈ next n, m ∈ U) {fuel : Nat}
    (hfuel : backEdgesWork next U stack visited ≤ fuel) (h : Searching next stack visited) :
    dfsBackEdges next (fuel + 1) stack visited finished = dfsBackEdges next fuel stack visited finished := by
  induction fuel generalizing stack visited finished with
  | zero =>
    cases stack with
    | nil => rfl
    | cons x stack =>
      unfold backEdgesWork at hfuel
      rw [List.map_cons, List.sum_cons] at hfuel
      omega
  | succ fuel ih =>
    match stack with
    | [] => rfl
    | (node, []) :: stack =>
      have hwork := @backEdgesWork_leave T _ next stack visited node U
      rw [dfsBackEdges, dfsBackEdges]
      exact ih (by omega) h.leave
    | (node, child :: children) :: stack =>
      have hskip := @backEdgesWork_skip T _ next stack visited node child children U
      have hrest := @ih ((node, children) :: stack) (insert node visited) finished (by omega) h.skip
      rw [dfsBackEdges, dfsBackEdges, hrest]
      by_cases hchild : child ∈ insert node visited
      · rw [if_pos hchild, if_pos hchild]
      · have hmem : child ∈ U := hU node child (h.children_next _ List.mem_cons_self child List.mem_cons_self)
        have hpush := @backEdgesWork_push T _ next stack visited node child children U h hchild hmem
        rw [if_neg hchild, if_neg hchild, @ih _ _ finished (by omega) (h.push hnext hchild)]

end

theorem mem_sortedNext {m : T} : m ∈ sortNodes S (g.next S.nodes n) ↔ g.Edge n m := by
  unfold sortNodes
  rw [List.mem_mergeSort, FinGraph.mem_next]

theorem sortedNext_nodup : (sortNodes S (g.next S.nodes n)).Nodup :=
  (List.mergeSort_perm _ _).nodup_iff.mpr (S.nodes.nodup _)

/-- The edges that panic mode removes are different edges of the graph. -/
theorem backEdges_nodup (start : T) : (backEdges S g start).Nodup ∧ ∀ e ∈ backEdges S g start, e ∈ g.edges := by
  have hstart : Searching (fun n => sortNodes S (g.next S.nodes n)) [(start, sortNodes S (g.next S.nodes start))] ∅ := by
    refine ⟨List.nodup_singleton _, fun x hx => ?_, fun x hx => ?_, fun x hx => absurd hx List.not_mem_nil⟩
    · rw [List.mem_singleton.mp hx]
      exact sortedNext_nodup
    · rw [List.mem_singleton.mp hx]
      exact fun _ hc => hc
  obtain ⟨hnodup, hahead⟩ := @dfsBackEdges_nodup T _ _ _ _ ∅ (fun _ => sortedNext_nodup)
    (backEdgesWork (fun n => sortNodes S (g.next S.nodes n)) g.nodes [(start, sortNodes S (g.next S.nodes start))] ∅) hstart
  refine ⟨hnodup, fun e he => ?_⟩
  rcases hahead e he with ⟨children, hmem, hchild⟩ | ⟨-, -, hmem⟩
  · exact mem_sortedNext.mp (hstart.children_next _ hmem _ hchild)
  · exact mem_sortedNext.mp hmem

theorem removeUntilFew_spec {es : List (T × T)} (hnodup : es.Nodup) (hes : ∀ e ∈ es, e ∈ g.edges) :
    ∃ g', removeUntilFew S es g = some g' ∧ g'.nodes = g.nodes ∧ g'.edges ⊆ g.edges := by
  induction es generalizing g with
  | nil => exact ⟨g, rfl, rfl, Finset.Subset.refl _⟩
  | cons e es ih =>
    obtain ⟨hnot, hnodup⟩ := List.nodup_cons.mp hnodup
    rw [removeUntilFew, if_pos (hes e List.mem_cons_self)]
    have hsub : (g.dropEdges (· = e)).edges ⊆ g.edges := Finset.filter_subset _ _
    dsimp only
    split
    · exact ⟨_, rfl, rfl, hsub⟩
    have hrest : ∀ e' ∈ es, e' ∈ (g.dropEdges (· = e)).edges := by
      intro e' he'
      refine Finset.mem_filter.mpr ⟨hes e' (List.mem_cons_of_mem _ he'), ?_⟩
      simp only [decide_eq_true_eq]
      rintro rfl
      exact hnot he'
    obtain ⟨g', hg', hnodes, hedges⟩ := ih hnodup hrest
    exact ⟨g', hg', hnodes, hedges.trans hsub⟩

/-! ## The order -/

theorem knot_of_mem (hscc : scc ∈ sccs S g) : Knot g scc where
  mem n hn := (eq_component hscc hn).1
  reach n hn m hm := by
    obtain ⟨hn_mem, hcomponent⟩ := eq_component hscc hn
    rw [← hcomponent, FinGraph.mem_component hn_mem] at hm
    exact hm.1

/-- Sorting a component returns its nodes, if graphs with fewer edges can be sorted. -/
theorem appendScc_spec {sort : FinGraph T → Option (List T)}
    (hsort : ∀ g' : FinGraph T, g'.edges.card < g.edges.card →
      ∃ block, sort g' = some block ∧ block.Nodup ∧ ∀ x, x ∈ block ↔ x ∈ g'.nodes)
    (hscc : scc ∈ sccs S g) (loopHeads : Option (List T)) (threshold : Nat) (ordered : List T) :
    ∃ block, appendScc S sort g loopHeads threshold ordered scc = some (ordered ++ block) ∧ block.Nodup ∧
      ∀ x, x ∈ block ↔ x ∈ scc := by
  have hknot := knot_of_mem hscc
  have hcard := (mem_sccs.mp hscc).2
  obtain ⟨head, hhead, hloopHead⟩ :=
    @loopHead_mem T _ S g scc hknot (Finset.card_pos.mp (by omega)) ordered loopHeads
  have hnodes : ((g.induce scc).dropEdges (·.2 = head)).nodes = scc := Finset.inter_eq_right.mpr hknot.mem
  have hedges : ((g.induce scc).dropEdges (·.2 = head)).edges.card < g.edges.card := by
    -- an edge into the head is gone
    obtain ⟨m, hm, hne⟩ := Finset.exists_mem_ne hcard head
    rcases Relation.ReflTransGen.cases_tail (hknot.reach m hm head hhead) with heq | ⟨w, -, hedge⟩
    · exact absurd heq.symm hne
    refine Finset.card_lt_card (Finset.ssubset_iff_subset_ne.mpr ⟨?_, fun heq => ?_⟩)
    · exact (Finset.filter_subset _ _).trans (Finset.filter_subset _ _)
    · have hmem : (w, head) ∈ ((g.induce scc).dropEdges (·.2 = head)).edges := heq ▸ hedge
      simpa using (Finset.mem_filter.mp hmem).2
  unfold appendScc
  rw [hloopHead, Option.bind_some]
  dsimp only
  generalize (g.induce scc).dropEdges (·.2 = head) = subgraph at hnodes hedges
  obtain ⟨g', hg', hnodes', hedges'⟩ : ∃ g',
      (if threshold < subgraph.nodes.card ∧ ¬ S.few subgraph.edges.card subgraph.nodes.card then
        removeUntilFew S (sortEdges S (backEdges S subgraph head)) subgraph
      else some subgraph) = some g' ∧ g'.nodes = scc ∧ g'.edges.card < g.edges.card := by
    split
    · obtain ⟨hnodup, hback⟩ := @backEdges_nodup T _ S subgraph head
      obtain ⟨g', hg', hnodes', hsub⟩ := @removeUntilFew_spec T _ S subgraph (sortEdges S (backEdges S subgraph head))
        ((List.mergeSort_perm _ _).nodup_iff.mpr hnodup) fun e he => hback e (List.mem_mergeSort.mp he)
      exact ⟨g', hg', hnodes'.trans hnodes, (Finset.card_le_card hsub).trans_lt hedges⟩
    · exact ⟨subgraph, rfl, hnodes, hedges⟩
  obtain ⟨block, hblock, hnodup, hmem⟩ := hsort g' hedges'
  rw [hg', Option.bind_some, hblock, Option.map_some]
  exact ⟨block, rfl, hnodup, fun x => by rw [hmem, hnodes']⟩

/-- Every node is in the list once, and a node comes before those that do not reach it back. -/
structure QuasiTopological (g : FinGraph T) (ordered : List T) : Prop where
  nodup : ordered.Nodup
  mem : ∀ n, n ∈ ordered ↔ n ∈ g.nodes
  before : ∀ a b, g.Reach a b → ¬ g.Reach b a → Dfs.Before ordered a b

/-- The expanded places are sorted. -/
theorem Expands.quasiTopological {graph : FinGraph (Place T)} {root : Place T}
    (hrooted : Rooted (collapse S (sccs S g) g) graph root)
    (h : Expands (sccs S g) (dfsPostorderNodesDeterministic S graph root).reverse out) : QuasiTopological g out := by
  obtain ⟨hnodup, hplaces, hall, hbefore⟩ := @Rooted.sorted T _ S _ _ _ hrooted
  have hmembers : ∀ p ∈ (dfsPostorderNodesDeterministic S graph root).reverse, ∀ x ∈ members (sccs S g) p,
      x ∈ g.nodes ∧ place S (sccs S g) x = p := by
    intro p hp x hx
    rcases hplaces p hp with rfl | hp
    · exact absurd hx (Finset.notMem_empty x)
    · exact (mem_members hp).mp hx
  have hself : ∀ x ∈ g.nodes, x ∈ members (sccs S g) (place S (sccs S g) x) := fun x hx =>
    (mem_members (mem_collapse.mpr ⟨x, hx, rfl⟩)).mpr ⟨hx, rfl⟩
  refine ⟨h.nodup ?_, fun n => ⟨fun hn => ?_, fun hn => ?_⟩, fun a b hab hba => ?_⟩
  · refine hnodup.imp_of_mem fun {p q} hp hq hne => Finset.disjoint_left.mpr fun x hxp hxq => hne ?_
    rw [← (hmembers p hp x hxp).2, (hmembers q hq x hxq).2]
  · obtain ⟨p, hp, hx⟩ := h.mem.mp hn
    exact (hmembers p hp n hx).1
  · exact h.mem.mpr ⟨_, hall _ (mem_collapse.mpr ⟨n, hn, rfl⟩), hself n hn⟩
  have ha : a ∈ g.nodes := by
    rcases Relation.ReflTransGen.cases_head hab with rfl | ⟨w, hedge, -⟩
    · exact absurd .refl hba
    · exact (g.closed hedge).1
  exact h.before (hbefore _ _ (collapse_of_reach hab hba)) (hself a ha) (hself b (hab.mem ha))

theorem quasiTopologicalSort_spec {fuel : Nat} (hfuel : g.edges.card < fuel) (loopHeads : Option (List T))
    (threshold : Nat) :
    ∃ ordered, quasiTopologicalSort S fuel loopHeads threshold g = some ordered ∧ QuasiTopological g ordered := by
  induction fuel generalizing g loopHeads threshold with
  | zero => omega
  | succ fuel ih =>
    rw [quasiTopologicalSort]
    split
    · rename_i hzero
      have hempty : g.nodes = ∅ := Finset.card_eq_zero.mp hzero
      refine ⟨[], rfl, List.nodup_nil, by simp [hempty], fun a b hab hba => ?_⟩
      rcases Relation.ReflTransGen.cases_head hab with rfl | ⟨w, hedge, -⟩
      · exact absurd .refl hba
      · exact absurd (g.closed hedge).1 (by simp [hempty])
    rename_i hpos
    split
    · rename_i hone
      obtain ⟨n, hn⟩ := Finset.card_eq_one.mp hone
      refine ⟨_, rfl, S.nodes.nodup _, S.nodes.mem_list _, fun a b hab hba => ?_⟩
      rcases Relation.ReflTransGen.cases_head hab with rfl | ⟨w, hedge, hwb⟩
      · exact absurd .refl hba
      have ha := (g.closed hedge).1
      have hb := hab.mem ha
      rw [hn, Finset.mem_singleton] at ha hb
      exact absurd (hb ▸ ha ▸ .refl) hba
    · obtain ⟨graph, root, hcollapsed, hrooted⟩ := @collapsed_rooted T _ S g (Finset.card_pos.mp (by omega))
      have happend : ∀ ordered, ∀ scc ∈ sccs S g, ∃ block,
          appendScc S (quasiTopologicalSort S fuel none 3000) g loopHeads threshold ordered scc =
            some (ordered ++ block) ∧ block.Nodup ∧ ∀ x, x ∈ block ↔ x ∈ scc := by
        intro ordered scc hscc
        refine appendScc_spec (fun g' hcard => ?_) hscc loopHeads threshold ordered
        obtain ⟨block, hblock, hquasi⟩ := @ih g' (by omega) none 3000
        exact ⟨block, hblock, hquasi.nodup, hquasi.mem⟩
      have hindex : ∀ i addr, .scc i addr ∈ (dfsPostorderNodesDeterministic S graph root).reverse →
          i < (sccs S g).length := by
        intro i addr hmem
        obtain ⟨-, hplaces, -, -⟩ := @Rooted.sorted T _ S _ _ _ hrooted
        have hp := (hplaces _ hmem).resolve_left (by simp)
        obtain ⟨n, -, hplace⟩ := mem_collapse.mp hp
        rcases place_cases S g n with ⟨_, _, _, j, hj, hcase⟩ | ⟨_, hcase⟩
        · rw [hcase] at hplace
          rw [← (Place.scc.inj hplace).1]
          exact (List.getElem?_eq_some_iff.mp hj).1
        · rw [hcase] at hplace
          cases hplace
      obtain ⟨out, hout, hexpands⟩ := expand_expands happend hindex []
      dsimp only
      rw [hcollapsed, Option.bind_some]
      exact ⟨out, hout, hexpands.quasiTopological hrooted⟩

/-- Every graph can be sorted. The edges that go forward in the order have no cycle, and those between
different components go forward. -/
theorem quasiTopologicalSortNodes_sorts (S : Setting T) (g : FinGraph T) (loopHeads : Option (List T))
    (panicModeThreshold : Nat) :
    (∃ ordered, quasiTopologicalSortNodes S none loopHeads panicModeThreshold g = some ordered ∧
        QuasiTopological g ordered) ∧
      ∃ acyclic, toAcyclicGraph S loopHeads g = some acyclic ∧ acyclic.Acyclic ∧ acyclic.nodes = g.nodes ∧
        acyclic.edges ⊆ g.edges ∧ ∀ a b, g.Edge a b → ¬ g.Reach b a → acyclic.Edge a b := by
  have hsort : ∀ threshold, ∃ ordered, quasiTopologicalSortNodes S none loopHeads threshold g = some ordered ∧
      QuasiTopological g ordered := by
    intro threshold
    obtain ⟨ordered, hordered, hquasi⟩ :=
      @quasiTopologicalSort_spec T _ S g _ (Nat.lt_succ_self _) loopHeads threshold
    refine ⟨ordered, ?_, hquasi⟩
    unfold quasiTopologicalSortNodes
    rw [hordered, Option.map_some]
  refine ⟨hsort panicModeThreshold, ?_⟩
  obtain ⟨ordered, hordered, hquasi⟩ := hsort 3000
  have hedge : ∀ a b, (g.dropEdges fun e => ordered.idxOf e.1 ≥ ordered.idxOf e.2).Edge a b ↔
      g.Edge a b ∧ ordered.idxOf a < ordered.idxOf b := by
    intro a b
    unfold FinGraph.Edge FinGraph.dropEdges
    rw [Finset.mem_filter, decide_eq_true_iff, not_le]
  unfold toAcyclicGraph
  rw [hordered, Option.map_some]
  refine ⟨_, rfl, ?_, rfl, Finset.filter_subset _ _, fun a b hab hba => ?_⟩
  · exact FinGraph.acyclic_of_lt fun a b hab => ((hedge a b).mp hab).2
  · exact (hedge a b).mpr ⟨hab, (hquasi.before a b (.single hab) hba).idxOf_lt hquasi.nodup⟩

end Angr.GraphUtils
