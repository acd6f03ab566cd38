import Vibr.KeyDefinitions.CowSets
import Vibr.Lib.FinGraph
import Vibr.Lib.Runs

/-!
# Uses of definitions

A `Uses` records each use under its definition and under its location. The two indexes are
copy-on-write maps of sets; a copy of a `Uses` shares the sets of both.
-/

namespace Angr.KeyDefinitions

variable {D L E : Type} [DecidableEq D] [DecidableEq L] [DecidableEq E]

/-- The `Uses` of a run, under the handles of their maps. -/
structure Uses (D L E : Type) where
  byDefinition : CowSets D (L × Option E) := {}
  byLocation : CowSets L (D × Option E) := {}

namespace Uses

/-! ## The calls -/

def new (s : Uses D L E) : Uses D L E := ⟨s.byDefinition.new, s.byLocation.new⟩

def copy (s : Uses D L E) (u : Nat) : Uses D L E := ⟨s.byDefinition.copy u, s.byLocation.copy u⟩

def addUse (s : Uses D L E) (u : Nat) (definition : D) (codeloc : L) (expr : Option E) : Uses D L E where
  byDefinition := s.byDefinition.change u definition (insert (codeloc, expr))
  byLocation := s.byLocation.change u codeloc (insert (definition, expr))

def getUses (s : Uses D L E) (u : Nat) (definition : D) : Finset L := (s.byDefinition.get u definition).image Prod.fst

def getUsesByLocation (s : Uses D L E) (u : Nat) (codeloc : L) : Finset D :=
  (s.byLocation.get u codeloc).image Prod.fst

/-- `codeloc == item`, of a location and an item of a set of uses: the item is a pair, and
a location is equal to no object of another type. -/
def equalsItem (_codeloc : L) (_item : L × Option E) : Bool := false

def removeUse (s : Uses D L E) (u : Nat) (definition : D) (codeloc : L) (expr : Option E) : Uses D L E where
  byDefinition :=
    -- `definition in self._uses_by_definition and codeloc in self._uses_by_definition[definition]`
    if (s.byDefinition.ref? u definition).isSome ∧
        ∃ item ∈ s.byDefinition.get u definition, equalsItem codeloc item = true then
      s.byDefinition.change u definition fun uses =>
        match expr with
        | none => uses.filter fun item => item.1 ≠ codeloc
        | some _ => uses.erase (codeloc, expr)
    else s.byDefinition
  byLocation :=
    if (s.byLocation.ref? u codeloc).isSome then
      s.byLocation.change u codeloc fun uses => uses.filter fun item => item.1 ≠ definition
    else s.byLocation

def removeUses (s : Uses D L E) (u : Nat) (definition : D) (order : Enumeration (L × Option E)) : Uses D L E :=
  if (s.byDefinition.ref? u definition).isSome then
    let codelocAndIds := s.byDefinition.get u definition
    { byDefinition := (s.byDefinition.clean u).delItem u definition
      byLocation :=
        ((order.list codelocAndIds).map Prod.fst).foldl
          (fun c codeloc => c.change u codeloc fun uses => uses.filter fun item => item.1 ≠ definition)
          (s.byLocation.clean u) }
  else s

/-- The `Uses` after a merge, and whether anything was merged. -/
def merge (s : Uses D L E) (u other : Nat) : Uses D L E × Bool :=
  let byDefinition := s.byDefinition.merge u other
  let byLocation := s.byLocation.merge u other
  (⟨byDefinition.1, byLocation.1⟩, byDefinition.2 || byLocation.2)

def count (s : Uses D L E) : Nat := s.byDefinition.count

end Uses

/-- The calls of a run; handles are numbered in the order they are made. -/
inductive UsesOp (D L E : Type) where
  | new
  | copy (u : Nat)
  | addUse (u : Nat) (definition : D) (codeloc : L) (expr : Option E)
  | removeUse (u : Nat) (definition : D) (codeloc : L) (expr : Option E)
  | removeUses (u : Nat) (definition : D) (order : Enumeration (L × Option E))
  | merge (u other : Nat)

namespace UsesOp

def handles : UsesOp D L E → List Nat
  | new => []
  | copy u | addUse u _ _ _ | removeUse u _ _ _ | removeUses u _ _ => [u]
  | merge u other => [u, other]

def apply (s : Uses D L E) : UsesOp D L E → Uses D L E
  | new => s.new
  | copy u => s.copy u
  | addUse u definition codeloc expr => s.addUse u definition codeloc expr
  | removeUse u definition codeloc expr => s.removeUse u definition codeloc expr
  | removeUses u definition order => s.removeUses u definition order
  | merge u other => (s.merge u other).1

/-- A call on handles that there are. -/
def step (s : Uses D L E) (op : UsesOp D L E) : Uses D L E :=
  if ∀ u ∈ op.handles, u < s.count then op.apply s else s

def run (ops : List (UsesOp D L E)) : Uses D L E := ops.foldl step {}

/-- The calls after which the indexes are still the same relation. A use is added to sets
that the same other handles hold, except for those that have the use already; nothing is
removed by one use; and the sets from which all uses of a definition are removed are held
by no other handle. -/
def When (s : Uses D L E) : UsesOp D L E → Prop
  | new | copy _ | merge _ _ => True
  | addUse u definition codeloc expr =>
    ∀ v ≠ u, (codeloc, expr) ∉ s.byDefinition.get v definition →
      (s.byDefinition.Shares u v definition ↔ s.byLocation.Shares u v codeloc)
  | removeUse u definition codeloc _ => ∀ e, (definition, e) ∉ s.byLocation.get u codeloc
  | removeUses u definition _ =>
    ∀ v ≠ u, ∀ l e, (definition, e) ∈ s.byLocation.get u l → ¬ s.byLocation.Shares u v l

end UsesOp

/-! ## The indexes -/

namespace Uses

/-- The two indexes of every handle are the same relation. -/
def Equivalent (s : Uses D L E) : Prop :=
  ∀ u d l e, (l, e) ∈ s.byDefinition.get u d ↔ (d, e) ∈ s.byLocation.get u l

structure Sound (s : Uses D L E) : Prop where
  byDefinition : s.byDefinition.Sound
  byLocation : s.byLocation.Sound
  count : s.byLocation.count = s.byDefinition.count

variable {s : Uses D L E} {u other : Nat} {d : D} {l : L} {e : Option E}

omit [DecidableEq E] in
theorem sound_empty : ({} : Uses D L E).Sound := ⟨CowSets.sound_empty, CowSets.sound_empty, rfl⟩

omit [DecidableEq E] in
theorem equivalent_empty : ({} : Uses D L E).Equivalent := fun _ _ _ _ =>
  ⟨fun h => absurd h (Finset.notMem_empty _), fun h => absurd h (Finset.notMem_empty _)⟩

omit [DecidableEq E] in
theorem Sound.lt_byLocation (h : s.Sound) (hu : u < s.count) : u < s.byLocation.count := by
  rw [h.count]
  exact hu

omit [DecidableEq E] in
theorem Equivalent.new (hsound : s.Sound) (h : s.Equivalent) : s.new.Sound ∧ s.new.Equivalent := by
  obtain ⟨hd, hcount, hget⟩ := hsound.byDefinition.new
  obtain ⟨hl, hcount', hget'⟩ := hsound.byLocation.new
  refine ⟨⟨hd, hl, ?_⟩, fun v d l e => ?_⟩
  · exact hcount'.trans (by rw [hsound.count]; exact hcount.symm)
  · have hiff := h v d l e
    rw [← hget, ← hget'] at hiff
    exact hiff

omit [DecidableEq E] in
theorem Equivalent.copy (hsound : s.Sound) (h : s.Equivalent) (hu : u < s.count) :
    (s.copy u).Sound ∧ (s.copy u).Equivalent := by
  obtain ⟨hd, hcount, hget⟩ := hsound.byDefinition.copy hu
  obtain ⟨hl, hcount', hget'⟩ := hsound.byLocation.copy (hsound.lt_byLocation hu)
  refine ⟨⟨hd, hl, ?_⟩, fun v d l e => ?_⟩
  · exact hcount'.trans (by rw [hsound.count]; exact hcount.symm)
  · have hiff := h (if v = s.byDefinition.count then u else v) d l e
    rw [← hget v d, ← hsound.count, ← hget' v l] at hiff
    exact hiff

theorem Equivalent.merge (hsound : s.Sound) (h : s.Equivalent) (hu : u < s.count) (other : Nat) :
    (s.merge u other).1.Sound ∧ (s.merge u other).1.Equivalent := by
  obtain ⟨hd, hcount, hget⟩ := hsound.byDefinition.merge hu other
  obtain ⟨hl, hcount', hget'⟩ := hsound.byLocation.merge (hsound.lt_byLocation hu) other
  refine ⟨⟨hd, hl, hcount'.trans (hsound.count.trans hcount.symm)⟩, fun v d l e => ?_⟩
  have hd' : (s.merge u other).1.byDefinition.get v d = _ := hget v d
  have hl' : (s.merge u other).1.byLocation.get v l = _ := hget' v l
  rw [hd', hl']
  split
  · rw [Finset.mem_union, Finset.mem_union, h u d l e, h other d l e]
  · exact h v d l e

theorem Equivalent.addUse_iff (hsound : s.Sound) (h : s.Equivalent) (hu : u < s.count) :
    (s.addUse u d l e).Sound ∧ ((s.addUse u d l e).Equivalent ↔ (UsesOp.addUse u d l e).When s) := by
  obtain ⟨hd, hcount, hget, -⟩ := hsound.byDefinition.change hu d (insert (l, e))
  obtain ⟨hl, hcount', hget', -⟩ := hsound.byLocation.change (hsound.lt_byLocation hu) l (insert (d, e))
  refine ⟨⟨hd, hl, hcount'.trans (hsound.count.trans hcount.symm)⟩, ?_⟩
  have hbyDefinition : ∀ v d' l' e', (l', e') ∈ (s.addUse u d l e).byDefinition.get v d' ↔
      (l', e') ∈ s.byDefinition.get v d' ∨
        (d' = d ∧ l' = l ∧ e' = e) ∧ (v = u ∨ s.byDefinition.Shares u v d) := by
    intro v d' l' e'
    by_cases hand : d' = d ∧ (v = u ∨ s.byDefinition.Shares u v d)
    · rw [show (s.addUse u d l e).byDefinition.get v d' = _ from (hget v d').1 hand, Finset.mem_insert, Prod.mk.injEq]
      tauto
    · rw [show (s.addUse u d l e).byDefinition.get v d' = _ from (hget v d').2 hand]
      tauto
  have hbyLocation : ∀ v d' l' e', (d', e') ∈ (s.addUse u d l e).byLocation.get v l' ↔
      (d', e') ∈ s.byLocation.get v l' ∨
        (d' = d ∧ l' = l ∧ e' = e) ∧ (v = u ∨ s.byLocation.Shares u v l) := by
    intro v d' l' e'
    by_cases hand : l' = l ∧ (v = u ∨ s.byLocation.Shares u v l)
    · rw [show (s.addUse u d l e).byLocation.get v l' = _ from (hget' v l').1 hand, Finset.mem_insert, Prod.mk.injEq]
      tauto
    · rw [show (s.addUse u d l e).byLocation.get v l' = _ from (hget' v l').2 hand]
      tauto
  constructor
  · intro h' v hv hnot
    have hiff := h' v d l e
    rw [hbyDefinition, hbyLocation, ← h v d l e] at hiff
    tauto
  intro hwhen v d' l' e'
  rw [hbyDefinition, hbyLocation, h v d' l' e']
  by_cases hsame : d' = d ∧ l' = l ∧ e' = e
  · obtain ⟨rfl, rfl, rfl⟩ := hsame
    have hv := hwhen v
    rw [h v d' l' e'] at hv
    tauto
  · tauto

/-- The removal of one use leaves it under its definition. -/
theorem Equivalent.removeUse_iff (hsound : s.Sound) (h : s.Equivalent) (hu : u < s.count) :
    (s.removeUse u d l e).Sound ∧ ((s.removeUse u d l e).Equivalent ↔ (UsesOp.removeUse u d l e).When s) := by
  have hbyDefinition : (s.removeUse u d l e).byDefinition = s.byDefinition := by
    refine if_neg ?_
    rintro ⟨-, item, -, hitem⟩
    exact absurd hitem (by simp [equalsItem])
  by_cases hkey : (s.byLocation.ref? u l).isSome
  · have hbyLocation : (s.removeUse u d l e).byLocation =
        s.byLocation.change u l fun uses => uses.filter fun item => item.1 ≠ d := if_pos hkey
    obtain ⟨hl, hcount, hget, -⟩ := hsound.byLocation.change (hsound.lt_byLocation hu) l
      fun uses => uses.filter fun item => item.1 ≠ d
    refine ⟨⟨hbyDefinition ▸ hsound.byDefinition, hbyLocation ▸ hl, ?_⟩, ?_⟩
    · rw [hbyDefinition, hbyLocation, hcount, hsound.count]
    constructor
    · intro h' e' hmem
      have hiff := h' u d l e'
      rw [hbyDefinition, hbyLocation, (hget u l).1 ⟨rfl, .inl rfl⟩, h u d l e', Finset.mem_filter] at hiff
      exact (hiff.mp hmem).2 rfl
    intro hwhen v d' l' e'
    rw [hbyDefinition, hbyLocation, h v d' l' e']
    by_cases hand : l' = l ∧ (v = u ∨ s.byLocation.Shares u v l)
    · rw [(hget v l').1 hand, Finset.mem_filter]
      refine ⟨fun hmem => ⟨hmem, ?_⟩, fun hmem => hmem.1⟩
      rintro rfl
      obtain ⟨rfl, rfl | hshare⟩ := hand
      · exact hwhen e' hmem
      · exact hwhen e' (hshare.get_eq ▸ hmem)
    · rw [(hget v l').2 hand]
  · have hbyLocation : (s.removeUse u d l e).byLocation = s.byLocation := if_neg hkey
    have hsame : s.removeUse u d l e = s := by
      unfold Uses.removeUse at hbyDefinition hbyLocation ⊢
      rw [Uses.mk.injEq]
      exact ⟨hbyDefinition, hbyLocation⟩
    rw [hsame]
    refine ⟨hsound, iff_of_true h fun e' hmem => ?_⟩
    rw [CowSets.get_of_none (Option.not_isSome_iff_eq_none.mp hkey)] at hmem
    exact Finset.notMem_empty _ hmem

omit [DecidableEq E] in
/-- The removal of all uses of a definition reaches the locations of the handles that hold
the same sets, but not their definitions. -/
theorem Equivalent.removeUses_iff (hsound : s.Sound) (h : s.Equivalent) (hu : u < s.count)
    (order : Enumeration (L × Option E)) :
    (s.removeUses u d order).Sound ∧
      ((s.removeUses u d order).Equivalent ↔ (UsesOp.removeUses u d order).When s) := by
  by_cases hkey : (s.byDefinition.ref? u d).isSome
  · obtain ⟨hcleanD, hcountD, hrefD⟩ := hsound.byDefinition.clean u
    obtain ⟨hd, hcount, href⟩ := hcleanD.delItem u d
    obtain ⟨hcleanL, hcountL, hrefL⟩ := hsound.byLocation.clean u
    obtain ⟨hl, hcount', hget'⟩ := hcleanL.changeAll
      (f := fun uses => uses.filter fun item => item.1 ≠ d)
      (fun uses => by rw [Finset.filter_filter]; simp only [and_self])
      ((order.list (s.byDefinition.get u d)).map Prod.fst) (hcountL ▸ hsound.lt_byLocation hu)
    have hshares : ∀ v l, (s.byLocation.clean u).Shares u v l ↔ s.byLocation.Shares u v l := by
      intro v l
      unfold CowSets.Shares
      simp only [hrefL]
    have hgetL : ∀ v l, (s.byLocation.clean u).get v l = s.byLocation.get v l := by
      intro v l
      unfold CowSets.get
      rw [hrefL]
      rfl
    have hmem : ∀ l, l ∈ (order.list (s.byDefinition.get u d)).map Prod.fst ↔ ∃ e, (d, e) ∈ s.byLocation.get u l := by
      intro l
      simp only [List.mem_map, order.mem_list, Prod.exists, exists_and_right, exists_eq_right, h u d l]
    simp only [hshares, hgetL, hmem] at hget'
    have hstep : s.removeUses u d order = ⟨(s.byDefinition.clean u).delItem u d, _⟩ := if_pos hkey
    have hbyDefinition : ∀ v d', (s.removeUses u d order).byDefinition.get v d' =
        if v = u ∧ d' = d then ∅ else s.byDefinition.get v d' := by
      intro v d'
      have href' : ((s.byDefinition.clean u).delItem u d).ref? v d' = _ := (href v d').trans (by rw [hrefD])
      rw [hstep]
      by_cases hand : v = u ∧ d' = d
      · rw [if_pos hand]
        exact CowSets.get_of_none (href'.trans (if_pos hand))
      rw [if_neg hand]
      unfold CowSets.get
      dsimp only
      rw [href'.trans (if_neg hand)]
      rfl
    have hbyLocation : ∀ v l',
        ((∃ e, (d, e) ∈ s.byLocation.get u l') ∧ (v = u ∨ s.byLocation.Shares u v l') →
          (s.removeUses u d order).byLocation.get v l' = (s.byLocation.get v l').filter fun item => item.1 ≠ d) ∧
        (¬ ((∃ e, (d, e) ∈ s.byLocation.get u l') ∧ (v = u ∨ s.byLocation.Shares u v l')) →
          (s.removeUses u d order).byLocation.get v l' = s.byLocation.get v l') := by
      rw [hstep]
      exact hget'
    refine ⟨?_, fun h' v hv l' e' hmem hshare => ?_, fun hwhen v d' l' e' => ?_⟩
    · rw [hstep]
      exact ⟨hd, hl, hcount'.trans (hcountL.trans (hsound.count.trans (hcount.trans hcountD).symm))⟩
    · -- the other handle has lost the use under its location alone
      have hiff := h' v d l' e'
      rw [hbyDefinition, if_neg fun hand => hv hand.1, (hbyLocation v l').1 ⟨⟨e', hmem⟩, .inr hshare⟩, h v d l' e',
        hshare.get_eq, Finset.mem_filter] at hiff
      exact (hiff.mp hmem).2 rfl
    by_cases hv : v = u
    · subst hv
      have hbyLocation' : (d', e') ∈ (s.removeUses v d order).byLocation.get v l' ↔
          (d', e') ∈ s.byLocation.get v l' ∧ d' ≠ d := by
        by_cases hused : ∃ e, (d, e) ∈ s.byLocation.get v l'
        · rw [(hbyLocation v l').1 ⟨hused, .inl rfl⟩, Finset.mem_filter]
        rw [(hbyLocation v l').2 fun hand => hused hand.1]
        refine ⟨fun huse => ⟨huse, ?_⟩, fun huse => huse.1⟩
        rintro rfl
        exact hused ⟨e', huse⟩
      rw [hbyDefinition, hbyLocation', ← h v d' l' e']
      by_cases hd' : d' = d
      · simp [hd']
      · simp [hd']
    · have hapart : ¬ ((∃ e, (d, e) ∈ s.byLocation.get u l') ∧ (v = u ∨ s.byLocation.Shares u v l')) := by
        rintro ⟨⟨e₁, hmem⟩, heq | hshare⟩
        · exact hv heq
        · exact hwhen v hv l' e₁ hmem hshare
      rw [hbyDefinition, if_neg fun hand => hv hand.1, (hbyLocation v l').2 hapart]
      exact h v d' l' e'
  · have hsame : s.removeUses u d order = s := if_neg hkey
    rw [hsame]
    refine ⟨hsound, iff_of_true h fun v _ l e' hmem _ => ?_⟩
    rw [← h u d l e', CowSets.get_of_none (Option.not_isSome_iff_eq_none.mp hkey)] at hmem
    exact Finset.notMem_empty _ hmem

end Uses

/-! ## Runs -/

namespace UsesOp

/-- What one call does. -/
theorem step_iff {s : Uses D L E} (op : UsesOp D L E) (hsound : s.Sound) (h : s.Equivalent) :
    (step s op).Sound ∧ ((step s op).Equivalent ↔ op.When s) := by
  unfold step
  split
  · rename_i hhandles
    cases op with
    | new =>
      obtain ⟨hsound', h'⟩ := h.new hsound
      exact ⟨hsound', iff_of_true h' trivial⟩
    | copy u =>
      obtain ⟨hsound', h'⟩ := h.copy hsound (hhandles u List.mem_cons_self)
      exact ⟨hsound', iff_of_true h' trivial⟩
    | addUse u d l e => exact h.addUse_iff hsound (hhandles u List.mem_cons_self)
    | removeUse u d l e => exact h.removeUse_iff hsound (hhandles u List.mem_cons_self)
    | removeUses u d order => exact h.removeUses_iff hsound (hhandles u List.mem_cons_self) order
    | merge u other =>
      obtain ⟨hsound', h'⟩ := h.merge hsound (hhandles u List.mem_cons_self) other
      exact ⟨hsound', iff_of_true h' trivial⟩
  · rename_i hnot
    refine ⟨hsound, iff_of_true h ?_⟩
    -- a handle that there is not holds nothing
    have hnone : ∀ {u : Nat}, ¬ u < s.count → (∀ d, s.byDefinition.ref? u d = none) ∧ ∀ l, s.byLocation.ref? u l = none := by
      intro u hu
      have hget : s.byDefinition.maps.handles[u]? = none := List.getElem?_eq_none (Nat.not_lt.mp hu)
      have hget' : s.byLocation.maps.handles[u]? = none :=
        List.getElem?_eq_none (hsound.count.le.trans (Nat.not_lt.mp hu))
      refine ⟨fun d => ?_, fun l => ?_⟩
      · unfold CowSets.ref?
        rw [hget]
      · unfold CowSets.ref?
        rw [hget']
    cases op with
    | new => trivial
    | copy u => trivial
    | merge u other => trivial
    | addUse u d l e =>
      have hu : ¬ u < s.count := by simpa [handles] using hnot
      rintro v - -
      unfold CowSets.Shares
      simp only [(hnone hu).1, (hnone hu).2, reduceCtorEq, false_and, exists_false]
    | removeUse u d l e =>
      have hu : ¬ u < s.count := by simpa [handles] using hnot
      intro e' hmem
      rw [CowSets.get_of_none ((hnone hu).2 l)] at hmem
      exact Finset.notMem_empty _ hmem
    | removeUses u d order =>
      have hu : ¬ u < s.count := by simpa [handles] using hnot
      rintro v - l e' hmem -
      rw [CowSets.get_of_none ((hnone hu).2 l)] at hmem
      exact Finset.notMem_empty _ hmem

/-- The indexes are the same relation in every state of a run if and only if every call of
the run is one of those that keep them so. -/
theorem equivalent_iff (ops : List (UsesOp D L E)) :
    (∀ n, (run (ops.take n)).Equivalent) ↔ Runs.Along step (fun s op => op.When s) ({} : Uses D L E) ops :=
  Runs.along_iff Uses.Sound (fun _ op hsound h => step_iff op hsound h) Uses.sound_empty Uses.equivalent_empty ops

/-- A use that is added and removed again is still recorded under its definition. -/
theorem removed_use_recorded : ¬ ∀ ops : List (UsesOp Unit Unit Unit), (run ops).Equivalent := by
  intro h
  have hiff := h [.new, .addUse 0 () () none, .removeUse 0 () () none] 0 () () none
  exact absurd hiff (by decide)

end UsesOp

end Angr.KeyDefinitions
