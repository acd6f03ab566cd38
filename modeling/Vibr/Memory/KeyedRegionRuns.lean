import Vibr.Memory.KeyedRegion

/-!
# Runs of keyed regions

Several regions under names, all empty at the start. A merge stores every object of the
other region again, over the range that the object had when it was stored first.
-/

variable {α : Type} [DecidableEq α]

namespace KeyedRegion

/-! ## Merging and copying -/

/-- The stores of a merge all have a shape that is handled, one after the other. -/
def MergeShaped : KeyedRegion α → List (StoredObject α) → Prop
  | _, [] => True
  | r, so :: rest => r.Shaped so.start so.stop ∧ ∀ r', r.store so false = some r' → MergeShaped r' rest

/-- No part of an object has been overwritten: it is still at every offset that it was
stored over. -/
def Entire (r : KeyedRegion α) : Prop :=
  ∀ p ∈ r.storage.entries, ∀ so ∈ p.2.storedObjects, ∀ x, so.start ≤ x → x < so.stop → so.obj ∈ r.getObjectsByOffset x

/-- What every region of a run is. -/
structure Sound (r : KeyedRegion α) : Prop where
  wellFormed : r.WellFormed
  within : r.Within

variable {r other : KeyedRegion α} {so : StoredObject α} {overwrite : Bool}

theorem sound_empty (c : Int) : Sound ({ canonicalSize := c } : KeyedRegion α) :=
  ⟨⟨fun _ hp => absurd hp List.not_mem_nil, fun _ hp => absurd hp List.not_mem_nil,
    fun _ hp => absurd hp List.not_mem_nil⟩, fun _ hp => absurd hp List.not_mem_nil⟩

/-- What one store does. -/
theorem Sound.store (h : r.Sound) (hpos : 0 < so.size) (hshaped : r.Shaped so.start so.stop) :
    ∃ r', r.store so overwrite = some r' ∧ r'.Sound ∧ r'.canonicalSize = r.canonicalSize ∧
      ∀ x, r'.getObjectsByOffset x =
        if so.start ≤ x ∧ x < so.stop then
          if overwrite then {so.obj} else insert so.obj (r.getObjectsByOffset x)
        else r.getObjectsByOffset x := by
  obtain ⟨r', lo, hi, pieces, hstore, hin⟩ := @WellFormed.store_spec α _ r so overwrite h.wellFormed hpos hshaped
  exact ⟨r', hstore, ⟨hin.replaced.wellFormed h.wellFormed, hin.within h.within⟩, hin.canonicalSize,
    hin.objects h.wellFormed⟩

/-- What the stores of a merge do, one after the other. -/
theorem Sound.stores (h : r.Sound) {l : List (StoredObject α)} (hpos : ∀ so ∈ l, 0 < so.size)
    (hshaped : r.MergeShaped l) :
    ∃ r', l.foldlM (fun r so => r.store so false) r = some r' ∧ r'.Sound ∧ r'.canonicalSize = r.canonicalSize ∧
      ∀ x o, o ∈ r'.getObjectsByOffset x ↔
        o ∈ r.getObjectsByOffset x ∨ ∃ so ∈ l, (so.start ≤ x ∧ x < so.stop) ∧ o = so.obj := by
  induction l generalizing r with
  | nil => exact ⟨r, rfl, h, rfl, fun x o => by simp⟩
  | cons so l ih =>
    obtain ⟨hfirst, hrest⟩ := hshaped
    obtain ⟨r₁, hstore, hsound, hsize, hobjects⟩ :=
      @Sound.store α _ r so false h (hpos so List.mem_cons_self) hfirst
    obtain ⟨r', hfold, hsound', hsize', hobjects'⟩ :=
      ih hsound (fun so hso => hpos so (List.mem_cons_of_mem _ hso)) (hrest r₁ hstore)
    refine ⟨r', ?_, hsound', hsize'.trans hsize, fun x o => ?_⟩
    · rw [List.foldlM_cons, hstore]
      exact hfold
    rw [hobjects', hobjects, List.exists_mem_cons_iff]
    by_cases hx : so.start ≤ x ∧ x < so.stop
    · rw [if_pos hx, if_neg (by decide), Finset.mem_insert]
      simp only [hx, true_and, and_self]
      exact or_assoc.trans or_left_comm
    · rw [if_neg hx]
      simp only [hx, false_and, false_or]

/-- A merge of a region whose objects are entire is the union at each offset. -/
theorem Sound.merge (h : r.Sound) (hother : other.Sound) (E : Enumeration (StoredObject α))
    (hsize : r.canonicalSize = other.canonicalSize) (hshaped : r.MergeShaped (other.storedObjects E))
    (hentire : other.Entire) :
    ∃ r', r.merge E other = some r' ∧ r'.Sound ∧ r'.canonicalSize = r.canonicalSize ∧
      ∀ x, r'.getObjectsByOffset x = r.getObjectsByOffset x ∪ other.getObjectsByOffset x := by
  have hmem : ∀ so, so ∈ other.storedObjects E ↔ ∃ p ∈ other.storage.entries, so ∈ p.2.storedObjects := by
    intro so
    unfold storedObjects
    simp only [List.mem_flatMap, E.mem_list]
  have hpos : ∀ so ∈ other.storedObjects E, 0 < so.size := by
    intro so hso
    obtain ⟨p, hp, hmem⟩ := (hmem so).mp hso
    have hin := hother.within p hp so hmem
    have hitem := hother.wellFormed.positive p hp
    unfold RegionObject.stop StoredObject.stop at hin
    omega
  obtain ⟨r', hfold, hsound, hsize', hobjects⟩ := h.stores hpos hshaped
  refine ⟨r', ?_, hsound, hsize', fun x => Finset.ext fun o => ?_⟩
  · unfold KeyedRegion.merge
    rw [if_neg (not_not.mpr hsize)]
    exact hfold
  rw [hobjects, Finset.mem_union]
  refine or_congr_right ⟨?_, fun ho => ?_⟩
  · rintro ⟨so, hso, hx, rfl⟩
    obtain ⟨p, hp, hmem⟩ := (hmem so).mp hso
    exact hentire p hp so hmem x hx.1 hx.2
  by_cases hfree : ∀ p ∈ other.storage.entries, ¬ p.2.includes x
  · rw [hother.wellFormed.objects_of_free hfree] at ho
    cases ho
  push Not at hfree
  obtain ⟨p, hp, hx⟩ := hfree
  rw [hother.wellFormed.objects_of_includes hp hx, p.2.internal_eq] at ho
  obtain ⟨so, hso, rfl⟩ := Finset.mem_image.mp ho
  have hin := hother.within p hp so hso
  unfold RegionObject.includes at hx
  refine ⟨so, (hmem so).mpr ⟨p, hp, hso⟩, ?_, rfl⟩
  unfold RegionObject.stop at hin
  omega

/-- A copy is equal to the region. -/
theorem copy_eq (r : KeyedRegion α) : r.copy = r := by
  have hcopy : ∀ item : RegionObject α, item.copy = item := by
    intro item
    cases item with
    | mk start size stored internal hinternal => subst hinternal; rfl
  obtain ⟨⟨entries, sorted⟩, c⟩ := r
  simp [copy, SortedDict.mapWithKey, hcopy]

end KeyedRegion

/-! ## Runs -/

inductive RegionOp (ι α : Type) where
  | setObject (r : ι) (start : Int) (obj : α) (objectSize : Int)
  | addObject (r : ι) (start : Int) (obj : α) (objectSize : Int)
  /-- The second name is given to a copy of the first region. -/
  | copy (r r' : ι)
  | merge (r other : ι) (E : Enumeration (StoredObject α))

variable {ι : Type} [DecidableEq ι]

namespace RegionOp

/-- The regions after an operation; one that raises changes none. -/
def step (s : ι → KeyedRegion α) : RegionOp ι α → ι → KeyedRegion α
  | setObject r start obj objectSize => ((s r).setObject start obj objectSize).elim s (Function.update s r)
  | addObject r start obj objectSize => ((s r).addObject start obj objectSize).elim s (Function.update s r)
  | copy r r' => Function.update s r' (s r).copy
  | merge r other E => ((s r).merge E (s other)).elim s (Function.update s r)

/-- Sizes are positive, and a region is not merged into itself. -/
def Valid : RegionOp ι α → Prop
  | setObject _ _ _ objectSize | addObject _ _ _ objectSize => 0 < objectSize
  | copy _ _ => True
  | merge r other _ => r ≠ other

/-- The operations that are exact: the stores have shapes that are handled, and what is
merged in is entire. -/
def When (s : ι → KeyedRegion α) : RegionOp ι α → Prop
  | setObject r start _ objectSize | addObject r start _ objectSize => (s r).Shaped start (start + objectSize)
  | copy _ _ => True
  | merge r other E => (s r).MergeShaped ((s other).storedObjects E) ∧ (s other).Entire

/-- The objects at each offset after an operation; no other region has changed. -/
def Effect (s s' : ι → KeyedRegion α) : RegionOp ι α → Prop
  | setObject r start obj objectSize =>
    (∀ x, (s' r).getObjectsByOffset x =
      if start ≤ x ∧ x < start + objectSize then {obj} else (s r).getObjectsByOffset x) ∧
    ∀ q ≠ r, s' q = s q
  | addObject r start obj objectSize =>
    (∀ x, (s' r).getObjectsByOffset x =
      if start ≤ x ∧ x < start + objectSize then insert obj ((s r).getObjectsByOffset x)
      else (s r).getObjectsByOffset x) ∧
    ∀ q ≠ r, s' q = s q
  | copy r r' => (∀ x, (s' r').getObjectsByOffset x = (s r).getObjectsByOffset x) ∧ ∀ q ≠ r', s' q = s q
  | merge r other _ =>
    (∀ x, (s' r).getObjectsByOffset x = (s r).getObjectsByOffset x ∪ (s other).getObjectsByOffset x) ∧
    ∀ q ≠ r, s' q = s q

end RegionOp

/-- The regions of a run. -/
structure SoundRegions (c : Int) (s : ι → KeyedRegion α) : Prop where
  sound : ∀ r, (s r).Sound
  canonicalSize : ∀ r, (s r).canonicalSize = c

variable {c : Int} {s : ι → KeyedRegion α}

theorem SoundRegions.update (h : SoundRegions c s) {r : ι} {r' : KeyedRegion α} (hsound : r'.Sound)
    (hsize : r'.canonicalSize = (s r).canonicalSize) : SoundRegions c (Function.update s r r') := by
  refine ⟨fun q => ?_, fun q => ?_⟩
  all_goals
    by_cases hq : q = r
    · subst hq
      rw [Function.update_self]
      first
        | exact hsound
        | exact hsize.trans (h.canonicalSize _)
    rw [Function.update_of_ne hq]
    first
      | exact h.sound q
      | exact h.canonicalSize q

/-- What one operation does. -/
theorem SoundRegions.step (h : SoundRegions c s) (op : RegionOp ι α) (hvalid : op.Valid) (hwhen : op.When s) :
    SoundRegions c (op.step s) ∧ op.Effect s (op.step s) := by
  cases op with
  | setObject r start obj objectSize =>
    obtain ⟨r', hstore, hsound, hsize, hobjects⟩ :=
      @KeyedRegion.Sound.store α _ (s r) ⟨start, obj, objectSize⟩ true (h.sound r) hvalid hwhen
    have hstep : (RegionOp.setObject r start obj objectSize).step s = Function.update s r r' := by
      unfold RegionOp.step KeyedRegion.setObject
      dsimp only
      rw [hstore]
      rfl
    rw [hstep]
    refine ⟨h.update hsound hsize, fun x => ?_, fun q hq => Function.update_of_ne hq _ _⟩
    rw [Function.update_self]
    exact hobjects x
  | addObject r start obj objectSize =>
    obtain ⟨r', hstore, hsound, hsize, hobjects⟩ :=
      @KeyedRegion.Sound.store α _ (s r) ⟨start, obj, objectSize⟩ false (h.sound r) hvalid hwhen
    have hstep : (RegionOp.addObject r start obj objectSize).step s = Function.update s r r' := by
      unfold RegionOp.step KeyedRegion.addObject
      dsimp only
      rw [hstore]
      rfl
    rw [hstep]
    refine ⟨h.update hsound hsize, fun x => ?_, fun q hq => Function.update_of_ne hq _ _⟩
    rw [Function.update_self]
    exact hobjects x
  | copy r r' =>
    have hstep : (RegionOp.copy r r').step s = Function.update s r' (s r) := by
      unfold RegionOp.step
      dsimp only
      rw [KeyedRegion.copy_eq]
    rw [hstep]
    refine ⟨h.update (h.sound r) ((h.canonicalSize r).trans (h.canonicalSize r').symm), fun x => ?_,
      fun q hq => Function.update_of_ne hq _ _⟩
    rw [Function.update_self]
  | merge r other E =>
    obtain ⟨r', hmerge, hsound, hsize, hobjects⟩ := (h.sound r).merge (h.sound other) E
      ((h.canonicalSize r).trans (h.canonicalSize other).symm) hwhen.1 hwhen.2
    have hstep : (RegionOp.merge r other E).step s = Function.update s r r' := by
      unfold RegionOp.step
      dsimp only
      rw [hmerge]
      rfl
    rw [hstep]
    refine ⟨h.update hsound hsize, fun x => ?_, fun q hq => Function.update_of_ne hq _ _⟩
    rw [Function.update_self]
    exact hobjects x

/-- In a run of operations that are handled, the items stay apart and keyed by their
starts, and every further such operation has its effect. -/
theorem regions_exact (h : Runs.Reach RegionOp.step (fun s op => op.Valid ∧ op.When s)
    (fun _ : ι => ({ canonicalSize := c } : KeyedRegion α)) s) :
    (∀ r, (s r).WellFormed) ∧ ∀ op : RegionOp ι α, op.Valid → op.When s → op.Effect s (op.step s) := by
  have hsound : SoundRegions c s :=
    h.invariant (SoundRegions c) ⟨fun _ => KeyedRegion.sound_empty c, fun _ => rfl⟩
      fun s op hs hop => (hs.step op hop.1 hop.2).1
  exact ⟨fun r => (hsound.sound r).wellFormed, fun op hvalid hwhen => (hsound.step op hvalid hwhen).2⟩

/-- A run of one operation: the range was free. -/
theorem regions_exact_first : (∀ r : Unit, (RegionOp.step (fun _ => ({ canonicalSize := 8 } : KeyedRegion Bool))
    (.setObject () 0 true 8) r).WellFormed) ∧ ∀ op : RegionOp Unit Bool, op.Valid →
      op.When (RegionOp.step (fun _ => { canonicalSize := 8 }) (.setObject () 0 true 8)) →
        op.Effect (RegionOp.step (fun _ => { canonicalSize := 8 }) (.setObject () 0 true 8))
          (op.step (RegionOp.step (fun _ => { canonicalSize := 8 }) (.setObject () 0 true 8))) :=
  regions_exact (.tail .refl ⟨show (0 : Int) < 8 by decide, fun k hk => absurd hk List.not_mem_nil⟩)

/-- A store that begins in front of an item is put over it as it is. -/
theorem store_over_item_overlaps : ¬ ∀ s : Unit → KeyedRegion Bool,
    Runs.Reach RegionOp.step (fun _ op => op.Valid) (fun _ => { canonicalSize := 8 }) s →
      (∀ r, (s r).WellFormed) ∧ ∀ op : RegionOp Unit Bool, op.Valid → op.Effect s (op.step s) := by
  intro h
  have hexact := (h _ (.tail .refl (show (RegionOp.setObject () 4 true 4 : RegionOp Unit Bool).Valid from show (0 : Int) < 4 by decide))).2
    (.setObject () 0 false 8) (show (0 : Int) < 8 by decide)
  have hobjects := hexact.1 4
  exact absurd hobjects (by decide)
