import Vibr.Lib.FinGraph
import Vibr.Lib.Runs
import Vibr.Lib.SortedDict

/-!
# Keyed regions

`keyed_region.py`: a sorted dictionary of items, each with the objects that are stored over
its range. A store replaces what it covers (`set_object`) or adds to it (`add_object`).
There are no phi predicates, sizes are known, and merging does not go to a top.
-/

variable {α : Type} [DecidableEq α]

structure StoredObject (α : Type) where
  start : Int
  obj : α
  size : Int
deriving DecidableEq

def StoredObject.stop (so : StoredObject α) : Int := so.start + so.size

/-- The objects that occupy a range. Their descriptors and the objects themselves are kept
side by side. -/
structure RegionObject (α : Type) [DecidableEq α] where
  start : Int
  size : Int
  storedObjects : Finset (StoredObject α)
  internalObjects : Finset α
  internal_eq : internalObjects = storedObjects.image StoredObject.obj

namespace RegionObject

/-- `RegionObject(start, size, objects)` -/
def new (start size : Int) (objects : Finset (StoredObject α)) : RegionObject α where
  start := start
  size := size
  storedObjects := objects
  internalObjects := objects.image StoredObject.obj
  internal_eq := rfl

variable (self : RegionObject α)

/-- `end` -/
def stop : Int := self.start + self.size

def includes (offset : Int) : Prop := self.start ≤ offset ∧ offset < self.start + self.size

instance (offset : Int) : Decidable (self.includes offset) := inferInstanceAs (Decidable (_ ∧ _))

/-- The part of an item before an offset, and the one from it on. -/
def front (splitAt : Int) : RegionObject α := new self.start (splitAt - self.start) self.storedObjects

def back (splitAt : Int) : RegionObject α := new splitAt (self.start + self.size - splitAt) self.storedObjects

/-- `split`; `none` where its assertion fails. -/
def split (splitAt : Int) : Option (RegionObject α × RegionObject α) :=
  if self.includes splitAt then some (self.front splitAt, self.back splitAt) else none

def addObject (obj : StoredObject α) : RegionObject α where
  start := self.start
  size := self.size
  storedObjects := insert obj (self.storedObjects.erase obj)
  internalObjects := insert obj.obj self.internalObjects
  internal_eq := by
    have hinsert : insert obj (self.storedObjects.erase obj) = insert obj self.storedObjects := by
      ext so
      by_cases h : so = obj <;> simp [h]
    rw [hinsert, Finset.image_insert, self.internal_eq]

def setObject (obj : StoredObject α) : RegionObject α where
  start := self.start
  size := self.size
  storedObjects := {obj}
  internalObjects := {obj.obj}
  internal_eq := (Finset.image_singleton _ _).symm

def copy : RegionObject α := new self.start self.size self.storedObjects

/-- `set_object` with `overwrite`, and else `add_object`. -/
def update (overwrite : Bool) (obj : StoredObject α) : RegionObject α :=
  if overwrite then self.setObject obj else self.addObject obj

end RegionObject

structure KeyedRegion (α : Type) [DecidableEq α] where
  storage : SortedDict Int (RegionObject α) := {}
  canonicalSize : Int := 8

namespace KeyedRegion

variable (self : KeyedRegion α)

/-- `_get_container`: the item with an offset, and its key. -/
def getContainer (offset : Int) : Option (Int × RegionObject α) :=
  match self.storage.floor? offset with
  | none => none
  | some (baseOffset, container) => if container.includes offset then some (baseOffset, container) else none

def getObjectsByOffset (start : Int) : Finset α :=
  match self.getContainer start with
  | none => ∅
  | some (_, container) => container.internalObjects

def copy : KeyedRegion α where
  storage := self.storage.mapWithKey fun _ ro => ro.copy
  canonicalSize := self.canonicalSize

/-- The variables of the scan in `__store`. A later item to update replaces an earlier one
with its key. -/
structure Scan (α : Type) [DecidableEq α] where
  toUpdate : List (Int × RegionObject α)
  lastEnd : Int

/-- The loop body of `__store`. -/
def Scan.visit (so : StoredObject α) (overwrite : Bool) (s : Scan α) (item : RegionObject α) : Option (Scan α) :=
  if item.start < so.start then do
    let (a, b) ← item.split so.start
    let b := b.update overwrite so
    return ⟨s.toUpdate ++ [(a.start, a), (b.start, b)], b.stop⟩
  else if item.start > s.lastEnd then
    -- the gap is filled; the item itself is left as it is
    let newItem := RegionObject.new s.lastEnd (item.start - s.lastEnd) {so}
    return ⟨s.toUpdate ++ [(newItem.start, newItem)], newItem.stop⟩
  else if item.stop > so.stop then do
    let (a, b) ← item.split so.stop
    let a := a.update overwrite so
    return ⟨s.toUpdate ++ [(a.start, a), (b.start, b)], b.stop⟩
  else
    let item := item.update overwrite so
    return ⟨s.toUpdate ++ [(item.start, item)], s.lastEnd⟩

/-- The keys of the items that start in a range. -/
def irange (minimum maximum : Int) : List Int := self.storage.keys.filter fun k => minimum ≤ k ∧ k ≤ maximum

/-- `__store`; `none` where an assertion fails. -/
def store (so : StoredObject α) (overwrite : Bool) : Option (KeyedRegion α) :=
  let overlappingItems := self.irange so.start (so.stop - 1)
  match self.getContainer so.start with
  | none => some { self with storage := self.storage.set so.start (.new so.start so.size {so}) }
  | some (floorKey, floorItem) =>
    if overlappingItems.length = 1 ∧ floorItem.start = so.start ∧ floorItem.stop = so.stop then
      some { self with storage := self.storage.set floorKey (floorItem.update overwrite so) }
    else
      let overlappingItems := if floorKey ∉ overlappingItems then floorKey :: overlappingItems else overlappingItems
      let scan : Option (Scan α) := (overlappingItems.filterMap self.storage.get?).foldlM (Scan.visit so overwrite)
        ⟨[(so.start, .new so.start so.size {so})], so.start⟩
      scan.map fun s => { self with storage := s.toUpdate.foldl (fun d p => d.set p.1 p.2) self.storage }

def setObject (start : Int) (obj : α) (objectSize : Int) : Option (KeyedRegion α) :=
  self.store ⟨start, obj, objectSize⟩ true

def addObject (start : Int) (obj : α) (objectSize : Int) : Option (KeyedRegion α) :=
  self.store ⟨start, obj, objectSize⟩ false

/-- The stored objects of all items, in the order in which `merge` goes through them; the
order within an item is any. -/
def storedObjects (E : Enumeration (StoredObject α)) : List (StoredObject α) :=
  self.storage.entries.flatMap fun p => E.list p.2.storedObjects

/-- `merge`; `none` where it raises. -/
def merge (E : Enumeration (StoredObject α)) (other : KeyedRegion α) : Option (KeyedRegion α) :=
  if self.canonicalSize ≠ other.canonicalSize then none
  else (other.storedObjects E).foldlM (fun r so => r.store so false) self

/-! ## Well-formed regions -/

/-- The items are keyed by their starts, not empty, and apart from each other. -/
structure WellFormed (r : KeyedRegion α) : Prop where
  keyed : ∀ p ∈ r.storage.entries, p.2.start = p.1
  positive : ∀ p ∈ r.storage.entries, 0 < p.2.size
  apart : ∀ p ∈ r.storage.entries, ∀ q ∈ r.storage.entries, p.1 < q.1 → p.2.stop ≤ q.1

/-- Every item lies in the range of each object that it holds. -/
def Within (r : KeyedRegion α) : Prop :=
  ∀ p ∈ r.storage.entries, ∀ so ∈ p.2.storedObjects, so.start ≤ p.2.start ∧ p.2.stop ≤ so.stop

section

variable {r : KeyedRegion α} {p q : Int × RegionObject α} {x : Int}

/-- No other item begins between the ends of an item. -/
theorem WellFormed.eq_of_between (h : r.WellFormed) (hp : p ∈ r.storage.entries) (hq : q ∈ r.storage.entries)
    (hlo : p.1 ≤ q.1) (hhi : q.1 < p.2.stop) : q = p := by
  refine SortedDict.eq_of_key hq hp ?_
  by_contra hne
  have happart := h.apart p hp q hq (by omega)
  omega

theorem WellFormed.getContainer_eq_some (h : r.WellFormed) :
    r.getContainer x = some p ↔ p ∈ r.storage.entries ∧ p.2.includes x := by
  unfold getContainer
  constructor
  · intro hp
    split at hp
    · cases hp
    rename_i key item hfloor
    split at hp
    · rename_i hin
      cases hp
      exact ⟨(SortedDict.floor?_eq_some.mp hfloor).1, hin⟩
    · cases hp
  · rintro ⟨hp, hin⟩
    have hkey := h.keyed p hp
    have hfloor : r.storage.floor? x = some p := by
      refine SortedDict.floor?_eq_some.mpr ⟨hp, by unfold RegionObject.includes at hin; omega, fun q hq hle => ?_⟩
      by_contra hlt
      have hle' := h.apart p hp q hq (not_le.mp hlt)
      unfold RegionObject.includes at hin
      unfold RegionObject.stop at hle'
      omega
    rw [hfloor]
    exact if_pos hin

theorem WellFormed.getContainer_eq_none (h : r.WellFormed) :
    r.getContainer x = none ↔ ∀ p ∈ r.storage.entries, ¬ p.2.includes x := by
  rw [Option.eq_none_iff_forall_ne_some]
  constructor
  · exact fun hnone p hp hin => hnone p (h.getContainer_eq_some.mpr ⟨hp, hin⟩)
  · intro hall p hp
    obtain ⟨hmem, hin⟩ := h.getContainer_eq_some.mp hp
    exact hall p hmem hin

/-- The objects at an offset are those of the item with it. -/
theorem WellFormed.objects_of_includes (h : r.WellFormed) (hp : p ∈ r.storage.entries) (hx : p.2.includes x) :
    r.getObjectsByOffset x = p.2.internalObjects := by
  unfold getObjectsByOffset
  rw [h.getContainer_eq_some.mpr ⟨hp, hx⟩]

theorem WellFormed.objects_of_free (h : r.WellFormed) (hx : ∀ p ∈ r.storage.entries, ¬ p.2.includes x) :
    r.getObjectsByOffset x = ∅ := by
  unfold getObjectsByOffset
  rw [h.getContainer_eq_none.mpr hx]

end

/-! ## Replacing items -/

/-- Items with their keys, one after the other, from one offset to another. -/
def Tiles : Int → Int → List (Int × RegionObject α) → Prop
  | lo, hi, [] => lo = hi
  | lo, hi, p :: ps => p.1 = lo ∧ p.2.start = lo ∧ 0 < p.2.size ∧ Tiles p.2.stop hi ps

section

variable {lo hi x : Int} {pieces : List (Int × RegionObject α)} {p q : Int × RegionObject α}

theorem Tiles.le (h : Tiles lo hi pieces) : lo ≤ hi := by
  induction pieces generalizing lo with
  | nil => exact le_of_eq h
  | cons p ps ih =>
    obtain ⟨-, hstart, hpos, hrest⟩ := h
    have hle := ih hrest
    unfold RegionObject.stop at hle
    omega

theorem Tiles.bounds (h : Tiles lo hi pieces) (hp : p ∈ pieces) :
    p.2.start = p.1 ∧ 0 < p.2.size ∧ lo ≤ p.1 ∧ p.2.stop ≤ hi := by
  induction pieces generalizing lo with
  | nil => cases hp
  | cons q ps ih =>
    obtain ⟨hkey, hstart, hpos, hrest⟩ := h
    have hle := hrest.le
    rcases List.mem_cons.mp hp with rfl | hp
    · exact ⟨by omega, hpos, by omega, hle⟩
    · obtain ⟨hkey', hpos', hlo, hhi⟩ := ih hrest hp
      unfold RegionObject.stop at hlo
      exact ⟨hkey', hpos', by omega, hhi⟩

theorem Tiles.apart (h : Tiles lo hi pieces) (hp : p ∈ pieces) (hq : q ∈ pieces) (hlt : p.1 < q.1) :
    p.2.stop ≤ q.1 := by
  induction pieces generalizing lo with
  | nil => cases hp
  | cons t ps ih =>
    obtain ⟨hkey, hstart, hpos, hrest⟩ := h
    rcases List.mem_cons.mp hp with rfl | hp'
    · rcases List.mem_cons.mp hq with rfl | hq'
      · omega
      · exact (hrest.bounds hq').2.2.1
    rcases List.mem_cons.mp hq with rfl | hq'
    · have hlo := (hrest.bounds hp').2.2.1
      unfold RegionObject.stop at hlo
      omega
    · exact ih hrest hp' hq'

theorem Tiles.sorted (h : Tiles lo hi pieces) : (pieces.map Prod.fst).Pairwise (· < ·) := by
  induction pieces generalizing lo with
  | nil => exact .nil
  | cons q ps ih =>
    obtain ⟨hkey, hstart, hpos, hrest⟩ := h
    refine List.pairwise_cons.mpr ⟨fun k hk => ?_, ih hrest⟩
    obtain ⟨p, hp, rfl⟩ := List.mem_map.mp hk
    have hlo := (hrest.bounds hp).2.2.1
    unfold RegionObject.stop at hlo
    omega

/-- Every offset between the ends is in a piece. -/
theorem Tiles.covers (h : Tiles lo hi pieces) (hlo : lo ≤ x) (hhi : x < hi) : ∃ p ∈ pieces, p.2.includes x := by
  induction pieces generalizing lo with
  | nil =>
    have heq : lo = hi := h
    omega
  | cons q ps ih =>
    obtain ⟨hkey, hstart, hpos, hrest⟩ := h
    by_cases hx : x < q.2.stop
    · exact ⟨q, List.mem_cons_self, by unfold RegionObject.stop at hx; exact ⟨by omega, hx⟩⟩
    · obtain ⟨p, hp, hin⟩ := ih hrest (not_lt.mp hx)
      exact ⟨p, List.mem_cons_of_mem _ hp, hin⟩

end

/-- The items between two offsets have been replaced by others that fill the range. -/
structure Replaced (r r' : KeyedRegion α) (lo hi : Int) (pieces : List (Int × RegionObject α)) : Prop where
  tiles : Tiles lo hi pieces
  mem : ∀ p, p ∈ r'.storage.entries ↔ p ∈ pieces ∨ p ∈ r.storage.entries ∧ ¬ (lo ≤ p.1 ∧ p.1 < hi)
  before : ∀ p ∈ r.storage.entries, p.1 < lo → p.2.stop ≤ lo
  inside : ∀ p ∈ r.storage.entries, lo ≤ p.1 → p.1 < hi → p.2.stop ≤ hi

section

variable {r r' : KeyedRegion α} {lo hi : Int} {pieces : List (Int × RegionObject α)}

theorem Replaced.wellFormed (h : Replaced r r' lo hi pieces) (hr : r.WellFormed) : r'.WellFormed := by
  refine ⟨fun p hp => ?_, fun p hp => ?_, fun p hp q hq hlt => ?_⟩
  · rcases (h.mem p).mp hp with hp | ⟨hp, -⟩
    · exact (h.tiles.bounds hp).1
    · exact hr.keyed p hp
  · rcases (h.mem p).mp hp with hp | ⟨hp, -⟩
    · exact (h.tiles.bounds hp).2.1
    · exact hr.positive p hp
  rcases (h.mem p).mp hp with hp | ⟨hp, hpout⟩
  · have hpb := h.tiles.bounds hp
    rcases (h.mem q).mp hq with hq | ⟨hq, hqout⟩
    · exact h.tiles.apart hp hq hlt
    · omega
  rcases (h.mem q).mp hq with hq | ⟨hq, hqout⟩
  · have hqb := h.tiles.bounds hq
    by_cases hplo : p.1 < lo
    · have hbefore := h.before p hp hplo
      omega
    · unfold RegionObject.stop at hqb
      omega
  · exact hr.apart p hp q hq hlt

/-- The objects at an offset in the range are those of the piece with it, and all others
are as they were. -/
theorem Replaced.objects (h : Replaced r r' lo hi pieces) (hr : r.WellFormed) (x : Int) :
    (∀ p ∈ pieces, p.2.includes x → r'.getObjectsByOffset x = p.2.internalObjects) ∧
      (¬ (lo ≤ x ∧ x < hi) → r'.getObjectsByOffset x = r.getObjectsByOffset x) := by
  have hr' := h.wellFormed hr
  refine ⟨fun p hp hx => hr'.objects_of_includes ((h.mem p).mpr (.inl hp)) hx, fun hout => ?_⟩
  by_cases hfree : ∀ p ∈ r.storage.entries, ¬ p.2.includes x
  · rw [hr.objects_of_free hfree]
    refine hr'.objects_of_free fun p hp hx => ?_
    rcases (h.mem p).mp hp with hp | ⟨hp, -⟩
    · have hb := h.tiles.bounds hp
      unfold RegionObject.includes at hx
      unfold RegionObject.stop at hb
      omega
    · exact hfree p hp hx
  push Not at hfree
  obtain ⟨p, hp, hx⟩ := hfree
  rw [hr.objects_of_includes hp hx]
  have hkey := hr.keyed p hp
  by_cases hin : lo ≤ p.1 ∧ p.1 < hi
  · have hstop := h.inside p hp hin.1 hin.2
    unfold RegionObject.includes at hx
    unfold RegionObject.stop at hstop
    omega
  · exact hr'.objects_of_includes ((h.mem p).mpr (.inr ⟨hp, hin⟩)) hx

theorem Replaced.within (h : Replaced r r' lo hi pieces) (hr : r.Within)
    (hpieces : ∀ p ∈ pieces, ∀ so ∈ p.2.storedObjects, so.start ≤ p.2.start ∧ p.2.stop ≤ so.stop) : r'.Within := by
  intro p hp
  rcases (h.mem p).mp hp with hp | ⟨hp, -⟩
  · exact hpieces p hp
  · exact hr p hp

end

/-! ## One store -/

/-- The ranges that a store handles: nothing lies in the range; or an item begins where it
begins and reaches its end; or the item around its start ends where it ends, or ends in
it where a further item begins that reaches its end. -/
def Shaped (r : KeyedRegion α) (start stop : Int) : Prop :=
  match r.getContainer start with
  | none => ∀ k ∈ r.storage.keys, ¬ (start ≤ k ∧ k < stop)
  | some (_, item) =>
    if item.start = start then stop ≤ item.stop
    else item.stop = stop ∨ item.stop < stop ∧ ∃ next, r.storage.get? item.stop = some next ∧ stop ≤ next.stop

@[simp] theorem front_start (item : RegionObject α) (splitAt : Int) : (item.front splitAt).start = item.start := rfl

@[simp] theorem front_size (item : RegionObject α) (splitAt : Int) :
    (item.front splitAt).size = splitAt - item.start := rfl

@[simp] theorem front_stop (item : RegionObject α) (splitAt : Int) : (item.front splitAt).stop = splitAt := by
  rw [RegionObject.stop, front_start, front_size]
  omega

@[simp] theorem back_start (item : RegionObject α) (splitAt : Int) : (item.back splitAt).start = splitAt := rfl

@[simp] theorem back_size (item : RegionObject α) (splitAt : Int) :
    (item.back splitAt).size = item.stop - splitAt := rfl

@[simp] theorem back_stop (item : RegionObject α) (splitAt : Int) : (item.back splitAt).stop = item.stop := by
  rw [RegionObject.stop, back_start, back_size]
  omega

@[simp] theorem update_start (item : RegionObject α) (overwrite : Bool) (so : StoredObject α) :
    (item.update overwrite so).start = item.start := by
  cases overwrite <;> rfl

@[simp] theorem update_size (item : RegionObject α) (overwrite : Bool) (so : StoredObject α) :
    (item.update overwrite so).size = item.size := by
  cases overwrite <;> rfl

@[simp] theorem update_stop (item : RegionObject α) (overwrite : Bool) (so : StoredObject α) :
    (item.update overwrite so).stop = item.stop := by
  cases overwrite <;> rfl

/-- What a store makes of the objects of an item in its range. -/
def stored (so : StoredObject α) (overwrite : Bool) (old : Finset (StoredObject α)) : Finset (StoredObject α) :=
  if overwrite then {so} else insert so old

theorem storedObjects_update (item : RegionObject α) (overwrite : Bool) (so : StoredObject α) :
    (item.update overwrite so).storedObjects = stored so overwrite item.storedObjects := by
  unfold RegionObject.update stored
  cases overwrite with
  | true => rfl
  | false =>
    ext so'
    by_cases h : so' = so <;> simp [RegionObject.addObject, h]

/-- A piece of a store: from the objects that its range had before, in one item or none. -/
structure Piece (r : KeyedRegion α) (so : StoredObject α) (overwrite : Bool) (p : RegionObject α)
    (old : Finset (StoredObject α)) : Prop where
  before : (∃ q ∈ r.storage.entries, q.2.start ≤ p.start ∧ p.stop ≤ q.2.stop ∧ old = q.2.storedObjects) ∨
    old = ∅ ∧ ∀ q ∈ r.storage.entries, ∀ x, p.includes x → ¬ q.2.includes x
  after : (so.start ≤ p.start ∧ p.stop ≤ so.stop ∧ p.storedObjects = stored so overwrite old) ∨
    ((p.stop ≤ so.start ∨ so.stop ≤ p.start) ∧ p.storedObjects = old)

/-- A store has replaced the items around its range by its pieces. -/
structure StoredIn (r r' : KeyedRegion α) (so : StoredObject α) (overwrite : Bool) (lo hi : Int)
    (pieces : List (Int × RegionObject α)) : Prop where
  replaced : Replaced r r' lo hi pieces
  lo_le : lo ≤ so.start
  le_hi : so.stop ≤ hi
  pieces : ∀ p ∈ pieces, ∃ old, Piece r so overwrite p.2 old
  canonicalSize : r'.canonicalSize = r.canonicalSize

section

variable {r r' : KeyedRegion α} {so : StoredObject α} {overwrite : Bool} {lo hi : Int}
  {pieces : List (Int × RegionObject α)}

theorem Piece.objects {p : RegionObject α} {old : Finset (StoredObject α)} (h : Piece r so overwrite p old)
    (hr : r.WellFormed) {x : Int} (hx : p.includes x) : r.getObjectsByOffset x = old.image StoredObject.obj := by
  rcases h.before with ⟨q, hq, hlo, hhi, rfl⟩ | ⟨rfl, hfree⟩
  · rw [hr.objects_of_includes hq ?_, q.2.internal_eq]
    unfold RegionObject.includes at hx ⊢
    unfold RegionObject.stop at hhi
    omega
  · rw [hr.objects_of_free fun q hq => hfree q hq x hx, Finset.image_empty]

/-- The objects after a store. -/
theorem StoredIn.objects (h : StoredIn r r' so overwrite lo hi pieces) (hr : r.WellFormed) (x : Int) :
    r'.getObjectsByOffset x =
      if so.start ≤ x ∧ x < so.stop then
        if overwrite then {so.obj} else insert so.obj (r.getObjectsByOffset x)
      else r.getObjectsByOffset x := by
  obtain ⟨hin, hout⟩ := h.replaced.objects hr x
  have hlo := h.lo_le
  have hhi := h.le_hi
  by_cases hx : lo ≤ x ∧ x < hi
  · obtain ⟨p, hp, hpx⟩ := h.replaced.tiles.covers hx.1 hx.2
    obtain ⟨old, hpiece⟩ := h.pieces p hp
    rw [hin p hp hpx, p.2.internal_eq, hpiece.objects hr hpx]
    have hpx' := hpx
    unfold RegionObject.includes at hpx'
    rcases hpiece.after with ⟨hstart, hstop, hafter⟩ | ⟨hapart, hafter⟩
    · unfold RegionObject.stop at hstop
      rw [if_pos (by omega), hafter]
      unfold stored
      cases overwrite with
      | true => exact Finset.image_singleton _ _
      | false => exact Finset.image_insert _ _ _
    · unfold RegionObject.stop at hapart
      rw [if_neg (by omega), hafter]
  · rw [hout hx, if_neg (by omega)]

theorem StoredIn.within (h : StoredIn r r' so overwrite lo hi pieces) (hr : r.Within)  : r'.Within := by
  refine h.replaced.within hr fun p hp so' hso' => ?_
  obtain ⟨old, hpiece⟩ := h.pieces p hp
  have hold : so' ∈ old → so'.start ≤ p.2.start ∧ p.2.stop ≤ so'.stop := by
    intro hmem
    rcases hpiece.before with ⟨q, hq, hlo, hhi, rfl⟩ | ⟨rfl, -⟩
    · have hin := hr q hq so' hmem
      omega
    · cases hmem
  rcases hpiece.after with ⟨hstart, hstop, hafter⟩ | ⟨-, hafter⟩
  · rw [hafter] at hso'
    unfold stored at hso'
    split at hso'
    · rw [Finset.mem_singleton.mp hso']
      exact ⟨hstart, hstop⟩
    · rcases Finset.mem_insert.mp hso' with rfl | hmem
      · exact ⟨hstart, hstop⟩
      · exact hold hmem
  · rw [hafter] at hso'
    exact hold hso'

end

/-! ## The stores that are handled -/

section

variable {r : KeyedRegion α} {so : StoredObject α} {overwrite : Bool} {key : Int} {item : RegionObject α}

theorem mem_irange {a b k : Int} : k ∈ r.irange a b ↔ (∃ p ∈ r.storage.entries, p.1 = k) ∧ a ≤ k ∧ k ≤ b := by
  simp only [irange, SortedDict.keys, List.mem_filter, List.mem_map, decide_eq_true_eq]

theorem irange_eq {a b : Int} {l : List Int} (hl : l.Pairwise (· < ·))
    (hmem : ∀ k, k ∈ l ↔ (∃ p ∈ r.storage.entries, p.1 = k) ∧ a ≤ k ∧ k ≤ b) : r.irange a b = l := by
  refine List.Pairwise.eq_of_mem_iff (r := (· < ·)) ?_ hl fun k => mem_irange.trans (hmem k).symm
  exact (List.pairwise_map.mpr r.storage.sorted).filter _

/-- Nothing is in the range. -/
theorem WellFormed.store_free (h : r.WellFormed) (hpos : 0 < so.size) (hnone : r.getContainer so.start = none)
    (hfree : ∀ k ∈ r.storage.keys, ¬ (so.start ≤ k ∧ k < so.stop)) :
    ∃ r' lo hi pieces, r.store so overwrite = some r' ∧ StoredIn r r' so overwrite lo hi pieces := by
  have hstop : so.stop = so.start + so.size := rfl
  have hout := h.getContainer_eq_none.mp hnone
  have hkeys : ∀ p ∈ r.storage.entries, ¬ (so.start ≤ p.1 ∧ p.1 < so.stop) :=
    fun p hp => hfree p.1 (List.mem_map_of_mem hp)
  have hbefore : ∀ p ∈ r.storage.entries, p.1 < so.start → p.2.stop ≤ so.start := by
    intro p hp hlt
    have hkey := h.keyed p hp
    have hnot := hout p hp
    unfold RegionObject.includes at hnot
    unfold RegionObject.stop
    omega
  refine ⟨{ r with storage := r.storage.set so.start (.new so.start so.size {so}) }, so.start, so.stop,
    [(so.start, .new so.start so.size {so})], ?_, ⟨?_, ?_, hbefore, ?_⟩, le_rfl, le_rfl, ?_, rfl⟩
  · unfold store
    rw [hnone]
  · exact ⟨rfl, rfl, hpos, rfl⟩
  · intro p
    dsimp only
    rw [SortedDict.mem_set, List.mem_singleton]
    refine or_congr Iff.rfl ⟨fun hp => ⟨hp.2, hkeys p hp.2⟩, fun hp => ⟨fun heq => hp.2 (by omega), hp.1⟩⟩
  · exact fun p hp hlo hhi => absurd ⟨hlo, hhi⟩ (hkeys p hp)
  intro p hp
  rw [List.mem_singleton.mp hp]
  refine ⟨∅, .inr ⟨rfl, fun q hq x hx hqx => ?_⟩, .inl ⟨le_rfl, le_rfl, ?_⟩⟩
  · have hkey := h.keyed q hq
    have hq' := hkeys q hq
    have hbefore' := hbefore q hq
    unfold RegionObject.includes RegionObject.new at *
    unfold RegionObject.stop at *
    dsimp only at hx
    omega
  · unfold stored RegionObject.new
    cases overwrite <;> simp

/-- The pieces replace the items from that at the first of them on, in a storage that differs
from the one before only at them. -/
theorem WellFormed.storedIn (h : r.WellFormed) {lo hi : Int} {pieces : List (Int × RegionObject α)}
    {base : SortedDict Int (RegionObject α)}
    (hbase : ∀ p, p.1 ∉ pieces.map Prod.fst → (p ∈ base.entries ↔ p ∈ r.storage.entries)) (htiles : Tiles lo hi pieces)
    (hmem : (lo, item) ∈ r.storage.entries) (hlo : lo ≤ so.start) (hhi : so.stop ≤ hi)
    (honly : ∀ p ∈ r.storage.entries, lo ≤ p.1 → p.1 < hi → p.1 ∈ pieces.map Prod.fst ∧ p.2.stop ≤ hi)
    (hpieces : ∀ p ∈ pieces, ∃ old, Piece r so overwrite p.2 old) :
    StoredIn r { r with storage := pieces.foldl (fun d p => d.set p.1 p.2) base } so overwrite lo hi pieces := by
  refine ⟨⟨htiles, fun p => ?_, fun p hp hlt => h.apart p hp _ hmem hlt,
    fun p hp hlo hhi => (honly p hp hlo hhi).2⟩, hlo, hhi, hpieces, rfl⟩
  dsimp only
  rw [SortedDict.mem_foldl_set (htiles.sorted.imp ne_of_lt)]
  refine or_congr Iff.rfl ⟨fun hp => ?_, fun hp => ?_⟩
  · have hp' := (hbase p hp.1).mp hp.2
    exact ⟨hp', fun hin => hp.1 (honly p hp' hin.1 hin.2).1⟩
  have hnot : p.1 ∉ pieces.map Prod.fst := by
    intro hmem'
    obtain ⟨q, hq, hqp⟩ := List.mem_map.mp hmem'
    have hb := htiles.bounds hq
    have hout := hp.2
    unfold RegionObject.stop at hb
    omega
  exact ⟨hnot, (hbase p hnot).mpr hp.1⟩

/-- The scan begins with an item of its own, which the pieces replace. -/
theorem mem_set_start {keys : List Int} (k : Int) (x : RegionObject α) (hk : k ∈ keys) (p : Int × RegionObject α)
    (hp : p.1 ∉ keys) : p ∈ (r.storage.set k x).entries ↔ p ∈ r.storage.entries := by
  have hne : p.1 ≠ k := fun heq => hp (heq ▸ hk)
  rw [SortedDict.mem_set]
  exact ⟨fun h => h.elim (fun heq => absurd (congrArg Prod.fst heq) hne) And.right, fun h => .inr ⟨hne, h⟩⟩

/-- An item begins where the range begins. -/
theorem WellFormed.at_start (h : r.WellFormed) (hpos : 0 < so.size) (hmem : (so.start, item) ∈ r.storage.entries)
    (hstop : so.stop ≤ item.stop) :
    r.getContainer so.start = some (so.start, item) ∧ r.irange so.start (so.stop - 1) = [so.start] := by
  have hso : so.stop = so.start + so.size := rfl
  have hkey : item.start = so.start := h.keyed _ hmem
  have hitem : item.stop = item.start + item.size := rfl
  refine ⟨h.getContainer_eq_some.mpr ⟨hmem, by unfold RegionObject.includes; dsimp only; omega⟩,
    irange_eq (List.pairwise_singleton _ _) fun k => ?_⟩
  rw [List.mem_singleton]
  constructor
  · rintro rfl
    exact ⟨⟨_, hmem, rfl⟩, by omega, by omega⟩
  · rintro ⟨⟨p, hp, rfl⟩, hlo, hhi⟩
    rw [h.eq_of_between hmem hp hlo (by dsimp only; omega)]

/-- An item begins where the range begins and ends where it ends. -/
theorem WellFormed.store_exact (h : r.WellFormed) (hpos : 0 < so.size) (hmem : (so.start, item) ∈ r.storage.entries)
    (hstop : item.stop = so.stop) :
    ∃ r' lo hi pieces, r.store so overwrite = some r' ∧ StoredIn r r' so overwrite lo hi pieces := by
  have hso : so.stop = so.start + so.size := rfl
  have hkey : item.start = so.start := h.keyed _ hmem
  obtain ⟨hcontainer, hrange⟩ := h.at_start hpos hmem hstop.ge
  have htiles : Tiles so.start so.stop [(so.start, item.update overwrite so)] :=
    ⟨rfl, by rw [update_start, hkey], by rw [update_size]; exact h.positive _ hmem, by rw [update_stop]; exact hstop⟩
  refine ⟨_, _, _, _, ?_, h.storedIn (fun _ _ => Iff.rfl) htiles hmem le_rfl le_rfl (fun p hp hlo hhi => ?_)
    fun p hp => ?_⟩
  · unfold store
    rw [hcontainer, hrange]
    exact if_pos ⟨rfl, hkey, hstop⟩
  · rw [h.eq_of_between hmem hp hlo (by dsimp only; omega)]
    exact ⟨List.mem_singleton_self _, hstop.le⟩
  rw [List.mem_singleton.mp hp]
  refine ⟨item.storedObjects, .inl ⟨_, hmem, ?_, ?_, rfl⟩, .inl ⟨?_, ?_, storedObjects_update item overwrite so⟩⟩
  · rw [update_start]
  · rw [update_stop]
  · rw [update_start, hkey]
  · rw [update_stop, hstop]

/-- What the scan puts in place of the last item of the range, which begins where the one
before it ended. -/
def lastPieces (so : StoredObject α) (overwrite : Bool) (next : RegionObject α) : List (Int × RegionObject α) :=
  if so.stop < next.stop then
    [(next.start, (next.front so.stop).update overwrite so), (so.stop, next.back so.stop)]
  else [(next.start, next.update overwrite so)]

variable {next : RegionObject α}

theorem visit_last {s : Scan α} (hend : next.start = s.lastEnd) (hlo : so.start ≤ next.start)
    (hhi : next.start < so.stop) :
    (Scan.visit so overwrite s next).map Scan.toUpdate = some (s.toUpdate ++ lastPieces so overwrite next) := by
  unfold Scan.visit lastPieces
  rw [if_neg (by omega), if_neg (by omega)]
  by_cases hstop : so.stop < next.stop
  · have hsplit : next.split so.stop = some (next.front so.stop, next.back so.stop) := if_pos ⟨hhi.le, hstop⟩
    rw [if_pos hstop, if_pos hstop, hsplit]
    simp
  · rw [if_neg hstop, if_neg hstop]
    simp

theorem tiles_lastPieces (hpos : 0 < next.size) (hlo : next.start < so.stop) :
    Tiles next.start next.stop (lastPieces so overwrite next) := by
  unfold lastPieces
  by_cases hlt : so.stop < next.stop
  · rw [if_pos hlt]
    exact ⟨rfl, by rw [update_start, front_start], by rw [update_size, front_size]; omega,
      by rw [update_stop, front_stop], by rw [update_stop, front_stop, back_start], by rw [back_size]; omega, back_stop _ _⟩
  · rw [if_neg hlt]
    exact ⟨rfl, update_start _ _ _, by rw [update_size]; exact hpos, update_stop _ _ _⟩

theorem piece_lastPieces (hmem : (next.start, next) ∈ r.storage.entries) (hlo : so.start ≤ next.start)
    (hhi : next.start < so.stop) (hstop : so.stop ≤ next.stop) {p : Int × RegionObject α}
    (hp : p ∈ lastPieces so overwrite next) : Piece r so overwrite p.2 next.storedObjects := by
  unfold lastPieces at hp
  by_cases hlt : so.stop < next.stop
  · rw [if_pos hlt] at hp
    rcases List.mem_cons.mp hp with rfl | hp
    · refine ⟨.inl ⟨_, hmem, ?_, ?_, rfl⟩, .inl ⟨?_, ?_, storedObjects_update _ overwrite so⟩⟩
      · rw [update_start, front_start]
      · rw [update_stop, front_stop]
        exact hstop
      · rw [update_start, front_start]
        exact hlo
      · rw [update_stop, front_stop]
    · rw [List.mem_singleton.mp hp]
      exact ⟨.inl ⟨_, hmem, by rw [back_start]; exact hhi.le, by rw [back_stop], rfl⟩,
        .inr ⟨.inr (by rw [back_start]), rfl⟩⟩
  · rw [if_neg hlt] at hp
    rw [List.mem_singleton.mp hp]
    refine ⟨.inl ⟨_, hmem, ?_, ?_, rfl⟩, .inl ⟨?_, ?_, storedObjects_update _ overwrite so⟩⟩
    · rw [update_start]
    · rw [update_stop]
    · rw [update_start]
      exact hlo
    · rw [update_stop]
      omega

theorem key_mem_lastPieces (next : RegionObject α) : next.start ∈ (lastPieces so overwrite next).map Prod.fst := by
  unfold lastPieces
  split <;> simp

/-- An item begins where the range begins and ends after it. -/
theorem WellFormed.store_longer (h : r.WellFormed) (hpos : 0 < so.size) (hmem : (so.start, item) ∈ r.storage.entries)
    (hstop : so.stop < item.stop) :
    ∃ r' lo hi pieces, r.store so overwrite = some r' ∧ StoredIn r r' so overwrite lo hi pieces := by
  have hso : so.stop = so.start + so.size := rfl
  have hkey : item.start = so.start := h.keyed _ hmem
  obtain ⟨hcontainer, hrange⟩ := h.at_start hpos hmem hstop.le
  have hget : r.storage.get? so.start = some item := SortedDict.get?_eq_some.mpr hmem
  have htiles := @tiles_lastPieces α _ so overwrite item (h.positive _ hmem) (by omega)
  have hkeys := @key_mem_lastPieces α _ so overwrite item
  obtain ⟨s, hs, hupdate⟩ := Option.map_eq_some_iff.mp (@visit_last α _ so overwrite item
    ⟨[(so.start, .new so.start so.size {so})], so.start⟩ hkey (by omega) (by omega))
  rw [hkey] at htiles hkeys
  refine ⟨_, _, _, _, ?_, h.storedIn (mem_set_start so.start (.new so.start so.size {so}) hkeys) htiles hmem le_rfl hstop.le (fun p hp hlo hhi => ?_)
    fun p hp => ⟨_, piece_lastPieces (by rwa [hkey]) (by omega) (by omega) hstop.le hp⟩⟩
  · unfold store
    rw [hcontainer, hrange]
    dsimp only
    rw [if_neg (by rintro ⟨-, -, heq⟩; omega), if_neg (by simp), List.filterMap_cons, hget, List.filterMap_nil,
      List.foldlM_cons, hs]
    simp only [List.foldlM_nil, Option.bind_eq_bind, Option.bind_some, Option.pure_def, Option.map_some, hupdate]
    rfl
  · rw [h.eq_of_between hmem hp hlo hhi]
    exact ⟨hkeys, le_rfl⟩

/-- The scan visits an item around the start of the range. -/
theorem visit_around (hlo : item.start < so.start) (hhi : so.start < item.stop) :
    Scan.visit so overwrite ⟨[(so.start, .new so.start so.size {so})], so.start⟩ item =
      some ⟨[(so.start, .new so.start so.size {so}), (item.start, item.front so.start),
        (so.start, (item.back so.start).update overwrite so)], item.stop⟩ := by
  have hsplit : item.split so.start = some (item.front so.start, item.back so.start) :=
    if_pos ⟨hlo.le, hhi⟩
  unfold Scan.visit
  rw [if_pos hlo, hsplit]
  simp

theorem piece_front (hmem : (item.start, item) ∈ r.storage.entries) (hin : so.start ≤ item.stop) :
    Piece r so overwrite (item.front so.start) item.storedObjects :=
  ⟨.inl ⟨_, hmem, le_rfl, by rw [front_stop]; exact hin, rfl⟩, .inr ⟨.inl (by rw [front_stop]), rfl⟩⟩

theorem piece_back (hmem : (item.start, item) ∈ r.storage.entries) (hlo : item.start < so.start)
    (hstop : item.stop ≤ so.stop) :
    Piece r so overwrite ((item.back so.start).update overwrite so) item.storedObjects := by
  refine ⟨.inl ⟨_, hmem, ?_, ?_, rfl⟩, .inl ⟨?_, ?_, storedObjects_update _ overwrite so⟩⟩
  · rw [update_start, back_start]
    exact hlo.le
  · rw [update_stop, back_stop]
  · rw [update_start, back_start]
  · rw [update_stop, back_stop]
    exact hstop

/-- The item around the start of the range ends where it ends. -/
theorem WellFormed.store_tail (h : r.WellFormed) (hpos : 0 < so.size) (hmem : (item.start, item) ∈ r.storage.entries)
    (hlo : item.start < so.start) (hstop : item.stop = so.stop) :
    ∃ r' lo hi pieces, r.store so overwrite = some r' ∧ StoredIn r r' so overwrite lo hi pieces := by
  have hso : so.stop = so.start + so.size := rfl
  have hitem : item.stop = item.start + item.size := rfl
  have hcontainer : r.getContainer so.start = some (item.start, item) :=
    h.getContainer_eq_some.mpr ⟨hmem, by unfold RegionObject.includes; dsimp only; omega⟩
  have honly : ∀ p ∈ r.storage.entries, item.start ≤ p.1 → p.1 < item.stop → p = (item.start, item) :=
    fun p hp hlo hhi => h.eq_of_between hmem hp hlo hhi
  have hrange : r.irange so.start (so.stop - 1) = [] := by
    refine irange_eq .nil fun k => iff_of_false List.not_mem_nil ?_
    rintro ⟨⟨p, hp, rfl⟩, hlo', hhi⟩
    rw [honly p hp (by omega) (by omega)] at hlo'
    dsimp only at hlo'
    omega
  have hget : r.storage.get? item.start = some item := SortedDict.get?_eq_some.mpr hmem
  have htiles : Tiles item.start so.stop
      [(item.start, item.front so.start), (so.start, (item.back so.start).update overwrite so)] := by
    refine ⟨rfl, rfl, by rw [front_size]; omega, by rw [front_stop], by rw [update_start, back_start, front_stop],
      by rw [update_size, back_size]; omega, ?_⟩
    rw [update_stop, back_stop]
    exact hstop
  refine ⟨_, _, _, _, ?_, h.storedIn (mem_set_start so.start (.new so.start so.size {so}) (by simp)) htiles hmem hlo.le le_rfl (fun p hp hlo hhi => ?_)
    fun p hp => ?_⟩
  · unfold store
    rw [hcontainer, hrange]
    dsimp only
    rw [if_neg (by simp), if_pos (by simp), List.filterMap_cons, hget, List.filterMap_nil, List.foldlM_cons,
      visit_around hlo (by omega)]
    rfl
  · rw [honly p hp hlo (by omega)]
    exact ⟨by simp, hstop.le⟩
  rcases List.mem_cons.mp hp with rfl | hp
  · exact ⟨_, piece_front hmem (by omega)⟩
  · rw [List.mem_singleton.mp hp]
    exact ⟨_, piece_back hmem hlo hstop.le⟩

/-- The item around the start of the range ends in it, where one begins that reaches its end. -/
theorem WellFormed.store_adjacent (h : r.WellFormed) (hmem : (item.start, item) ∈ r.storage.entries)
    (hlo : item.start < so.start) (hin : so.start < item.stop) (hend : item.stop < so.stop)
    (hnext : (item.stop, next) ∈ r.storage.entries) (hstop : so.stop ≤ next.stop) :
    ∃ r' lo hi pieces, r.store so overwrite = some r' ∧ StoredIn r r' so overwrite lo hi pieces := by
  have hnextKey : next.start = item.stop := h.keyed _ hnext
  rw [← hnextKey] at hnext
  have hitem : item.stop = item.start + item.size := rfl
  have hcontainer : r.getContainer so.start = some (item.start, item) :=
    h.getContainer_eq_some.mpr ⟨hmem, by unfold RegionObject.includes; dsimp only; omega⟩
  have honly : ∀ p ∈ r.storage.entries, item.start ≤ p.1 → p.1 < next.stop →
      p = (item.start, item) ∨ p = (next.start, next) := by
    intro p hp hlo hhi
    by_cases hp' : p.1 < item.stop
    · exact .inl (h.eq_of_between hmem hp hlo hp')
    · exact .inr (h.eq_of_between hnext hp (by dsimp only; omega) hhi)
  have hrange : r.irange so.start (so.stop - 1) = [next.start] := by
    refine irange_eq (List.pairwise_singleton _ _) fun k => ?_
    rw [List.mem_singleton]
    constructor
    · rintro rfl
      exact ⟨⟨_, hnext, rfl⟩, by omega, by omega⟩
    rintro ⟨⟨p, hp, rfl⟩, hlo', hhi⟩
    rcases honly p hp (by omega) (by omega) with rfl | rfl
    · dsimp only at hlo'
      omega
    · rfl
  have hget : r.storage.get? item.start = some item := SortedDict.get?_eq_some.mpr hmem
  have hget' : r.storage.get? next.start = some next := SortedDict.get?_eq_some.mpr hnext
  have htiles : Tiles item.start next.stop ((item.start, item.front so.start) ::
      (so.start, (item.back so.start).update overwrite so) :: lastPieces so overwrite next) := by
    refine ⟨rfl, rfl, by rw [front_size]; omega, by rw [front_stop], by rw [update_start, back_start, front_stop],
      by rw [update_size, back_size]; omega, ?_⟩
    rw [update_stop, back_stop, ← hnextKey]
    exact tiles_lastPieces (h.positive _ hnext) (by omega)
  refine ⟨_, _, _, _, ?_, h.storedIn (mem_set_start so.start (.new so.start so.size {so}) (by simp)) htiles hmem hlo.le hstop (fun p hp hlo hhi => ?_)
    fun p hp => ?_⟩
  · have hlast := @visit_last α _ so overwrite next ⟨[(so.start, .new so.start so.size {so}),
      (item.start, item.front so.start), (so.start, (item.back so.start).update overwrite so)], item.stop⟩
      hnextKey (by omega) (by omega)
    obtain ⟨s, hs, hupdate⟩ := Option.map_eq_some_iff.mp hlast
    unfold store
    rw [hcontainer, hrange]
    dsimp only
    rw [if_neg (by rintro ⟨-, heq, -⟩; omega), if_pos (by rw [List.mem_singleton]; omega), List.filterMap_cons, hget,
      List.filterMap_cons, hget', List.filterMap_nil, List.foldlM_cons, visit_around hlo (by omega)]
    simp only [List.foldlM_cons, List.foldlM_nil, Option.bind_eq_bind, Option.bind_some, hs, Option.pure_def,
      Option.map_some, hupdate]
    rfl
  · rcases honly p hp hlo hhi with rfl | rfl
    · exact ⟨by simp, by dsimp only; omega⟩
    · exact ⟨List.mem_cons_of_mem _ (List.mem_cons_of_mem _ (key_mem_lastPieces next)), le_rfl⟩
  · rcases List.mem_cons.mp hp with rfl | hp
    · exact ⟨_, piece_front hmem hin.le⟩
    rcases List.mem_cons.mp hp with rfl | hp
    · exact ⟨_, piece_back hmem hlo hend.le⟩
    · exact ⟨_, piece_lastPieces hnext (by omega) (by omega) hstop hp⟩

/-- A store to a range of one of the shapes that it handles. -/
theorem WellFormed.store_spec (h : r.WellFormed) (hpos : 0 < so.size) (hshaped : r.Shaped so.start so.stop) :
    ∃ r' lo hi pieces, r.store so overwrite = some r' ∧ StoredIn r r' so overwrite lo hi pieces := by
  unfold Shaped at hshaped
  cases hcontainer : r.getContainer so.start with
  | none =>
    rw [hcontainer] at hshaped
    exact h.store_free hpos hcontainer hshaped
  | some p =>
    obtain ⟨key, item⟩ := p
    rw [hcontainer] at hshaped
    obtain ⟨hmem, hin⟩ := h.getContainer_eq_some.mp hcontainer
    have hkey : item.start = key := h.keyed _ hmem
    have hitem : item.stop = item.start + item.size := rfl
    unfold RegionObject.includes at hin
    dsimp only at hshaped hin
    split at hshaped
    · rename_i hstart
      rw [← hkey, hstart] at hmem
      rcases lt_or_eq_of_le hshaped with hlt | heq
      · exact h.store_longer hpos hmem hlt
      · exact h.store_exact hpos hmem heq.symm
    rename_i hstart
    rcases hshaped with heq | ⟨hlt, next, hnext, hstop⟩
    · exact h.store_tail hpos (hkey ▸ hmem) (by omega) heq
    · exact h.store_adjacent (hkey ▸ hmem) (by omega) (by omega) hlt (SortedDict.get?_eq_some.mp hnext) hstop

end

end KeyedRegion
