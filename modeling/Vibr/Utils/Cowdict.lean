import Mathlib.Data.List.GetD
import Mathlib.Data.Finset.Card
import Vibr.Lib.Dict

/-!
# Copy-on-write chain maps

A chain map is a list of layers, looked up from the front, and a set of deleted keys.
`copy` returns the map itself and marks it dirty; a handle that is going to write
replaces its map by `clean`, which puts a new layer in front of a dirty map or, from
`collapse_threshold` layers on, copies the bindings into one new layer.

Layers and maps are objects: they are shared, and compared by identity. `World` holds
them by number, `run` gives the world after a list of calls, and `privateDicts` the
dictionaries that the same calls make of independent dictionaries.
-/

namespace Angr.Cowdict

variable {K V : Type*} [DecidableEq K]

/-- A map of the class; `maps` are the numbers of its layers. -/
structure ChainMapCOW (K : Type*) where
  maps : List Nat
  maps_ne : maps ≠ []
  dirty : Bool := false
  collapseThreshold : Option Int
  deleted : Finset K := ∅

namespace ChainMapCOW

/-! ## Reading -/

variable (layer : Nat → Dict K V)

/-- The first binding of a key in a list of layers. -/
def find (maps : List Nat) (key : K) : Option V := maps.findSome? fun i => (layer i).get? key

/-- `__getitem__` and `get`; `none` is a `KeyError`, or the default. -/
def getItem (self : ChainMapCOW K) (key : K) : Option V :=
  if key ∈ self.deleted then none else find layer self.maps key

def contains (self : ChainMapCOW K) (key : K) : Bool :=
  if key ∈ self.deleted then false else self.maps.any fun i => key ∈ (layer i).keys

/-- The keys that are not in `seen`, each one once. -/
def unseen (seen : Finset K) : List K → List K
  | [] => []
  | key :: keys => if key ∈ seen then unseen seen keys else key :: unseen (insert key seen) keys

def iter (self : ChainMapCOW K) : List K :=
  unseen self.deleted (self.maps.reverse.flatMap fun i => (layer i).map Prod.fst)

/-- The keys of a list of layers, as `set().union(*maps)`. -/
def keysOf (maps : List Nat) : Finset K := maps.foldr (fun i keys => (layer i).keys ∪ keys) ∅

def len (self : ChainMapCOW K) : Nat := (keysOf layer self.maps \ self.deleted).card

def collapsedDict (self : ChainMapCOW K) : Dict K V :=
  let collapsed := self.maps.reverse.foldl (fun (collapsed : Dict K V) i => collapsed.update (layer i)) []
  collapsed.restrict (· ∉ self.deleted)

/-- Two lists of layers, last layer first, without the layers they begin with in common. -/
def dropShared : List Nat → List Nat → List Nat × List Nat
  | i :: am, j :: bm => if i = j then dropShared am bm else (i :: am, j :: bm)
  | am, bm => (am, bm)

def mergeCandidateKeys (a b : ChainMapCOW K) : Finset K :=
  let heads := dropShared a.maps.reverse b.maps.reverse
  keysOf layer heads.1 ∪ keysOf layer heads.2 ∪ a.deleted ∪ b.deleted

end ChainMapCOW

/-! ## Runs -/

theorem firstLayer_ne : [0] ≠ ([] : List Nat) := List.cons_ne_nil 0 []

/-- The objects of a run, and the map that each handle refers to. -/
structure World (K V : Type*) where
  layer : Nat → Dict K V := fun _ => []
  nextLayer : Nat := 0
  object : Nat → ChainMapCOW K := fun _ => { maps := [0], maps_ne := firstLayer_ne, collapseThreshold := none }
  nextObject : Nat := 0
  handles : List Nat := []

namespace World

/-- A new map of new layers, with the bindings `dict :: dicts`, in front of the layers `rest`. -/
def newMap (w : World K V) (dict : Dict K V) (dicts : List (Dict K V)) (rest : List Nat)
    (collapseThreshold : Option Int) (deleted : Finset K) : World K V :=
  { w with
    layer := fun i => if i < w.nextLayer then w.layer i else (dict :: dicts).getD (i - w.nextLayer) []
    nextLayer := w.nextLayer + (dicts.length + 1)
    object := Function.update w.object w.nextObject
      { maps := List.range' w.nextLayer (dicts.length + 1) ++ rest
        maps_ne := by simp [List.range'_succ]
        collapseThreshold
        deleted }
    nextObject := w.nextObject + 1 }

/-- `ChainMapCOW(*dicts, collapse_threshold=collapseThreshold)`, for a new handle. -/
def new (w : World K V) (dicts : List (Dict K V)) (collapseThreshold : Option Int) : World K V :=
  let w' := w.newMap (dicts.headD []) dicts.tail [] collapseThreshold ∅
  { w' with handles := w.handles ++ [w.nextObject] }

/-- `copy` of the map `o`, for a new handle. -/
def copy (w : World K V) (o : Nat) : World K V :=
  { w with
    object := Function.update w.object o { w.object o with dirty := true }
    handles := w.handles ++ [o] }

/-- The map that the map `o` is replaced by. -/
def clean (w : World K V) (o : Nat) : Nat × World K V :=
  let self := w.object o
  if ¬ self.dirty then (o, w)
  else if ∃ n ∈ self.collapseThreshold, n ≤ self.maps.length then
    (w.nextObject, w.newMap (self.collapsedDict w.layer) [] [] self.collapseThreshold ∅)
  else (w.nextObject, w.newMap [] [] self.maps self.collapseThreshold self.deleted)

/-- The number of the first layer of the map `o`, its `maps[0]`. -/
def top (w : World K V) (o : Nat) : Nat := (w.object o).maps.head (w.object o).maps_ne

def front (w : World K V) (o : Nat) : Dict K V := w.layer (w.top o)

/-- The first layer and the deleted keys of the map `o` become these. -/
def write (w : World K V) (o : Nat) (dict : Dict K V) (deleted : Finset K) : World K V :=
  { w with
    layer := Function.update w.layer (w.top o) dict
    object := Function.update w.object o { w.object o with deleted } }

def setItem (w : World K V) (o : Nat) (key : K) (value : V) : World K V :=
  w.write o ((w.front o).set key value) ((w.object o).deleted.erase key)

/-- `none` is a `KeyError`. -/
def delItem (w : World K V) (o : Nat) (key : K) : Option (World K V) :=
  if (w.object o).contains w.layer key then
    some (w.write o ((w.front o).restrict (· ≠ key)) (insert key (w.object o).deleted))
  else none

/-- `pop` with no default, and the value it returns. -/
def pop (w : World K V) (o : Nat) (key : K) : Option (V × World K V) :=
  match (w.object o).getItem w.layer key with
  | some value =>
    some (value, w.write o ((w.front o).restrict (· ≠ key)) (insert key (w.object o).deleted))
  | none => none

/-- The calls of a run; handles are numbered in the order they are made. -/
inductive Op (K V : Type*)
  | new (dicts : List (Dict K V)) (collapseThreshold : Option Int)
  | copy (handle : Nat)
  | clean (handle : Nat)
  | setItem (handle : Nat) (key : K) (value : V)
  | delItem (handle : Nat) (key : K)
  | pop (handle : Nat) (key : K)

/-- The handle's map is replaced by `clean()`, and `act` is done to the new map. -/
def cleaned (w : World K V) (handle : Nat) (act : World K V → Nat → World K V) : World K V :=
  match w.handles[handle]? with
  | none => w
  | some o =>
    let (o', w') := w.clean o
    act { w' with handles := w.handles.set handle o' } o'

def step (w : World K V) : Op K V → World K V
  | .new dicts collapseThreshold => w.new dicts collapseThreshold
  | .copy handle =>
    match w.handles[handle]? with
    | none => w
    | some o => w.copy o
  | .clean handle => w.cleaned handle fun w _ => w
  | .setItem handle key value => w.cleaned handle fun w o => w.setItem o key value
  | .delItem handle key => w.cleaned handle fun w o => (w.delItem o key).getD w
  | .pop handle key => w.cleaned handle fun w o => ((w.pop o key).map Prod.snd).getD w

def run (ops : List (Op K V)) : World K V := ops.foldl step {}

/-- The same call on dictionaries, one for each handle. -/
def privateStep (dicts : List (Dict K V)) : Op K V → List (Dict K V)
  | .new maps _ => dicts ++ [maps.foldr (fun m (d : Dict K V) => d.update m) []]
  | .copy handle => dicts ++ dicts[handle]?.toList
  | .clean _ => dicts
  | .setItem handle key value => dicts.modify handle fun d => Dict.set d key value
  | .delItem handle key => dicts.modify handle fun d => Dict.restrict d (· ≠ key)
  | .pop handle key => dicts.modify handle fun d => Dict.restrict d (· ≠ key)

def privateDicts (ops : List (Op K V)) : List (Dict K V) := ops.foldl privateStep []

end World

/-! ## Lookups -/

variable {d : Dict K V}

namespace ChainMapCOW

variable {layer : Nat → Dict K V} {self : ChainMapCOW K} {key : K} {maps : List Nat}

theorem mem_keysOf : key ∈ keysOf layer maps ↔ ∃ i ∈ maps, key ∈ (layer i).keys := by
  induction maps with
  | nil => simp [keysOf]
  | cons i maps ih => simp [keysOf, ← ih]

theorem find_isSome : (find layer maps key).isSome ↔ key ∈ keysOf layer maps := by
  rw [mem_keysOf, find, List.findSome?_isSome_iff]
  simp only [Dict.get?_isSome]

theorem find_append (am bm : List Nat) :
    find layer (am ++ bm) key = (find layer am key).or (find layer bm key) :=
  List.findSome?_append

theorem find_congr {layer' : Nat → Dict K V} (h : ∀ i ∈ maps, layer i = layer' i) :
    find layer maps key = find layer' maps key := by
  induction maps with
  | nil => rfl
  | cons i maps ih =>
    have hi : layer i = layer' i := h i List.mem_cons_self
    have hmaps : find layer maps key = find layer' maps key := ih fun j hj => h j (List.mem_cons_of_mem i hj)
    unfold find at hmaps ⊢
    rw [List.findSome?_cons, List.findSome?_cons, hi, hmaps]

theorem getItem_congr {layer' : Nat → Dict K V} (h : ∀ i ∈ self.maps, layer i = layer' i) :
    self.getItem layer key = self.getItem layer' key := by
  rw [getItem, getItem, find_congr h]

theorem getItem_isSome : (self.getItem layer key).isSome ↔ key ∈ keysOf layer self.maps \ self.deleted := by
  rw [getItem, Finset.mem_sdiff, ← find_isSome]
  split
  · rename_i hdeleted
    simp [hdeleted]
  · rename_i hdeleted
    simp [hdeleted]

theorem contains_eq : self.contains layer key = (self.getItem layer key).isSome := by
  rw [Bool.eq_iff_iff, getItem_isSome, Finset.mem_sdiff, mem_keysOf, contains]
  split
  · rename_i hdeleted
    simp [hdeleted]
  · rename_i hdeleted
    simp [hdeleted]

theorem mem_unseen {seen : Finset K} {keys : List K} : key ∈ unseen seen keys ↔ key ∈ keys ∧ key ∉ seen := by
  induction keys generalizing seen with
  | nil => simp [unseen]
  | cons k keys ih =>
    rw [unseen]
    split
    · rename_i hk
      rw [ih, List.mem_cons]
      constructor
      · exact fun ⟨hmem, hseen⟩ => ⟨.inr hmem, hseen⟩
      · rintro ⟨rfl | hmem, hseen⟩
        · exact absurd hk hseen
        · exact ⟨hmem, hseen⟩
    rename_i hk
    rw [List.mem_cons, List.mem_cons, ih, Finset.mem_insert]
    constructor
    · rintro (rfl | ⟨hmem, hseen⟩)
      · exact ⟨.inl rfl, hk⟩
      · exact ⟨.inr hmem, fun h => hseen (.inr h)⟩
    rintro ⟨rfl | hmem, hseen⟩
    · exact .inl rfl
    · by_cases heq : key = k
      · exact .inl heq
      · exact .inr ⟨hmem, fun h => h.elim heq hseen⟩

theorem nodup_unseen {seen : Finset K} {keys : List K} : (unseen seen keys).Nodup := by
  induction keys generalizing seen with
  | nil => exact .nil
  | cons k keys ih =>
    rw [unseen]
    split
    · exact ih
    · refine List.nodup_cons.mpr ⟨?_, ih⟩
      rw [mem_unseen]
      exact fun h => h.2 (Finset.mem_insert_self k seen)

theorem mem_iter : key ∈ self.iter layer ↔ key ∈ keysOf layer self.maps \ self.deleted := by
  rw [iter, mem_unseen, Finset.mem_sdiff, mem_keysOf]
  simp [Dict.mem_keys]

/-- A dictionary of the same bindings as a list of dictionaries, looked up from the front. -/
theorem get?_layered {dicts : List (Dict K V)} :
    Dict.get? (dicts.foldr (fun m (d : Dict K V) => d.update m) []) key =
      dicts.findSome? fun m => Dict.get? m key := by
  induction dicts with
  | nil => rfl
  | cons m dicts ih =>
    rw [List.foldr_cons, Dict.get?_update, ih, List.findSome?_cons]
    cases Dict.get? m key <;> rfl

theorem get?_collapsedDict : (self.collapsedDict layer).get? key = self.getItem layer key := by
  have hfold : self.maps.reverse.foldl (fun (collapsed : Dict K V) i => collapsed.update (layer i)) [] =
      (self.maps.map layer).foldr (fun m (d : Dict K V) => d.update m) [] := by
    rw [List.foldl_reverse, List.foldr_map]
  rw [collapsedDict, hfold, Dict.get?_restrict, get?_layered, List.findSome?_map, getItem]
  by_cases hdeleted : key ∈ self.deleted
  · simp [hdeleted]
  · simp only [hdeleted, not_false_eq_true, decide_true, if_true, if_false]
    rfl

/-- Reading the map is reading the dictionary `d`. -/
structure SameAs (layer : Nat → Dict K V) (self : ChainMapCOW K) (d : Dict K V) : Prop where
  getItem : ∀ key, self.getItem layer key = d.get? key
  contains : ∀ key, self.contains layer key = true ↔ key ∈ d.keys
  len : self.len layer = d.keys.card
  iter : (self.iter layer).Nodup ∧ ∀ key, key ∈ self.iter layer ↔ key ∈ d.keys

theorem sameAs_of_getItem (h : ∀ key, self.getItem layer key = d.get? key) : SameAs layer self d := by
  have hkeys : keysOf layer self.maps \ self.deleted = d.keys := by
    ext key
    rw [← getItem_isSome, h, Dict.get?_isSome]
  refine ⟨h, ?_, ?_, nodup_unseen, ?_⟩
  · intro key
    rw [contains_eq, h, Dict.get?_isSome]
  · rw [len, hkeys]
  · intro key
    rw [mem_iter, hkeys]

/-! ## Merging -/

theorem dropShared_spec (am bm : List Nat) :
    ∃ shared, am = shared ++ (dropShared am bm).1 ∧ bm = shared ++ (dropShared am bm).2 := by
  fun_induction dropShared am bm with
  | case1 am j bm ih =>
    obtain ⟨shared, ha, hb⟩ := ih
    exact ⟨j :: shared, congrArg _ ha, congrArg _ hb⟩
  | case2 i am j bm hne => exact ⟨[], rfl, rfl⟩
  | case3 am bm => exact ⟨[], rfl, rfl⟩

/-- Two maps agree where neither has a binding of its own or a deletion. -/
theorem getItem_eq_of_not_candidate {a b : ChainMapCOW K} (h : key ∉ mergeCandidateKeys layer a b) :
    a.getItem layer key = b.getItem layer key := by
  obtain ⟨shared, ha, hb⟩ := dropShared_spec a.maps.reverse b.maps.reverse
  unfold mergeCandidateKeys at h
  simp only [Finset.mem_union, not_or] at h
  obtain ⟨⟨⟨hna, hnb⟩, hda⟩, hdb⟩ := h
  -- the binding is looked for in the shared layers alone
  have hfind : ∀ {maps rest : List Nat}, maps.reverse = shared ++ rest → key ∉ keysOf layer rest →
      find layer maps key = find layer shared.reverse key := by
    intro maps rest hmaps hrest
    have hnone : find layer rest.reverse key = none := by
      rw [← Option.not_isSome_iff_eq_none, find_isSome, mem_keysOf]
      rw [mem_keysOf] at hrest
      simpa using hrest
    rw [← List.reverse_reverse maps, hmaps, List.reverse_append, find_append, hnone, Option.none_or]
  rw [getItem, getItem, if_neg hda, if_neg hdb, hfind ha hna, hfind hb hnb]

end ChainMapCOW

/-! ## The invariant of runs -/

namespace World

open ChainMapCOW

variable {w : World K V} {ds : List (Dict K V)} {o handle : Nat}

/-- Every handle's map has the bindings of its dictionary. The first layer of a map that is
not dirty is in no other place, and such a map has one handle. -/
structure Inv (w : World K V) (ds : List (Dict K V)) : Prop where
  length : w.handles.length = ds.length
  same : ∀ (h o : Nat) (d : Dict K V), w.handles[h]? = some o → ds[h]? = some d →
    ∀ key, (w.object o).getItem w.layer key = d.get? key
  live : ∀ o ∈ w.handles, o < w.nextObject
  made : ∀ o < w.nextObject, ∀ i ∈ (w.object o).maps, i < w.nextLayer
  alone : ∀ o < w.nextObject, (w.object o).dirty = false →
    w.top o ∉ (w.object o).maps.tail ∧ ∀ o' < w.nextObject, o' ≠ o → w.top o ∉ (w.object o').maps
  once : ∀ (h h' o : Nat), (w.object o).dirty = false → w.handles[h]? = some o → w.handles[h']? = some o →
    h = h'

omit [DecidableEq K] in
theorem top_mem : w.top o ∈ (w.object o).maps := List.head_mem _

omit [DecidableEq K] in
theorem maps_eq : (w.object o).maps = w.top o :: (w.object o).maps.tail := (List.cons_head_tail _).symm

theorem inv_empty : Inv ({} : World K V) [] where
  length := rfl
  same _ _ _ h := by simp at h
  live _ h := by simp at h
  made _ h := absurd h (Nat.not_lt_zero _)
  alone _ h := absurd h (Nat.not_lt_zero _)
  once _ _ _ _ h := by simp at h

variable {dict : Dict K V} {dicts : List (Dict K V)} {rest : List Nat} {collapseThreshold : Option Int}
  {deleted : Finset K}

omit [DecidableEq K] in
theorem newMap_object (ho : o < w.nextObject) :
    (w.newMap dict dicts rest collapseThreshold deleted).object o = w.object o :=
  Function.update_of_ne (Nat.ne_of_lt ho) _ _

omit [DecidableEq K] in
theorem newMap_maps : ((w.newMap dict dicts rest collapseThreshold deleted).object w.nextObject).maps =
    List.range' w.nextLayer (dicts.length + 1) ++ rest := by
  simp [newMap]

omit [DecidableEq K] in
theorem newMap_top : (w.newMap dict dicts rest collapseThreshold deleted).top w.nextObject = w.nextLayer := by
  simp [top, newMap_maps, List.range'_succ]

omit [DecidableEq K] in
theorem newMap_layer {i : Nat} (hi : i < w.nextLayer) :
    (w.newMap dict dicts rest collapseThreshold deleted).layer i = w.layer i := if_pos hi

/-- What is looked up in a new map. -/
theorem newMap_getItem (hrest : ∀ i ∈ rest, i < w.nextLayer) (key : K) :
    ((w.newMap dict dicts rest collapseThreshold deleted).object w.nextObject).getItem
        (w.newMap dict dicts rest collapseThreshold deleted).layer key =
      if key ∈ deleted then none
      else ((dict :: dicts).findSome? fun m => Dict.get? m key).or (find w.layer rest key) := by
  have hdeleted : ((w.newMap dict dicts rest collapseThreshold deleted).object w.nextObject).deleted = deleted := by
    simp [newMap]
  have hnew : (List.range' w.nextLayer (dicts.length + 1)).map
      (w.newMap dict dicts rest collapseThreshold deleted).layer = dict :: dicts := by
    refine List.ext_getElem (by simp) fun n _ hn => ?_
    rw [List.getElem_map, List.getElem_range', Nat.one_mul]
    have hget : (dict :: dicts).getD n [] = (dict :: dicts)[n] := List.getD_eq_getElem _ _ hn
    simp [World.newMap, ← hget]
  rw [ChainMapCOW.getItem, hdeleted, newMap_maps, find_append, find_congr fun i hi => newMap_layer (hrest i hi)]
  congr 2
  rw [← hnew, List.findSome?_map]
  rfl

/-- A new map in front of layers of dirty maps changes no handle's map. -/
theorem Inv.newMap (h : Inv w ds)
    (hdirty : ∀ i ∈ rest, ∃ o < w.nextObject, (w.object o).dirty = true ∧ i ∈ (w.object o).maps) :
    Inv (w.newMap dict dicts rest collapseThreshold deleted) ds := by
  have hrest : ∀ i ∈ rest, i < w.nextLayer := by
    intro i hi
    obtain ⟨o, ho, -, hmem⟩ := hdirty i hi
    exact h.made o ho i hmem
  have hlt : ∀ {o' : Nat}, o' < w.nextObject + 1 → o' < w.nextObject ∨ o' = w.nextObject :=
    fun h => Nat.lt_or_eq_of_le (Nat.le_of_lt_succ h)
  refine
    { length := h.length
      same := ?_
      live := fun o ho => Nat.lt_succ_of_lt (h.live o ho)
      made := ?_
      alone := ?_
      once := ?_ }
  · intro handle o d ho hd key
    have hlive : o < w.nextObject := h.live o (List.mem_of_getElem? ho)
    rw [newMap_object hlive, getItem_congr fun i hi => newMap_layer (h.made o hlive i hi)]
    exact h.same handle o d ho hd key
  · intro o ho i hi
    rcases hlt ho with ho | rfl
    · rw [newMap_object ho] at hi
      exact Nat.lt_add_right _ (h.made o ho i hi)
    rw [newMap_maps, List.mem_append, List.mem_range'_1] at hi
    rcases hi with hi | hi
    · exact hi.2
    · exact Nat.lt_add_right _ (hrest i hi)
  · intro o ho hclean
    rcases hlt ho with ho | rfl
    · have htop : (w.newMap dict dicts rest collapseThreshold deleted).top o = w.top o := by
        unfold top
        simp only [newMap_object ho]
      rw [newMap_object ho] at hclean
      obtain ⟨htail, hothers⟩ := h.alone o ho hclean
      rw [htop, newMap_object ho]
      refine ⟨htail, fun o' ho' hne => ?_⟩
      rcases hlt ho' with ho' | rfl
      · rw [newMap_object ho']
        exact hothers o' ho' hne
      rw [newMap_maps, List.mem_append, List.mem_range'_1]
      rintro (hi | hi)
      · exact absurd (h.made o ho _ top_mem) (Nat.not_lt.mpr hi.1)
      obtain ⟨o₁, ho₁, hd, hmem⟩ := hdirty _ hi
      refine hothers o₁ ho₁ ?_ hmem
      rintro rfl
      rw [hclean] at hd
      cases hd
    · rw [newMap_top, newMap_maps]
      refine ⟨?_, fun o' ho' hne => ?_⟩
      · rw [List.range'_succ, List.cons_append, List.tail_cons, List.mem_append, List.mem_range'_1]
        rintro (hi | hi)
        · omega
        · exact absurd (hrest _ hi) (Nat.lt_irrefl _)
      · have ho' : o' < w.nextObject := (hlt ho').resolve_right hne
        rw [newMap_object ho']
        exact fun hi => absurd (h.made o' ho' _ hi) (Nat.lt_irrefl _)
  · intro i j o hclean hi hj
    have hlive : o < w.nextObject := h.live o (List.mem_of_getElem? hi)
    rw [newMap_object hlive] at hclean
    exact h.once i j o hclean hi hj

/-- The map of a handle is replaced by one of the same bindings that no handle has. -/
theorem Inv.replace (h : Inv w ds) {o' : Nat} (ho : w.handles[handle]? = some o) (ho' : o' < w.nextObject)
    (hnew : o' ∉ w.handles)
    (hsame : ∀ key, (w.object o').getItem w.layer key = (w.object o).getItem w.layer key) :
    Inv { w with handles := w.handles.set handle o' } ds := by
  have hhandle : handle < w.handles.length := (List.getElem?_eq_some_iff.mp ho).1
  have hget : ∀ {i o₁ : Nat}, (w.handles.set handle o')[i]? = some o₁ →
      i = handle ∧ o₁ = o' ∨ i ≠ handle ∧ w.handles[i]? = some o₁ := by
    intro i o₁ hi
    rw [List.getElem?_set] at hi
    split at hi
    · rename_i heq
      exact .inl ⟨heq.symm, (Option.some.inj hi).symm⟩
    · rename_i hne
      exact .inr ⟨Ne.symm hne, hi⟩
  refine
    { length := by simpa using h.length
      same := ?_
      live := ?_
      made := h.made
      alone := h.alone
      once := ?_ }
  · intro i o₁ d hi hd key
    rcases hget hi with ⟨rfl, rfl⟩ | ⟨-, hi⟩
    · exact (hsame key).trans (h.same i o d ho hd key)
    · exact h.same i o₁ d hi hd key
  · intro o₁ ho₁
    rcases List.mem_or_eq_of_mem_set ho₁ with ho₁ | rfl
    · exact h.live o₁ ho₁
    · exact ho'
  intro i j o₁ hclean hi hj
  rcases hget hi with ⟨rfl, rfl⟩ | ⟨-, hi'⟩
  · rcases hget hj with ⟨rfl, -⟩ | ⟨-, hj'⟩
    · rfl
    · exact absurd (List.mem_of_getElem? hj') hnew
  · rcases hget hj with ⟨rfl, rfl⟩ | ⟨-, hj'⟩
    · exact absurd (List.mem_of_getElem? hi') hnew
    · exact h.once i j o₁ hclean hi' hj'

/-- A new handle for a map. -/
theorem Inv.append (h : Inv w ds) (ho : o < w.nextObject) (hshared : (w.object o).dirty = true ∨ o ∉ w.handles)
    (hsame : ∀ key, (w.object o).getItem w.layer key = d.get? key) :
    Inv { w with handles := w.handles ++ [o] } (ds ++ [d]) := by
  have hget : ∀ {i o₁ : Nat}, (w.handles ++ [o])[i]? = some o₁ →
      w.handles[i]? = some o₁ ∨ i = w.handles.length ∧ o₁ = o := by
    intro i o₁ hi
    rw [List.getElem?_append] at hi
    split at hi
    · exact .inl hi
    rename_i hge
    rw [List.getElem?_singleton] at hi
    split at hi
    · exact .inr ⟨by omega, (Option.some.inj hi).symm⟩
    · cases hi
  refine
    { length := by simpa using h.length
      same := ?_
      live := ?_
      made := h.made
      alone := h.alone
      once := ?_ }
  · intro i o₁ d₁ hi hd key
    rcases hget hi with hi | ⟨rfl, rfl⟩
    · have hlt : i < ds.length := h.length ▸ (List.getElem?_eq_some_iff.mp hi).1
      rw [List.getElem?_append_left hlt] at hd
      exact h.same i o₁ d₁ hi hd key
    · rw [h.length, List.getElem?_concat_length] at hd
      cases hd
      exact hsame key
  · intro o₁ ho₁
    rcases List.mem_append.mp ho₁ with ho₁ | ho₁
    · exact h.live o₁ ho₁
    · rw [List.mem_singleton.mp ho₁]
      exact ho
  intro i j o₁ hclean hi hj
  -- the new handle's map has another handle only if it is dirty
  have hold : ∀ {i : Nat}, w.handles[i]? = some o → (w.object o).dirty = false → False := by
    intro i hi hclean
    rcases hshared with hd | hnew
    · rw [hclean] at hd
      cases hd
    · exact hnew (List.mem_of_getElem? hi)
  rcases hget hi with hi' | ⟨rfl, rfl⟩
  · rcases hget hj with hj' | ⟨rfl, rfl⟩
    · exact h.once i j o₁ hclean hi' hj'
    · exact (hold hi' hclean).elim
  · rcases hget hj with hj' | ⟨rfl, -⟩
    · exact (hold hj' hclean).elim
    · rfl

/-- A map becomes dirty. -/
theorem Inv.markDirty (h : Inv w ds) :
    Inv { w with object := Function.update w.object o { w.object o with dirty := true } } ds := by
  have hmaps : ∀ o₁, (Function.update w.object o { w.object o with dirty := true } o₁).maps = (w.object o₁).maps := by
    intro o₁
    rw [Function.update_apply]
    split
    · rename_i heq
      rw [heq]
    · rfl
  have hread : ∀ o₁ key, (Function.update w.object o { w.object o with dirty := true } o₁).getItem w.layer key =
      (w.object o₁).getItem w.layer key := by
    intro o₁ key
    rw [Function.update_apply]
    split
    · rename_i heq
      rw [heq]
      rfl
    · rfl
  have hclean : ∀ {o₁ : Nat}, (Function.update w.object o { w.object o with dirty := true } o₁).dirty = false →
      (w.object o₁).dirty = false := by
    intro o₁ hd
    rw [Function.update_apply] at hd
    split at hd
    · cases hd
    · exact hd
  refine
    { length := h.length
      same := fun i o₁ d hi hd key => (hread o₁ key).trans (h.same i o₁ d hi hd key)
      live := h.live
      made := fun o₁ ho₁ i hi => h.made o₁ ho₁ i (hmaps o₁ ▸ hi)
      alone := ?_
      once := fun i j o₁ hd hi hj => h.once i j o₁ (hclean hd) hi hj }
  intro o₁ ho₁ hd
  obtain ⟨htail, hothers⟩ := h.alone o₁ ho₁ (hclean hd)
  simp only [top, hmaps]
  exact ⟨htail, fun o' ho' hne => hothers o' ho' hne⟩

/-- A write to a map that is not dirty changes the bindings of its handle alone. -/
theorem Inv.write (h : Inv w ds) (ho : w.handles[handle]? = some o) (hclean : (w.object o).dirty = false)
    (hsame : ∀ key, ((w.write o dict deleted).object o).getItem (w.write o dict deleted).layer key = d.get? key) :
    Inv (w.write o dict deleted) (ds.set handle d) := by
  have hlive : o < w.nextObject := h.live o (List.mem_of_getElem? ho)
  obtain ⟨htail, hothers⟩ := h.alone o hlive hclean
  have hmaps : ∀ o₁, ((w.write o dict deleted).object o₁).maps = (w.object o₁).maps := by
    intro o₁
    unfold World.write
    dsimp only
    rw [Function.update_apply]
    split
    · rename_i heq
      rw [heq]
    · rfl
  have hdirty : ∀ o₁, ((w.write o dict deleted).object o₁).dirty = (w.object o₁).dirty := by
    intro o₁
    unfold World.write
    dsimp only
    rw [Function.update_apply]
    split
    · rename_i heq
      rw [heq]
    · rfl
  refine
    { length := h.length.trans List.length_set.symm
      same := ?_
      live := h.live
      made := fun o₁ ho₁ i hi => h.made o₁ ho₁ i (hmaps o₁ ▸ hi)
      alone := ?_
      once := fun i j o₁ hd hi hj => h.once i j o₁ (hdirty o₁ ▸ hd) hi hj }
  · intro i o₁ d₁ hi hd key
    rw [List.getElem?_set] at hd
    split at hd
    · rename_i heq
      subst heq
      obtain rfl : o = o₁ := Option.some.inj (ho.symm.trans hi)
      split at hd
      · cases hd
        exact hsame key
      · cases hd
    rename_i hne
    have hne' : o₁ ≠ o := by
      rintro rfl
      exact hne (h.once handle i o₁ hclean ho hi)
    have hobject : (w.write o dict deleted).object o₁ = w.object o₁ := Function.update_of_ne hne' _ _
    have hlayer : ∀ l ∈ (w.object o₁).maps, (w.write o dict deleted).layer l = w.layer l := by
      intro l hl
      refine Function.update_of_ne ?_ _ _
      rintro rfl
      exact hothers o₁ (h.live o₁ (List.mem_of_getElem? hi)) hne' hl
    rw [hobject, getItem_congr hlayer]
    exact h.same i o₁ d₁ hi hd key
  · intro o₁ ho₁ hd
    obtain ⟨htail, hothers⟩ := h.alone o₁ ho₁ (hdirty o₁ ▸ hd)
    simp only [top, hmaps]
    exact ⟨htail, fun o' ho' hne => hothers o' ho' hne⟩

/-! ## Steps -/

theorem getItem_front (key : K) : (w.object o).getItem w.layer key =
    if key ∈ (w.object o).deleted then none
    else ((w.front o).get? key).or (find w.layer (w.object o).maps.tail key) := by
  have hfind : find w.layer (w.object o).maps key =
      ((w.front o).get? key).or (find w.layer (w.object o).maps.tail key) := by
    rw [maps_eq, List.tail_cons, find, List.findSome?_cons, front]
    cases (w.layer (w.top o)).get? key <;> rfl
  rw [ChainMapCOW.getItem, hfind]

/-- What is looked up in a map after a write to it. -/
theorem write_getItem (htop : w.top o ∉ (w.object o).maps.tail) (key : K) :
    ((w.write o dict deleted).object o).getItem (w.write o dict deleted).layer key =
      if key ∈ deleted then none else (dict.get? key).or (find w.layer (w.object o).maps.tail key) := by
  have hobject : (w.write o dict deleted).object o = { w.object o with deleted } := Function.update_self _ _ _
  have hfront : (w.write o dict deleted).front o = dict := by
    unfold front top
    simp only [hobject]
    exact Function.update_self _ _ _
  have hrest : find (w.write o dict deleted).layer (w.object o).maps.tail key =
      find w.layer (w.object o).maps.tail key := by
    refine find_congr fun l hl => Function.update_of_ne ?_ _ _
    rintro rfl
    exact htop hl
  rw [getItem_front, hfront, hobject, hrest]

/-- `clean` keeps the bindings of every handle, and the handle's map is then not dirty. -/
theorem Inv.clean (h : Inv w ds) (ho : w.handles[handle]? = some o) :
    Inv { (w.clean o).2 with handles := w.handles.set handle (w.clean o).1 } ds ∧
      (w.handles.set handle (w.clean o).1)[handle]? = some (w.clean o).1 ∧
      ((w.clean o).2.object (w.clean o).1).dirty = false := by
  have hhandle : handle < w.handles.length := (List.getElem?_eq_some_iff.mp ho).1
  have hlive : o < w.nextObject := h.live o (List.mem_of_getElem? ho)
  have hfresh : w.nextObject ∉ w.handles := fun hmem => absurd (h.live _ hmem) (Nat.lt_irrefl _)
  refine ⟨?_, List.getElem?_set_self hhandle, ?_⟩
  · unfold World.clean
    dsimp only
    split
    · have hset : w.handles.set handle o = w.handles := by
        rw [← (List.getElem?_eq_some_iff.mp ho).2]
        exact List.set_getElem_self hhandle
      simp only [hset]
      exact h
    rename_i hdirty
    have hread : ∀ {dict : Dict K V} {rest : List Nat} {deleted : Finset K},
        (∀ i ∈ rest, i ∈ (w.object o).maps) →
        (∀ key, (if key ∈ deleted then none else (dict.get? key).or (find w.layer rest key)) =
          (w.object o).getItem w.layer key) →
        Inv { w.newMap dict [] rest (w.object o).collapseThreshold deleted with
          handles := w.handles.set handle w.nextObject } ds := by
      intro dict rest deleted hrest hsame
      have hinv : Inv (w.newMap dict [] rest (w.object o).collapseThreshold deleted) ds :=
        h.newMap fun i hi => ⟨o, hlive, by simpa using hdirty, hrest i hi⟩
      refine hinv.replace ho (Nat.lt_succ_self _) hfresh fun key => ?_
      rw [newMap_getItem fun i hi => h.made o hlive i (hrest i hi), newMap_object hlive,
        getItem_congr fun i hi => newMap_layer (h.made o hlive i hi), ← hsame key]
      simp
    split
    · refine hread (by simp) fun key => ?_
      rw [if_neg (Finset.notMem_empty key), get?_collapsedDict]
      exact Option.or_none
    · refine hread (fun i hi => hi) fun key => ?_
      rw [Dict.get?_nil, Option.none_or, ChainMapCOW.getItem]
  · unfold World.clean
    dsimp only
    split
    · rename_i hclean
      simpa using hclean
    · split <;> simp [World.newMap]

/-- After `clean`, what is written to the handle's map is written to its dictionary. -/
theorem Inv.cleaned (h : Inv w ds) {act : World K V → Nat → World K V} {f : Dict K V → Dict K V}
    (hact : ∀ {w : World K V} {ds : List (Dict K V)} {handle o : Nat} {d : Dict K V}, Inv w ds →
      w.handles[handle]? = some o → ds[handle]? = some d → (w.object o).dirty = false →
      Inv (act w o) (ds.set handle (f d))) :
    Inv (w.cleaned handle act) (ds.modify handle f) := by
  unfold World.cleaned
  split
  · rename_i hnone
    have hle : ds.length ≤ handle := h.length ▸ List.getElem?_eq_none_iff.mp hnone
    rw [List.modify_eq_self hle]
    exact h
  rename_i o ho
  have hlt : handle < ds.length := h.length ▸ (List.getElem?_eq_some_iff.mp ho).1
  obtain ⟨hinv, hget, hclean⟩ := h.clean ho
  have hwritten := hact hinv hget (List.getElem?_eq_getElem hlt) hclean
  rw [List.modify_eq_set_get f hlt]
  exact hwritten

theorem Inv.setItem (h : Inv w ds) (ho : w.handles[handle]? = some o) (hd : ds[handle]? = some d)
    (hclean : (w.object o).dirty = false) (key : K) (value : V) :
    Inv (w.setItem o key value) (ds.set handle (d.set key value)) := by
  have htop := (h.alone o (h.live o (List.mem_of_getElem? ho)) hclean).1
  refine h.write ho hclean fun k => ?_
  rw [write_getItem htop, Dict.get?_set, Dict.get?_set, ← h.same handle o d ho hd k, getItem_front]
  by_cases hk : key = k
  · simp [hk]
  · simp [hk, Ne.symm hk]

/-- `del` and `pop` of a key that is in the map. -/
theorem Inv.delete (h : Inv w ds) (ho : w.handles[handle]? = some o) (hd : ds[handle]? = some d)
    (hclean : (w.object o).dirty = false) (key : K) :
    Inv (w.write o ((w.front o).restrict (· ≠ key)) (insert key (w.object o).deleted))
      (ds.set handle (d.restrict (· ≠ key))) := by
  have htop := (h.alone o (h.live o (List.mem_of_getElem? ho)) hclean).1
  refine h.write ho hclean fun k => ?_
  rw [write_getItem htop, Dict.get?_restrict, Dict.get?_restrict, ← h.same handle o d ho hd k, getItem_front]
  by_cases hk : k = key
  · simp [hk]
  · simp [hk]

/-- Nothing is deleted from a dictionary that does not have the key. -/
theorem Inv.absent (h : Inv w ds) (ho : w.handles[handle]? = some o) (hd : ds[handle]? = some d) {key : K}
    (habsent : (w.object o).getItem w.layer key = none) : Inv w (ds.set handle (d.restrict (· ≠ key))) := by
  have hdict : ∀ k, (d.restrict (· ≠ key)).get? k = d.get? k := by
    intro k
    rw [Dict.get?_restrict]
    by_cases hk : k = key
    · rw [hk, ← h.same handle o d ho hd key, habsent]
      simp
    · simp [hk]
  refine { h with length := h.length.trans List.length_set.symm, same := ?_ }
  intro i o₁ d₁ hi hd₁ k
  rw [List.getElem?_set] at hd₁
  split at hd₁
  · rename_i heq
    subst heq
    split at hd₁
    · cases hd₁
      rw [hdict]
      exact h.same handle o₁ d hi hd k
    · cases hd₁
  · exact h.same i o₁ d₁ hi hd₁ k

theorem Inv.step (h : Inv w ds) (op : Op K V) : Inv (w.step op) (privateStep ds op) := by
  cases op with
  | new maps collapseThreshold =>
    have hinv : Inv (w.newMap (maps.headD []) maps.tail [] collapseThreshold ∅) ds := h.newMap (by simp)
    refine hinv.append (Nat.lt_succ_self _) (.inr fun hmem => absurd (h.live _ hmem) (Nat.lt_irrefl _)) ?_
    intro key
    rw [newMap_getItem (by simp), get?_layered, if_neg (Finset.notMem_empty key)]
    cases maps with
    | nil => rfl
    | cons m maps => exact Option.or_none
  | copy handle =>
    unfold World.step privateStep
    dsimp only
    split
    · rename_i hnone
      have hle : ds.length ≤ handle := h.length ▸ List.getElem?_eq_none_iff.mp hnone
      rw [List.getElem?_eq_none hle, Option.toList_none, List.append_nil]
      exact h
    rename_i o ho
    have hlt : handle < ds.length := h.length ▸ (List.getElem?_eq_some_iff.mp ho).1
    have hget : ds[handle]? = some ds[handle] := List.getElem?_eq_getElem hlt
    rw [hget, Option.toList_some]
    have hinv := h.markDirty (o := o)
    refine hinv.append (h.live o (List.mem_of_getElem? ho)) (.inl ?_) (hinv.same handle o _ ho hget)
    simp
  | clean handle =>
    have hmodify : ds = ds.modify handle id := (List.modify_id handle ds).symm
    rw [privateStep, World.step, hmodify]
    refine h.cleaned fun {w ds handle o d} hinv _ hd _ => ?_
    obtain ⟨hlt, rfl⟩ := List.getElem?_eq_some_iff.mp hd
    rw [id, List.set_getElem_self hlt]
    exact hinv
  | setItem handle key value => exact h.cleaned fun hinv ho hd hclean => hinv.setItem ho hd hclean key value
  | delItem handle key =>
    rw [privateStep, World.step]
    refine h.cleaned fun {w ds handle o d} hinv ho hd hclean => ?_
    unfold World.delItem
    rw [contains_eq]
    split
    · exact hinv.delete ho hd hclean key
    · rename_i habsent
      exact hinv.absent ho hd (by simpa using habsent)
  | pop handle key =>
    rw [privateStep, World.step]
    refine h.cleaned fun {w ds handle o d} hinv ho hd hclean => ?_
    unfold World.pop
    split
    · exact hinv.delete ho hd hclean key
    · rename_i habsent
      exact hinv.absent ho hd habsent

theorem inv_run (ops : List (Op K V)) : Inv (run ops) (privateDicts ops) := by
  have hfold : ∀ {w : World K V} {ds : List (Dict K V)}, Inv w ds →
      Inv (ops.foldl World.step w) (ops.foldl privateStep ds) := by
    induction ops with
    | nil => exact id
    | cons op ops ih => exact fun h => ih (h.step op)
  exact hfold inv_empty

/-- After every run there is a dictionary for each handle, the handle's map reads as that
dictionary, and every key on which two handles' maps differ is a merge candidate. -/
theorem independent_dicts (ops : List (Op K V)) :
    (run ops).handles.length = (privateDicts ops).length ∧
    (∀ (handle o : Nat) (d : Dict K V), (run ops).handles[handle]? = some o → (privateDicts ops)[handle]? = some d →
      SameAs (run ops).layer ((run ops).object o) d) ∧
    ∀ a ∈ (run ops).handles, ∀ b ∈ (run ops).handles, ∀ key,
      ((run ops).object a).getItem (run ops).layer key ≠ ((run ops).object b).getItem (run ops).layer key →
      key ∈ mergeCandidateKeys (run ops).layer ((run ops).object a) ((run ops).object b) := by
  have h := inv_run ops
  refine ⟨h.length, ?_, ?_⟩
  · intro handle o d ho hd
    exact sameAs_of_getItem (h.same handle o d ho hd)
  · intro a _ b _ key hne
    by_contra hcandidate
    exact hne (getItem_eq_of_not_candidate hcandidate)

end World

end Angr.Cowdict
