import Vibr.Utils.Cowdict

/-!
# Copy-on-write maps of sets

The maps `DefaultChainMapCOW(default_factory=set)`. `clean` gives a map a layer of its own,
but the sets in the layers below it are the objects that the other copies hold: a set that
is changed in place changes under every handle that holds it.
-/

namespace Angr.KeyDefinitions

open Cowdict

variable {K T : Type} [DecidableEq K] [DecidableEq T]

/-- The maps of a run, and the sets that they hold by number. -/
structure CowSets (K T : Type) where
  maps : Cowdict.World K Nat := {}
  set : Nat → Finset T := fun _ => ∅
  nextSet : Nat := 0

namespace CowSets

/-- The set object that the map of the handle `u` has under a key. -/
def ref? (c : CowSets K T) (u : Nat) (k : K) : Option Nat :=
  match c.maps.handles[u]? with
  | none => none
  | some o => (c.maps.object o).getItem c.maps.layer k

/-- `get(k, set())`. -/
def get (c : CowSets K T) (u : Nat) (k : K) : Finset T :=
  match c.ref? u k with
  | none => ∅
  | some r => c.set r

/-- The keys of the map of a handle, in the order of its iterator. -/
def keys (c : CowSets K T) (u : Nat) : List K :=
  match c.maps.handles[u]? with
  | none => []
  | some o => (c.maps.object o).iter c.maps.layer

def count (c : CowSets K T) : Nat := c.maps.handles.length

def new (c : CowSets K T) : CowSets K T := { c with maps := c.maps.step (.new [] (some 25)) }

def copy (c : CowSets K T) (u : Nat) : CowSets K T := { c with maps := c.maps.step (.copy u) }

def clean (c : CowSets K T) (u : Nat) : CowSets K T := { c with maps := c.maps.step (.clean u) }

/-- `map[k] = value`, of the set object `r`. -/
def setItem (c : CowSets K T) (u : Nat) (k : K) (r : Nat) : CowSets K T :=
  { c with maps := c.maps.step (.setItem u k r) }

def delItem (c : CowSets K T) (u : Nat) (k : K) : CowSets K T := { c with maps := c.maps.step (.delItem u k) }

/-- A new set object. -/
def alloc (c : CowSets K T) (value : Finset T) : CowSets K T :=
  { c with set := Function.update c.set c.nextSet value, nextSet := c.nextSet + 1 }

/-- `map[k]`, which puts an empty set under a key that has none. -/
def getItem (c : CowSets K T) (u : Nat) (k : K) : Nat × CowSets K T :=
  match c.ref? u k with
  | some r => (r, c)
  | none => (c.nextSet, (c.alloc ∅).setItem u k c.nextSet)

/-- A set object is changed in place. -/
def mutate (c : CowSets K T) (r : Nat) (f : Finset T → Finset T) : CowSets K T :=
  { c with set := Function.update c.set r (f (c.set r)) }

/-- `map[k]` is changed in place, after `clean`. -/
def change (c : CowSets K T) (u : Nat) (k : K) (f : Finset T → Finset T) : CowSets K T :=
  let p := (c.clean u).getItem u k
  p.2.mutate p.1 f

/-- One pass of the loop that merges the map of `other`, and whether it has merged anything. -/
def mergeItem (u other : Nat) (p : CowSets K T × Bool) (k : K) : CowSets K T × Bool :=
  let c := p.1
  match c.ref? other k with
  | none => p
  | some v =>
    match c.ref? u k with
    | none => ((c.clean u).setItem u k v, true)
    | some r =>
      if c.set v ⊆ c.set r then p
      else (((c.clean u).alloc (c.set r ∪ c.set v)).setItem u k c.nextSet, true)

def merge (c : CowSets K T) (u other : Nat) : CowSets K T × Bool :=
  (c.keys other).foldl (mergeItem u other) (c, false)

/-! ## What the maps hold -/

/-- The set objects are made before they are held, and each is held under one key. -/
structure Sound (c : CowSets K T) : Prop where
  inv : ∃ ds, Cowdict.World.Inv c.maps ds
  live : ∀ u k r, c.ref? u k = some r → r < c.nextSet
  keyed : ∀ u k u' k' r, c.ref? u k = some r → c.ref? u' k' = some r → k = k'

/-- Two handles hold one set object under a key. -/
def Shares (c : CowSets K T) (u u' : Nat) (k : K) : Prop := ∃ r, c.ref? u k = some r ∧ c.ref? u' k = some r

variable {c : CowSets K T} {u u' other : Nat} {k k' : K} {r : Nat} {f : Finset T → Finset T}

omit [DecidableEq T] in
theorem get_of_ref (h : c.ref? u k = some r) : c.get u k = c.set r := by
  rw [get, h]

omit [DecidableEq T] in
theorem get_of_none (h : c.ref? u k = none) : c.get u k = ∅ := by
  rw [get, h]

omit [DecidableEq T] in
theorem Shares.get_eq (h : c.Shares u u' k) : c.get u' k = c.get u k := by
  obtain ⟨r, hr, hr'⟩ := h
  rw [get_of_ref hr, get_of_ref hr']

omit [DecidableEq T] in
/-- A handle's map is read as its dictionary. -/
theorem ref?_eq {ds : List (Dict K Nat)} (h : Cowdict.World.Inv c.maps ds) (u : Nat) (k : K) :
    c.ref? u k = ds[u]?.bind (fun d => d.get? k) := by
  unfold ref?
  cases ho : c.maps.handles[u]? with
  | none =>
    have hle : ds.length ≤ u := h.length ▸ List.getElem?_eq_none_iff.mp ho
    rw [List.getElem?_eq_none hle]
    rfl
  | some o =>
    have hlt : u < ds.length := h.length ▸ (List.getElem?_eq_some_iff.mp ho).1
    have hd : ds[u]? = some ds[u] := List.getElem?_eq_getElem hlt
    rw [hd]
    exact h.same u o _ ho hd k

omit [DecidableEq T] in
theorem mem_keys : k ∈ c.keys u ↔ (c.ref? u k).isSome := by
  unfold keys ref?
  cases c.maps.handles[u]? with
  | none => simp
  | some o => exact ChainMapCOW.mem_iter.trans ChainMapCOW.getItem_isSome.symm

omit [DecidableEq T] in
theorem nodup_keys : (c.keys u).Nodup := by
  unfold keys
  cases c.maps.handles[u]? with
  | none => exact .nil
  | some o => exact ChainMapCOW.nodup_unseen

omit [DecidableEq T] in
theorem sound_empty : ({} : CowSets K T).Sound :=
  ⟨⟨[], Cowdict.World.inv_empty⟩, fun _ _ _ hr => (Option.some_ne_none _ hr.symm).elim,
    fun _ _ _ _ _ hr => (Option.some_ne_none _ hr.symm).elim⟩

/-! ## What each call does to the objects -/

omit [DecidableEq T] in
/-- A call on the maps that leaves every key what it held. -/
theorem Sound.of_ref {c' : CowSets K T} (h : c.Sound) (hinv : ∃ ds, Cowdict.World.Inv c'.maps ds)
    (hnext : c.nextSet ≤ c'.nextSet) (href : ∀ u k r, c'.ref? u k = some r → ∃ u', c.ref? u' k = some r) :
    c'.Sound := by
  refine ⟨hinv, fun u k r hr => ?_, fun u k u' k' r hr hr' => ?_⟩
  · obtain ⟨v, hv⟩ := href u k r hr
    exact Nat.lt_of_lt_of_le (h.live v k r hv) hnext
  · obtain ⟨v, hv⟩ := href u k r hr
    obtain ⟨v', hv'⟩ := href u' k' r hr'
    exact h.keyed v k v' k' r hv hv'

omit [DecidableEq T] in
theorem Sound.new (h : c.Sound) : c.new.Sound ∧ c.new.count = c.count + 1 ∧
    ∀ v k, c.new.get v k = c.get v k := by
  obtain ⟨ds, hds⟩ := h.inv
  have hinv : Cowdict.World.Inv c.new.maps (ds ++ [[]]) := hds.step (.new [] (some 25))
  have href : ∀ v k, c.new.ref? v k = c.ref? v k := by
    intro v k
    rw [ref?_eq hinv, ref?_eq hds, List.getElem?_append]
    split
    · rfl
    · rename_i hge
      rw [List.getElem?_eq_none (Nat.not_lt.mp hge), List.getElem?_singleton]
      split <;> rfl
  refine ⟨h.of_ref ⟨_, hinv⟩ (Nat.le_refl _) fun v k r hr => ⟨v, href v k ▸ hr⟩, ?_, fun v k => ?_⟩
  · unfold count
    rw [hinv.length, hds.length, List.length_append]
    rfl
  · unfold get
    rw [href]
    rfl

omit [DecidableEq T] in
/-- A copy holds the same set objects. -/
theorem Sound.copy (h : c.Sound) (hu : u < c.count) : (c.copy u).Sound ∧ (c.copy u).count = c.count + 1 ∧
    ∀ v k, (c.copy u).get v k = c.get (if v = c.count then u else v) k := by
  obtain ⟨ds, hds⟩ := h.inv
  have hlt : u < ds.length := hds.length ▸ hu
  have hinv : Cowdict.World.Inv (c.copy u).maps (ds ++ ds[u]?.toList) := hds.step (.copy u)
  rw [List.getElem?_eq_getElem hlt, Option.toList_some] at hinv
  have href : ∀ v k, (c.copy u).ref? v k = c.ref? (if v = c.count then u else v) k := by
    intro v k
    have hcount : c.count = ds.length := hds.length
    rw [ref?_eq hinv, ref?_eq hds, hcount]
    split
    · rename_i heq
      rw [heq, List.getElem?_concat_length, List.getElem?_eq_getElem hlt]
    rename_i hne
    rw [List.getElem?_append]
    split
    · rfl
    · rename_i hge
      rw [List.getElem?_eq_none (Nat.not_lt.mp hge), List.getElem?_eq_none (by simp; omega)]
  refine ⟨h.of_ref ⟨_, hinv⟩ (Nat.le_refl _) fun v k r hr => ⟨_, href v k ▸ hr⟩, ?_, fun v k => ?_⟩
  · unfold count
    rw [hinv.length, hds.length, List.length_append]
    rfl
  · unfold get
    rw [href]
    rfl

omit [DecidableEq T] in
theorem Sound.clean (h : c.Sound) (u : Nat) : (c.clean u).Sound ∧ (c.clean u).count = c.count ∧
    ∀ v k, (c.clean u).ref? v k = c.ref? v k := by
  obtain ⟨ds, hds⟩ := h.inv
  have hinv : Cowdict.World.Inv (c.clean u).maps ds := hds.step (.clean u)
  have href : ∀ v k, (c.clean u).ref? v k = c.ref? v k := fun v k => by rw [ref?_eq hinv, ref?_eq hds]
  refine ⟨h.of_ref ⟨_, hinv⟩ (Nat.le_refl _) fun v k r hr => ⟨v, href v k ▸ hr⟩, ?_, href⟩
  exact hinv.length.trans hds.length.symm

omit [DecidableEq T] in
theorem Sound.alloc (h : c.Sound) (value : Finset T) : (c.alloc value).Sound :=
  h.of_ref h.inv (Nat.le_succ _) fun u _ _ hr => ⟨u, hr⟩

omit [DecidableEq T] in
/-- The handle holds a set object that is held under no other key. -/
theorem Sound.setItem (h : c.Sound) (hu : u < c.count) (hr : r < c.nextSet)
    (hkey : ∀ v k', c.ref? v k' = some r → k' = k) :
    (c.setItem u k r).Sound ∧ (c.setItem u k r).count = c.count ∧
      ∀ v k', (c.setItem u k r).ref? v k' = if v = u ∧ k' = k then some r else c.ref? v k' := by
  obtain ⟨ds, hds⟩ := h.inv
  have hlt : u < ds.length := hds.length ▸ hu
  have hinv : Cowdict.World.Inv (c.setItem u k r).maps (ds.modify u fun d => Dict.set d k r) :=
    hds.step (.setItem u k r)
  have href : ∀ v k', (c.setItem u k r).ref? v k' = if v = u ∧ k' = k then some r else c.ref? v k' := by
    intro v k'
    rw [ref?_eq hinv, ref?_eq hds]
    by_cases hv : v = u
    · subst hv
      rw [List.getElem?_modify_eq, List.getElem?_eq_getElem hlt]
      refine (Dict.get?_set ..).trans ?_
      by_cases hk : k' = k
      · rw [if_pos hk.symm, if_pos ⟨rfl, hk⟩]
      · rw [if_neg (Ne.symm hk), if_neg fun hand => hk hand.2]
        rfl
    · rw [List.getElem?_modify_ne _ _ (Ne.symm hv), if_neg fun hand => hv hand.1]
  have hkeyed : ∀ v k', (c.setItem u k r).ref? v k' = some r → k' = k := by
    intro v k' hv
    rw [href] at hv
    split at hv
    · rename_i hand
      exact hand.2
    · exact hkey v k' hv
  refine ⟨⟨⟨_, hinv⟩, fun v k' s hs => ?_, fun v k' v' k'' s hs hs' => ?_⟩, ?_, href⟩
  · rw [href] at hs
    split at hs
    · cases hs
      exact hr
    · exact h.live v k' s hs
  · by_cases heq : s = r
    · subst heq
      rw [hkeyed v k' hs, hkeyed v' k'' hs']
    have hold : ∀ {v k'}, (c.setItem u k r).ref? v k' = some s → c.ref? v k' = some s := by
      intro v k' hs
      rw [href] at hs
      split at hs
      · exact absurd (Option.some.inj hs).symm heq
      · exact hs
    exact h.keyed v k' v' k'' s (hold hs) (hold hs')
  · unfold count
    rw [hinv.length, hds.length, List.length_modify]

omit [DecidableEq T] in
theorem Sound.delItem (h : c.Sound) (u : Nat) (k : K) : (c.delItem u k).Sound ∧ (c.delItem u k).count = c.count ∧
    ∀ v k', (c.delItem u k).ref? v k' = if v = u ∧ k' = k then none else c.ref? v k' := by
  obtain ⟨ds, hds⟩ := h.inv
  have hinv : Cowdict.World.Inv (c.delItem u k).maps (ds.modify u fun d => Dict.restrict d (· ≠ k)) :=
    hds.step (.delItem u k)
  have href : ∀ v k', (c.delItem u k).ref? v k' = if v = u ∧ k' = k then none else c.ref? v k' := by
    intro v k'
    rw [ref?_eq hinv, ref?_eq hds]
    by_cases hv : v = u
    · subst hv
      rw [List.getElem?_modify_eq]
      cases ds[v]? with
      | none => simp
      | some d =>
        refine (Dict.get?_restrict ..).trans ?_
        by_cases hk : k' = k
        · simp [hk]
        · simp [hk]
    · rw [List.getElem?_modify_ne _ _ (Ne.symm hv), if_neg fun hand => hv hand.1]
  refine ⟨h.of_ref ⟨_, hinv⟩ (Nat.le_refl _) fun v k' r hr => ⟨v, ?_⟩, ?_, href⟩
  · rw [href] at hr
    split at hr
    · cases hr
    · exact hr
  · unfold count
    rw [hinv.length, hds.length, List.length_modify]

/-! ## Changes in place -/

omit [DecidableEq T] in
/-- After `map[k]` the handle holds the set object under the key, and an empty one is new. -/
theorem Sound.getItem (h : c.Sound) (hu : u < c.count) (k : K) :
    (c.getItem u k).2.Sound ∧ (c.getItem u k).2.count = c.count ∧
      (∀ v k', (c.getItem u k).2.ref? v k' = some (c.getItem u k).1 ↔ k' = k ∧ (v = u ∨ c.Shares u v k)) ∧
      (∀ v k', (c.getItem u k).2.get v k' = c.get v k') ∧
      ∀ v k', v ≠ u → (c.getItem u k).2.ref? v k' = c.ref? v k' := by
  unfold CowSets.getItem
  split
  · rename_i r hr
    refine ⟨h, rfl, fun v k' => ⟨fun hv => ?_, ?_⟩, fun _ _ => rfl, fun _ _ _ => rfl⟩
    · obtain rfl := h.keyed v k' u k r hv hr
      exact ⟨rfl, .inr ⟨r, hr, hv⟩⟩
    · rintro ⟨rfl, rfl | ⟨r', hr', hv⟩⟩
      · exact hr
      · exact (Option.some.inj (hr.symm.trans hr')) ▸ hv
  rename_i hnone
  have hfresh : ∀ v k', c.ref? v k' ≠ some c.nextSet :=
    fun v k' hv => absurd (h.live v k' _ hv) (Nat.lt_irrefl _)
  obtain ⟨hsound, hcount, href⟩ := (h.alloc ∅).setItem hu (Nat.lt_succ_self c.nextSet)
    fun v k' hv => absurd hv (hfresh v k')
  have href' : ∀ v k', ((c.alloc ∅).setItem u k c.nextSet).ref? v k' =
      if v = u ∧ k' = k then some c.nextSet else c.ref? v k' := href
  refine ⟨hsound, hcount, fun v k' => ⟨fun hv => ?_, ?_⟩, fun v k' => ?_, fun v k' hne => ?_⟩
  · rw [href'] at hv
    split at hv
    · rename_i hand
      exact ⟨hand.2, .inl hand.1⟩
    · exact absurd hv (hfresh v k')
  · rintro ⟨rfl, rfl | ⟨r', hr', -⟩⟩
    · rw [href', if_pos ⟨rfl, rfl⟩]
    · rw [hnone] at hr'
      cases hr'
  · by_cases hand : v = u ∧ k' = k
    · rw [hand.1, hand.2, get_of_none hnone, get_of_ref ((href' u k).trans (if_pos ⟨rfl, rfl⟩))]
      exact Function.update_self _ _ _
    have hold := (href' v k').trans (if_neg hand)
    cases hr : c.ref? v k' with
    | none => rw [get_of_none hr, get_of_none (hold.trans hr)]
    | some r =>
      rw [get_of_ref hr, get_of_ref (hold.trans hr)]
      exact Function.update_of_ne (Nat.ne_of_lt (h.live v k' r hr)) _ _
  · rw [href', if_neg fun hand => hne hand.1]

omit [DecidableEq T] in
/-- A change in place is seen by every handle that holds the set object. -/
theorem Sound.change (h : c.Sound) (hu : u < c.count) (k : K) (f : Finset T → Finset T) :
    (c.change u k f).Sound ∧ (c.change u k f).count = c.count ∧
      (∀ v k', (k' = k ∧ (v = u ∨ c.Shares u v k) → (c.change u k f).get v k' = f (c.get v k')) ∧
        (¬ (k' = k ∧ (v = u ∨ c.Shares u v k)) → (c.change u k f).get v k' = c.get v k')) ∧
      ∀ v k', v ≠ u → ((c.change u k f).Shares u v k' ↔ c.Shares u v k') := by
  obtain ⟨hclean, hcount, href⟩ := h.clean u
  have hget : ∀ v k', (c.clean u).get v k' = c.get v k' := by
    intro v k'
    unfold CowSets.get
    rw [href]
    rfl
  have hshares : ∀ v k', (c.clean u).Shares u v k' ↔ c.Shares u v k' := by
    intro v k'
    unfold Shares
    simp only [href]
  obtain ⟨hsound, hcount', hheld, hget', hothers⟩ := hclean.getItem (hcount ▸ hu) k
  simp only [hshares] at hheld
  refine ⟨hsound.of_ref hsound.inv (Nat.le_refl _) fun v _ _ hr => ⟨v, hr⟩, hcount'.trans hcount,
    fun v k' => ⟨fun hand => ?_, fun hand => ?_⟩, fun v k' hne => ?_⟩
  · have hr := (hheld v k').mpr hand
    have hr' : (c.change u k f).ref? v k' = some ((c.clean u).getItem u k).1 := hr
    rw [get_of_ref hr', ← hget v k', ← hget' v k', get_of_ref hr]
    exact Function.update_self _ _ _
  · have hne : ((c.clean u).getItem u k).2.ref? v k' ≠ some ((c.clean u).getItem u k).1 :=
      fun hr => hand ((hheld v k').mp hr)
    have hsame : (c.change u k f).ref? v k' = ((c.clean u).getItem u k).2.ref? v k' := rfl
    rw [← hget v k', ← hget' v k']
    cases hr : ((c.clean u).getItem u k).2.ref? v k' with
    | none => rw [get_of_none hr, get_of_none (hsame.trans hr)]
    | some r =>
      rw [get_of_ref hr, get_of_ref (hsame.trans hr)]
      refine Function.update_of_ne ?_ _ _
      rintro rfl
      exact hne hr
  · -- a new set object is held by one handle
    have hv : (c.change u k f).ref? v k' = c.ref? v k' := (hothers v k' hne).trans (href v k')
    by_cases hk : k' = k
    · subst hk
      have hu' : (c.change u k' f).ref? u k' = some ((c.clean u).getItem u k').1 := (hheld u k').mpr ⟨rfl, .inl rfl⟩
      constructor
      · rintro ⟨r, hr, hr'⟩
        obtain rfl := Option.some.inj (hu'.symm.trans hr)
        exact ((hheld v k').mp hr').2.resolve_left hne
      · intro hshare
        exact ⟨_, hu', (hheld v k').mpr ⟨rfl, .inr hshare⟩⟩
    have hu' : (c.change u k f).ref? u k' = c.ref? u k' := by
      have hsame : (c.change u k f).ref? u k' = ((c.clean u).getItem u k).2.ref? u k' := rfl
      rw [hsame, ← href u k']
      unfold CowSets.getItem
      split
      · rfl
      rename_i hnone
      have hset := (hclean.alloc ∅).setItem (hcount ▸ hu) (Nat.lt_succ_self c.nextSet)
        (k := k) fun v k' hv => absurd (hclean.live v k' _ hv) (Nat.lt_irrefl _)
      exact (hset.2.2 u k').trans (if_neg fun hand => hk hand.2)
    unfold Shares
    rw [hv, hu']

omit [DecidableEq T] in
/-- The sets under several keys are changed in place. -/
theorem Sound.changeAll (hf : ∀ s, f (f s) = f s) (ks : List K) (h : c.Sound) (hu : u < c.count) :
    (ks.foldl (fun c k => c.change u k f) c).Sound ∧ (ks.foldl (fun c k => c.change u k f) c).count = c.count ∧
      ∀ v k, (k ∈ ks ∧ (v = u ∨ c.Shares u v k) → (ks.foldl (fun c k => c.change u k f) c).get v k = f (c.get v k)) ∧
        (¬ (k ∈ ks ∧ (v = u ∨ c.Shares u v k)) → (ks.foldl (fun c k => c.change u k f) c).get v k = c.get v k) := by
  induction ks generalizing c with
  | nil => exact ⟨h, rfl, fun v k => ⟨fun hand => absurd hand.1 List.not_mem_nil, fun _ => rfl⟩⟩
  | cons k₀ ks ih =>
    obtain ⟨hsound, hcount, hget, hshares⟩ := h.change hu k₀ f
    obtain ⟨hsound', hcount', hget'⟩ := ih hsound (hcount ▸ hu)
    have hor : ∀ v k, (v = u ∨ (c.change u k₀ f).Shares u v k) ↔ (v = u ∨ c.Shares u v k) := by
      intro v k
      by_cases hv : v = u
      · simp only [hv, true_or]
      · simp only [hv, false_or, hshares v k hv]
    refine ⟨hsound', hcount'.trans hcount, fun v k => ⟨fun hand => ?_, fun hand => ?_⟩⟩
    · obtain ⟨hmem, hshare⟩ := hand
      rw [List.foldl_cons]
      by_cases hks : k ∈ ks
      · rw [(hget' v k).1 ⟨hks, (hor v k).mpr hshare⟩]
        by_cases hk : k = k₀
        · subst hk
          rw [(hget v k).1 ⟨rfl, hshare⟩, hf]
        · rw [(hget v k).2 fun hand => hk hand.1]
      · obtain rfl := (List.mem_cons.mp hmem).resolve_right hks
        rw [(hget' v k).2 fun hand => hks hand.1, (hget v k).1 ⟨rfl, hshare⟩]
    · rw [List.foldl_cons, (hget' v k).2 fun h' => hand ⟨List.mem_cons_of_mem _ h'.1, (hor v k).mp h'.2⟩]
      refine (hget v k).2 ?_
      rintro ⟨rfl, hshare⟩
      exact hand ⟨List.mem_cons_self, hshare⟩

/-! ## Merging -/

/-- One pass puts the union under its key. -/
theorem Sound.mergeItem (h : c.Sound) (hu : u < c.count) (other : Nat) (merged : Bool) (k : K) :
    (mergeItem u other (c, merged) k).1.Sound ∧ (mergeItem u other (c, merged) k).1.count = c.count ∧
      ∀ v k', (mergeItem u other (c, merged) k).1.get v k' =
        if v = u ∧ k' = k then c.get u k ∪ c.get other k else c.get v k' := by
  have hsame : (c.get other k ⊆ c.get u k) → ∀ v k',
      c.get v k' = if v = u ∧ k' = k then c.get u k ∪ c.get other k else c.get v k' := by
    intro hsubset v k'
    split
    · rename_i hand
      rw [hand.1, hand.2, Finset.union_eq_left.mpr hsubset]
    · rfl
  obtain ⟨hclean, hcount, href⟩ := h.clean u
  unfold CowSets.mergeItem
  dsimp only
  split
  · rename_i hother
    refine ⟨h, rfl, hsame ?_⟩
    rw [get_of_none hother]
    exact Finset.empty_subset _
  rename_i v hv
  split
  · rename_i hnone
    obtain ⟨hsound, hcount', href'⟩ := hclean.setItem (hcount ▸ hu) (h.live other k v hv)
      fun w k' hw => h.keyed w k' other k v (href w k' ▸ hw) hv
    have href'' : ∀ w k', ((c.clean u).setItem u k v).ref? w k' =
        if w = u ∧ k' = k then some v else c.ref? w k' := by
      intro w k'
      rw [← href w k']
      exact href' w k'
    refine ⟨hsound, hcount'.trans hcount, fun w k' => ?_⟩
    split
    · rename_i hand
      rw [get_of_ref ((href'' w k').trans (if_pos hand)), get_of_none hnone, get_of_ref hv, Finset.empty_union]
      rfl
    rename_i hand
    unfold CowSets.get
    rw [(href'' w k').trans (if_neg hand)]
    rfl
  · rename_i r hr
    split
    · rename_i hsubset
      refine ⟨h, rfl, hsame ?_⟩
      rw [get_of_ref hv, get_of_ref hr]
      exact hsubset
    have hfresh : ∀ w k', (c.clean u).ref? w k' ≠ some c.nextSet := fun w k' hw =>
      absurd (h.live w k' _ (href w k' ▸ hw)) (Nat.lt_irrefl _)
    obtain ⟨hsound, hcount', href'⟩ := (hclean.alloc (c.set r ∪ c.set v)).setItem (hcount ▸ hu)
      (Nat.lt_succ_self c.nextSet) fun w k' hw => absurd hw (hfresh w k')
    have href'' : ∀ w k', (((c.clean u).alloc (c.set r ∪ c.set v)).setItem u k c.nextSet).ref? w k' =
        if w = u ∧ k' = k then some c.nextSet else c.ref? w k' := by
      intro w k'
      rw [← href w k']
      exact href' w k'
    refine ⟨hsound, hcount'.trans hcount, fun w k' => ?_⟩
    split
    · rename_i hand
      rw [get_of_ref ((href'' w k').trans (if_pos hand)), get_of_ref hr, get_of_ref hv]
      exact Function.update_self _ _ _
    rename_i hand
    have hold := (href'' w k').trans (if_neg hand)
    cases hs : c.ref? w k' with
    | none => rw [get_of_none hs, get_of_none (hold.trans hs)]
    | some s =>
      rw [get_of_ref hs, get_of_ref (hold.trans hs)]
      exact Function.update_of_ne (Nat.ne_of_lt (h.live w k' s hs)) _ _

/-- A merge puts the unions under the keys of the other map. -/
theorem Sound.merge (h : c.Sound) (hu : u < c.count) (other : Nat) :
    (c.merge u other).1.Sound ∧ (c.merge u other).1.count = c.count ∧
      ∀ v k, (c.merge u other).1.get v k = if v = u then c.get u k ∪ c.get other k else c.get v k := by
  -- the keys still to come are as they were
  have hfold : ∀ (ks : List K) (p : CowSets K T × Bool), ks.Nodup → p.1.Sound → p.1.count = c.count →
      (∀ v k, p.1.get v k = if v = u ∧ k ∉ ks then c.get u k ∪ c.get other k else c.get v k) →
      (ks.foldl (CowSets.mergeItem u other) p).1.Sound ∧ (ks.foldl (CowSets.mergeItem u other) p).1.count = c.count ∧
        ∀ v k, (ks.foldl (CowSets.mergeItem u other) p).1.get v k =
          if v = u then c.get u k ∪ c.get other k else c.get v k := by
    intro ks
    induction ks with
    | nil =>
      intro p _ hp hcount hget
      refine ⟨hp, hcount, fun v k => ?_⟩
      rw [List.foldl_nil, hget]
      simp only [List.not_mem_nil, not_false_eq_true, and_true]
    | cons k ks ih =>
      intro p hnodup hp hcount hget
      obtain ⟨hk, hnodup⟩ := List.nodup_cons.mp hnodup
      obtain ⟨hsound, hcount', hget'⟩ := hp.mergeItem (hcount ▸ hu) other p.2 k
      refine ih _ hnodup hsound (hcount'.trans hcount) fun v k' => ?_
      have hold : ∀ v, p.1.get v k = c.get v k := by
        intro v
        rw [hget, if_neg fun hand => hand.2 List.mem_cons_self]
      rw [hget', hold, hold, hget]
      by_cases hk' : k' = k
      · subst hk'
        simp [hk]
      · simp [hk']
  refine hfold (c.keys other) (c, false) nodup_keys h rfl fun v k => ?_
  split
  · rename_i hand
    have hnone : c.ref? other k = none := by
      have hnot := mt mem_keys.mpr hand.2
      rwa [Option.not_isSome_iff_eq_none] at hnot
    rw [hand.1, get_of_none hnone, Finset.union_empty]
  · rfl

end CowSets

end Angr.KeyDefinitions
