import Vibr.Cfg.SpillingAdjDictInv
import Vibr.Lib.DiGraph

/-!
# Operations of spilling adjacency dictionaries

Each operation does to the invariant what its counterpart does to a plain dictionary. The
one exception is `setItem`: a value that is not marked dirty is not written when it is
evicted, so that it must already be in the store.
-/

namespace Angr.SpillingAdjDict

variable {self : SpillingAdjDict} {spec : OrderedDict Key Inner} {key : Key}

/-- Only the bindings of the plain dictionary matter. -/
theorem Inv.congr {spec' : OrderedDict Key Inner} (h : Inv self spec) (heq : ∀ k, spec'.get? k = spec.get? k) :
    Inv self spec' := by
  refine { h with cached := fun k => ?_, spilled := fun k => ?_, complete := fun k hk => ?_ }
  · rw [heq]
    exact h.cached k
  · rw [heq]
    exact h.spilled k
  · rw [← OrderedDict.get?_isSome, heq, OrderedDict.get?_isSome] at hk
    exact h.complete k hk

/-! ## Storing and loading -/

/-- A clean value is safe to store where its record is already there. -/
def Safe (self : SpillingAdjDict) (key : Key) (value : DirtyDict) : Prop :=
  value.dirty = true ∨ self.rtdb = false ∨ self.record? key = some value.inner

/-- The dictionary with a stored entry, before anything is evicted. -/
def stored (self : SpillingAdjDict) (key : Key) (value : DirtyDict) : SpillingAdjDict :=
  { self with
    data := self.data.put key value
    lruOrder := self.lruOrder.erase key ++ [key]
    spilledKeys := self.spilledKeys.erase key }

theorem recent_stored (value : DirtyDict) : Recent key (self.stored key value) :=
  ⟨OrderedDict.mem_keys_put.mpr (.inl rfl), _, rfl⟩

theorem nodup_touch {lruOrder : List Key} (h : lruOrder.Nodup) : (lruOrder.erase key ++ [key]).Nodup := by
  refine List.nodup_append.mpr ⟨h.erase key, List.nodup_singleton key, ?_⟩
  rintro a ha b hb rfl
  have heq : a = key := List.mem_singleton.mp hb
  exact (List.Nodup.mem_erase_iff h).mp ha |>.1 heq

theorem mem_touch {lruOrder : List Key} {k : Key} (h : k = key ∨ k ∈ lruOrder) :
    k ∈ lruOrder.erase key ++ [key] := by
  rw [List.mem_append, List.mem_singleton]
  by_cases heq : k = key
  · exact .inr heq
  · exact .inl ((List.mem_erase_of_ne heq).mpr (h.resolve_left heq))

theorem Inv.stored {value : DirtyDict} (h : Inv self spec) (hfits : Fits value.inner) (hsafe : self.Safe key value) :
    Inv (self.stored key value) (spec.put key value.inner) := by
  have hnodup := @nodup_touch key _ h.keys_nodup
  refine
    { apart := ?_
      cached := ?_
      spilled := ?_
      complete := ?_
      saved_spilled := fun p hp => absurd hp List.not_mem_nil
      saved_nodup := List.nodup_nil
      keys_nodup := hnodup
      keys_cached := ?_
      no_store := ?_
      limit_pos := h.limit_pos }
  · intro k hk hmem
    obtain ⟨hne, hk⟩ := Finset.mem_erase.mp hk
    exact h.apart k hk ((OrderedDict.mem_keys_put.mp hmem).resolve_left hne)
  · intro k entry hk
    change (self.data.put key value).get? k = some entry at hk
    rw [OrderedDict.get?_put] at hk
    rw [OrderedDict.get?_put]
    split at hk
    · rename_i heq
      subst heq
      rw [if_pos rfl, ← Option.some.inj hk]
      refine ⟨rfl, hfits, fun hdirty hrtdb => ?_⟩
      rcases hsafe with hd | hr | hrecord
      · rw [hdirty] at hd
        cases hd
      · rw [show self.rtdb = true from hrtdb] at hr
        cases hr
      · exact hrecord
    · rename_i hne
      rw [if_neg hne]
      exact h.cached k entry hk
  · intro k hk
    obtain ⟨hne, hk⟩ := Finset.mem_erase.mp hk
    rw [OrderedDict.get?_put, if_neg (Ne.symm hne)]
    exact h.spilled k hk
  · intro k hk
    by_cases heq : k = key
    · exact .inl (OrderedDict.mem_keys_put.mpr (.inl heq))
    · rcases h.complete k ((OrderedDict.mem_keys_put.mp hk).resolve_left heq) with hmem | hmem
      · exact .inl (OrderedDict.mem_keys_put.mpr (.inr hmem))
      · exact .inr (Finset.mem_erase.mpr ⟨heq, hmem⟩)
  · exact fun hrtdb k hk => mem_touch ((OrderedDict.mem_keys_put.mp hk).imp_right (h.keys_cached hrtdb k))
  · intro hrtdb
    change self.spilledKeys.erase key = ∅
    rw [h.no_store hrtdb]
    rfl

theorem setItem_spec {value : DirtyDict} (h : Inv self spec) (hfits : Fits value.inner) (hsafe : self.Safe key value) :
    ∃ self', self.setItem key value = some self' ∧ Inv self' (spec.put key value.inner) := by
  obtain ⟨self', heq, h', -⟩ := evictIfFull_spec (h.stored hfits hsafe)
  exact ⟨self', heq, h'⟩

theorem evictIfFull_off (h : self.evictionEnabled = false) : self.evictIfFull = some self := by
  rw [evictIfFull, if_neg]
  simp [h]

/-- A key that is not in memory is read back from its record. -/
theorem loadFromLmdb_spec (h : Inv self spec) (hkey : key ∈ self.spilledKeys) :
    ∃ inner self', self.loadFromLmdb key = some (some ⟨inner, false⟩, self') ∧ spec.get? key = some inner ∧
      Inv self' spec ∧ SameConfig self self' ∧ Recent key self' ∧
      (self.evictionEnabled = false → self'.spilledKeys = self.spilledKeys.erase key) := by
  obtain ⟨inner, hspec, hfits, hmem | ⟨-, hrecord⟩⟩ := h.spilled key hkey
  · exact absurd hmem List.not_mem_nil
  have hrtdb : self.rtdb = true := by
    by_contra hrtdb
    rw [h.no_store (by simpa using hrtdb)] at hkey
    exact absurd hkey (Finset.notMem_empty key)
  have hget : ∃ db value, self.edgesdb = some db ∧ db.get? key = some value ∧
      deserializeInnerDict value = some inner := by
    unfold record? at hrecord
    split at hrecord
    · rename_i value hvalue
      cases hdb : self.edgesdb with
      | none =>
        rw [hdb] at hvalue
        cases hvalue
      | some db =>
        rw [hdb] at hvalue
        exact ⟨db, value, rfl, hvalue, hrecord⟩
    · cases hrecord
  obtain ⟨db, value, hdb, hvalue, hinner⟩ := hget
  have hstored : Inv (self.stored key ⟨inner, false⟩) spec := by
    refine (h.stored hfits (.inr (.inr hrecord))).congr fun k => ?_
    rw [OrderedDict.get?_put]
    split
    · rename_i heq
      rw [← heq, hspec]
    · rfl
  have hload : self.loadFromLmdb key = ((self.stored key ⟨inner, false⟩).evictIfFull.bind evictIfFull).map
      fun self' => (some ⟨inner, false⟩, self') := by
    have heq : { self with spilledKeys := self.spilledKeys.erase key, data := self.data.put key ⟨inner, false⟩ :
        SpillingAdjDict }.onEntryStored key = (self.stored key ⟨inner, false⟩).evictIfFull := by
      unfold onEntryStored touch SpillingAdjDict.stored
      dsimp only
      rw [Finset.erase_idem]
    rw [← heq]
    unfold loadFromLmdb
    rw [hdb]
    dsimp only
    rw [if_neg (not_not.mpr hrtdb), hvalue]
    dsimp only
    rw [hinner]
  obtain ⟨self₁, heq₁, h₁, hconfig₁, hrecent₁⟩ := evictIfFull_spec hstored
  obtain ⟨self₂, heq₂, h₂, hconfig₂, hrecent₂⟩ := evictIfFull_spec h₁
  refine ⟨inner, self₂, ?_, hspec, h₂, ?_, hrecent₂ key (hrecent₁ key (recent_stored _)), fun hoff => ?_⟩
  · rw [hload, heq₁, Option.bind_some, heq₂]
    rfl
  · exact (SameConfig.mk rfl rfl rfl rfl : SameConfig self (self.stored key ⟨inner, false⟩)).trans
      (hconfig₁.trans hconfig₂)
  have hoff₁ : (self.stored key ⟨inner, false⟩).evictionEnabled = false := hoff
  rw [evictIfFull_off hoff₁, Option.some.injEq] at heq₁
  rw [← heq₁, evictIfFull_off hoff₁, Option.some.injEq] at heq₂
  rw [← heq₂]
  rfl

theorem Inv.touch (h : Inv self spec) (key : Key) : Inv (self.touch key) spec :=
  { h with
    keys_nodup := nodup_touch h.keys_nodup
    keys_cached := fun hrtdb k hk => mem_touch (.inr (h.keys_cached hrtdb k hk)) }

/-- An access gives the inner dictionary of the plain dictionary, and keeps it in memory. -/
theorem getItem_spec (h : Inv self spec) (key : Key) :
    ∃ result self', self.getItem key = some (result, self') ∧ result.map DirtyDict.inner = spec.get? key ∧
      Inv self' spec ∧ SameConfig self self' ∧ (result.isSome → Recent key self') := by
  unfold getItem
  split
  · rename_i entry hget
    refine ⟨some entry, self.touch key, rfl, (h.cached key entry hget).1.symm, h.touch key, ⟨rfl, rfl, rfl, rfl⟩, ?_⟩
    exact fun _ => ⟨OrderedDict.mem_keys_of_get? hget, _, rfl⟩
  rename_i hnone
  split
  · rename_i hkey
    obtain ⟨inner, self', hload, hspec, h', hconfig, hrecent, -⟩ := loadFromLmdb_spec h hkey
    exact ⟨some ⟨inner, false⟩, self', hload, hspec.symm, h', hconfig, fun _ => hrecent⟩
  rename_i hkey
  refine ⟨none, self, rfl, ?_, h, .refl, fun hf => by cases hf⟩
  symm
  rw [Option.map_none, OrderedDict.get?_eq_none]
  intro hmem
  rcases h.complete key hmem with hmem | hmem
  · exact OrderedDict.get?_eq_none.mp hnone hmem
  · exact hkey hmem

/-! ## Changing and removing -/

/-- The counterpart of `change` on a plain dictionary. -/
def changeSpec (spec : OrderedDict Key Inner) (key : Key) (f : Inner → Option Inner) : OrderedDict Key Inner :=
  match (spec.get? key).bind f with
  | none => spec
  | some inner => spec.put key inner

/-- An entry in memory is changed and marked. -/
theorem Inv.putCached {inner : Inner} (h : Inv self spec) (hkey : key ∈ self.data.keys) (hfits : Fits inner) :
    Inv { self with data := self.data.put key ⟨inner, true⟩ } (spec.put key inner) := by
  have hkeys : ∀ k, k ∈ (self.data.put key ⟨inner, true⟩).keys ↔ k ∈ self.data.keys := by
    intro k
    rw [OrderedDict.mem_keys_put]
    exact or_iff_right_of_imp fun heq => heq ▸ hkey
  refine
    { h with
      apart := fun k hk hmem => h.apart k hk ((hkeys k).mp hmem)
      cached := ?_
      spilled := ?_
      complete := ?_
      keys_cached := fun hrtdb k hk => h.keys_cached hrtdb k ((hkeys k).mp hk) }
  · intro k entry hk
    dsimp only at hk
    rw [OrderedDict.get?_put] at hk ⊢
    split at hk
    · rename_i heq
      rw [if_pos heq, ← Option.some.inj hk]
      exact ⟨rfl, hfits, fun hdirty => by cases hdirty⟩
    · rename_i hne
      rw [if_neg hne]
      exact h.cached k entry hk
  · intro k hk
    have hne : key ≠ k := fun heq => h.apart k hk (heq ▸ hkey)
    rw [OrderedDict.get?_put, if_neg hne]
    exact h.spilled k hk
  · intro k hk
    rcases OrderedDict.mem_keys_put.mp hk with rfl | hk
    · exact .inl ((hkeys k).mpr hkey)
    · exact (h.complete k hk).imp_left (hkeys k).mpr

theorem change_spec {f : Inner → Option Inner} (h : Inv self spec)
    (hfits : ∀ inner ∈ (spec.get? key).bind f, Fits inner) :
    ∃ self', self.change key f = some self' ∧ Inv self' (changeSpec spec key f) := by
  obtain ⟨result, self', hget, hresult, h', -, hrecent⟩ := getItem_spec h key
  unfold change changeSpec
  rw [hget, Option.map_some]
  cases result with
  | none =>
    rw [← hresult]
    exact ⟨self', rfl, h'⟩
  | some entry =>
    rw [← hresult] at hfits ⊢
    dsimp only [Option.map_some, Option.bind_some] at hfits ⊢
    cases hf : f entry.inner with
    | none => exact ⟨self', rfl, h'⟩
    | some inner =>
      have hkey : key ∈ self'.data.keys := (hrecent rfl).1
      dsimp only
      rw [if_pos hkey]
      exact ⟨_, rfl, h'.putCached hkey (hfits inner hf)⟩

theorem delItem_spec (h : Inv self spec) (key : Key) : Inv (self.delItem key) (spec.erase key) := by
  refine
    { apart := ?_
      cached := ?_
      spilled := ?_
      complete := ?_
      saved_spilled := fun p hp => absurd hp List.not_mem_nil
      saved_nodup := List.nodup_nil
      keys_nodup := h.keys_nodup.erase key
      keys_cached := ?_
      no_store := ?_
      limit_pos := h.limit_pos }
  · intro k hk hmem
    exact h.apart k (Finset.mem_erase.mp hk).2 (OrderedDict.mem_keys_erase.mp hmem).2
  · intro k entry hk
    change (self.data.erase key).get? k = some entry at hk
    rw [OrderedDict.get?_erase] at hk ⊢
    split at hk
    · cases hk
    · rename_i hne
      rw [if_neg hne]
      exact h.cached k entry hk
  · intro k hk
    obtain ⟨hne, hk⟩ := Finset.mem_erase.mp hk
    rw [OrderedDict.get?_erase, if_neg hne]
    exact h.spilled k hk
  · intro k hk
    obtain ⟨hne, hk⟩ := OrderedDict.mem_keys_erase.mp hk
    rcases h.complete k hk with hmem | hmem
    · exact .inl (OrderedDict.mem_keys_erase.mpr ⟨hne, hmem⟩)
    · exact .inr (Finset.mem_erase.mpr ⟨hne, hmem⟩)
  · intro hrtdb k hk
    obtain ⟨hne, hk⟩ := OrderedDict.mem_keys_erase.mp hk
    exact (List.mem_erase_of_ne hne).mpr (h.keys_cached hrtdb k hk)
  intro hrtdb
  change self.spilledKeys.erase key = ∅
  rw [h.no_store hrtdb]
  rfl

/-! ## Whole dictionaries -/

theorem evictAllCached_spec (h : Inv self spec) : ∃ self', self.evictAllCached = some self' ∧ Inv self' spec := by
  unfold evictAllCached
  split
  · exact ⟨self, rfl, h⟩
  · obtain ⟨evicted, self', heq, h', -⟩ := evictN_spec h self.data.len
    exact ⟨self', by rw [heq]; rfl, h'⟩

theorem loadKeys_spec {keys : List Key} (h : Inv self spec) (hoff : self.evictionEnabled = false)
    (hnodup : keys.Nodup) (hkeys : ∀ k ∈ keys, k ∈ self.spilledKeys) :
    ∃ self', loadKeys keys self = some self' ∧ Inv self' spec ∧ SameConfig self self' ∧
      self'.spilledKeys = self.spilledKeys \ keys.toFinset := by
  induction keys generalizing self with
  | nil => exact ⟨self, rfl, h, .refl, by simp⟩
  | cons key keys ih =>
    obtain ⟨hnew, hnodup⟩ := List.nodup_cons.mp hnodup
    obtain ⟨inner, self₁, hload, -, h₁, hconfig₁, -, hspilled₁⟩ :=
      loadFromLmdb_spec h (hkeys key List.mem_cons_self)
    have hspilled₁ := hspilled₁ hoff
    have hkeys₁ : ∀ k ∈ keys, k ∈ self₁.spilledKeys := by
      intro k hk
      rw [hspilled₁, Finset.mem_erase]
      exact ⟨fun heq => hnew (heq ▸ hk), hkeys k (List.mem_cons_of_mem _ hk)⟩
    obtain ⟨self₂, heq, h₂, hconfig₂, hspilled₂⟩ := ih h₁ (hconfig₁.evictionEnabled.trans hoff) hnodup hkeys₁
    refine ⟨self₂, by rw [loadKeys, hload]; exact heq, h₂, hconfig₁.trans hconfig₂, ?_⟩
    rw [hspilled₂, hspilled₁, List.toFinset_cons, Finset.sdiff_insert]
    exact Finset.erase_sdiff_comm _ _ _

theorem loadAllSpilled_spec (order : Enumeration Key) (h : Inv self spec) :
    ∃ self', self.loadAllSpilled order.list = some self' ∧ Inv self' spec ∧ self'.spilledKeys = ∅ := by
  unfold loadAllSpilled
  split
  · rename_i hempty
    exact ⟨self, rfl, h, hempty⟩
  have hoff : Inv { self with evictionEnabled := false } spec := { h with }
  obtain ⟨self', heq, h', -, hspilled⟩ :=
    loadKeys_spec hoff rfl (order.nodup self.spilledKeys) fun k hk => (order.mem_list _ k).mp hk
  refine ⟨{ self' with evictionEnabled := self.evictionEnabled }, by rw [heq]; rfl, { h' with }, ?_⟩
  change self'.spilledKeys = ∅
  rw [hspilled, Finset.sdiff_eq_empty_iff_subset]
  intro k hk
  rw [List.mem_toFinset, order.mem_list]
  exact hk

/-- The entries in memory when all of them are marked. -/
theorem Inv.marked (h : Inv self spec) {k : Key} {entry : DirtyDict}
    (hk : (self.data.mapValues fun entry => (⟨entry.inner, true⟩ : DirtyDict)).get? k = some entry) :
    spec.get? k = some entry.inner ∧ Fits entry.inner ∧ entry.dirty = true := by
  rw [OrderedDict.get?_mapValues, Option.map_eq_some_iff] at hk
  obtain ⟨entry, hk, rfl⟩ := hk
  exact ⟨(h.cached k entry hk).1, (h.cached k entry hk).2.1, rfl⟩

/-- Both the dictionary that is read from the pickle and the pickled one have the entries. -/
theorem pickle_spec (order : Enumeration Key) (h : Inv self spec) :
    ∃ new self', self.pickle order.list = some (new, self') ∧ Inv new spec ∧ Inv self' spec := by
  obtain ⟨self', heq, h', hempty⟩ := loadAllSpilled_spec order h
  unfold pickle
  rw [heq]
  refine ⟨_, self', rfl, ?_, h'⟩
  refine
    { apart := fun k hk => absurd hk (Finset.notMem_empty k)
      cached := fun k entry hk => ?_
      spilled := fun k hk => absurd hk (Finset.notMem_empty k)
      complete := fun k hk => ?_
      saved_spilled := fun p hp => absurd hp List.not_mem_nil
      saved_nodup := List.nodup_nil
      keys_nodup := List.nodup_nil
      keys_cached := fun hf => by cases hf
      no_store := fun _ => rfl
      limit_pos := h'.limit_pos }
  · obtain ⟨hspec, hfits, -⟩ := h'.marked hk
    exact ⟨hspec, hfits, fun _ hf => by cases hf⟩
  left
  change k ∈ (self'.data.mapValues _).keys
  rw [OrderedDict.keys_mapValues]
  refine (h'.complete k hk).resolve_right ?_
  rw [hempty]
  exact Finset.notMem_empty k

theorem copy_spec (h : Inv self spec) : Inv self.copy spec := by
  generalize hvalues : (if self.rtdb then (self.edgesdb.getD []).restrict (· ∈ self.spilledKeys) else []) = values
  have hspilled : ∀ k ∈ self.spilledKeys, values.get? k = (self.edgesdb.getD []).get? k := by
    intro k hk
    have hrtdb : self.rtdb = true := by
      by_contra hrtdb
      rw [h.no_store (by simpa using hrtdb)] at hk
      exact absurd hk (Finset.notMem_empty k)
    rw [← hvalues, if_pos hrtdb, Dict.get?_restrict]
    simp [hk]
  have hsub : ∀ k ∈ Dict.keys values, k ∈ self.spilledKeys := by
    intro k hk
    rw [← hvalues] at hk
    split at hk
    · rw [Dict.keys_restrict] at hk
      simpa using (Finset.mem_filter.mp hk).2
    · exact absurd hk (Finset.notMem_empty k)
  have hcopy : self.copy =
      { data := self.data.mapValues fun entry => ⟨entry.inner, true⟩
        lruOrder := self.data.entries.map Prod.fst
        cacheLimit := self.cacheLimit
        dbBatchSize := self.dbBatchSize
        rtdb := self.rtdb
        edgesdb := if values = [] then none else some values
        spilledKeys := Dict.keys values } := by
    rw [← hvalues]
    rfl
  rw [hcopy]
  have hgetD : (if values = [] then none else some values).getD [] = values := by
    split
    · rename_i hnil
      exact hnil.symm
    · rfl
  refine
    { apart := fun k hk hmem => ?_
      cached := fun k entry hk => ?_
      spilled := fun k hk => ?_
      complete := fun k hk => ?_
      saved_spilled := fun p hp => absurd hp List.not_mem_nil
      saved_nodup := List.nodup_nil
      keys_nodup := self.data.nodup
      keys_cached := fun _ k hk => ?_
      no_store := fun hrtdb => ?_
      limit_pos := h.limit_pos }
  · dsimp only at hk hmem
    rw [OrderedDict.keys_mapValues] at hmem
    exact h.apart k (hsub k hk) hmem
  · obtain ⟨hspec, hfits, hdirty⟩ := h.marked hk
    exact ⟨hspec, hfits, fun hf => by rw [hdirty] at hf; cases hf⟩
  · obtain ⟨inner, hspec, hfits, hmem | ⟨hnot, hrecord⟩⟩ := h.spilled k (hsub k hk)
    · exact absurd hmem List.not_mem_nil
    refine ⟨inner, hspec, hfits, .inr ⟨hnot, ?_⟩⟩
    unfold record? at hrecord ⊢
    dsimp only
    rw [hgetD, hspilled k (hsub k hk)]
    exact hrecord
  · rcases h.complete k hk with hmem | hmem
    · left
      dsimp only
      rw [OrderedDict.keys_mapValues]
      exact hmem
    right
    obtain ⟨inner, -, -, hmem' | ⟨-, hrecord⟩⟩ := h.spilled k hmem
    · exact absurd hmem' List.not_mem_nil
    unfold record? at hrecord
    dsimp only
    rw [← Dict.get?_isSome, hspilled k hmem]
    split at hrecord
    · rename_i heq
      rw [heq]
      rfl
    · cases hrecord
  · dsimp only at hk
    rw [OrderedDict.keys_mapValues] at hk
    exact List.mem_toFinset.mp hk
  · dsimp only at hrtdb ⊢
    rw [← hvalues, hrtdb]
    rfl

end Angr.SpillingAdjDict
