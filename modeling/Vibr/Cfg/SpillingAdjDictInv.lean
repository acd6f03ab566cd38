import Vibr.Cfg.SpillingAdjDict

/-!
# Eviction loses nothing

The invariant says where the inner dictionary of each key is: in memory, or in a record
from which it can be read back. An entry in memory that is not marked dirty must have
such a record, because it will not be written when it is evicted. `setItem` stores its
value with the mark it comes with.
-/

namespace Angr.SpillingAdjDict

variable {self : SpillingAdjDict} {spec : OrderedDict Key Inner} {key : Key} {n : Nat}

/-- The inner dictionary in the record of a key. -/
def record? (self : SpillingAdjDict) (key : Key) : Option Inner :=
  match (self.edgesdb.getD []).get? key with
  | some value => deserializeInnerDict value
  | none => none

/-- An inner dictionary whose number of entries fits into its record. -/
def Fits (inner : Inner) : Prop := inner.len < 2 ^ 32

instance (inner : Inner) : Decidable (Fits inner) := inferInstanceAs (Decidable (_ < _))

/-- The entries of a dictionary in the middle of an eviction: `keys` are the keys in memory
that have still to be looked at, and `saved` is what has still to be written. -/
structure Holds (keys : List Key) (saved : List (Key × Inner)) (d : SpillingAdjDict)
    (spec : OrderedDict Key Inner) : Prop where
  apart : ∀ k ∈ d.spilledKeys, k ∉ d.data.keys
  cached : ∀ k entry, d.data.get? k = some entry → spec.get? k = some entry.inner ∧ Fits entry.inner ∧
    (entry.dirty = false → d.rtdb = true → d.record? k = some entry.inner)
  spilled : ∀ k ∈ d.spilledKeys, ∃ inner, spec.get? k = some inner ∧ Fits inner ∧
    ((k, inner) ∈ saved ∨ k ∉ saved.map Prod.fst ∧ d.record? k = some inner)
  complete : ∀ k ∈ spec.keys, k ∈ d.data.keys ∨ k ∈ d.spilledKeys
  saved_spilled : ∀ p ∈ saved, p.1 ∈ d.spilledKeys ∧ Fits p.2
  saved_nodup : (saved.map Prod.fst).Nodup
  keys_nodup : keys.Nodup
  keys_cached : d.rtdb = true → ∀ k ∈ d.data.keys, k ∈ keys

/-- The invariant: the dictionary has the entries of `spec`. -/
structure Inv (d : SpillingAdjDict) (spec : OrderedDict Key Inner) : Prop extends
    Holds d.lruOrder [] d spec where
  no_store : d.rtdb = false → d.spilledKeys = ∅
  limit_pos : 1 ≤ d.cacheLimit

/-- The fields that eviction leaves alone. -/
structure SameConfig (d d' : SpillingAdjDict) : Prop where
  cacheLimit : d'.cacheLimit = d.cacheLimit
  dbBatchSize : d'.dbBatchSize = d.dbBatchSize
  rtdb : d'.rtdb = d.rtdb
  evictionEnabled : d'.evictionEnabled = d.evictionEnabled

/-- A cached key that was used after all others. -/
def Recent (key : Key) (d : SpillingAdjDict) : Prop :=
  key ∈ d.data.keys ∧ ∃ front, d.lruOrder = front ++ [key]

theorem SameConfig.refl : SameConfig self self := ⟨rfl, rfl, rfl, rfl⟩

theorem SameConfig.trans {self₁ self₂ self₃ : SpillingAdjDict} (h : SameConfig self₁ self₂)
    (h' : SameConfig self₂ self₃) : SameConfig self₁ self₃ :=
  ⟨h'.1.trans h.1, h'.2.trans h.2, h'.3.trans h.3, h'.4.trans h.4⟩

/-! ## Eviction -/

/-- A cached entry leaves the memory. -/
theorem Holds.evict {keys : List Key} {saved : List (Key × Inner)} {entry : DirtyDict}
    (h : Holds (key :: keys) saved self spec) (hrtdb : self.rtdb = true) (hget : self.data.get? key = some entry) :
    Holds keys (if entry.dirty then saved ++ [(key, entry.inner)] else saved)
      { self with data := self.data.erase key, spilledKeys := insert key self.spilledKeys } spec := by
  obtain ⟨hspec, hfits, hclean⟩ := h.cached key entry hget
  have hcached : key ∈ self.data.keys := OrderedDict.mem_keys_of_get? hget
  have hnew : key ∉ saved.map Prod.fst := by
    intro hmem
    obtain ⟨p, hp, rfl⟩ := List.mem_map.mp hmem
    exact h.apart p.1 (h.saved_spilled p hp).1 hcached
  have hkeys := List.nodup_cons.mp h.keys_nodup
  refine
    { apart := ?_
      cached := ?_
      spilled := ?_
      complete := ?_
      saved_spilled := ?_
      saved_nodup := ?_
      keys_nodup := hkeys.2
      keys_cached := ?_ }
  · intro k hk hmem
    obtain ⟨hne, hmem⟩ := OrderedDict.mem_keys_erase.mp hmem
    exact h.apart k ((Finset.mem_insert.mp hk).resolve_left hne) hmem
  · intro k entry' hk
    dsimp only at hk
    rw [OrderedDict.get?_erase] at hk
    split at hk
    · cases hk
    · exact h.cached k entry' hk
  · intro k hk
    rcases Finset.mem_insert.mp hk with rfl | hk
    · refine ⟨entry.inner, hspec, hfits, ?_⟩
      cases hdirty : entry.dirty with
      | true => exact .inl (by simp)
      | false => exact .inr ⟨by simpa using hnew, hclean hdirty hrtdb⟩
    obtain ⟨inner, hk_spec, hk_fits, hwhere⟩ := h.spilled k hk
    have hne : k ≠ key := fun heq => h.apart k hk (heq ▸ hcached)
    refine ⟨inner, hk_spec, hk_fits, ?_⟩
    split
    · rcases hwhere with hmem | ⟨hnot, hrecord⟩
      · exact .inl (List.mem_append_left _ hmem)
      · refine .inr ⟨?_, hrecord⟩
        rw [List.map_append, List.mem_append, not_or]
        exact ⟨hnot, by simpa using hne⟩
    · exact hwhere
  · intro k hk
    by_cases heq : k = key
    · exact .inr (heq ▸ Finset.mem_insert_self _ _)
    · rcases h.complete k hk with hmem | hmem
      · exact .inl (OrderedDict.mem_keys_erase.mpr ⟨heq, hmem⟩)
      · exact .inr (Finset.mem_insert_of_mem hmem)
  · intro p hp
    split at hp
    · rcases List.mem_append.mp hp with hp | hp
      · exact ⟨Finset.mem_insert_of_mem (h.saved_spilled p hp).1, (h.saved_spilled p hp).2⟩
      · rw [List.mem_singleton.mp hp]
        exact ⟨Finset.mem_insert_self _ _, hfits⟩
    · exact ⟨Finset.mem_insert_of_mem (h.saved_spilled p hp).1, (h.saved_spilled p hp).2⟩
  · split
    · rw [List.map_append, List.map_singleton]
      refine List.nodup_append.mpr ⟨h.saved_nodup, List.nodup_singleton _, ?_⟩
      rintro a ha b hb rfl
      have heq : a = key := List.mem_singleton.mp hb
      exact hnew (heq ▸ ha)
    · exact h.saved_nodup
  · intro _ k hk
    obtain ⟨hne, hmem⟩ := OrderedDict.mem_keys_erase.mp hk
    exact (List.mem_cons.mp (h.keys_cached hrtdb k hmem)).resolve_left hne

/-- The loop over the least recently used keys. -/
theorem scan_spec {keys : List Key} {evicted : Nat} {saved : List (Key × Inner)}
    (h : Holds keys saved self spec) (hrtdb : self.rtdb = true) :
    Holds (scan n keys evicted saved self).2.2.lruOrder (scan n keys evicted saved self).2.1
        (scan n keys evicted saved self).2.2 spec ∧
      SameConfig self (scan n keys evicted saved self).2.2 ∧
      (scan n keys evicted saved self).1 + (scan n keys evicted saved self).2.2.data.len =
        evicted + self.data.len := by
  induction keys generalizing evicted saved self with
  | nil => exact ⟨⟨h.1, h.2, h.3, h.4, h.5, h.6, h.7, h.8⟩, ⟨rfl, rfl, rfl, rfl⟩, rfl⟩
  | cons key keys ih =>
    rw [scan]
    split
    · exact ⟨⟨h.1, h.2, h.3, h.4, h.5, h.6, h.7, h.8⟩, ⟨rfl, rfl, rfl, rfl⟩, rfl⟩
    split
    · rename_i hnone
      refine ih ?_ hrtdb
      refine { h with keys_nodup := (List.nodup_cons.mp h.keys_nodup).2, keys_cached := fun hr k hk => ?_ }
      refine (List.mem_cons.mp (h.keys_cached hr k hk)).resolve_left ?_
      rintro rfl
      exact OrderedDict.get?_eq_none.mp hnone hk
    rename_i entry hget
    have hcached : key ∈ self.data.keys := OrderedDict.mem_keys_of_get? hget
    have hpos : 0 < self.data.len := OrderedDict.len_pos hcached
    obtain ⟨hholds, hconfig, hlen⟩ := @ih _ (evicted + 1) _ (h.evict hrtdb hget) hrtdb
    refine ⟨hholds, ⟨hconfig.1, hconfig.2, hconfig.3, hconfig.4⟩, ?_⟩
    rw [hlen]
    dsimp only
    rw [OrderedDict.len_erase hcached]
    omega

/-- The last key stays in memory as long as one entry does. -/
theorem scan_recent {front : List Key} {evicted : Nat} {saved : List (Key × Inner)} (hcached : key ∈ self.data.keys)
    (hkeys : ∀ k ∈ self.data.keys, k ∈ front ++ [key]) (hnew : key ∉ front) (hn : n + 1 ≤ evicted + self.data.len) :
    Recent key (scan n (front ++ [key]) evicted saved self).2.2 := by
  induction front generalizing evicted saved self with
  | nil =>
    have hsub : self.data.keys ⊆ {key} := fun k hk => by simpa using hkeys k hk
    have hlen : self.data.len ≤ 1 := by
      rw [← OrderedDict.keys_card]
      exact Finset.card_le_card hsub
    rw [List.nil_append, scan, if_pos (by omega)]
    exact ⟨hcached, [], rfl⟩
  | cons k front ih =>
    rw [List.cons_append, scan]
    split
    · exact ⟨hcached, k :: front, rfl⟩
    split
    · rename_i hnone
      refine ih hcached (fun k' hk' => ?_) (fun hmem => hnew (List.mem_cons_of_mem _ hmem)) hn
      refine (List.mem_cons.mp (hkeys k' hk')).resolve_left ?_
      rintro rfl
      exact OrderedDict.get?_eq_none.mp hnone hk'
    rename_i hlt entry hget
    have hk : k ∈ self.data.keys := OrderedDict.mem_keys_of_get? hget
    have hpos : 0 < self.data.len := OrderedDict.len_pos hk
    have hne : key ≠ k := fun heq => hnew (heq ▸ List.mem_cons_self)
    refine ih (OrderedDict.mem_keys_erase.mpr ⟨hne, hcached⟩) (fun k' hk' => ?_)
      (fun hmem => hnew (List.mem_cons_of_mem _ hmem)) ?_
    · obtain ⟨hne', hmem⟩ := OrderedDict.mem_keys_erase.mp hk'
      exact (List.mem_cons.mp (hkeys k' hmem)).resolve_left hne'
    · rw [OrderedDict.len_erase hk]
      omega

theorem records_spec {entries : List (Key × Inner)} (hfits : ∀ p ∈ entries, Fits p.2)
    (hnodup : (entries.map Prod.fst).Nodup) :
    ∃ values, records entries = some values ∧ ∀ (db : Dict Key (List Nat)) (k : Key),
      (∀ inner, (k, inner) ∈ entries →
        ∃ value, (values.foldl (fun (db : Dict Key (List Nat)) p => db.set p.1 p.2) db).get? k = some value ∧
          deserializeInnerDict value = some inner) ∧
      (k ∉ entries.map Prod.fst →
        (values.foldl (fun (db : Dict Key (List Nat)) p => db.set p.1 p.2) db).get? k = db.get? k) := by
  induction entries with
  | nil => exact ⟨[], rfl, fun db k => ⟨fun _ h => absurd h List.not_mem_nil, fun _ => rfl⟩⟩
  | cons p entries ih =>
    obtain ⟨key, inner⟩ := p
    obtain ⟨hnew, hnodup⟩ := List.nodup_cons.mp hnodup
    obtain ⟨values, hvalues, hdb⟩ := ih (fun p hp => hfits p (List.mem_cons_of_mem _ hp)) hnodup
    have hlen : Fits inner := hfits (key, inner) List.mem_cons_self
    obtain ⟨value, hvalue⟩ : ∃ value, serializeInnerDict inner = some value := ⟨_, if_pos hlen⟩
    refine ⟨(key, value) :: values, by rw [records, hvalue, hvalues], fun db k => ⟨fun inner' hmem => ?_, ?_⟩⟩
    · rcases List.mem_cons.mp hmem with heq | hmem
      · obtain ⟨rfl, rfl⟩ := Prod.mk.inj heq
        refine ⟨value, ?_, innerDict_roundTrip hvalue⟩
        rw [List.foldl_cons, (hdb _ k).2 hnew, Dict.get?_set, if_pos rfl]
      · exact (hdb _ k).1 inner' hmem
    · intro hk
      rw [List.map_cons, List.mem_cons, not_or] at hk
      rw [List.foldl_cons, (hdb _ k).2 hk.2, Dict.get?_set, if_neg (Ne.symm hk.1)]

/-- What has been saved can be read back. -/
theorem saveToLmdb_spec {keys : List Key} {saved : List (Key × Inner)} (h : Holds keys saved self spec)
    (hrtdb : self.rtdb = true) :
    ∃ db, self.saveToLmdb saved = some { self with edgesdb := db } ∧
      Holds keys [] { self with edgesdb := db } spec := by
  obtain ⟨values, hvalues, hdb⟩ := records_spec (fun p hp => (h.saved_spilled p hp).2) h.saved_nodup
  obtain ⟨db', hdb'⟩ : ∃ db', values.foldl (fun (db : Dict Key (List Nat)) p => db.set p.1 p.2)
      (self.edgesdb.getD []) = db' := ⟨_, rfl⟩
  refine ⟨some db', by rw [saveToLmdb, if_pos hrtdb, hvalues, ← hdb']; rfl, ?_⟩
  have hrecord : ∀ k, k ∉ saved.map Prod.fst → { self with edgesdb := some db' : SpillingAdjDict }.record? k =
      self.record? k := by
    intro k hk
    unfold record?
    dsimp only [Option.getD_some]
    rw [← hdb', (hdb (self.edgesdb.getD []) k).2 hk]
  refine { h with cached := fun k entry hk => ?_, spilled := fun k hk => ?_, saved_spilled := ?_, saved_nodup := ?_ }
  · obtain ⟨hspec, hfits, hclean⟩ := h.cached k entry hk
    refine ⟨hspec, hfits, fun hdirty hr => ?_⟩
    rw [hrecord k, hclean hdirty hr]
    intro hmem
    obtain ⟨p, hp, rfl⟩ := List.mem_map.mp hmem
    exact h.apart p.1 (h.saved_spilled p hp).1 (OrderedDict.mem_keys_of_get? hk)
  · obtain ⟨inner, hspec, hfits, hmem | ⟨hnot, hr⟩⟩ := h.spilled k hk
    · refine ⟨inner, hspec, hfits, .inr ⟨List.not_mem_nil, ?_⟩⟩
      obtain ⟨value, hget, hvalue⟩ := (hdb (self.edgesdb.getD []) k).1 inner hmem
      unfold record?
      dsimp only [Option.getD_some]
      rw [← hdb', hget]
      exact hvalue
    · exact ⟨inner, hspec, hfits, .inr ⟨List.not_mem_nil, (hrecord k hnot).trans hr⟩⟩
  · exact fun p hp => absurd hp List.not_mem_nil
  · exact List.nodup_nil

theorem evictN_spec (h : Inv self spec) (n : Nat) :
    ∃ evicted self', self.evictN n = some (evicted, self') ∧ Inv self' spec ∧ SameConfig self self' ∧
      evicted + self'.data.len = self.data.len ∧
      ∀ key, Recent key self → n + 1 ≤ self.data.len → Recent key self' := by
  unfold evictN
  split
  · exact ⟨0, self, rfl, h, .refl, Nat.zero_add _, fun _ hr _ => hr⟩
  rename_i hrtdb
  have hrtdb : self.rtdb = true := not_not.mp hrtdb
  split
  · exact ⟨0, self, rfl, h, .refl, Nat.zero_add _, fun _ hr _ => hr⟩
  obtain ⟨hholds, hconfig, hlen⟩ := @scan_spec self spec n self.lruOrder 0 [] h.toHolds hrtdb
  have hrecent : ∀ key, Recent key self → n + 1 ≤ self.data.len →
      Recent key (scan n self.lruOrder 0 [] self).2.2 := by
    rintro key ⟨hcached, front, hfront⟩ hn
    have hkeys := h.keys_cached hrtdb
    have hnodup := h.keys_nodup
    rw [hfront] at hkeys hnodup ⊢
    refine scan_recent hcached hkeys (fun hmem => ?_) (by omega)
    exact (List.nodup_append.mp hnodup).2.2 key hmem key List.mem_cons_self rfl
  generalize scan n self.lruOrder 0 [] self = r at hholds hconfig hlen hrecent ⊢
  obtain ⟨evicted, saved, self'⟩ := r
  dsimp only at hholds hconfig hlen hrecent ⊢
  rw [Nat.zero_add] at hlen
  have hrtdb' : self'.rtdb = true := hconfig.rtdb.trans hrtdb
  have hno : self'.rtdb = false → self'.spilledKeys = ∅ := fun hf => by simp [hrtdb'] at hf
  have hpos : 1 ≤ self'.cacheLimit := hconfig.cacheLimit ▸ h.limit_pos
  split
  · rename_i hsaved
    subst hsaved
    exact ⟨evicted, self', rfl, ⟨hholds, hno, hpos⟩, hconfig, hlen, hrecent⟩
  · obtain ⟨db, hsave, hholds⟩ := saveToLmdb_spec hholds hrtdb'
    exact ⟨evicted, { self' with edgesdb := db }, by rw [hsave]; rfl, ⟨hholds, hno, hpos⟩,
      ⟨hconfig.1, hconfig.2, hconfig.3, hconfig.4⟩, hlen, hrecent⟩

/-- Eviction keeps the entries, and the key that was used last in memory. -/
theorem evictLru_spec (h : Inv self spec) (rounds : Nat) :
    ∃ self', evictLru rounds self = some self' ∧ Inv self' spec ∧ SameConfig self self' ∧
      ∀ key, Recent key self → Recent key self' := by
  induction rounds generalizing self with
  | zero => exact ⟨self, rfl, h, .refl, fun _ hr => hr⟩
  | succ rounds ih =>
    rw [evictLru]
    split
    · exact ⟨self, rfl, h, .refl, fun _ hr => hr⟩
    rename_i hfull
    have hfull : self.cacheLimit + self.dbBatchSize < self.data.len := not_not.mp hfull
    have hpos := h.limit_pos
    obtain ⟨evicted, self₁, hn, h₁, hconfig₁, _, hrecent₁⟩ :=
      evictN_spec h (min self.dbBatchSize (self.data.len - self.cacheLimit))
    rw [hn]
    dsimp only
    split
    · exact ⟨self₁, rfl, h₁, hconfig₁, fun key hr => hrecent₁ key hr (by omega)⟩
    · obtain ⟨self₂, heq, h₂, hconfig₂, hrecent₂⟩ := ih h₁
      exact ⟨self₂, heq, h₂, hconfig₁.trans hconfig₂, fun key hr => hrecent₂ key (hrecent₁ key hr (by omega))⟩

/-- The loop of `_evict_lru` ends within as many rounds as there are entries. -/
theorem evictLru_rounds (h : Inv self spec) {rounds : Nat} (hrounds : self.data.len ≤ rounds) :
    evictLru (rounds + 1) self = evictLru rounds self := by
  induction rounds generalizing self with
  | zero =>
    have hfull : ¬ self.Full := by
      unfold Full
      omega
    rw [evictLru.eq_2, if_pos hfull, evictLru]
  | succ rounds ih =>
    obtain ⟨evicted, self₁, hn, h₁, -, hlen, -⟩ :=
      evictN_spec h (min self.dbBatchSize (self.data.len - self.cacheLimit))
    rw [evictLru.eq_2, evictLru.eq_2, hn]
    dsimp only
    by_cases hzero : evicted = 0
    · rw [if_pos hzero, if_pos hzero]
    · rw [if_neg hzero, if_neg hzero, ih h₁ (by omega)]

theorem evictIfFull_spec (h : Inv self spec) :
    ∃ self', self.evictIfFull = some self' ∧ Inv self' spec ∧ SameConfig self self' ∧
      ∀ key, Recent key self → Recent key self' := by
  unfold evictIfFull
  split
  · exact evictLru_spec h _
  · exact ⟨self, rfl, h, .refl, fun _ hr => hr⟩

end Angr.SpillingAdjDict
