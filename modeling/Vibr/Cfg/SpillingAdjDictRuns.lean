import Mathlib
import Vibr.Cfg.SpillingAdjDictOps
import Vibr.Lib.Runs

/-!
# Runs of spilling adjacency dictionaries

A run creates dictionaries, works on them, and copies and pickles them. Beside them it
does the same to plain dictionaries of dictionaries.
-/

namespace Angr.SpillingAdjDict

variable {self : SpillingAdjDict} {spec : OrderedDict Key Inner} {key : Key}

/-- What can be seen of a dictionary is what can be seen of the plain one. -/
structure SameContents (d : SpillingAdjDict) (spec : OrderedDict Key Inner) : Prop where
  get : ∀ key, ∃ result d', d.getItem key = some (result, d') ∧ result.map DirtyDict.inner = spec.get? key
  contains : ∀ key, d.contains key = true ↔ key ∈ spec.keys
  len : d.len = spec.len
  iter : d.iter = spec.keys

theorem Inv.iter_eq (h : Inv self spec) : self.iter = spec.keys := by
  ext k
  rw [iter, Finset.mem_union]
  constructor
  · rintro (hk | hk)
    · obtain ⟨entry, hentry⟩ := Option.isSome_iff_exists.mp (OrderedDict.get?_isSome.mpr hk)
      exact OrderedDict.mem_keys_of_get? (h.cached k entry hentry).1
    · obtain ⟨inner, hspec, -⟩ := h.spilled k hk
      exact OrderedDict.mem_keys_of_get? hspec
  · exact h.complete k

theorem Inv.sameContents (h : Inv self spec) : SameContents self spec where
  get key := by
    obtain ⟨result, self', heq, hresult, -⟩ := getItem_spec h key
    exact ⟨result, self', heq, hresult⟩
  contains key := by
    rw [← h.iter_eq, iter, Finset.mem_union, contains, decide_eq_true_iff]
  len := by
    have hdisj : Disjoint self.data.keys self.spilledKeys :=
      Finset.disjoint_left.mpr fun k hdata hspilled => h.apart k hspilled hdata
    rw [← OrderedDict.keys_card, ← h.iter_eq, iter, Finset.card_union_of_disjoint hdisj, OrderedDict.keys_card]
    rfl
  iter := h.iter_eq

/-! ## Worlds of dictionaries -/

/-- Operations name dictionaries by the order of their creation. -/
inductive Op
  | new (cacheLimit dbBatchSize : Nat) (rtdb : Bool)
  | get (i : Nat) (key : Key)
  | set (i : Nat) (key : Key) (value : DirtyDict)
  | setEdge (i : Nat) (key dst : Key) (edgeData : EdgeData)
  | delEdge (i : Nat) (key dst : Key)
  | del (i : Nat) (key : Key)
  | evictAll (i : Nat)
  | loadAll (i : Nat) (order : Enumeration Key)
  | copy (i : Nat)
  | pickle (i : Nat) (order : Enumeration Key)

/-- The dictionaries, or `none` once something other than a `KeyError` has been raised, and
their plain counterparts. -/
structure World where
  dicts : Option (List SpillingAdjDict)
  specs : List (OrderedDict Key Inner)

namespace World

def start : World := ⟨some [], []⟩

/-- An operation on one dictionary. -/
def onDict (ds : List SpillingAdjDict) (i : Nat) (f : SpillingAdjDict → Option SpillingAdjDict) :
    Option (List SpillingAdjDict) :=
  match ds[i]? with
  | none => some ds
  | some d => (f d).map (ds.set i)

def stepDicts (ds : List SpillingAdjDict) : Op → Option (List SpillingAdjDict)
  | .new cacheLimit dbBatchSize rtdb =>
    some (ds ++ [{ cacheLimit := cacheLimit, dbBatchSize := dbBatchSize, rtdb := rtdb }])
  | .get i key => onDict ds i fun d => (d.getItem key).map Prod.snd
  | .set i key value => onDict ds i fun d => d.setItem key value
  | .setEdge i key dst edgeData => onDict ds i fun d => d.setEdge key dst edgeData
  | .delEdge i key dst => onDict ds i fun d => d.delEdge key dst
  | .del i key => onDict ds i fun d => some (d.delItem key)
  | .evictAll i => onDict ds i fun d => d.evictAllCached
  | .loadAll i order => onDict ds i fun d => d.loadAllSpilled order.list
  | .copy i =>
    match ds[i]? with
    | none => some ds
    | some d => some (ds ++ [d.copy])
  | .pickle i order =>
    match ds[i]? with
    | none => some ds
    | some d => (d.pickle order.list).map fun p => ds.set i p.2 ++ [p.1]

/-- The same operation on plain dictionaries. -/
def stepSpecs (specs : List (OrderedDict Key Inner)) : Op → List (OrderedDict Key Inner)
  | .new _ _ _ => specs ++ [.empty]
  | .set i key value => specs.modify i fun spec => spec.put key value.inner
  | .setEdge i key dst edgeData =>
    specs.modify i fun spec => changeSpec spec key fun inner => some (inner.put dst edgeData)
  | .delEdge i key dst =>
    specs.modify i fun spec => changeSpec spec key fun inner =>
      if dst ∈ inner.keys then some (inner.erase dst) else none
  | .del i key => specs.modify i fun spec => spec.erase key
  | .copy i | .pickle i _ => specs ++ specs[i]?.toList
  | .get _ _ | .evictAll _ | .loadAll _ _ => specs

def step (w : World) (op : Op) : World :=
  ⟨w.dicts.bind fun ds => stepDicts ds op, stepSpecs w.specs op⟩

/-- Caches hold at least one entry. -/
def Allowed : Op → Prop
  | .new cacheLimit _ _ => 1 ≤ cacheLimit
  | _ => True

/-- The steps that lose nothing: no inner dictionary is too long for a record, and only what
is marked dirty, or in the store already, is stored. -/
def Admissible (w : World) : Op → Prop
  | .new cacheLimit _ _ => 1 ≤ cacheLimit
  | .set i key value => Fits value.inner ∧ ∀ d ∈ (w.dicts.getD [])[i]?, d.Safe key value
  | .setEdge i key dst edgeData =>
    ∀ spec ∈ w.specs[i]?, ∀ inner ∈ spec.get? key, Fits (inner.put dst edgeData)
  | _ => True

/-- The dictionaries have the entries of their counterparts. -/
def Agree (ds : List SpillingAdjDict) (specs : List (OrderedDict Key Inner)) : Prop :=
  ds.length = specs.length ∧ ∀ (i : Nat) d spec, ds[i]? = some d → specs[i]? = some spec → Inv d spec

variable {w : World} {ds : List SpillingAdjDict} {specs : List (OrderedDict Key Inner)} {i : Nat}
variable {d : SpillingAdjDict}

theorem Agree.append (h : Agree ds specs) (hd : Inv d spec) : Agree (ds ++ [d]) (specs ++ [spec]) := by
  refine ⟨by simp [h.1], fun j d' spec' hj hj' => ?_⟩
  rw [List.getElem?_append] at hj hj'
  rw [← h.1] at hj'
  split at hj
  · rename_i hlt
    rw [if_pos hlt] at hj'
    exact h.2 j d' spec' hj hj'
  rename_i hge
  rw [if_neg hge] at hj'
  rw [List.getElem?_singleton] at hj hj'
  split at hj
  · rename_i heq
    rw [if_pos heq] at hj'
    rw [← Option.some.inj hj, ← Option.some.inj hj']
    exact hd
  · cases hj

theorem Agree.set {g : OrderedDict Key Inner → OrderedDict Key Inner} (h : Agree ds specs)
    (hd : ∀ spec, specs[i]? = some spec → Inv d (g spec)) : Agree (ds.set i d) (specs.modify i g) := by
  refine ⟨by simp [h.1], fun j d' spec' hj hj' => ?_⟩
  rw [List.getElem?_set] at hj
  rw [List.getElem?_modify, Option.map_eq_map, Option.map_eq_some_iff] at hj'
  obtain ⟨spec, hspec, rfl⟩ := hj'
  split at hj
  · rename_i heq
    subst heq
    rw [if_pos rfl]
    split at hj
    · rw [← Option.some.inj hj]
      exact hd spec hspec
    · cases hj
  · rename_i hne
    rw [if_neg hne]
    exact h.2 j d' spec hj hspec

theorem Agree.get (h : Agree ds specs) (hd : ds[i]? = some d) : ∃ spec, specs[i]? = some spec ∧ Inv d spec := by
  obtain ⟨hlt, -⟩ := List.getElem?_eq_some_iff.mp hd
  have hspec : specs[i]? = some (specs.get ⟨i, h.1 ▸ hlt⟩) := List.getElem?_eq_getElem (h.1 ▸ hlt)
  exact ⟨_, hspec, h.2 i d _ hd hspec⟩

/-- An operation on one dictionary that does what its counterpart does. -/
theorem Agree.onDict {f : SpillingAdjDict → Option SpillingAdjDict}
    {g : OrderedDict Key Inner → OrderedDict Key Inner} (h : Agree ds specs)
    (hf : ∀ d spec, ds[i]? = some d → specs[i]? = some spec → Inv d spec → ∃ d', f d = some d' ∧ Inv d' (g spec)) :
    ∃ ds', onDict ds i f = some ds' ∧ Agree ds' (specs.modify i g) := by
  unfold World.onDict
  split
  · rename_i hnone
    have hlen : specs.length ≤ i := h.1 ▸ List.getElem?_eq_none_iff.mp hnone
    rw [List.modify_eq_self hlen]
    exact ⟨ds, rfl, h⟩
  rename_i d hd
  obtain ⟨spec, hspec, hinv⟩ := h.get hd
  obtain ⟨d', hd', hinv'⟩ := hf d spec hd hspec hinv
  refine ⟨ds.set i d', by rw [hd']; rfl, h.set fun spec' hspec' => ?_⟩
  rw [hspec] at hspec'
  exact Option.some.inj hspec' ▸ hinv'

/-- An operation that only moves entries between memory and store. -/
theorem Agree.onDict_same {f : SpillingAdjDict → Option SpillingAdjDict} (h : Agree ds specs)
    (hf : ∀ d spec, Inv d spec → ∃ d', f d = some d' ∧ Inv d' spec) :
    ∃ ds', World.onDict ds i f = some ds' ∧ Agree ds' specs := by
  have hsame := @Agree.onDict ds specs i f id h fun d spec _ _ hinv => hf d spec hinv
  rwa [List.modify_id] at hsame

theorem inv_new {cacheLimit dbBatchSize : Nat} {rtdb : Bool} (h : 1 ≤ cacheLimit) :
    Inv { cacheLimit := cacheLimit, dbBatchSize := dbBatchSize, rtdb := rtdb } .empty where
  apart := fun k hk => absurd hk (Finset.notMem_empty k)
  cached := fun k entry hk => by cases hk
  spilled := fun k hk => absurd hk (Finset.notMem_empty k)
  complete := fun k hk => absurd hk (Finset.notMem_empty k)
  saved_spilled := fun p hp => absurd hp List.not_mem_nil
  saved_nodup := List.nodup_nil
  keys_nodup := List.nodup_nil
  keys_cached := fun _ k hk => absurd hk (Finset.notMem_empty k)
  no_store := fun _ => rfl
  limit_pos := h

theorem fits_of_inv (h : Inv self spec) {inner : Inner} (hkey : spec.get? key = some inner) : Fits inner := by
  rcases h.complete key (OrderedDict.mem_keys_of_get? hkey) with hmem | hmem
  · obtain ⟨entry, hentry⟩ := Option.isSome_iff_exists.mp (OrderedDict.get?_isSome.mpr hmem)
    obtain ⟨hspec, hfits, -⟩ := h.cached key entry hentry
    rw [hkey] at hspec
    exact Option.some.inj hspec ▸ hfits
  · obtain ⟨inner', hspec, hfits, -⟩ := h.spilled key hmem
    rw [hkey] at hspec
    exact Option.some.inj hspec ▸ hfits

theorem stepDicts_spec (hds : w.dicts = some ds) (h : Agree ds w.specs) {op : Op} (hop : Admissible w op) :
    ∃ ds', stepDicts ds op = some ds' ∧ Agree ds' (stepSpecs w.specs op) := by
  cases op with
  | new cacheLimit dbBatchSize rtdb => exact ⟨_, rfl, h.append (inv_new hop)⟩
  | get i key =>
    refine h.onDict_same fun d spec hinv => ?_
    obtain ⟨result, d', heq, -, hinv', -⟩ := getItem_spec hinv key
    exact ⟨d', by rw [heq]; rfl, hinv'⟩
  | set i key value =>
    refine h.onDict fun d spec hd _ hinv => ?_
    rw [Admissible, hds] at hop
    exact setItem_spec hinv hop.1 (hop.2 d hd)
  | setEdge i key dst edgeData =>
    refine h.onDict fun d spec _ hspec hinv => change_spec hinv fun inner' hinner' => ?_
    obtain ⟨inner, hinner, heq⟩ := Option.bind_eq_some_iff.mp hinner'
    exact Option.some.inj heq ▸ hop spec hspec inner hinner
  | delEdge i key dst =>
    refine h.onDict fun d spec _ hspec hinv => change_spec hinv fun inner' hinner' => ?_
    obtain ⟨inner, hinner, heq⟩ := Option.bind_eq_some_iff.mp hinner'
    split at heq
    · rw [← Option.some.inj heq]
      exact Nat.lt_of_le_of_lt OrderedDict.len_erase_le (fits_of_inv hinv hinner)
    · cases heq
  | del i key => exact h.onDict fun d spec _ _ hinv => ⟨_, rfl, delItem_spec hinv key⟩
  | evictAll i => exact h.onDict_same fun d spec hinv => evictAllCached_spec hinv
  | loadAll i order =>
    refine h.onDict_same fun d spec hinv => ?_
    obtain ⟨d', heq, hinv', -⟩ := loadAllSpilled_spec order hinv
    exact ⟨d', heq, hinv'⟩
  | copy i =>
    unfold stepDicts stepSpecs
    dsimp only
    cases hd : ds[i]? with
    | none =>
      rw [List.getElem?_eq_none (h.1 ▸ List.getElem?_eq_none_iff.mp hd)]
      exact ⟨ds, rfl, by rwa [Option.toList_none, List.append_nil]⟩
    | some d =>
      obtain ⟨spec, hspec, hinv⟩ := h.get hd
      rw [hspec]
      exact ⟨_, rfl, h.append (copy_spec hinv)⟩
  | pickle i order =>
    unfold stepDicts stepSpecs
    dsimp only
    cases hd : ds[i]? with
    | none =>
      rw [List.getElem?_eq_none (h.1 ▸ List.getElem?_eq_none_iff.mp hd)]
      exact ⟨ds, rfl, by rwa [Option.toList_none, List.append_nil]⟩
    | some d =>
      obtain ⟨spec, hspec, hinv⟩ := h.get hd
      obtain ⟨new, d', heq, hnew, hinv'⟩ := pickle_spec order hinv
      have hset : Agree (ds.set i d') (w.specs.modify i id) := by
        refine h.set fun spec' hspec' => ?_
        rw [hspec] at hspec'
        exact Option.some.inj hspec' ▸ hinv'
      rw [List.modify_id] at hset
      rw [hspec]
      exact ⟨_, by dsimp only; rw [heq]; rfl, hset.append hnew⟩

/-- In every run of such steps nothing is raised, and the dictionaries have the contents of
their plain counterparts. -/
theorem spilling_refines_plain (h : Runs.Reach step Admissible start w) :
    ∃ ds, w.dicts = some ds ∧ ds.length = w.specs.length ∧
      ∀ (i : Nat) d spec, ds[i]? = some d → w.specs[i]? = some spec → SameContents d spec := by
  have hagree : ∃ ds, w.dicts = some ds ∧ Agree ds w.specs := by
    refine h.invariant (fun w => ∃ ds, w.dicts = some ds ∧ Agree ds w.specs) ?_ ?_
    · exact ⟨[], rfl, rfl, fun i d spec hd => by simp at hd⟩
    · rintro w op ⟨ds, hds, hagree⟩ hop
      obtain ⟨ds', hstep, hagree'⟩ := stepDicts_spec hds hagree hop
      exact ⟨ds', by rw [step, hds]; exact hstep, hagree'⟩
  obtain ⟨ds, hds, hlen, hinv⟩ := hagree
  exact ⟨ds, hds, hlen, fun i d spec hd hspec => (hinv i d spec hd hspec).sameContents⟩

/-- A block. -/
def blockKey : Key := ((0x400000#64).toFin, (10#16).toFin)

/-- The edges of the block. -/
def blockEdges : Inner :=
  OrderedDict.empty.put ((0x400010#64).toFin, (8#16).toFin) ⟨some .Boring, some ⟨(0x400008#64).toFin, by decide⟩, none⟩

/-- A cache of one entry gets three. -/
def markedRun : List Op :=
  [.new 1 1 true, .set 0 blockKey ⟨blockEdges, true⟩, .set 0 ((0x400010#64).toFin, (8#16).toFin) ⟨.empty, true⟩,
    .set 0 ((0x400020#64).toFin, (8#16).toFin) ⟨.empty, true⟩]

theorem marked_entries_kept :
    ∃ d, (markedRun.foldl step start).dicts = some [d] ∧ d.spilledKeys = {blockKey} ∧
      ∃ spec, (markedRun.foldl step start).specs = [spec] ∧ spec.get? blockKey = some blockEdges ∧
        SameContents d spec := by
  have hreach : Runs.Reach step Admissible start (markedRun.foldl step start) := by
    refine .tail (.tail (.tail (.tail .refl (Nat.le_refl 1)) ?_) ?_) ?_ <;>
      exact ⟨by decide, fun d _ => .inl rfl⟩
  obtain ⟨ds, hds, -, hsame⟩ := spilling_refines_plain hreach
  refine ⟨_, rfl, by decide, _, rfl, rfl, hsame 0 _ _ ?_ rfl⟩
  rw [← Option.some.inj hds]
  rfl

/-- A clean entry is stored and evicted. -/
def cleanRun : List Op := [.new 5 2 true, .set 0 blockKey ⟨blockEdges, false⟩, .evictAll 0]

theorem clean_entry_lost :
    Runs.Reach step (fun _ op => Allowed op) start (cleanRun.foldl step start) ∧
      ∃ d spec, (cleanRun.foldl step start).dicts = some [d] ∧ (cleanRun.foldl step start).specs = [spec] ∧
        ¬ SameContents d spec := by
  refine ⟨.tail (.tail (.tail .refl (Nat.le_add_left 1 4)) trivial) trivial, _, _, rfl, rfl, fun h => ?_⟩
  obtain ⟨result, d', hget, hresult⟩ := h.get blockKey
  have hnone : result = none := congrArg Prod.fst (Option.some.inj hget).symm
  rw [hnone] at hresult
  exact Option.some_ne_none blockEdges hresult.symm

end World

end Angr.SpillingAdjDict
