import Vibr.Cfg.EdgeRecord

/-!
# Spilling adjacency dictionaries

`SpillingAdjDict` keeps inner dictionaries in memory, in the order of their last use. With
a runtime database, entries beyond the cache limit are taken out of memory, the least
recently used ones first; those that are marked dirty are written to the database, and an
entry that is asked for is read back.

The store is a map from keys to records. Operations return `none` where the source raises
anything but the `KeyError` of a missing key.
-/

namespace Angr.SpillingAdjDict

/-- An inner dictionary and the mark that it has to be written. -/
structure DirtyDict where
  inner : Inner
  dirty : Bool

end Angr.SpillingAdjDict

namespace Angr

open SpillingAdjDict

/-- `rtdb` says whether a runtime database is attached, and `edgesdb` is the sub-database of
this dictionary, once it has been opened. -/
structure SpillingAdjDict where
  data : OrderedDict Key DirtyDict := .empty
  spilledKeys : Finset Key := ∅
  cacheLimit : Nat
  dbBatchSize : Nat
  rtdb : Bool
  lruOrder : List Key := []
  edgesdb : Option (Dict Key (List Nat)) := none
  evictionEnabled : Bool := true

namespace SpillingAdjDict

/-! ## Eviction -/

def touch (self : SpillingAdjDict) (key : Key) : SpillingAdjDict :=
  { self with lruOrder := self.lruOrder.erase key ++ [key] }

/-- The loop of `_evict_n` over the keys in the order of their last use; `saved` are the
entries that have to be written. -/
def scan (n : Nat) : List Key → (evicted : Nat) → (saved : List (Key × Inner)) → SpillingAdjDict →
    Nat × List (Key × Inner) × SpillingAdjDict
  | [], evicted, saved, self => (evicted, saved, { self with lruOrder := [] })
  | key :: keys, evicted, saved, self =>
    if n ≤ evicted then (evicted, saved, { self with lruOrder := key :: keys })
    else
      match self.data.get? key with
      | none => scan n keys evicted saved self
      | some entry =>
        scan n keys (evicted + 1) (if entry.dirty then saved ++ [(key, entry.inner)] else saved)
          { self with data := self.data.erase key, spilledKeys := insert key self.spilledKeys }

/-- The records of entries. -/
def records : List (Key × Inner) → Option (Dict Key (List Nat))
  | [] => some []
  | (key, inner) :: entries =>
    match serializeInnerDict inner, records entries with
    | some value, some rest => some ((key, value) :: rest)
    | _, _ => none

def saveToLmdb (self : SpillingAdjDict) (entries : List (Key × Inner)) : Option SpillingAdjDict :=
  if self.rtdb then
    (records entries).map fun values =>
      { self with edgesdb := some (values.foldl (fun (db : Dict Key (List Nat)) p => db.set p.1 p.2)
          (self.edgesdb.getD [])) }
  else some self

/-- The number of evicted entries is returned. -/
def evictN (self : SpillingAdjDict) (n : Nat) : Option (Nat × SpillingAdjDict) :=
  if ¬ self.rtdb then some (0, self)
  else if self.lruOrder = [] then some (0, self)
  else
    let (evicted, saved, self) := scan n self.lruOrder 0 [] self
    if saved = [] then some (evicted, self) else (self.saveToLmdb saved).map fun self => (evicted, self)

/-- The cache holds more entries than it may. -/
def Full (self : SpillingAdjDict) : Prop := self.cacheLimit + self.dbBatchSize < self.data.len

instance (self : SpillingAdjDict) : Decidable self.Full := inferInstanceAs (Decidable (_ < _))

/-- The loop of `_evict_lru`; each round but the last evicts an entry, so that the number of
entries bounds the number of rounds. -/
def evictLru : (rounds : Nat) → SpillingAdjDict → Option SpillingAdjDict
  | 0, self => some self
  | rounds + 1, self =>
    if ¬ self.Full then some self
    else
      match self.evictN (min self.dbBatchSize (self.data.len - self.cacheLimit)) with
      | none => none
      | some (evicted, self) => if evicted = 0 then some self else evictLru rounds self

def evictIfFull (self : SpillingAdjDict) : Option SpillingAdjDict :=
  if self.evictionEnabled ∧ self.Full then evictLru self.data.len self else some self

def onEntryStored (self : SpillingAdjDict) (key : Key) : Option SpillingAdjDict :=
  let self := self.touch key
  { self with spilledKeys := self.spilledKeys.erase key }.evictIfFull

/-! ## The mapping interface -/

/-- `none` for the entry means that there is no record. -/
def loadFromLmdb (self : SpillingAdjDict) (key : Key) : Option (Option DirtyDict × SpillingAdjDict) :=
  match self.edgesdb with
  | none => some (none, self)
  | some db =>
    if ¬ self.rtdb then some (none, self)
    else
      match db.get? key with
      | none => some (none, self)
      | some value =>
        match deserializeInnerDict value with
        | none => none
        | some inner =>
          let stored : SpillingAdjDict :=
            { self with
              spilledKeys := self.spilledKeys.erase key
              data := self.data.put key ⟨inner, false⟩ }
          ((stored.onEntryStored key).bind evictIfFull).map fun self => (some ⟨inner, false⟩, self)

/-- `__getitem__`; `none` for the entry is a `KeyError`. -/
def getItem (self : SpillingAdjDict) (key : Key) : Option (Option DirtyDict × SpillingAdjDict) :=
  match self.data.get? key with
  | some entry => some (some entry, self.touch key)
  | none => if key ∈ self.spilledKeys then self.loadFromLmdb key else some (none, self)

def setItem (self : SpillingAdjDict) (key : Key) (value : DirtyDict) : Option SpillingAdjDict :=
  { self with data := self.data.put key value }.onEntryStored key

/-- `__delitem__`, which does not raise for a missing key. -/
def delItem (self : SpillingAdjDict) (key : Key) : SpillingAdjDict :=
  { self with
    data := self.data.erase key
    spilledKeys := self.spilledKeys.erase key
    lruOrder := self.lruOrder.erase key }

def contains (self : SpillingAdjDict) (key : Key) : Bool := key ∈ self.data.keys ∨ key ∈ self.spilledKeys

def len (self : SpillingAdjDict) : Nat := self.data.len + self.spilledKeys.card

/-- The keys that `__iter__` yields. -/
def iter (self : SpillingAdjDict) : Finset Key := self.data.keys ∪ self.spilledKeys

/-- An inner dictionary is accessed and then changed; `f` is `none` where the change is a
`KeyError`. What is changed is the accessed object, which is no longer part of the
dictionary if it has been evicted at once. -/
def change (self : SpillingAdjDict) (key : Key) (f : Inner → Option Inner) : Option SpillingAdjDict :=
  (self.getItem key).map fun
    | (none, self) => self
    | (some entry, self) =>
      match f entry.inner with
      | none => self
      | some inner =>
        if key ∈ self.data.keys then { self with data := self.data.put key ⟨inner, true⟩ } else self

/-- `d[key][dst] = edgeData`. -/
def setEdge (self : SpillingAdjDict) (key dst : Key) (edgeData : EdgeData) : Option SpillingAdjDict :=
  self.change key fun inner => some (inner.put dst edgeData)

/-- `del d[key][dst]`. -/
def delEdge (self : SpillingAdjDict) (key dst : Key) : Option SpillingAdjDict :=
  self.change key fun inner => if dst ∈ inner.keys then some (inner.erase dst) else none

/-! ## Whole dictionaries -/

def evictAllCached (self : SpillingAdjDict) : Option SpillingAdjDict :=
  if self.data.entries = [] then some self else (self.evictN self.data.len).map Prod.snd

/-- The keys `keys` are loaded one after the other. -/
def loadKeys : List Key → SpillingAdjDict → Option SpillingAdjDict
  | [], self => some self
  | key :: keys, self =>
    match self.loadFromLmdb key with
    | none => none
    | some (_, self) => loadKeys keys self

variable (order : Finset Key → List Key)

/-- `order` is the order in which a set is iterated over. -/
def loadAllSpilled (self : SpillingAdjDict) : Option SpillingAdjDict :=
  if self.spilledKeys = ∅ then some self
  else
    (loadKeys (order self.spilledKeys) { self with evictionEnabled := false }).map fun loaded =>
      { loaded with evictionEnabled := self.evictionEnabled }

/-- The dictionary that comes out of a pickle, and the one that went into it. -/
def pickle (self : SpillingAdjDict) : Option (SpillingAdjDict × SpillingAdjDict) :=
  (self.loadAllSpilled order).map fun self =>
    ({ data := self.data.mapValues fun entry => ⟨entry.inner, true⟩
       cacheLimit := self.cacheLimit
       dbBatchSize := self.dbBatchSize
       rtdb := false }, self)

/-- `copy`. The records are copied in batches, whose size does not matter to the result. -/
def copy (self : SpillingAdjDict) : SpillingAdjDict :=
  let values := if self.rtdb then (self.edgesdb.getD []).restrict (· ∈ self.spilledKeys) else []
  { data := self.data.mapValues fun entry => ⟨entry.inner, true⟩
    lruOrder := self.data.entries.map Prod.fst
    cacheLimit := self.cacheLimit
    dbBatchSize := self.dbBatchSize
    rtdb := self.rtdb
    edgesdb := if values = [] then none else some values
    spilledKeys := values.keys }

end SpillingAdjDict

end Angr
