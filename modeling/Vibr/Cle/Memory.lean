import Vibr.Lib.Bisect

/-!
# Clemory

`cle/memory.py`, for backers that are byte arrays or other memories. A child memory is
complete when it is added: its parent keeps what it has derived from it. Addresses are
integers, since a child is asked for addresses relative to its place, which can be
negative.

A byte array that a store changes is a leaf of the tree here, and the changed tree is
returned.
-/

namespace Cle

open Bisect

/-- A backer and the address where it starts: a byte array, or a memory with the
attributes it had when it was added. -/
inductive Backer where
  | bytes (start : Int) (data : List UInt8)
  | clemory (start : Int) (consecutive : Bool) (minAddr maxAddr : Int) (backers : List Backer)

namespace Backer

def start : Backer → Int
  | .bytes start _ | .clemory start _ _ _ _ => start

/-- `calculate_end` -/
def calculateEnd : Backer → Int
  | .bytes start data => start + data.length
  | .clemory start _ _ maxAddr _ => start + maxAddr

end Backer

structure Clemory where
  root : Bool := false
  consecutive : Bool := true
  minAddr : Int := 0
  maxAddr : Int := 0
  backers : List Backer := []

/-- The exceptions that adding and removing backers can end in. -/
inductive Raised where
  | ValueError
  | AssertionError
deriving DecidableEq

/-! ## Derived attributes -/

/-- The variables of the loop of `_update_min_max`. -/
structure MinMax where
  isConsecutive : Bool := true
  nextStart : Option Int := none
  minAddr : Option Int := none
  maxAddr : Option Int := none

def MinMax.visit (s : MinMax) (backer : Backer) : MinMax :=
  { isConsecutive := s.isConsecutive && (s.nextStart = none ∨ s.nextStart = some backer.start) &&
      match backer with
      | .bytes _ _ => true
      | .clemory _ consecutive minAddr _ _ => ¬ minAddr > 0 && consecutive
    nextStart := some backer.calculateEnd
    minAddr := some (s.minAddr.getD backer.start)
    maxAddr := match s.maxAddr with
      | none => some backer.calculateEnd
      | some maxAddr => some (if backer.calculateEnd > maxAddr then backer.calculateEnd else maxAddr) }

/-- `_update_min_max`; it fails its assertions without backers. -/
def Clemory.updateMinMax (self : Clemory) : Except Raised Clemory :=
  let s := self.backers.foldl MinMax.visit {}
  match s.minAddr, s.maxAddr with
  | some minAddr, some maxAddr => .ok { self with consecutive := s.isConsecutive, minAddr, maxAddr }
  | _, _ => .error .AssertionError

/-! ## Indexing -/

mutual

def Backer.getItem (k : Int) : Backer → Option UInt8
  | .bytes start data => if 0 ≤ k - start ∧ k - start < data.length then data[(k - start).toNat]? else none
  | .clemory start _ minAddr maxAddr backers =>
    if minAddr ≤ k - start ∧ k - start < maxAddr then getItemIn (k - start) backers else none

/-- The loop of `__getitem__`; a child that raises `KeyError` is passed over. -/
@[grind =] def getItemIn (k : Int) : List Backer → Option UInt8
  | [] => none
  | backer :: rest => (backer.getItem k).or (getItemIn k rest)

end

/-- `__getitem__`; `none` where it raises `KeyError`. -/
def Clemory.getItem (self : Clemory) (k : Int) : Option UInt8 := getItemIn k self.backers

/-- `__contains__` -/
def Clemory.contains (self : Clemory) (k : Int) : Bool :=
  if self.consecutive then self.minAddr ≤ k ∧ k < self.maxAddr
  else if self.backers.isEmpty then false
  else if k < self.minAddr ∨ k ≥ self.maxAddr then false
  else (self.getItem k).isSome

/-! ## Loading and storing -/

mutual

/-- What `backers` yields for one backer: byte arrays and where they start. -/
def Backer.iterFrom (addr : Int) : Backer → List (Int × List UInt8)
  | .bytes start data => [(start, data)]
  | .clemory start _ _ maxAddr backers =>
    if maxAddr < addr - start then []
    else
      (iterFromIndex (addr - start) (bisect (backers.map Backer.calculateEnd) (addr - start)) backers).map
        fun l => (l.1 + start, l.2)

/-- The loop of `backers`, past the first `index` backers. -/
@[grind =] def iterFromIndex (addr : Int) : (index : Nat) → List Backer → List (Int × List UInt8)
  | _, [] => []
  | index + 1, _ :: rest => iterFromIndex addr index rest
  | 0, backer :: rest => backer.iterFrom addr ++ iterFromIndex addr 0 rest

end

/-- `backers` -/
def Clemory.backersFrom (self : Clemory) (addr : Int) : List (Int × List UInt8) :=
  if self.maxAddr < addr then []
  else iterFromIndex addr (bisect (self.backers.map Backer.calculateEnd) addr) self.backers

/-- `backer[offset : offset + n]` -/
def slice (backer : List UInt8) (offset n : Int) : List UInt8 := (backer.drop offset.toNat).take n.toNat

@[grind =] def loadLoop (addr n : Int) (views : List (List UInt8)) : List (Int × List UInt8) → Option (List UInt8)
  | [] => if views = [] then none else some views.flatten
  | (start, backer) :: rest =>
    if start > addr then if views = [] then none else some views.flatten
    else
      let offset := addr - start
      if views = [] ∧ offset + n < backer.length then some (slice backer offset n)
      else
        let size := backer.length - offset
        let views := views ++ [slice backer offset n]
        if n - size ≤ 0 then some views.flatten else loadLoop (addr + size) (n - size) views rest

/-- `load`; `none` where it raises `KeyError`. -/
def Clemory.load (self : Clemory) (addr : Int) (n : Nat) : Option (List UInt8) :=
  loadLoop addr n [] (self.backersFrom addr)

/-- How far a store has come: at an address with data left, or done, or it has raised
`KeyError`. -/
inductive Progress where
  | running (addr : Int) (data : List UInt8)
  | finished
  | failed
deriving DecidableEq

/-- Python's `data[:size]` and `data[size:]`, also for a negative size. -/
def cut (data : List UInt8) (size : Int) : Nat :=
  if 0 ≤ size then size.toNat else data.length - (-size).toNat

/-- `backer[offset : offset + n] = new` -/
def setSlice (backer : List UInt8) (offset n : Nat) (new : List UInt8) : List UInt8 :=
  backer.take offset ++ new ++ backer.drop (offset + n)

/-- The loop body of `store`. -/
def storeBytes (start : Int) (backer : List UInt8) : Progress → List UInt8 × Progress
  | .running addr data =>
    if start > addr then (backer, .failed)
    else
      let offset := addr - start
      let size := backer.length - offset
      let new := if data.length ≤ size then data else data.take (cut data size)
      let rest := data.drop (cut data size)
      (setSlice backer offset.toNat data.length new,
        if rest = [] then .finished else .running (addr + size) rest)
  | progress => (backer, progress)

mutual

/-- A store to what `backers` yields for one backer, whose memory lies at `base`. -/
def Backer.store (base addr : Int) (progress : Progress) : Backer → Backer × Progress
  | .bytes start data =>
    let (data, progress) := storeBytes (base + start) data progress
    (.bytes start data, progress)
  | .clemory start consecutive minAddr maxAddr backers =>
    if maxAddr < addr - start then (.clemory start consecutive minAddr maxAddr backers, progress)
    else
      let (backers, progress) := storeFromIndex (base + start) (addr - start) progress
        (bisect (backers.map Backer.calculateEnd) (addr - start)) backers
      (.clemory start consecutive minAddr maxAddr backers, progress)

@[grind =] def storeFromIndex (base addr : Int) (progress : Progress) :
    (index : Nat) → List Backer → List Backer × Progress
  | _, [] => ([], progress)
  | index + 1, backer :: rest =>
    let (rest, progress) := storeFromIndex base addr progress index rest
    (backer :: rest, progress)
  | 0, backer :: rest =>
    let (backer, progress) := backer.store base addr progress
    let (rest, progress) := storeFromIndex base addr progress 0 rest
    (backer :: rest, progress)

end

/-- `store`: the memory, and whether it returns; it raises `KeyError` otherwise, with what
came before stored. -/
def Clemory.store (self : Clemory) (addr : Int) (data : List UInt8) : Clemory × Bool :=
  let (backers, progress) :=
    if self.maxAddr < addr then (self.backers, .running addr data)
    else storeFromIndex 0 addr (.running addr data)
      (bisect (self.backers.map Backer.calculateEnd) addr) self.backers
  ({ self with backers }, match progress with
    | .running _ data => data.isEmpty
    | .finished => true
    | .failed => false)

/-! ## Adding backers -/

namespace Clemory

variable (self : Clemory)

/-- `bisect.insort` by the start, then `_update_min_max`. -/
def insort (backer : Backer) : Except Raised Clemory :=
  let i := bisect (self.backers.map Backer.start) backer.start
  { self with backers := self.backers.take i ++ backer :: self.backers.drop i }.updateMinMax

/-- `add_backer` of a backer that is neither empty nor a root. -/
def addBacker (backer : Backer) : Except Raised Clemory :=
  match (self.backersFrom backer.start).head? with
  | some (existing, _) => if existing ≤ backer.start then .error .ValueError else self.insort backer
  | none => self.insort backer

def addBytes (start : Int) (data : List UInt8) : Except Raised Clemory :=
  if data = [] then .error .ValueError else self.addBacker (.bytes start data)

def addClemory (start : Int) (data : Clemory) : Except Raised Clemory :=
  if data.root then .error .ValueError
  else self.addBacker (.clemory start data.consecutive data.minAddr data.maxAddr data.backers)

/-- `remove_backer`: the place that is looked at is the one after the backer. -/
def removeBacker (start : Int) : Except Raised Clemory :=
  let i := bisect (self.backers.map Backer.start) start
  match self.backers[i]? with
  | none => .error .ValueError
  | some backer =>
    if backer.start ≠ start then .error .ValueError
    else { self with backers := self.backers.eraseIdx i }.updateMinMax

def splitBacker (addr : Int) : Except Raised Clemory :=
  match (self.backersFrom addr).head? with
  | none => .ok self
  | some (startAddr, backer) =>
    if addr ≤ startAddr then .ok self
    else if addr ≥ startAddr + backer.length then .ok self
    else do
      let self ← self.removeBacker startAddr
      let self ← self.addBytes startAddr (backer.take (addr - startAddr).toNat)
      self.addBytes addr (backer.drop (addr - startAddr).toNat)

/-- `add_backer` with `overwrite=True` -/
def overwriteBytes (start : Int) (data : List UInt8) : Except Raised Clemory :=
  if data = [] then .error .ValueError
  else do
    let self ← self.splitBacker start
    let self ← self.splitBacker (start + data.length)
    let self ← match self.removeBacker start with
      | .error .ValueError => .ok self
      | result => result
    let self ← match (self.backersFrom (start + data.length)).head? with
      | none => .ok self
      | some (existing, _) =>
        if existing < start + data.length then self.removeBacker existing else .ok self
    self.insort (.bytes start data)

end Clemory
end Cle
