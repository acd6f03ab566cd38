import Mathlib.Data.Nat.Bitwise
import Vibr.Lib.Words

/-!
# SimHeapPTMalloc

`angr/state_plugins/heap/heap_ptmalloc.py`, with the chunk interface of `heap_freelist.py`.

A chunk is known by the address of its base. Its words are, from the base on: the size of the
chunk before it (if that one is free), its own size with the flag bits, and, in a free chunk,
the forward and the backward link; an allocated chunk has its payload from the third word on.
The sizes are stored big-endian, the links in the endness of the architecture. The last word
of the heap holds the flag for the last chunk.

Sizes and pointers are concrete here; memory that was never written holds arbitrary bytes.
`none` stands for a `SimHeapError`, and for a loop that is cut off. The mapping of pages is
left out.
-/

namespace Angr

def CHUNK_FLAGS_MASK : Nat := 0x07

def CHUNK_P_MASK : Nat := 0x01

/-- `w & ~mask`. -/
def andNot (w mask : Nat) : Nat := w - (w &&& mask)

structure HeapConfig where
  /-- `arch.bytes`. -/
  word : Nat
  /-- `arch.memory_endness`. -/
  bigEndian : Bool
  heapBase : Nat
  heapSize : Nat
  word_eq : word = 4 ∨ word = 8

namespace PTChunk

open Words

variable (c : HeapConfig) (m : Memory) (base : Nat)

def loadWord (addr : Nat) : Nat := load true c.word m addr

def storeWord (addr value : Nat) : Memory := store true c.word m addr value

def loadLink (addr : Nat) : Nat := load c.bigEndian c.word m addr

def storeLink (addr value : Nat) : Memory := store c.bigEndian c.word m addr value

def getSize : Nat := andNot (loadWord c m (base + c.word)) CHUNK_FLAGS_MASK

def setLeadingSize (size : Nat) : Memory :=
  let chunkFlags := loadWord c m (base + c.word) &&& CHUNK_FLAGS_MASK
  storeWord c m (base + c.word) (size ||| chunkFlags)

/-- `none` behind the last chunk. -/
def nextChunk : Option Nat :=
  let next := (base + getSize c m base) % 256 ^ c.word
  if c.heapBase + c.heapSize - 2 * c.word ≤ next then none else some next

def setPrevFreeness (isFree : Bool) : Memory :=
  let sizeField := loadWord c m (base + c.word)
  storeWord c m (base + c.word)
    (if isFree then andNot sizeField CHUNK_P_MASK else sizeField ||| CHUNK_P_MASK)

def isPrevFree : Bool := loadWord c m (base + c.word) &&& CHUNK_P_MASK = 0

/-- The freeness of the last chunk is in the last word of the heap. -/
def setFinalFreeness (isFree : Bool) : Memory :=
  storeWord c m (c.heapBase + c.heapSize - c.word)
    (if isFree then 256 ^ c.word - 1 - CHUNK_P_MASK else CHUNK_P_MASK)

def isFinalFree : Bool :=
  loadWord c m (c.heapBase + c.heapSize - c.word) &&& CHUNK_P_MASK = 0

def isFree : Bool :=
  match nextChunk c m base with
  | some next => isPrevFree c m next
  | none => isFinalFree c m

/-- The freeness of a chunk is a flag of the chunk after it. -/
def setFreeness (free : Bool) : Memory :=
  match nextChunk c m base with
  | some next => setPrevFreeness c m next free
  | none => setFinalFreeness c m free

/-- The hint is the freeness that the chunk is given. -/
def setSize (size : Nat) (hint : Option Bool) : Memory :=
  let m := setLeadingSize c m base size
  let next := nextChunk c m base
  let m :=
    match hint with
    | none => m
    | some free => setFreeness c m base free
  match next with
  | some next => if hint = some true ∨ isFree c m base then storeWord c m next size else m
  | none => m

def prevSize : Nat := andNot (loadWord c m base) CHUNK_FLAGS_MASK

def prevChunk : Option Nat :=
  if isPrevFree c m base then
    some ((base + 256 ^ c.word - prevSize c m base) % 256 ^ c.word)
  else none

def fwdChunk : Option Nat :=
  if isFree c m base then some (loadLink c m (base + 2 * c.word)) else none

def setFwdChunk (fwd : Nat) : Memory := storeLink c m (base + 2 * c.word) fwd

def bckChunk : Option Nat :=
  if isFree c m base then some (loadLink c m (base + 3 * c.word)) else none

def setBckChunk (bck : Nat) : Memory := storeLink c m (base + 3 * c.word) bck

def dataPtr : Nat := base + 2 * c.word

end PTChunk

structure SimHeapPTMalloc where
  memory : Words.Memory
  freeHeadChunk : Option Nat

namespace SimHeapPTMalloc

open PTChunk

variable (c : HeapConfig) (self : SimHeapPTMalloc)

def chunkMinSize : Nat := 4 * c.word

def chunkAlignMask : Nat := 2 * c.word - 1

/-- There is one chunk at first, free and alone in the free list. -/
def initState (memory : Words.Memory) : SimHeapPTMalloc :=
  let freeBase :=
    if c.heapBase &&& chunkAlignMask c ≠ 0 then
      andNot c.heapBase (chunkAlignMask c) + chunkAlignMask c + 1
    else c.heapBase
  let m := storeWord c memory (freeBase + c.word)
    (andNot (c.heapSize - 2 * c.word) (chunkAlignMask c) ||| CHUNK_P_MASK)
  let m := setFinalFreeness c m true
  let m := setFwdChunk c m freeBase freeBase
  let m := setBckChunk c m freeBase freeBase
  { memory := m, freeHeadChunk := some freeBase }

def chunkFromMem (ptr : Nat) : Option Nat := if ptr ≠ 0 then some (ptr - 2 * c.word) else none

/-- Walk on while the next chunk is between the current one and the given one. -/
def findBckBelow (chunk : Nat) : (fuel cur fwd : Nat) → Option Nat
  | 0, _, _ => none
  | fuel + 1, cur, fwd =>
    if cur < fwd ∧ fwd < chunk then do
      let next ← fwdChunk c self.memory fwd
      findBckBelow chunk fuel fwd next
    else some cur

/-- Walk on to the chunk before the head. -/
def findBckLast (head : Nat) : (fuel cur fwd : Nat) → Option Nat
  | 0, _, _ => none
  | fuel + 1, cur, fwd =>
    if fwd ≠ head then do
      let next ← fwdChunk c self.memory fwd
      findBckLast head fuel fwd next
    else some cur

/-- The outer `none` is a failure, the inner one an empty free list. -/
def findBck (chunk : Nat) : Option (Option Nat) :=
  match self.freeHeadChunk with
  | none => some none
  | some cur => do
    let fwd ← fwdChunk c self.memory cur
    if cur = fwd then some (some cur)
    else if cur < chunk then (findBckBelow c self chunk (c.heapSize + 1) cur fwd).map some
    else (findBckLast c self cur (c.heapSize + 1) cur fwd).map some

def makeChunkSize (reqSize : Nat) : Nat :=
  let size := max (reqSize + 2 * c.word) (chunkMinSize c)
  if size &&& chunkAlignMask c ≠ 0 then andNot size (chunkAlignMask c) + chunkAlignMask c + 1
  else size

/-- Allocate the front of a free chunk; the rest stays free in its place. -/
def splitChunk (chunk size freeSize : Nat) : Option (SimHeapPTMalloc × Nat) := do
  let bck ← bckChunk c self.memory chunk
  let fwd ← fwdChunk c self.memory chunk
  let rem := chunk + size
  let m := setSize c self.memory rem (freeSize - size) (some true)
  let m := setPrevFreeness c m rem false
  let head := if self.freeHeadChunk = some chunk then some rem else self.freeHeadChunk
  let m := setSize c m chunk size none
  let m :=
    if chunk = bck ∧ chunk = fwd then setFwdChunk c (setBckChunk c m rem rem) rem rem
    else
      let m := setBckChunk c m rem bck
      let m := setFwdChunk c m rem fwd
      let m := setFwdChunk c m bck rem
      setBckChunk c m fwd rem
  return ({ memory := m, freeHeadChunk := head }, dataPtr c chunk)

/-- Allocate all of a free chunk. -/
def takeChunk (chunk : Nat) : Option (SimHeapPTMalloc × Nat) := do
  let fwd ← fwdChunk c self.memory chunk
  let bck ← bckChunk c self.memory chunk
  let self :=
    if bck = fwd ∧ chunk = fwd then { self with freeHeadChunk := none }
    else
      let head := if self.freeHeadChunk = some chunk then some fwd else self.freeHeadChunk
      let m := setFwdChunk c self.memory bck fwd
      { memory := setBckChunk c m fwd bck, freeHeadChunk := head }
  return ({ self with memory := setFreeness c self.memory chunk false }, dataPtr c chunk)

/-- The first chunk of the free list that is large enough is used. -/
def mallocLoop (size : Nat) : (fuel freeChunk : Nat) → Option (SimHeapPTMalloc × Nat)
  | 0, _ => none
  | fuel + 1, freeChunk =>
    let freeSize := getSize c self.memory freeChunk
    if freeSize < size then do
      let fwd ← fwdChunk c self.memory freeChunk
      if fwd ≤ freeChunk then some (self, 0) else mallocLoop size fuel fwd
    else if size < freeSize ∧ chunkMinSize c ≤ freeSize - size then
      splitChunk c self freeChunk size freeSize
    else takeChunk c self freeChunk

def malloc (simSize : Nat) : Option (SimHeapPTMalloc × Nat) :=
  match self.freeHeadChunk with
  | none => some (self, 0)
  | some freeChunk => mallocLoop c self (makeChunkSize c simSize) (c.heapSize + 1) freeChunk

/-- Both neighbours are in use: the chunk is put into the free list. -/
def freeAlone (chunk size : Nat) : Option SimHeapPTMalloc := do
  let m := setFreeness c self.memory chunk true
  let m := setSize c m chunk size none
  match ← findBck c { self with memory := m } chunk with
  | none =>
    let m := setBckChunk c m chunk chunk
    let m := setFwdChunk c m chunk chunk
    return { memory := m, freeHeadChunk := some chunk }
  | some bck =>
    let fwd ← fwdChunk c m bck
    let m := setFwdChunk c m bck chunk
    let m := setBckChunk c m fwd chunk
    let m := setBckChunk c m chunk bck
    let m := setFwdChunk c m chunk fwd
    let head ← self.freeHeadChunk
    return { memory := m, freeHeadChunk := some (min head chunk) }

/-- Both neighbours are free: the three chunks become one, at the base of the first. -/
def freeBetween (chunk size next : Nat) : Option SimHeapPTMalloc := do
  let prev ← prevChunk c self.memory chunk
  let m := setSize c self.memory prev
    (getSize c self.memory prev + size + getSize c self.memory next) none
  let nextFwd ← fwdChunk c m next
  let m := setFwdChunk c m prev nextFwd
  let m := setBckChunk c m nextFwd prev
  return { self with memory := m }

/-- What is done to the new chunk when the chunk is merged with one of its neighbours. -/
def mergeInto (base newSize bck fwd : Nat) : SimHeapPTMalloc :=
  let m := setSize c self.memory base newSize none
  let m := setBckChunk c m base bck
  let m := setFwdChunk c m base fwd
  let m := setFwdChunk c m bck base
  let m := setBckChunk c m fwd base
  let m := setFreeness c m base true
  { self with memory := setSize c m base newSize none }

def freeIntoPrev (chunk size : Nat) : Option SimHeapPTMalloc := do
  let base ← prevChunk c self.memory chunk
  let newSize := size + getSize c self.memory base
  let bck ← bckChunk c self.memory base
  let fwd ← fwdChunk c self.memory base
  return mergeInto c self base newSize bck fwd

def freeIntoNext (chunk size next : Nat) : Option SimHeapPTMalloc := do
  let newSize := size + getSize c self.memory next
  let bck ← bckChunk c self.memory next
  let fwd ← fwdChunk c self.memory next
  let head ← self.freeHeadChunk
  let self := { self with freeHeadChunk := some (min head chunk) }
  if bck = fwd ∧ bck = next then return mergeInto c self chunk newSize chunk chunk
  else return mergeInto c self chunk newSize bck fwd

def free (ptr : Nat) : Option SimHeapPTMalloc :=
  match chunkFromMem c ptr with
  | none => some self
  | some chunk =>
    if isFree c self.memory chunk then some self
    else
      let size := getSize c self.memory chunk
      let pInUse := !isPrevFree c self.memory chunk
      let freeNext := (nextChunk c self.memory chunk).filter fun n => isFree c self.memory n
      match freeNext with
      | none => if pInUse then freeAlone c self chunk size else freeIntoPrev c self chunk size
      | some next =>
        if pInUse then freeIntoNext c self chunk size next
        else freeBetween c self chunk size next

/-- The product is taken in the machine's words. -/
def calloc (simNmemb simSize : Nat) : Option (SimHeapPTMalloc × Nat) := do
  let size := simNmemb * simSize % 256 ^ c.word
  let (self, addr) ← malloc c self size
  if addr = 0 then return (self, 0)
  else if size ≠ 0 then return ({ self with memory := Words.fill self.memory addr size 0 }, addr)
  else return (self, addr)

/-- Shrink a chunk; what is behind it is made a chunk and freed. -/
def shrink (chunk oldSize newSize : Nat) : Option (SimHeapPTMalloc × Nat) :=
  let m := setSize c self.memory chunk newSize (some false)
  match nextChunk c m chunk with
  | some newNext => do
    let m := setSize c m newNext (oldSize - newSize) (some false)
    let m := setPrevFreeness c m newNext false
    let self ← free c { self with memory := m } (dataPtr c newNext)
    return (self, dataPtr c chunk)
  | none => some ({ self with memory := m }, dataPtr c chunk)

def realloc (ptr size : Nat) : Option (SimHeapPTMalloc × Nat) :=
  match chunkFromMem c ptr with
  | none => malloc c self size
  | some chunk =>
    if size = 0 then (free c self ptr).map fun self => (self, 0)
    else
      let oldSize := getSize c self.memory chunk
      let newSize := makeChunkSize c size
      if oldSize < newSize then do
        let (self, newDataPtr) ← malloc c self size
        if newDataPtr = 0 then return (self, 0)
        else
          let oldDataPtr := dataPtr c chunk
          let m := Words.copy self.memory newDataPtr oldDataPtr (oldSize - 2 * c.word)
          let self ← free c { self with memory := m } oldDataPtr
          return (self, newDataPtr)
      else if newSize < oldSize ∧ chunkMinSize c ≤ oldSize - newSize then
        shrink c self chunk oldSize newSize
      else some (self, dataPtr c chunk)

end SimHeapPTMalloc

end Angr
